/-!
# Arguments of the command line

Options may stand anywhere among the arguments of a command. An option that takes a value has it in
the next argument, or attached to it; flags of one letter may share an argument. After `--` nothing
is an option. The first argument that cannot be used decides the outcome, and so does a request for
help or the version that comes before it.
-/

namespace MethodCompiler.CommandLine

/-- Why the arguments start no command. -/
inductive Stop where
  /-- The arguments cannot be used. -/
  | usage
  | help
  | version
  deriving DecidableEq, Repr, Inhabited

/-- What the arguments of a command say. -/
structure Arguments where
  verbose : Nat := 0
  quiet : Bool := false
  logLevel : Option String := none
  input : Option String := none
  config : Option String := none
  maxRegisters : Option Nat := none
  noStrip : Bool := false
  sequential : Bool := false
  comments : Bool := false
  output : Option String := none
  deriving DecidableEq, Repr, Inhabited

/-- An option of a command. -/
structure OptionSpec where
  long : String
  short : Option Char := none
  takesValue : Bool := false
  /-- Record the option with its value, which is empty for a flag. -/
  set : Arguments → String → Except Stop Arguments

/-- Record something that may be said only once. -/
def once {α : Type} (said : Bool) (a : α) : Except Stop α := if said then .error .usage else .ok a

/-- Record a value that may be given only once and must not be empty. -/
def oncePath {α : Type} (said : Bool) (path : String) (a : α) : Except Stop α :=
  once (said || path.isEmpty) a

/-- The number that some text writes: decimal digits after an optional plus sign, within 64 bits. -/
def natural? (s : String) : Option Nat :=
  let ds := match s.toList with
    | '+' :: ds => ds
    | ds => ds
  if ds.isEmpty || !ds.all Char.isDigit then none
  else
    let n := ds.foldl (fun n c ↦ n * 10 + (c.toNat - 48)) 0
    if n < UInt64.size then some n else none

/-- The names of the log levels. -/
def logLevels : List String := ["error", "warn", "info", "debug", "trace"]

/-- The options that every command has. -/
def generalOptions : List OptionSpec := [
  { long := "verbose", short := some 'v'
    set := fun a _ ↦ .ok { a with verbose := a.verbose + 1 } },
  { long := "quiet", short := some 'q'
    set := fun a _ ↦ once a.quiet { a with quiet := true } },
  { long := "log-level", takesValue := true
    set := fun a level ↦
      once (a.logLevel.isSome || !logLevels.contains level) { a with logLevel := some level } },
  { long := "help", short := some 'h', set := fun _ _ ↦ .error .help }]

/-- The options that may stand before a command. -/
def programOptions : List OptionSpec :=
  generalOptions ++
    [{ long := "version", short := some 'V', set := fun _ _ ↦ .error .version }]

/-- The options of code generation. -/
def codegenOptions : List OptionSpec := generalOptions ++ [
  { long := "config", takesValue := true
    set := fun a path ↦ oncePath a.config.isSome path { a with config := some path } },
  { long := "max-registers", takesValue := true
    set := fun a n ↦
      match natural? n with
      | some n => once a.maxRegisters.isSome { a with maxRegisters := some n }
      | none => .error .usage },
  { long := "no-strip", set := fun a _ ↦ once a.noStrip { a with noStrip := true } },
  { long := "sequential", set := fun a _ ↦ once a.sequential { a with sequential := true } },
  { long := "comments", set := fun a _ ↦ once a.comments { a with comments := true } }]

/-- The options of a command that writes a file. -/
def outputOptions : List OptionSpec := codegenOptions ++ [
  { long := "output", short := some 'o', takesValue := true
    set := fun a path ↦ oncePath a.output.isSome path { a with output := some path } }]

/-- What one argument that starts with a dash has come to. -/
inductive Step where
  | done (a : Arguments)
  /-- The value of an option is still missing. -/
  | pending (a : Arguments) (option : OptionSpec)

/-- Take an option that is written out. -/
def longOption (options : List OptionSpec) (a : Arguments) (cs : List Char) :
    Except Stop Step := do
  let name := String.ofList (cs.takeWhile (· != '='))
  let attached := cs.dropWhile (· != '=')
  match options.find? (·.long == name), attached with
  | none, _ => throw .usage
  | some o, [] => if o.takesValue then return .pending a o else return .done (← o.set a "")
  | some o, _ :: value =>
    if o.takesValue then return .done (← o.set a (String.ofList value)) else throw .usage

/-- Take options of one letter each. The first that takes a value has the rest for it. -/
def shortOptions (options : List OptionSpec) (a : Arguments) : List Char → Except Stop Step
  | [] => .ok (.done a)
  | c :: rest =>
    match options.find? (·.short == some c) with
    | none => .error .usage
    | some o =>
      if o.takesValue then
        match rest with
        | [] => .ok (.pending a o)
        | '=' :: value => do return .done (← o.set a (String.ofList value))
        | value => do return .done (← o.set a (String.ofList value))
      else do shortOptions options (← o.set a "") rest

/-- The argument is an option, or the mark after which there are none. -/
def isDashed (arg : String) : Bool := arg.startsWith "-" && arg != "-"

/-- Take an argument that is an option. -/
def takeOption (options : List OptionSpec) (a : Arguments) (arg : String) : Except Stop Step :=
  match arg.toList with
  | '-' :: '-' :: name => longOption options a name
  | _ :: letters => shortOptions options a letters
  | [] => .error .usage

/-- Take an argument that is no option: the input, of which there is one. -/
def takeInput (a : Arguments) (arg : String) : Except Stop Arguments :=
  oncePath a.input.isSome arg { a with input := some arg }

/-- Take all arguments of a command. -/
def takeAll (options : List OptionSpec) (a : Arguments) : List String → Except Stop Arguments
  | [] => .ok a
  | arg :: rest =>
    if arg == "--" then rest.foldlM takeInput a
    else if isDashed arg then
      match takeOption options a arg with
      | .error stop => .error stop
      | .ok (.done a) => takeAll options a rest
      | .ok (.pending a o) =>
        match rest with
        | [] => .error .usage
        | value :: rest =>
          if isDashed value then .error .usage
          else match o.set a value with
            | .error stop => .error stop
            | .ok a => takeAll options a rest
    else match takeInput a arg with
      | .error stop => .error stop
      | .ok a => takeAll options a rest

/-- What to do with a unit. -/
inductive Command where
  /-- Compile it to a file. -/
  | build
  /-- Show its code over virtual registers. -/
  | lower
  /-- Show its basic blocks. -/
  | blocks
  deriving DecidableEq, Repr, Inhabited

namespace Command

def ofName? : String → Option Command
  | "build" => some build
  | "lower" => some lower
  | "blocks" => some blocks
  | _ => none

def options : Command → List OptionSpec
  | build => outputOptions
  | lower | blocks => codegenOptions

end Command

/-- A command with its arguments. -/
structure Invocation where
  command : Command
  input : String
  arguments : Arguments
  deriving DecidableEq, Repr, Inhabited

/-- The command that a name and its arguments call. -/
def invoke (name : String) (args : List String) : Except Stop Invocation := do
  match Command.ofName? name with
  | none =>
    if name == "help" && args.all (fun arg ↦ arg == "help" || (Command.ofName? arg).isSome) &&
        args.length ≤ 1 then
      throw .help
    else throw .usage
  | some command =>
    let a ← takeAll command.options {} args
    match a.input with
    | none => throw .usage
    | some input => return { command, input, arguments := a }

/-- Take the options before a command, then the command. -/
def parseFrom (a : Arguments) : List String → Except Stop Invocation
  | [] => .error .usage
  | arg :: rest =>
    if arg == "--" then .error .usage
    else if isDashed arg then
      match takeOption programOptions a arg with
      | .error stop => .error stop
      | .ok (.done a) => parseFrom a rest
      | .ok (.pending a o) =>
        match rest with
        | [] => .error .usage
        | value :: rest =>
          if isDashed value then .error .usage
          else match o.set a value with
            | .error stop => .error stop
            | .ok a => parseFrom a rest
    else invoke arg rest

/-- The command that the arguments of the program call. -/
def parse (args : List String) : Except Stop Invocation := parseFrom {} args

end MethodCompiler.CommandLine
