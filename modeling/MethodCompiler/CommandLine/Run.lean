import MethodCompiler.CommandLine.Arguments
import MethodCompiler.CommandLine.Path
import MethodCompiler.Config
import MethodCompiler.Diagnostic
import MethodCompiler.Flow.Printer
import MethodCompiler.Module.Unit
import MethodCompiler.Tree.Reader

/-!
# Commands

A command reads a unit and perhaps a configuration, and writes at most one file. How files are read
and written is left to the caller.
-/

namespace MethodCompiler.CommandLine

/-- How to reach files. -/
structure FileAccess (m : Type → Type) where
  isFile : String → m Bool
  /-- The text of a file, if it can be read. -/
  read? : String → m (Option String)
  /-- Write a file; the result says whether that was possible. -/
  write : String → String → m Bool

/-- What a run of the program leaves: its exit code, and the lines that it printed. -/
structure Outcome where
  code : Nat := 0
  stdout : List String := []
  stderr : List String := []
  deriving DecidableEq, Repr, Inhabited

/-- A run that failed with a message. -/
def failure (message : String) : Outcome := { code := 1, stderr := ["error: " ++ message] }

/-- A run that a compilation error ended. -/
def compileFailure (stdout : List String) (e : FunctionError) : Outcome :=
  { code := 1, stdout, stderr := (Diagnostic.ofFunctionError e).lines }

/-- A quoted path in a message. -/
def quotePath (path : String) : String := "'" ++ path ++ "'"

/-- The text of some lines, each with its line break. -/
def textOfLines (ls : List String) : String := String.join (ls.map (· ++ "\n"))

/-- The name of the configuration file that is looked for beside the input. -/
def configName : String := "regil.toml"

/-- The options in a configuration text, or what is wrong with it. -/
def readConfig (path text : String) : Except Outcome Options :=
  match Options.ofConfig text with
  | .ok o => .ok o
  | .error .malformed => .error (failure ("invalid config " ++ quotePath path))
  | .error (.registerLimit n) => .error (failure (registerLimitMessage n))

/-- Apply arguments on top of configured options. -/
def Arguments.apply (a : Arguments) (o : Options) : Options :=
  { o with
    maxRegisters := a.maxRegisters.getD o.maxRegisters
    stripUnreachable := o.stripUnreachable && !a.noStrip
    parallel := o.parallel && !a.sequential
    comments := o.comments || a.comments }

section

variable {m : Type → Type} [Monad m]

/-- The text of a file that must be readable. -/
def readFile (fs : FileAccess m) (path : String) : ExceptT Outcome m String := do
  match ← fs.read? path with
  | some text => return text
  | none => throw (failure ("cannot read " ++ quotePath path))

/-- The options of an invocation: those of the named configuration, or of the one beside the input if
there is one, and then those of the arguments. -/
def loadOptions (fs : FileAccess m) (i : Invocation) : ExceptT Outcome m Options := do
  let o ← match i.arguments.config with
    | some path => do ExceptT.mk (pure (readConfig path (← readFile fs path)))
    | none => do
      let path := Path.join (Path.directory i.input) configName
      if ← fs.isFile path then ExceptT.mk (pure (readConfig path (← readFile fs path)))
      else pure {}
  match (i.arguments.apply o).validate with
  | .ok o => return o
  | .error _ =>
    throw (failure (registerLimitMessage (i.arguments.apply o).maxRegisters))

/-- The unit of an invocation. -/
def loadUnit (fs : FileAccess m) (path : String) : ExceptT Outcome m SourceUnit := do
  match SourceUnit.parse? (← readFile fs path) path with
  | some u => return u
  | none => throw (failure ("invalid unit " ++ quotePath path))

/-- Compile a unit and write the module. -/
def build (fs : FileAccess m) (i : Invocation) (u : SourceUnit) (o : Options) :
    ExceptT Outcome m Outcome := do
  match u.compile o with
  | .error e => throw (compileFailure [] e)
  | .ok module =>
    let path := i.arguments.output.getD (Path.withExtension i.input "il")
    if ← fs.write path (textOfLines module.lines) then
      return { stderr := ["Compiled -> " ++ path] }
    else throw (failure ("cannot write " ++ quotePath path))

end

/-- The code of all methods with explicit region exits, in the order of their numbers. -/
def lowerMethods (symbols : SymbolTable) (o : Options) (functions : FunctionTable) :
    List Method → Except FunctionError (List LoweredFunction)
  | [] => .ok []
  | m :: rest => do
    let (lowered, functions) := lowerFunction m symbols o functions
    let f ← lowered.mapError fun cause ↦ { function := m.name, cause }
    return f :: (← lowerMethods symbols o functions rest)

def lowerUnit (u : SourceUnit) (o : Options) : Except FunctionError (List LoweredFunction) :=
  lowerMethods u.symbols o u.functionTable u.methodsByIndex

/-- Show the basic blocks of functions after the lines `shown`. -/
def showBlocks (shown : List String) : List LoweredFunction → Outcome
  | [] => { stdout := shown }
  | f :: rest =>
    match FlowGraph.build f.code f.constants with
    | .error cause => compileFailure shown { function := f.name, cause }
    | .ok g =>
      showBlocks (shown ++ (".function " ++ toString f.index.toNat ++ " " ++ f.name) :: g.lines f.code)
        rest

/-- What a command shows of a unit. -/
def inspect (command : Command) (u : SourceUnit) (o : Options) : Outcome :=
  match lowerUnit u o with
  | .error e => compileFailure [] e
  | .ok functions =>
    match command with
    | .blocks => showBlocks [] functions
    | _ => { stdout := functions.flatMap (·.lines) }

/-- Run a command. The options are settled before the unit is read. -/
def runInvocation {m : Type → Type} [Monad m] (fs : FileAccess m) (i : Invocation) : m Outcome := do
  let act : ExceptT Outcome m Outcome := do
    let o ← loadOptions fs i
    let u ← loadUnit fs i.input
    match i.command with
    | .build => build fs i u o
    | command => return inspect command u o
  match ← act.run with
  | .ok outcome | .error outcome => return outcome

/-- How the program is called. -/
def usage : List String := [
  "Usage: regil [OPTIONS] <COMMAND>",
  "",
  "Commands:",
  "  build   Compile a unit to IL text",
  "  lower   Print the lowered listing before packing and fixup",
  "  blocks  Print the basic blocks and edges of every function"]

/-- Run the program with some arguments. -/
def run {m : Type → Type} [Monad m] (fs : FileAccess m) (args : List String) : m Outcome :=
  match parse args with
  | .error .usage => return { code := 2, stderr := usage }
  | .error .help => return { stdout := usage }
  | .error .version => return { stdout := ["regil 0.1.0"] }
  | .ok i => runInvocation fs i

end MethodCompiler.CommandLine
