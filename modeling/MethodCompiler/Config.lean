import MethodCompiler.Options
import MethodCompiler.Toml.Parser

/-!
# Options from a configuration file

The table `codegen` of a TOML document sets options; all it leaves out keep their defaults. An array
in its place gives the options in the order of their declaration. Everything else in the document is
ignored.
-/

namespace MethodCompiler

/-- Why a configuration cannot be used. -/
inductive ConfigError where
  /-- The text is no TOML document, or sets something unknown or of the wrong type. -/
  | malformed
  | registerLimit (n : Nat)
  deriving DecidableEq, Repr, Inhabited

/-- The text of a refused number of registers. -/
def registerLimitMessage (n : Nat) : String :=
  "max_registers must be between 1 and " ++ toString Options.registerCeiling ++ ", got " ++ toString n

namespace Options

/-- The options if their number of registers is one that the machine can have. -/
def validate (o : Options) : Except ConfigError Options :=
  if o.isValid then .ok o else .error (.registerLimit o.maxRegisters)

/-- What each setting does with its value, in the order of declaration. -/
def settings : List (String × (Options → Toml → Option Options)) := [
  ("max_registers", fun o v ↦ match v with
    | .int n => if 0 ≤ n then some { o with maxRegisters := n.toNat } else none
    | _ => none),
  ("strip_unreachable", fun o v ↦ match v with
    | .bool b => some { o with stripUnreachable := b }
    | _ => none),
  ("merge_nullify", fun o v ↦ match v with
    | .bool b => some { o with mergeNullify := b }
    | _ => none),
  ("parallel", fun o v ↦ match v with
    | .bool b => some { o with parallel := b }
    | _ => none),
  ("comments", fun o v ↦ match v with
    | .bool b => some { o with comments := b }
    | _ => none),
  ("entry_point", fun o v ↦ match v with
    | .string s => some { o with entryPoint := s }
    | _ => none)]

/-- The options that a value of `codegen` sets. -/
def ofToml? : Toml → Option Options
  | .table entries => entries.foldlM (fun o (name, v) ↦ do (← settings.lookup name) o v) {}
  | .array items => (items.zip settings).foldlM (fun o (v, _, set) ↦ set o v) {}
  | _ => none

/-- The options of a configuration text. -/
def ofConfig (text : String) : Except ConfigError Options :=
  match Toml.parse? text with
  | none => .error .malformed
  | some entries =>
    match entries.lookup "codegen" with
    | none => .ok {}
    | some v =>
      match ofToml? v with
      | none => .error .malformed
      | some o => o.validate

end Options

end MethodCompiler
