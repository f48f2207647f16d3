import MethodCompiler.Error

/-!
# Diagnostics

What is reported of an error: its message and position, notes, and advice where there is some.
-/

namespace MethodCompiler

/-- A report of an error. -/
structure Diagnostic where
  message : String
  span : Span
  notes : List String := []
  help : Option String := none
  deriving DecidableEq, Repr, Inhabited

namespace Diagnostic

/-- Advice on an error. -/
def helpFor? : Error → Option String
  | .registerExhausted _ _ =>
    some "split the method or narrow local scopes so fewer values are live at once"
  | _ => none

/-- The rule that an error breaks. -/
def noteFor? : Error → Option String
  | .regionCrossingBranch _ _ =>
    some "only unconditional jumps may leave a try, catch or finally block"
  | _ => none

/-- The report of an error in a function. -/
def ofFunctionError (e : FunctionError) : Diagnostic where
  message := e.cause.message
  span := e.cause.span?.getD Span.none
  notes := (noteFor? e.cause).toList ++ ["while compiling '" ++ e.function ++ "'"]
  help := helpFor? e.cause

/-- The lines of a report that shows no source text. -/
def lines (d : Diagnostic) : List String :=
  ("error: " ++ d.message) :: (d.notes.map ("  = note: " ++ ·)) ++
    d.help.toList.map ("  = help: " ++ ·)

end Diagnostic

end MethodCompiler
