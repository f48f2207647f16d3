import MethodCompiler.SortedMap

/-!
# Functions of a module

A module knows its functions by number: those that it has bodies for, and those that only calls
mention.
-/

namespace MethodCompiler

/-- What a module knows of a function besides its number. -/
structure FunctionDecl where
  name : String
  /-- Only calls mention the function. -/
  implicit : Bool
  deriving DecidableEq, Repr, Inhabited

/-- The functions of a module by number. -/
abbrev FunctionTable := SortedMap FunctionDecl

namespace FunctionTable

/-- Declare a function. The first declaration under a number stays. -/
def declare (t : FunctionTable) (index : UInt32) (f : FunctionDecl) : FunctionTable :=
  if t.contains index then t else t.insert index f

end FunctionTable

end MethodCompiler
