import MethodCompiler.Code.Opcode
import MethodCompiler.Span

/-!
# Reasons for which a method cannot be compiled

Each reason carries what its message names. The first four concern a construct of the tree and know
its position; the others concern code.
-/

namespace MethodCompiler

/-- The part of a protected region that control is in. -/
inductive Phase where
  | inTry
  | inCatch
  | inFinally
  deriving DecidableEq, Repr, Inhabited

/-- The name of a phase in messages. -/
def Phase.name : Phase → String
  | inTry => "Try"
  | inCatch => "Catch"
  | inFinally => "Finally"

/-- What is wrong with the nesting of protected regions. -/
inductive RegionFault where
  | malformedDescriptor
  | missingEnd
  | missingHandler
  | lateCatch (label : String) (phase : Phase)
  | repeatedFinally (label : String)
  | earlyEnd (label : String)
  | foreignLabel (label : String)
  | strayEndFinally
  | unclosed
  | endFinallyOutside
  | leaveOutside
  deriving DecidableEq, Repr, Inhabited

def RegionFault.message : RegionFault → String
  | malformedDescriptor => "malformed try descriptor"
  | missingEnd => "try without an end label"
  | missingHandler => "try without catch or finally"
  | lateCatch label phase => "catch label '" ++ label ++ "' after " ++ phase.name ++ " phase"
  | repeatedFinally label => "finally label '" ++ label ++ "' crossed twice"
  | earlyEnd label => "end label '" ++ label ++ "' reached before endfinally"
  | foreignLabel label => "label '" ++ label ++ "' does not belong to the innermost region"
  | strayEndFinally => "endfinally outside of a finally block"
  | unclosed => "region never closed"
  | endFinallyOutside => "endfinally outside of a region"
  | leaveOutside => "leave without a region to exit"

/-- What is wrong with a range of registers to clear. -/
inductive RangeFault where
  | notRegisters
  | descending
  deriving DecidableEq, Repr, Inhabited

def RangeFault.message : RangeFault → String
  | notRegisters => "endpoints must be registers"
  | descending => "descending register range"

/-- Why a method cannot be compiled. -/
inductive Error where
  /-- The machine has no code for the construct. -/
  | unsupported (construct : String) (span : Span)
  | unknownSymbol (name : String) (span : Span)
  | nonLiteralConstant (name : String) (span : Span)
  /-- `break` or `continue` without a construct to leave. -/
  | noEnclosingTarget (keyword : String) (span : Span)
  | unresolvedLabel (label : String)
  | duplicateLabel (label : String)
  /-- A label where a number must stand. -/
  | labelOperand (op : Opcode) (index : Nat)
  | regionMismatch (index : Nat) (fault : RegionFault)
  | regionCrossingBranch (op : Opcode) (index : Nat)
  | registerExhausted (function : String) (limit : Nat)
  | malformedNullify (index : Nat) (fault : RangeFault)
  | arity (op : Opcode) (expected found : Nat)
  deriving DecidableEq, Repr, Inhabited

namespace Error

/-- The position of the construct at fault, where the reason concerns one. -/
def span? : Error → Option Span
  | unsupported _ span | unknownSymbol _ span | nonLiteralConstant _ span
  | noEnclosingTarget _ span => some span
  | _ => none

def message : Error → String
  | unsupported construct _ => "unsupported construct: " ++ construct
  | unknownSymbol name _ => "unknown symbol '" ++ name ++ "'"
  | nonLiteralConstant name _ => "constant '" ++ name ++ "' requires a literal initializer"
  | noEnclosingTarget keyword _ => "'" ++ keyword ++ "' outside of a loop or switch"
  | unresolvedLabel label => "unresolved label '" ++ label ++ "'"
  | duplicateLabel label => "label '" ++ label ++ "' is defined more than once"
  | labelOperand op index =>
    "label operand in '" ++ op.mnemonic ++ "' at instruction " ++ toString index
  | regionMismatch index fault =>
    "region stack mismatch at instruction " ++ toString index ++ ": " ++ fault.message
  | regionCrossingBranch op index =>
    "'" ++ op.mnemonic ++ "' at instruction " ++ toString index ++
      " branches out of a protected region"
  | registerExhausted function limit =>
    "function '" ++ function ++ "' needs more than " ++ toString limit ++ " registers"
  | malformedNullify index fault =>
    "malformed nullify range at instruction " ++ toString index ++ ": " ++ fault.message
  | arity op expected found =>
    "statement '" ++ op.mnemonic ++ "' expects " ++ toString expected ++ " operands, found " ++
      toString found

end Error

/-- A reason together with the function whose compilation it ended. -/
structure FunctionError where
  function : String
  cause : Error
  deriving DecidableEq, Repr, Inhabited

def FunctionError.message (e : FunctionError) : String :=
  "in function '" ++ e.function ++ "': " ++ e.cause.message

end MethodCompiler
