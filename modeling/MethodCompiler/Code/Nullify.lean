import MethodCompiler.Code.Statement
import MethodCompiler.Error

/-!
# Clearing ranges of registers

A `nullify` statement clears all registers between its two operands. Adjacent statements whose
ranges follow each other are merged into one.
-/

namespace MethodCompiler

namespace Statement

/-- The first and last register that a `nullify` clears. -/
def clearedRange? (s : Statement) : Except RangeFault (Nat × Nat) :=
  match s.operands with
  | [.register first _, .register last _] =>
    if last < first then .error .descending else .ok (first, last)
  | _ => .error .notRegisters

/-- The statement with its second operand replaced. -/
def withLast (s : Statement) (operand : Operand) : Statement :=
  { s with operands := s.operands.set 1 operand }

end Statement

/-- Check the range of every `nullify` of the code from `position` on. -/
def checkNullify (position : Nat) : List Statement → Except Error Unit
  | [] => .ok ()
  | s :: rest => do
    if s.op == .nullify then
      let _ ← s.clearedRange?.mapError (.malformedNullify position)
    checkNullify (position + 1) rest

/-- Merge the code from `position` on, where `last` is the statement before it, with the last register
that it clears if it is a `nullify`. Register numbers have 32 bits, and the number after the last one
is zero. -/
def mergeNullifyFrom (position : Nat) (last : Option (Statement × Option Nat)) :
    List Statement → Except Error (List Statement)
  | [] => .ok (last.elim [] ([·.1]))
  | s :: rest =>
    let done := last.elim [] ([·.1])
    if s.op == .nullify then
      match s.clearedRange? with
      | .error fault => .error (.malformedNullify position fault)
      | .ok (first, stop) =>
        match last with
        | some (previous, some previousStop) =>
          if first == (previousStop + 1) % UInt32.size then
            let merged := previous.withLast (s.operands.getD 1 .null)
            mergeNullifyFrom (position + 1) (some (merged, some stop)) rest
          else return done ++ (← mergeNullifyFrom (position + 1) (some (s, some stop)) rest)
        | _ => return done ++ (← mergeNullifyFrom (position + 1) (some (s, some stop)) rest)
    else return done ++ (← mergeNullifyFrom (position + 1) (some (s, none)) rest)

/-- Merge adjacent `nullify` statements that clear registers one after the other. -/
def mergeNullify (code : List Statement) : Except Error (List Statement) :=
  mergeNullifyFrom 0 none code

end MethodCompiler
