import MethodCompiler.Code.Labels
import MethodCompiler.Code.Nullify
import MethodCompiler.Options

/-!
# Final places of statements

Labels are dropped and every reference to one becomes a number: a branch holds the distance to its
target, a `try` and a constant hold the target's position. Statements that control cannot reach may
be dropped too.
-/

namespace MethodCompiler

/-- Statements in their final places, and where each label points. -/
structure Placement where
  statements : List Statement := []
  /-- A label that is defined again counts from its last definition. -/
  positions : List (String × Nat) := []
  deriving Repr, Inhabited

namespace Placement

/-- Place the statements of `code` after `next` others. After an unconditional exit all statements up
to the next label are dead; they are dropped when `strip` is set, or when the compiler added them by
itself. -/
def ofCode (strip : Bool) (next : Nat) (dead : Bool) : List Statement → Placement
  | [] => {}
  | s :: rest =>
    match s.label? with
    | some name =>
      let p := ofCode strip next false rest
      { p with positions := (name, next) :: p.positions }
    | none =>
      if dead && (strip || s.synthetic) then ofCode strip next dead rest
      else
        let p := ofCode strip (next + 1) (dead || s.op.isUnconditionalExit) rest
        { p with statements := s :: p.statements }

/-- The position that a label points to. -/
def resolve (p : Placement) (label : String) : Except Error Nat :=
  match p.positions.reverse.find? (·.1 == label) with
  | some (_, i) => .ok i
  | none => .error (.unresolvedLabel label)

/-- A value with its labels replaced by positions. -/
def resolveValue (p : Placement) (v : Value) : Except Error Value :=
  v.resolve fun label ↦ return .i32 (Int32.ofNat (← p.resolve label))

/-- An operand of the statement at a position, with its labels replaced by numbers. -/
def resolveOperand (p : Placement) (op : Opcode) (position : Nat) :
    Operand → Except Error Operand
  | .label name => do
    let target ← p.resolve name
    if op == .enterTry then return .int (Int32.ofNat target)
    else if op.isBranch then return .int (Int32.ofNat target - Int32.ofNat position)
    else throw (.labelOperand op position)
  | .immediate v => return .immediate (← p.resolveValue v)
  | operand => return operand

/-- The placed statements with all labels replaced. -/
def resolveStatements (p : Placement) : Except Error (List Statement) :=
  p.statements.zipIdx.mapM fun (s, i) ↦
    return { s with operands := ← s.operands.mapM (p.resolveOperand s.op i) }

end Placement

/-- Code and constants without labels. -/
structure PlacedCode where
  statements : List Statement
  constants : List Value
  deriving Repr, Inhabited

/-- Put the statements of a function into their final places. -/
def place (code : List Statement) (constants : List Value) (o : Options) :
    Except Error PlacedCode := do
  let code ← if o.mergeNullify then mergeNullify code
    else do
      checkNullify 0 code
      pure code
  let p := Placement.ofCode o.stripUnreachable 0 false code
  let statements ← p.resolveStatements
  let constants ← constants.mapM p.resolveValue
  return { statements, constants }

end MethodCompiler
