import MethodCompiler.Code.Opcode
import MethodCompiler.Code.Value

/-!
# Statements

A statement is an opcode with its operands. Positions are marked by label statements, and branches
name the label they go to. Nothing fixes the number of operands: code is read by functions that look
at the operands they need, so a statement of the wrong shape has a meaning too.
-/

namespace MethodCompiler

/-- An operand of a statement. -/
inductive Operand where
  | immediate (value : Value)
  /-- A virtual register before slots are assigned, a slot of the frame after. -/
  | register (r : Nat) (ty : Ty)
  /-- An input slot; slot 0 receives the result of a method that has one. -/
  | input (slot : UInt32) (ty : Ty)
  /-- A field of `this`. -/
  | field (index : UInt32) (ty : Ty)
  /-- An entry of the function's constant pool. -/
  | constant (index : Nat)
  | this (ty : Ty)
  /-- The exception that a catch handler received. -/
  | exception
  /-- A place to go to, by its label. -/
  | label (name : String)
  deriving Repr, Inhabited

namespace Operand

/-- Equality of kind, content and type, with `Value.same` on immediates. -/
def same : Operand → Operand → Bool
  | immediate a, immediate b => a == b
  | register a t, register b u => a == b && t == u
  | input a t, input b u => a == b && t == u
  | field a t, field b u => a == b && t == u
  | constant a, constant b => a == b
  | this t, this u => t == u
  | exception, exception => true
  | label a, label b => a == b
  | _, _ => false

instance : BEq Operand := ⟨same⟩

/-- An immediate 32-bit integer. -/
def int (n : Int32) : Operand := immediate (.i32 n)

/-- The immediate null. -/
def null : Operand := immediate .null

def register? : Operand → Option Nat
  | register r _ => some r
  | _ => none

def label? : Operand → Option String
  | label name => some name
  | _ => none

def isLabel : Operand → Bool
  | label _ => true
  | _ => false

/-- The type of an operand, where it carries one. -/
def ty? : Operand → Option Ty
  | register _ ty | input _ ty | field _ ty | this ty => some ty
  | immediate v => v.ty?
  | exception => some .object
  | constant _ | label _ => none

/-- The operand can only be read. -/
def isConstant : Operand → Bool
  | immediate _ | constant _ | label _ => true
  | _ => false

/-- Renumber a register, also one that is named by an immediate index. -/
def mapRegister (f : Nat → Nat) : Operand → Operand
  | register r ty => register (f r) ty
  | immediate (.registerIndex r) => immediate (.registerIndex (f r))
  | operand => operand

end Operand

/-- An opcode with its operands. -/
structure Statement where
  op : Opcode
  operands : List Operand
  comment : Option String := none
  /-- The compiler added the statement by itself, for no construct of the tree. -/
  synthetic : Bool := false
  deriving Repr, Inhabited

/-- Whether a register is read or written. -/
inductive Access where
  | read
  | write
  deriving DecidableEq, Repr, Inhabited

/-- A register that a statement touches, with the operand that names it. -/
structure RegisterAccess where
  operand : Nat
  register : Nat
  access : Access
  deriving DecidableEq, Repr, Inhabited

namespace Statement

/-- A statement without comment. -/
def of (op : Opcode) (operands : List Operand) : Statement := { op, operands }

/-- The statement that marks the position `name`. -/
def label (name : String) : Statement := of .label [.label name]

def jump (target : String) : Statement := of .jump [.label target]

def leave : Statement := of .leave []

def isLabel (s : Statement) : Bool := s.op == .label

/-- The name that a label statement defines. -/
def label? (s : Statement) : Option String :=
  if s.isLabel then s.operands.head?.bind Operand.label? else none

/-- Only a label defines a label. -/
theorem label?_of_ne {s : Statement} (h : s.op ≠ .label) : s.label? = none := by
  rw [label?, isLabel, if_neg (by simpa using h)]

/-- A statement that defines a label is one. -/
theorem op_of_label? {s : Statement} {name : String} (h : s.label? = some name) :
    s.op = .label := by
  apply Decidable.byContradiction
  intro hne
  rw [label?_of_ne hne] at h
  cases h

/-- The label that a branch goes to: its last operand. -/
def target? (s : Statement) : Option String :=
  if s.op.isBranch then s.operands.getLast?.bind Operand.label? else none

/-- A statement with a target is a branch. -/
theorem isBranch_of_target? {s : Statement} {name : String} (h : s.target? = some name) :
    s.op.isBranch = true := by
  rw [target?] at h
  split at h
  · assumption
  · cases h

/-- How operand number `i` touches a register under an output rule, if it does. -/
def accessAt (output : Opcode.Output) (i : Nat) : Operand → Option RegisterAccess
  | .register r _ =>
    let written := match output with
      | .write => i == 0
      | .range => i ≤ 1
      | _ => false
    some ⟨i, r, if written then .write else .read⟩
  | .immediate (.registerIndex r) =>
    if output == .rebind && i == 0 then some ⟨0, r, .write⟩ else none
  | _ => none

/-- Every register that the statement reads or writes, in the order of its operands. -/
def accesses (s : Statement) : List RegisterAccess :=
  s.operands.zipIdx.filterMap fun (operand, i) ↦ accessAt s.op.output i operand

/-- The registers that the statement reads. -/
def reads (s : Statement) : List Nat :=
  (s.accesses.filter (·.access == .read)).map (·.register)

/-- The registers that the statement writes. -/
def writes (s : Statement) : List Nat :=
  (s.accesses.filter (·.access == .write)).map (·.register)

/-- Renumber every register of the statement. -/
def mapRegisters (f : Nat → Nat) (s : Statement) : Statement :=
  { s with operands := s.operands.map (·.mapRegister f) }

end Statement

end MethodCompiler
