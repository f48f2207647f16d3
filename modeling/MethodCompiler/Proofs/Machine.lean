import Mathlib.Logic.Function.Basic
import MethodCompiler.Code.Statement

/-!
# Running code

A machine that runs statements one after the other over a store of cells. What the opcodes compute,
when conditional branches are taken and what a called method does come from outside; the machine fixes
the order of the statements, which cells they read and write, and how calls collect their arguments.
-/

namespace MethodCompiler

/-- What an operand can read and write in place. -/
inductive Cell where
  | register (r : Nat)
  | input (slot : UInt32)
  /-- A field of `this`. -/
  | field (index : UInt32)
  deriving DecidableEq, Repr

/-- The cell that an operand stands for. -/
def Operand.cell? : Operand → Option Cell
  | register r _ => some (.register r)
  | input slot _ => some (.input slot)
  | field index _ => some (.field index)
  | _ => none

/-- A cell as an operand. -/
def Cell.operand (c : Cell) (ty : Ty) : Operand :=
  match c with
  | register r => .register r ty
  | input slot => .input slot ty
  | field index => .field index ty

/-- The operand of a cell has this cell. -/
@[simp]
theorem Cell.cell?_operand (c : Cell) (ty : Ty) : (c.operand ty).cell? = some c := by
  cases c <;> rfl

/-- The calls that were made, in order, each with the values of its arguments. -/
abbrev Trace (V : Type) := List (UInt32 × List V)

/-- What a call does, after the calls made before: the result of a method for its arguments and the
fields that it finds, and the fields that it leaves. -/
abbrev Invoke (V : Type) :=
  Trace V → UInt32 → List V → (UInt32 → V) → V × (UInt32 → V)

/-- The instructions of a machine. -/
structure Machine (V : Type) where
  immediate : Value → V
  /-- The value of an operand that is neither a cell nor an immediate. -/
  constant : Operand → V
  compute : Opcode → List V → V
  /-- Whether a conditional branch is taken. -/
  taken : Opcode → List V → Bool
  invoke : Invoke V

/-- What a machine works on. -/
structure Store (V : Type) where
  cells : Cell → V
  /-- The arguments that are pushed for the next call. -/
  arguments : List V
  calls : Trace V

/-- Opcodes that compute their first operand from the values of the others. -/
def Opcode.isComputation : Opcode → Bool
  | add | sub | mul | div | mod | neg | and | or | xor | shl | shr | bitNot | not | eq | ne | lt | le
  | gt | ge => true
  | _ => false

/-- Control runs past a computation. -/
theorem Opcode.not_exit_of_isComputation {op : Opcode} (h : op.isComputation = true) :
    op.isUnconditionalExit = false := by
  cases op <;> first | rfl | cases h

/-- Control may run past a conditional branch. -/
theorem Opcode.not_exit_of_isConditionalBranch {op : Opcode} (h : op.isConditionalBranch = true) :
    op.isUnconditionalExit = false := by
  cases op <;> first | rfl | cases h

variable {V : Type}

namespace Store

/-- Replace the content of the cell that an operand stands for. -/
def write (σ : Store V) (dst : Operand) (v : V) : Store V :=
  match dst.cell? with
  | some c => { σ with cells := Function.update σ.cells c v }
  | none => σ

def push (σ : Store V) (v : V) : Store V := { σ with arguments := σ.arguments ++ [v] }

/-- The fields of `this`. -/
def fields (σ : Store V) (index : UInt32) : V := σ.cells (.field index)

/-- The store with other fields. -/
def withFields (σ : Store V) (fields : UInt32 → V) : Store V :=
  { σ with cells := fun
      | .field index => fields index
      | c => σ.cells c }

end Store

/-! ### Positions -/

/-- The labels that code defines. -/
def labelsOf (code : List Statement) : List String := code.filterMap Statement.label?

/-- The labels of two parts are those of the one and then those of the other. -/
@[simp]
theorem labelsOf_append (a b : List Statement) : labelsOf (a ++ b) = labelsOf a ++ labelsOf b :=
  List.filterMap_append

/-- The label of the statement at a position. -/
def labelAt? (code : List Statement) (position : Nat) : Option String :=
  (code[position]?).bind Statement.label?

/-- The first position of a label. -/
def labelPosition? (code : List Statement) (l : String) : Option Nat :=
  code.findIdx? (·.label? == some l)

/-- In code that defines no label twice, a label is found where it stands. -/
private theorem labelPosition?_eq_some {code : List Statement} {k : Nat} {l : String}
    (hd : (labelsOf code).Nodup) (h : labelAt? code k = some l) : labelPosition? code l = some k := by
  unfold labelAt? at h
  unfold labelPosition?
  induction code generalizing k with
  | nil => simp at h
  | cons s rest ih =>
    rw [List.findIdx?_cons]
    cases k with
    | zero =>
      have hs : s.label? = some l := by simpa using h
      rw [hs, beq_self_eq_true, if_pos rfl]
    | succ k =>
      rw [List.getElem?_cons_succ] at h
      by_cases hs : s.label? = some l
      · -- the same label would stand here and in the rest
        exfalso
        have hmem : l ∈ labelsOf rest := by
          obtain ⟨t, ht, htl⟩ := Option.bind_eq_some_iff.mp h
          exact List.mem_filterMap.mpr ⟨t, List.mem_of_getElem? ht, htl⟩
        rw [labelsOf, List.filterMap_cons_some hs] at hd
        exact (List.nodup_cons.mp hd).1 hmem
      · have hrest : (labelsOf rest).Nodup := by
          rw [labelsOf, List.filterMap_cons] at hd
          split at hd
          · exact hd
          · exact (List.nodup_cons.mp hd).2
        rw [beq_eq_false_iff_ne.mpr hs, if_neg (by decide), ih hrest h]
        rfl

/-- A label that is found stands where it is found. -/
theorem labelAt?_of_labelPosition? {code : List Statement} {k : Nat} {l : String}
    (h : labelPosition? code l = some k) : labelAt? code k = some l := by
  obtain ⟨hlt, hlabel, -⟩ := List.findIdx?_eq_some_iff_getElem.mp h
  rw [labelAt?, List.getElem?_eq_getElem hlt]
  exact eq_of_beq hlabel

/-- In code that defines no label twice, a label stands in one place. -/
theorem labelAt?_inj {code : List Statement} {i j : Nat} {l : String} (hd : (labelsOf code).Nodup)
    (hi : labelAt? code i = some l) (hj : labelAt? code j = some l) : i = j := by
  have h := labelPosition?_eq_some hd hi
  rw [labelPosition?_eq_some hd hj] at h
  exact (Option.some.inj h).symm

/-- Control does not run past the end of the code. -/
def Closed (code : List Statement) : Prop :=
  code.getLast?.any (·.op.isUnconditionalExit) = true

/-- Control runs past no code. -/
theorem not_closed_nil : ¬Closed [] := by
  unfold Closed
  decide

/-- What is added to code that control can run past ends in an exit if the whole does. -/
theorem closed_of_append {a b : List Statement} (h : Closed (a ++ b)) (ha : ¬Closed a) :
    Closed b := by
  cases hb : b.getLast? with
  | none =>
    rw [List.getLast?_eq_none_iff.mp hb, List.append_nil] at h
    exact absurd h ha
  | some s =>
    rw [Closed, List.getLast?_append, hb] at h
    rw [Closed, hb]
    exact h

/-- Control can run past two parts if it can run past each. -/
theorem not_closed_append {a b : List Statement} (ha : ¬Closed a) (hb : ¬Closed b) :
    ¬Closed (a ++ b) := fun h ↦ hb (closed_of_append h ha)

/-- Control can run past code whose last statement is no exit. -/
theorem not_closed_concat {a : List Statement} {s : Statement}
    (h : s.op.isUnconditionalExit = false) : ¬Closed (a ++ [s]) := by
  rw [Closed, List.getLast?_append]
  simp [h]

/-- A statement before closed code leaves it closed. -/
theorem closed_cons {s : Statement} {rest : List Statement} (h : Closed rest) : Closed (s :: rest) := by
  cases rest with
  | nil => exact absurd h not_closed_nil
  | cons t rest => rwa [Closed, List.getLast?_cons_cons]

/-- Closed code is closed behind its first statement, or consists of an exit. -/
theorem closed_of_cons {s : Statement} {rest : List Statement} (h : Closed (s :: rest)) :
    Closed rest ∨ rest = [] ∧ s.op.isUnconditionalExit = true := by
  cases rest with
  | nil => exact .inr ⟨rfl, by simpa [Closed] using h⟩
  | cons t rest => exact .inl (by rwa [Closed, List.getLast?_cons_cons] at h)

/-- An exit is closed by itself. -/
theorem closed_singleton {s : Statement} (h : s.op.isUnconditionalExit = true) : Closed [s] := by
  simpa [Closed] using h

/-- Whether code is closed depends only on its opcodes. -/
theorem closed_congr {a b : List Statement} (h : a.map (·.op) = b.map (·.op)) (ha : Closed a) :
    Closed b := by
  have hlast := congrArg (fun ops ↦ ops.getLast?.any Opcode.isUnconditionalExit) h
  simp only [List.getLast?_map, Option.any_map] at hlast
  exact hlast.symm.trans ha

/-- Statements stand in code from a position on. -/
def CodeAt (code : List Statement) (position : Nat) (part : List Statement) : Prop :=
  ∀ i, i < part.length → code[position + i]? = part[i]?

namespace CodeAt

variable {code a b : List Statement} {position : Nat} {s : Statement}

/-- Code stands at its own start. -/
theorem refl (code : List Statement) : CodeAt code 0 code := by
  intro i _
  rw [Nat.zero_add]

/-- The first statement of a part stands at its position. -/
theorem head (h : CodeAt code position (s :: a)) : code[position]? = some s := by
  simpa using h 0 (by simp)

/-- The first of two parts stands where both do. -/
theorem left (h : CodeAt code position (a ++ b)) : CodeAt code position a := by
  intro i hi
  rw [h i (by rw [List.length_append]; omega), List.getElem?_append_left hi]

/-- The second of two parts stands behind the first. -/
theorem right (h : CodeAt code position (a ++ b)) : CodeAt code (position + a.length) b := by
  intro i hi
  rw [Nat.add_assoc, h (a.length + i) (by rw [List.length_append]; omega),
    List.getElem?_append_right (by omega), Nat.add_sub_cancel_left]

/-- A part without its first statement stands one position later. -/
theorem tail (h : CodeAt code position (s :: a)) : CodeAt code (position + 1) a :=
  CodeAt.right (a := [s]) h

/-- The first statement of a part is a part. -/
theorem single (h : CodeAt code position (s :: a)) : CodeAt code position [s] :=
  CodeAt.left (a := [s]) h

/-- A part that starts with a label defines it at its position. -/
theorem labelAt {l : String} (h : CodeAt code position (.label l :: a)) :
    labelAt? code position = some l := by
  rw [labelAt?, h.head]
  rfl

end CodeAt

/-! ### Steps -/

/-- A position in the code and what has been computed. -/
abbrev Config (V : Type) := Nat × Store V

namespace Machine

/-- The value of an operand. -/
def read (M : Machine V) (σ : Store V) (operand : Operand) : V :=
  match operand with
  | .immediate v => M.immediate v
  | _ => match operand.cell? with
    | some c => σ.cells c
    | none => M.constant operand

/-- Call a method with the arguments that are pushed. -/
def call (M : Machine V) (σ : Store V) (method : UInt32) : V × Store V :=
  let answer := M.invoke σ.calls method σ.arguments σ.fields
  (answer.1, { σ.withFields answer.2 with
    arguments := [], calls := σ.calls ++ [(method, σ.arguments)] })

/-- Run the statement at the current position. The run ends where there is none, and at `return` and
`trap`. -/
def step (M : Machine V) (code : List Statement) (c : Config V) : Option (Config V) := do
  let s ← code[c.1]?
  let next (σ : Store V) : Config V := (c.1 + 1, σ)
  let goTo (l : String) : Option (Config V) := (labelPosition? code l).map (·, c.2)
  if s.op.isComputation then
    let dst ← s.operands.head?
    some (next (c.2.write dst (M.compute s.op (s.operands.tail.map (M.read c.2)))))
  else if s.op.isConditionalBranch then
    let l ← s.operands.getLast?.bind Operand.label?
    if M.taken s.op (s.operands.dropLast.map (M.read c.2)) then goTo l else some (next c.2)
  else match s.op, s.operands with
    | .label, _ => some (next c.2)
    | .move, [dst, src] => some (next (c.2.write dst (M.read c.2 src)))
    | .arg, [v] => some (next (c.2.push (M.read c.2 v)))
    | .call, [dst, .immediate (.method m)] =>
      some (next ((M.call c.2 m).2.write dst (M.call c.2 m).1))
    | .callVoid, [.immediate (.method m)] => some (next (M.call c.2 m).2)
    | .jump, [.label l] => goTo l
    | _, _ => none

/-- A run from one configuration to another in a number of steps. -/
inductive Runs (M : Machine V) (code : List Statement) : Nat → Config V → Config V → Prop
  | refl (c : Config V) : Runs M code 0 c c
  | head {n : Nat} {c d e : Config V} :
      M.step code c = some d → Runs M code n d e → Runs M code (n + 1) c e

/-- A run of at least so many steps. -/
def Reaches (M : Machine V) (code : List Statement) (n : Nat) (c d : Config V) : Prop :=
  ∃ k, n ≤ k ∧ M.Runs code k c d

namespace Reaches

variable {M : Machine V} {code : List Statement} {m n : Nat} {c d e : Config V}

/-- A configuration is reached from itself. -/
theorem refl (c : Config V) : M.Reaches code 0 c c := ⟨0, Nat.le_refl 0, .refl c⟩

private theorem single (h : M.step code c = some d) : M.Reaches code 1 c d :=
  ⟨1, Nat.le_refl 1, .head h (.refl d)⟩

/-- A run goes on from where another has come to, and takes the steps of both. -/
theorem trans (h₁ : M.Reaches code m c d) (h₂ : M.Reaches code n d e) :
    M.Reaches code (m + n) c e := by
  obtain ⟨i, hi, h₁⟩ := h₁
  obtain ⟨j, hj, h₂⟩ := h₂
  refine ⟨i + j, Nat.add_le_add hi hj, ?_⟩
  clear hi
  induction h₁ with
  | refl c => rwa [Nat.zero_add]
  | head hs _ ih =>
    rw [Nat.add_right_comm]
    exact .head hs (ih h₂)

/-- A run of many steps is a run of at least as few. -/
theorem weaken (h : M.Reaches code n c d) (hmn : m ≤ n) : M.Reaches code m c d := by
  obtain ⟨k, hk, h⟩ := h
  exact ⟨k, Nat.le_trans hmn hk, h⟩

/-- Runs one after the other, without a count. -/
theorem andThen (h₁ : M.Reaches code 0 c d) (h₂ : M.Reaches code 0 d e) : M.Reaches code 0 c e :=
  h₁.trans h₂

end Reaches

/-- Wherever the statements stand in code without repeated labels, a run of them from the first to
past the last takes one store to the other. -/
def Executes (M : Machine V) (part : List Statement) (σ τ : Store V) : Prop :=
  ∀ code position, (labelsOf code).Nodup → CodeAt code position part →
    M.Reaches code 0 (position, σ) (position + part.length, τ)

/-- Wherever the statements stand in code without repeated labels, a run of them ends at the label if
`go` holds, else past the last. -/
def Branches (M : Machine V) (part : List Statement) (target : String) (go : Bool) (σ τ : Store V) :
    Prop :=
  ∀ code position k, (labelsOf code).Nodup → CodeAt code position part →
    labelAt? code k = some target →
    M.Reaches code 0 (position, σ) (if go then k else position + part.length, τ)

section Parts

variable {M : Machine V} {a b : List Statement} {σ τ ρ : Store V} {target : String} {go : Bool}

/-! ### Parts of code -/

/-- No code changes nothing. -/
theorem Executes.nil (σ : Store V) : M.Executes [] σ σ := fun _ _ _ _ ↦ .refl _

/-- Two parts are executed one after the other. -/
theorem Executes.append (h₁ : M.Executes a σ τ) (h₂ : M.Executes b τ ρ) :
    M.Executes (a ++ b) σ ρ := by
  intro code position hd hat
  rw [List.length_append, ← Nat.add_assoc]
  exact (h₁ code position hd hat.left).andThen (h₂ code _ hd hat.right)

/-- A statement that is not the target of any branch inside it, by its single step. -/
theorem Executes.single {s : Statement}
    (h : ∀ code position, code[position]? = some s → M.step code (position, σ) = some (position + 1, τ)) :
    M.Executes [s] σ τ :=
  fun code position _ hat ↦ (Reaches.single (h code position hat.head)).weaken (Nat.zero_le 1)

/-- A label takes a step. -/
theorem Reaches.label {code : List Statement} {position : Nat} {l : String}
    (h : CodeAt code position [.label l]) (σ : Store V) :
    M.Reaches code 1 (position, σ) (position + 1, σ) := by
  apply Reaches.single
  rw [step, h.head]
  rfl

/-- A label changes nothing. -/
theorem Executes.label (l : String) (σ : Store V) : M.Executes [.label l] σ σ :=
  fun _ _ _ hat ↦ (Reaches.label hat σ).weaken (Nat.zero_le 1)

/-- A `move` writes what it reads. -/
theorem Executes.move (dst src : Operand) (σ : Store V) :
    M.Executes [.of .move [dst, src]] σ (σ.write dst (M.read σ src)) := by
  apply Executes.single
  intro code position h
  rw [step, h]
  rfl

/-- An `arg` pushes what it reads. -/
theorem Executes.arg (v : Operand) (σ : Store V) :
    M.Executes [.of .arg [v]] σ (σ.push (M.read σ v)) := by
  apply Executes.single
  intro code position h
  rw [step, h]
  rfl

/-- A call writes the result of the method. -/
theorem Executes.call (dst : Operand) (m : UInt32) (σ : Store V) :
    M.Executes [.of .call [dst, .immediate (.method m)]] σ
      ((M.call σ m).2.write dst (M.call σ m).1) := by
  apply Executes.single
  intro code position h
  rw [step, h]
  rfl

/-- A call without a result takes only the effect of the method. -/
theorem Executes.callVoid (m : UInt32) (σ : Store V) :
    M.Executes [.of .callVoid [.immediate (.method m)]] σ (M.call σ m).2 := by
  apply Executes.single
  intro code position h
  rw [step, h]
  rfl

/-- A computation writes what it makes of the operands that it reads. -/
theorem Executes.compute {op : Opcode} (hop : op.isComputation = true) (dst : Operand)
    (operands : List Operand) (σ : Store V) :
    M.Executes [.of op (dst :: operands)] σ
      (σ.write dst (M.compute op (operands.map (M.read σ)))) := by
  apply Executes.single
  intro code position h
  simp [step, h, Statement.of, hop]

/-- A branch after other code goes where the branch goes. -/
theorem Branches.after (h₁ : M.Executes a σ τ) (h₂ : M.Branches b target go τ ρ) :
    M.Branches (a ++ b) target go σ ρ := by
  intro code position k hd hat hk
  rw [List.length_append, ← Nat.add_assoc]
  exact (h₁ code position hd hat.left).andThen (h₂ code _ k hd hat.right hk)

/-- A conditional branch goes to its target if it is taken. -/
theorem Branches.conditional {op : Opcode} (hop : op.isConditionalBranch = true)
    (operands : List Operand) (target : String) (σ : Store V) :
    M.Branches [.of op (operands ++ [Operand.label target])] target
      (M.taken op (operands.map (M.read σ))) σ σ := by
  intro code position k hd hat hk
  have hs := hat.head
  have hc : op.isComputation = false := by cases op <;> first | rfl | cases hop
  refine (Reaches.single ?_).weaken (Nat.zero_le 1)
  rw [step, hs]
  simp only [bind, Option.bind, Statement.of, hc, hop, Bool.false_eq_true, if_false, if_true,
    List.getLast?_concat, List.dropLast_concat, Operand.label?, labelPosition?_eq_some hd hk,
    Option.map_some]
  split <;> rfl

/-- A jump goes to its target. -/
theorem Branches.jump (target : String) (σ : Store V) :
    M.Branches [.jump target] target true σ σ := by
  intro code position k hd hat hk
  refine (Reaches.single ?_).weaken (Nat.zero_le 1)
  rw [step, hat.head]
  show (labelPosition? code target).map _ = _
  rw [labelPosition?_eq_some hd hk]
  rfl

/-- Two ways to a label, one after the other. -/
theorem Branches.either {first second : Bool} (h₁ : M.Branches a target first σ τ)
    (h₂ : first = false → M.Branches b target second τ ρ) :
    M.Branches (a ++ b) target (first || second) σ (if first then τ else ρ) := by
  intro code position k hd hat hk
  have hfirst := h₁ code position k hd hat.left hk
  cases first with
  | true => exact hfirst
  | false =>
    rw [List.length_append, ← Nat.add_assoc]
    exact hfirst.andThen (h₂ rfl code _ k hd hat.right hk)

/-- A way to a label that a branch past it can skip. -/
theorem Branches.unless {past go : Bool} {skip : String} (h₁ : M.Branches a skip past σ τ)
    (h₂ : past = false → M.Branches b target go τ ρ) :
    M.Branches (a ++ (b ++ [Statement.label skip])) target (!past && go) σ
      (if past then τ else ρ) := by
  intro code position k hd hat hk
  have hskip : CodeAt code (position + a.length + b.length) [.label skip] := hat.right.right
  have hend (υ : Store V) := Executes.label (M := M) skip υ code _ hd hskip
  have hfirst := h₁ code position _ hd hat.left hskip.labelAt
  simp only [List.length_append, ← Nat.add_assoc]
  cases past with
  | true => exact hfirst.andThen (hend τ)
  | false =>
    have hsecond := h₂ rfl code _ k hd hat.right.left hk
    cases go with
    | true => exact hfirst.andThen hsecond
    | false => exact hfirst.andThen (hsecond.andThen (hend ρ))

/-- A choice between two parts: the second is entered by a label, the first jumps past it. -/
theorem Executes.choice {c : List Statement} {other done : String}
    (h : M.Branches a other go σ τ) (h₁ : go = false → M.Executes b τ ρ)
    (h₂ : go = true → M.Executes c τ ρ) :
    M.Executes (a ++ (b ++ (Statement.jump done :: Statement.label other ::
      (c ++ [Statement.label done])))) σ ρ := by
  intro code position hd hat
  have hb := hat.right
  have hjump := hb.right
  have hother : CodeAt code (position + a.length + b.length + 1)
      (Statement.label other :: (c ++ [Statement.label done])) := hjump.tail
  have hc := hother.tail
  have hdone : CodeAt code (position + a.length + b.length + 1 + 1 + c.length) [.label done] :=
    hc.right
  have hbranch := h code position _ hd hat.left hother.labelAt
  have hend := Executes.label (M := M) done ρ code _ hd hdone
  simp only [List.length_append, List.length_cons, List.length_nil, ← Nat.add_assoc]
  rw [show position + a.length + b.length + c.length + 0 + 1 + 1 + 1 =
    position + a.length + b.length + 1 + 1 + c.length + 1 by omega]
  cases go with
  | false =>
    have hjump := Branches.jump (M := M) done ρ code _ _ hd hjump.single hdone.labelAt
    exact hbranch.andThen ((h₁ rfl code _ hd hb.left).andThen (hjump.andThen hend))
  | true =>
    have hother := Executes.label (M := M) other τ code _ hd hother.single
    exact hbranch.andThen (hother.andThen ((h₂ rfl code _ hd hc.left).andThen hend))

/-- A branch that is not taken runs to its end. -/
theorem Branches.fall (target : String) (σ : Store V) : M.Branches [] target false σ σ :=
  fun _ _ _ _ _ _ ↦ .refl _

end Parts

/-! ### Cells -/

section Cells

variable {M : Machine V} {σ : Store V} {dst o : Operand} {c : Cell} {v : V}

/-- An operand with a cell is read from it. -/
theorem read_of_cell (h : o.cell? = some c) : M.read σ o = σ.cells c := by
  cases o <;> simp_all [read, Operand.cell?]

/-- An operand without a cell reads the same in every store. -/
theorem read_of_no_cell {τ : Store V} (h : o.cell? = none) : M.read σ o = M.read τ o := by
  cases o <;> simp_all [read, Operand.cell?]

/-- Equal contents of its cell give equal values of an operand. -/
theorem read_congr {τ : Store V} (h : ∀ c, o.cell? = some c → σ.cells c = τ.cells c) :
    M.read σ o = M.read τ o := by
  cases hc : o.cell? with
  | none => exact read_of_no_cell hc
  | some c => rw [read_of_cell hc, read_of_cell hc, h c hc]

/-- A write changes the cell of its destination only. -/
theorem cells_write (h : dst.cell? = some c) :
    (σ.write dst v).cells = Function.update σ.cells c v := by
  simp [Store.write, h]

/-- A write makes no call. -/
@[simp]
theorem calls_write : (σ.write dst v).calls = σ.calls := by
  unfold Store.write
  split <;> rfl

/-- A write leaves the pushed arguments as they are. -/
@[simp]
theorem arguments_write : (σ.write dst v).arguments = σ.arguments := by
  unfold Store.write
  split <;> rfl

/-- What has been written to an operand is read from it. -/
theorem read_write_self (h : dst.cell? = some c) : M.read (σ.write dst v) dst = v := by
  rw [read_of_cell h, cells_write h, Function.update_self]

/-- Writing a cell with its own content changes nothing. -/
theorem write_of_cell (h : dst.cell? = some c) : σ.write dst (σ.cells c) = σ := by
  simp [Store.write, h]

/-- Copying the value of an operand does not change it, wherever it goes. -/
theorem read_write_read : M.read (σ.write dst (M.read σ o)) o = M.read σ o := by
  apply read_congr
  intro c hc
  cases hd : dst.cell? with
  | none => simp [Store.write, hd]
  | some d =>
    rw [cells_write hd]
    by_cases h : c = d
    · subst h
      rw [Function.update_self, read_of_cell hc]
    · rw [Function.update_of_ne h]

end Cells

end Machine

end MethodCompiler
