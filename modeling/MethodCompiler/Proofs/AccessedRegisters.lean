import MethodCompiler.Lowering.Basic

/-!
# Registers that statements access

A statement accesses the registers among its operands, and the register whose index is the first operand of
`reref`. `Owned` bounds the registers that a statement or an operand accesses, `Writable` those that an
operand can be written as.
-/

namespace MethodCompiler

variable {own : Nat → Prop} {n m : Nat}

/-! ### Operands -/

namespace Operand

variable {a : Operand}

/-- An operand that can be written where `n` registers are in use, and is one of `own` if it is a
register. -/
def Writable (own : Nat → Prop) (n : Nat) : Operand → Prop
  | .register r _ => own r ∧ r < n
  | .input _ _ | .field _ _ => True
  | _ => False

/-- An operand that is no register, or one in use and of `own`. -/
def Owned (own : Nat → Prop) (n : Nat) (a : Operand) : Prop :=
  ∀ r, a.register? = some r → own r ∧ r < n

/-- What can be written can be written also when more registers are in use. -/
theorem Writable.mono (h : a.Writable own n) (hle : n ≤ m) : a.Writable own m := by
  cases a with
  | register r ty => exact ⟨h.1, Nat.lt_of_lt_of_le h.2 hle⟩
  | _ => exact h

/-- An operand stays within the registers when more are in use. -/
theorem Owned.mono (h : a.Owned own n) (hle : n ≤ m) : a.Owned own m :=
  fun r hr ↦ ⟨(h r hr).1, Nat.lt_of_lt_of_le (h r hr).2 hle⟩

/-- A register that can be written is owned. -/
theorem Writable.owned (h : a.Writable own n) : a.Owned own n := by
  intro r hr
  cases a with
  | register r ty =>
    cases hr
    exact h
  | _ => cases hr

/-- An operand that is no register is within any registers. -/
theorem owned_of_register? (h : a.register? = none) : a.Owned own n := by
  intro r hr
  rw [h] at hr
  cases hr

end Operand

/-! ### Statements -/

namespace Statement

variable {s : Statement}

/-- The statement reads and writes only registers in use and of `own`. -/
def Owned (own : Nat → Prop) (n : Nat) (s : Statement) : Prop :=
  ∀ a ∈ s.accesses, own a.register ∧ a.register < n

/-- A statement stays within the registers when more are in use. -/
theorem Owned.mono (h : s.Owned own n) (hle : n ≤ m) : s.Owned own m :=
  fun a ha ↦ ⟨(h a ha).1, Nat.lt_of_lt_of_le (h a ha).2 hle⟩

/-- A statement writes only what it accesses. -/
theorem Owned.writes (h : s.Owned own n) : ∀ r ∈ s.writes, own r := by
  intro r hr
  obtain ⟨a, ha, rfl⟩ := List.mem_map.mp hr
  exact (h a (List.mem_filter.mp ha).1).1

/-- Only where an opcode rebinds its first operand does a statement touch registers that are no
operands. -/
theorem owned_of_operands (hop : s.op.output ≠ .rebind) (h : ∀ a ∈ s.operands, a.Owned own n) :
    s.Owned own n := by
  intro access haccess
  obtain ⟨⟨a, i⟩, hi, hat⟩ := List.mem_filterMap.mp haccess
  have ha : a ∈ s.operands := List.mem_of_getElem? (List.mk_mem_zipIdx_iff_getElem?.mp hi)
  cases a with
  | register r ty =>
    cases hat
    exact h _ ha r rfl
  | immediate v =>
    cases v with
    | registerIndex r =>
      simp only [accessAt] at hat
      split at hat
      · next hrebind => exact absurd (beq_iff_eq.mp (Bool.and_eq_true_iff.mp hrebind).1) hop
      · cases hat
    | _ => cases hat
  | _ => cases hat

/-- Rebinding accesses the destination and the source. -/
theorem owned_reref {dst src : Operand} (h : dst.Writable own n) (hsrc : src.Owned own n) :
    (Statement.of .reref [Lowering.rebindTarget dst, src]).Owned own n := by
  have hdst : ∀ access, accessAt .rebind 0 (Lowering.rebindTarget dst) = some access →
      own access.register ∧ access.register < n := by
    intro access hat
    cases dst with
    | register r ty =>
      cases hat
      exact h
    | input | field => cases hat
    | _ => exact h.elim
  have hread : ∀ access, accessAt .rebind 1 src = some access →
      own access.register ∧ access.register < n := by
    intro access hat
    cases src with
    | register r ty =>
      cases hat
      exact hsrc r rfl
    | immediate v =>
      cases v with
      | _ => cases hat
    | _ => cases hat
  intro access haccess
  obtain ⟨⟨a, i⟩, hi, hat⟩ := List.mem_filterMap.mp haccess
  obtain ⟨⟩ | ⟨_, ⟨⟩ | ⟨_, ⟨⟩⟩⟩ := hi
  · exact hdst access hat
  · exact hread access hat

/-- A statement without a destination writes nothing. -/
theorem writes_eq_nil (h : s.op.output = .none) : s.writes = [] := by
  have haccess : s.accesses.filter (·.access == .write) = [] := by
    refine List.filter_eq_nil_iff.mpr fun access haccess ↦ ?_
    obtain ⟨⟨a, i⟩, -, hat⟩ := List.mem_filterMap.mp haccess
    rw [h] at hat
    cases a with
    | register r ty =>
      cases hat
      rintro ⟨⟩
    | immediate v => cases v <;> cases hat
    | _ => cases hat
  rw [writes, haccess, List.map_nil]

/-- The register whose value a statement throws. -/
def thrown? (s : Statement) : Option Nat :=
  match s.op with
  | .throw => s.operands.head?.bind Operand.register?
  | _ => none

/-- No other statement throws. -/
theorem thrown?_of_ne (h : s.op ≠ .throw) : s.thrown? = none := by
  unfold thrown?
  split
  · next hop => exact absurd hop h
  · rfl

end Statement

end MethodCompiler
