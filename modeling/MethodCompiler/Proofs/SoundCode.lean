import MethodCompiler.Proofs.EmittedCode
import MethodCompiler.Proofs.Layout

/-!
# Sound code

Emitted statements name labels only as places to go to, and constants only as far as there are any;
jump tables hold labels, and no other constant does. Code stays sound when sound statements are added to
it, when a constant without labels is added, and when a jump table comes with the statement that goes
through it.
-/

namespace MethodCompiler

/-! ### Operands, statements and constants -/

/-- An operand that is data, where there are `n` constants: it is no label and holds none. -/
def Operand.Sound (n : Nat) : Operand → Prop
  | .label _ => False
  | .immediate v => v.hasLabel = false
  | .constant k => k < n
  | _ => True

/-- An operand stays sound when constants are added. -/
theorem Operand.Sound.mono {a : Operand} {m n : Nat} (h : a.Sound n) (hle : n ≤ m) : a.Sound m := by
  cases a with
  | constant k => exact Nat.lt_of_lt_of_le h hle
  | _ => exact h

/-- A value without labels is sound in place. -/
theorem Operand.sound_immediate {v : Value} {n : Nat} (h : v.hasLabel = false) :
    (Operand.immediate v).Sound n := h

/-- A constant of the pool is sound. -/
theorem Operand.sound_constant {k n : Nat} (h : k < n) : (Operand.constant k).Sound n := h

/-- Opcodes of statements whose operands are all data, and any data. -/
def Opcode.isPlain (op : Opcode) : Bool := op.isOrdinary && op != .nullify

/-- A table whose values are labels and whose keys hold none. -/
def Value.IsJumpTable (v : Value) : Prop :=
  ∃ key value entries, v = .table key value entries ∧
    ∀ e ∈ entries, e.1.hasLabel = false ∧ ∃ l, e.2 = .label l

namespace Statement

/-- The operands of a statement that are no places to go to. -/
def data (s : Statement) : List Operand :=
  match s.op with
  | .label | .enterTry => []
  | op => if op.isBranch then s.operands.dropLast else s.operands

private theorem data_of_isBranch {s : Statement} (h : s.op.isBranch = true) :
    s.data = s.operands.dropLast := by
  rw [data]
  split
  · next hop =>
    rw [hop] at h
    cases h
  · next hop =>
    rw [hop] at h
    cases h
  · rw [if_pos h]

/-- The constant that is the jump table of a `switch`. -/
def table? (s : Statement) : Option Nat :=
  match s.op, s.operands with
  | .switch, [_, .constant k] => some k
  | _, _ => none

/-- The operands of a statement fit its opcode and the constants, and exits are never added by the
compiler itself. -/
structure Formed (constants : List Value) (s : Statement) : Prop where
  data : ∀ a ∈ s.data, a.Sound constants.length
  label : s.op = .label → ∃ l, s.operands = [.label l]
  branch : s.op.isBranch = true → ∃ l, s.target? = some l
  handler : s.op = .enterTry →
    ∃ c f e, s.operands = [Lowering.optionalLabel c, Lowering.optionalLabel f, .label e]
  switch : s.op = .switch → ∃ k v, s.table? = some k ∧ constants[k]? = some v ∧ v.IsJumpTable
  exit : s.op.isUnconditionalExit = true → s.synthetic = false

/-- A statement that is well formed and clears one register at most. -/
structure Sound (constants : List Value) (s : Statement) : Prop extends Formed constants s where
  cleared : s.op = .nullify → ∃ r ty, s.operands = [.register r ty, .register r ty]

variable {constants constants' : List Value} {s : Statement} {n : Nat}

/-- Only a `switch` has a jump table, as its second operand. -/
theorem table?_eq_some {k : Nat} (h : s.table? = some k) :
    s.op = .switch ∧ ∃ value, s.operands = [value, .constant k] := by
  unfold table? at h
  split at h
  · next value k' hop hoperands =>
    cases h
    exact ⟨hop, value, hoperands⟩
  · cases h

/-- A `switch` leads where its jump table does. -/
theorem switchTargets_of_table? {k : Nat} {v : Value} (h : s.table? = some k)
    (hv : constants[k]? = some v) :
    FlowGraph.switchTargets s constants = FlowGraph.tableTargets v := by
  obtain ⟨-, value, hoperands⟩ := table?_eq_some h
  simp only [FlowGraph.switchTargets, hoperands, hv, Option.elim_some]

/-- An operand is data or the target of a branch, unless it belongs to a label or a descriptor. -/
theorem Formed.mem_data_or_target (h : s.Formed constants) (hlabel : s.op ≠ .label)
    (htry : s.op ≠ .enterTry) {a : Operand} (ha : a ∈ s.operands) :
    a ∈ s.data ∨ ∃ l, s.target? = some l ∧ a = .label l := by
  by_cases hbranch : s.op.isBranch = true
  · obtain ⟨l, htarget⟩ := h.branch hbranch
    have hlast := htarget
    rw [target?, if_pos hbranch] at hlast
    obtain ⟨b, hb, hl⟩ := Option.bind_eq_some_iff.mp hlast
    obtain ⟨init, hinit⟩ := List.getLast?_eq_some_iff.mp hb
    rw [hinit] at ha
    rcases List.mem_append.mp ha with ha | ha
    · left
      rwa [data_of_isBranch hbranch, hinit, List.dropLast_concat]
    · cases List.mem_singleton.mp ha
      cases a with
      | label name =>
        cases hl
        exact .inr ⟨l, htarget, rfl⟩
      | _ => cases hl
  · left
    rw [Statement.data]
    split
    · contradiction
    · contradiction
    · rwa [if_neg hbranch]

private theorem Sound.mono (h : s.Sound constants) (hsub : constants <+: constants') :
    s.Sound constants' :=
  { h with
    data := fun a ha ↦ (h.data a ha).mono hsub.length_le
    switch := fun hop ↦ by
      obtain ⟨k, v, hk, hv, htable⟩ := h.switch hop
      obtain ⟨rest, rfl⟩ := hsub
      exact ⟨k, v, hk, by rw [List.getElem?_append_left (List.getElem?_eq_some_iff.mp hv).1, hv],
        htable⟩ }

/-- A plain statement is sound if its operands are. -/
theorem sound_of_isPlain (hop : s.op.isPlain = true) (hexit : s.synthetic = false ∨ s.op = .trap)
    (h : ∀ a ∈ s.operands, a.Sound n) (hn : n ≤ constants.length) : s.Sound constants := by
  obtain ⟨op, operands, comment, synthetic⟩ := s
  refine ⟨⟨?_, ?_, ?_, ?_, ?_, ?_⟩, ?_⟩
  · intro a ha
    refine (h a ?_).mono hn
    revert ha
    cases op <;> first | exact id | cases hop
  · rintro rfl
    cases hop
  · intro hbranch
    revert hbranch hop
    cases op <;> nofun
  · rintro rfl
    cases hop
  · rintro rfl
    cases hop
  · rintro hop'
    rcases hexit with hexit | rfl
    · exact hexit
    · cases hop'
  · rintro rfl
    cases hop

/-- A branch with data in front of its target is sound. -/
theorem sound_of_isBranch {op : Opcode} {operands : List Operand} {l : String} (hop : op.isBranch = true)
    (h : ∀ a ∈ operands, a.Sound constants.length) :
    (Statement.of op (operands ++ [Operand.label l])).Sound constants := by
  refine ⟨⟨?_, ?_, ?_, ?_, ?_, ?_⟩, ?_⟩
  · intro a ha
    rw [data_of_isBranch hop] at ha
    exact h a (by simpa [Statement.of] using ha)
  · intro hlabel
    rw [show op = .label from hlabel] at hop
    cases hop
  · intro _
    exact ⟨l, by simp [target?, Statement.of, hop, Operand.label?]⟩
  · intro htry
    rw [show op = .enterTry from htry] at hop
    cases hop
  · intro hswitch
    rw [show op = .switch from hswitch] at hop
    cases hop
  · exact fun _ ↦ rfl
  · intro hnullify
    rw [show op = .nullify from hnullify] at hop
    cases hop

/-- A label is sound. -/
theorem sound_label (l : String) : (Statement.label l).Sound constants :=
  ⟨⟨List.forall_mem_nil _, fun _ ↦ ⟨l, rfl⟩, by rintro ⟨⟩, by rintro ⟨⟩, by rintro ⟨⟩, by rintro ⟨⟩⟩,
    by rintro ⟨⟩⟩

/-- A statement that clears one register is sound. -/
theorem sound_nullify (r : Nat) (ty : Ty) :
    (Statement.of .nullify [.register r ty, .register r ty]).Sound constants :=
  ⟨⟨List.forall_mem_cons.mpr ⟨trivial, List.forall_mem_singleton.mpr trivial⟩, by rintro ⟨⟩, by rintro ⟨⟩,
    by rintro ⟨⟩, by rintro ⟨⟩, by rintro ⟨⟩⟩, fun _ ↦ ⟨r, ty, rfl⟩⟩

/-- A statement that opens a region is sound. -/
theorem sound_enterTry (c f : Option String) (e : String) :
    (Statement.of .enterTry [Lowering.optionalLabel c, Lowering.optionalLabel f, .label e]).Sound constants :=
  ⟨⟨List.forall_mem_nil _, by rintro ⟨⟩, by rintro ⟨⟩, fun _ ↦ ⟨c, f, e, rfl⟩, by rintro ⟨⟩, by rintro ⟨⟩⟩,
    by rintro ⟨⟩⟩

end Statement

/-! ### Jump tables -/

/-- A constant that equals a jump table is one, as no other constant holds labels. -/
private theorem isJumpTable_of_same {v w : Value} (hsame : w.same v = true) (hv : v.IsJumpTable)
    (hw : w.hasLabel = false ∨ w.IsJumpTable) : w.IsJumpTable := by
  refine hw.elim (fun hw ↦ ?_) id
  obtain ⟨key, value, entries, rfl, hentries⟩ := hv
  cases w with
  | table key' value' entries' =>
    rw [Value.same, Bool.and_eq_true] at hsame
    refine ⟨key', value', entries', rfl, ?_⟩
    cases entries' with
    | nil => exact List.forall_mem_nil _
    | cons e' rest' =>
      -- the first entry would hold a label
      obtain ⟨k', v'⟩ := e'
      cases entries with
      | nil => cases hsame.2
      | cons e rest =>
        obtain ⟨k, v⟩ := e
        obtain ⟨-, l, hl⟩ := hentries _ List.mem_cons_self
        simp only at hl
        subst hl
        have hlabel := hsame.2
        rw [Value.sameEntries, Bool.and_eq_true, Bool.and_eq_true] at hlabel
        cases v' with
        | label l' =>
          rw [Value.hasLabel, Value.anyEntryHasLabel] at hw
          simp [Value.hasLabel] at hw
        | _ => cases hlabel.1.2
  | _ => cases hsame

mutual

/-- Equal constants lead to the same labels. -/
private theorem tableTargets_eq_of_same {a b : Value} (h : a.same b = true) :
    FlowGraph.tableTargets a = FlowGraph.tableTargets b := by
  cases a with
  | array e xs =>
    cases b with
    | array e' ys =>
      rw [Value.same, Bool.and_eq_true] at h
      exact itemTargets_eq_of_same h.2
    | _ => cases h
  | table k v xs =>
    cases b with
    | table k' v' ys =>
      rw [Value.same, Bool.and_eq_true] at h
      exact entryTargets_eq_of_same h.2
    | _ => cases h
  | label l =>
    cases b with
    | label l' =>
      rw [Value.same, beq_iff_eq] at h
      rw [h]
    | _ => cases h
  | _ => cases b <;> first | rfl | cases h

private theorem itemTargets_eq_of_same {xs ys : List Value} (h : Value.sameItems xs ys = true) :
    FlowGraph.itemTargets xs = FlowGraph.itemTargets ys := by
  cases xs with
  | nil =>
    cases ys with
    | nil => rfl
    | cons y ys => cases h
  | cons x xs =>
    cases ys with
    | nil => cases h
    | cons y ys =>
      rw [Value.sameItems, Bool.and_eq_true] at h
      rw [FlowGraph.itemTargets, FlowGraph.itemTargets, tableTargets_eq_of_same h.1,
        itemTargets_eq_of_same h.2]

private theorem entryTargets_eq_of_same {xs ys : List (Value × Value)}
    (h : Value.sameEntries xs ys = true) :
    FlowGraph.entryTargets xs = FlowGraph.entryTargets ys := by
  cases xs with
  | nil =>
    cases ys with
    | nil => rfl
    | cons y ys => cases h
  | cons x xs =>
    cases ys with
    | nil => cases h
    | cons y ys =>
      obtain ⟨k, v⟩ := x
      obtain ⟨k', v'⟩ := y
      rw [Value.sameEntries, Bool.and_eq_true, Bool.and_eq_true] at h
      rw [FlowGraph.entryTargets, FlowGraph.entryTargets, tableTargets_eq_of_same h.1.2,
        entryTargets_eq_of_same h.2]

end

/-! ### Code with its constants -/

/-- Statements that are sound with the constants, among which a jump table belongs to a statement. -/
structure SoundCode (code : List Statement) (constants : List Value) : Prop where
  statements : ∀ s ∈ code, s.Sound constants
  tables : ∀ (k : Nat) v, constants[k]? = some v →
    v.hasLabel = false ∨ v.IsJumpTable ∧ ∃ s ∈ code, s.table? = some k

namespace SoundCode

variable {code part : List Statement} {constants : List Value}

/-- There is no code yet. -/
theorem nil : SoundCode [] [] := ⟨List.forall_mem_nil _, fun _ _ h ↦ by cases h⟩

/-- Sound statements are added. -/
theorem append (h : SoundCode code constants) (hpart : ∀ s ∈ part, s.Sound constants) :
    SoundCode (code ++ part) constants where
  statements := List.forall_mem_append.mpr ⟨h.statements, hpart⟩
  tables k v hv := by
    refine (h.tables k v hv).imp_right fun htable ↦ ?_
    obtain ⟨htable, s, hs, hk⟩ := htable
    exact ⟨htable, s, List.mem_append_left _ hs, hk⟩

end SoundCode

namespace Lowering

variable {st : State} {k : Nat} {constants : List Value} {v : Value} {value : Operand}

/-- A constant without labels is added. -/
theorem Added.soundCode (hadd : Added v st k constants) (hv : v.hasLabel = false)
    (h : SoundCode st.bare st.constants) : SoundCode st.bare constants where
  statements s hs := (h.statements s hs).mono hadd.kept
  tables j w hw := by
    rcases hadd.others j w hw with hw | ⟨-, rfl⟩
    · exact h.tables j w hw
    · exact .inl hv

/-- A jump table is added, and the statement that goes through it. -/
theorem Added.soundCode_switch (hadd : Added v st k constants) (hv : v.IsJumpTable)
    (hvalue : value.Sound constants.length) (h : SoundCode st.bare st.constants) :
    SoundCode (st.bare ++ [Statement.of .switch [value, .constant k]]) constants where
  statements := by
    obtain ⟨w, hw, htable⟩ := hadd.entry
    have hjump : w.IsJumpTable := by
      rcases htable with rfl | ⟨hold, hsame⟩
      · exact hv
      · exact isJumpTable_of_same hsame hv ((h.tables k w hold).imp_right (·.1))
    refine List.forall_mem_append.mpr ⟨fun s hs ↦ (h.statements s hs).mono hadd.kept,
      List.forall_mem_singleton.mpr ⟨⟨?_, ?_, ?_, ?_, fun _ ↦ ⟨k, w, rfl, hw, hjump⟩, ?_⟩, ?_⟩⟩
    · exact List.forall_mem_cons.mpr ⟨hvalue, List.forall_mem_singleton.mpr
        (List.getElem?_eq_some_iff.mp hw).1⟩
    all_goals rintro ⟨⟩
  tables j u hu := by
    rcases hadd.others j u hu with hu | ⟨rfl, rfl⟩
    · refine (h.tables j u hu).imp_right fun htable ↦ ?_
      obtain ⟨htable, s, hs, hj⟩ := htable
      exact ⟨htable, s, List.mem_append_left _ hs, hj⟩
    · exact .inr ⟨hv, _, List.mem_append_right _ (List.mem_singleton_self _), rfl⟩

/-- A constant leads to the labels of the one that was added in its place. -/
theorem Added.tableTargets (hadd : Added v st k constants) :
    ∃ w, constants[k]? = some w ∧ FlowGraph.tableTargets w = FlowGraph.tableTargets v := by
  obtain ⟨w, hw, rfl | ⟨-, hsame⟩⟩ := hadd.entry
  · exact ⟨w, hw, rfl⟩
  · exact ⟨w, hw, tableTargets_eq_of_same hsame⟩

end Lowering

end MethodCompiler
