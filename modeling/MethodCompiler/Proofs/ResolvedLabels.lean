import MethodCompiler.Proofs.ClearedRegisters

/-!
# Labels that can be resolved

Placing code fails for three reasons only: a malformed range, a label that is named and not defined, and
a label in a statement that cannot go to it. Statements that are dropped do not count, and what is left
holds no label at any depth.
-/

namespace MethodCompiler

variable {strip dead : Bool} {code out : List Statement} {constants : List Value} {s : Statement}
  {i : Nat} {l : String}

/-! ### Labels in values -/

namespace Value

mutual

/-- The labels that a value names at any depth. -/
def namedLabels : Value → List String
  | label name => [name]
  | array _ items => itemLabels items
  | table _ _ entries => entryLabels entries
  | _ => []

def itemLabels : List Value → List String
  | [] => []
  | v :: rest => v.namedLabels ++ itemLabels rest

def entryLabels : List (Value × Value) → List String
  | [] => []
  | (k, v) :: rest => k.namedLabels ++ v.namedLabels ++ entryLabels rest

end

mutual

/-- The value with `f name` in place of each label, and all else as it is. -/
def mapLabels (f : String → Value) : Value → Value
  | label name => f name
  | array elem items => array elem (mapItems f items)
  | table key value entries => table key value (mapEntries f entries)
  | v => v

def mapItems (f : String → Value) : List Value → List Value
  | [] => []
  | v :: rest => v.mapLabels f :: mapItems f rest

def mapEntries (f : String → Value) : List (Value × Value) → List (Value × Value)
  | [] => []
  | (k, v) :: rest => (k.mapLabels f, v.mapLabels f) :: mapEntries f rest

end

variable {ε : Type} {f : String → Except ε Value} {g : String → Value}

mutual

/-- Where all labels of a value are known, each is replaced by what it stands for. -/
theorem resolveLabels_eq_map {v : Value} (h : ∀ l ∈ v.namedLabels, f l = .ok (g l)) :
    v.resolveLabels f = (none, v.mapLabels g) := by
  cases v with
  | label name =>
    rw [resolveLabels, h name List.mem_cons_self]
    rfl
  | array elem items => rw [resolveLabels, resolveItems_eq_map h, mapLabels]
  | table key value entries => rw [resolveLabels, resolveEntries_eq_map h, mapLabels]
  | _ => rfl

private theorem resolveItems_eq_map {items : List Value} (h : ∀ l ∈ itemLabels items, f l = .ok (g l)) :
    resolveItems f items = (none, mapItems g items) := by
  cases items with
  | nil => rfl
  | cons v rest =>
    rw [itemLabels, List.forall_mem_append] at h
    simp only [resolveItems, resolveLabels_eq_map h.1, resolveItems_eq_map h.2, mapItems]

private theorem resolveEntries_eq_map {entries : List (Value × Value)}
    (h : ∀ l ∈ entryLabels entries, f l = .ok (g l)) :
    resolveEntries f entries = (none, mapEntries g entries) := by
  cases entries with
  | nil => rfl
  | cons entry rest =>
    obtain ⟨k, v⟩ := entry
    rw [entryLabels, List.forall_mem_append, List.forall_mem_append] at h
    simp only [resolveEntries, resolveLabels_eq_map h.1.1, resolveLabels_eq_map h.1.2,
      resolveEntries_eq_map h.2, mapEntries]

end

mutual

/-- A value whose labels were all replaced names known labels only. -/
theorem exists_of_resolveLabels {v w : Value} (h : v.resolveLabels f = (none, w)) :
    ∀ l ∈ v.namedLabels, ∃ x, f l = .ok x := by
  cases v with
  | label name =>
    rw [resolveLabels] at h
    split at h
    · next x hx => exact List.forall_mem_singleton.mpr ⟨x, hx⟩
    · cases h
  | array elem items =>
    rw [resolveLabels] at h
    exact exists_of_resolveItems (Prod.ext (Prod.mk.inj h).1 rfl)
  | table key value entries =>
    rw [resolveLabels] at h
    exact exists_of_resolveEntries (Prod.ext (Prod.mk.inj h).1 rfl)
  | _ => exact List.forall_mem_nil _

private theorem exists_of_resolveItems {items items' : List Value}
    (h : resolveItems f items = (none, items')) : ∀ l ∈ itemLabels items, ∃ x, f l = .ok x := by
  cases items with
  | nil => exact List.forall_mem_nil _
  | cons v rest =>
    rw [resolveItems] at h
    split at h
    · cases h
    · next w hw =>
      exact List.forall_mem_append.mpr ⟨exists_of_resolveLabels hw,
        exists_of_resolveItems (Prod.ext (Prod.mk.inj h).1 rfl)⟩

private theorem exists_of_resolveEntries {entries entries' : List (Value × Value)}
    (h : resolveEntries f entries = (none, entries')) :
    ∀ l ∈ entryLabels entries, ∃ x, f l = .ok x := by
  cases entries with
  | nil => exact List.forall_mem_nil _
  | cons entry rest =>
    obtain ⟨k, v⟩ := entry
    rw [resolveEntries] at h
    split at h
    · cases h
    · next k' hk =>
      split at h
      · cases h
      · next v' hv =>
        exact List.forall_mem_append.mpr ⟨List.forall_mem_append.mpr
          ⟨exists_of_resolveLabels hk, exists_of_resolveLabels hv⟩,
          exists_of_resolveEntries (Prod.ext (Prod.mk.inj h).1 rfl)⟩

end

mutual

/-- A value has no labels once each is replaced by a value without any. -/
private theorem namedLabels_mapLabels (hg : ∀ l, (g l).namedLabels = []) (v : Value) :
    (v.mapLabels g).namedLabels = [] := by
  cases v with
  | label name => exact hg name
  | array elem items => exact itemLabels_mapItems hg items
  | table key value entries => exact entryLabels_mapEntries hg entries
  | _ => rfl

private theorem itemLabels_mapItems (hg : ∀ l, (g l).namedLabels = []) (items : List Value) :
    itemLabels (mapItems g items) = [] := by
  cases items with
  | nil => rfl
  | cons v rest =>
    rw [mapItems, itemLabels, namedLabels_mapLabels hg v, itemLabels_mapItems hg rest,
      List.append_nil]

private theorem entryLabels_mapEntries (hg : ∀ l, (g l).namedLabels = [])
    (entries : List (Value × Value)) : entryLabels (mapEntries g entries) = [] := by
  cases entries with
  | nil => rfl
  | cons entry rest =>
    obtain ⟨k, v⟩ := entry
    rw [mapEntries, entryLabels, namedLabels_mapLabels hg k, namedLabels_mapLabels hg v,
      entryLabels_mapEntries hg rest, List.append_nil, List.append_nil]

end

end Value

/-! ### Labels in statements -/

/-- The label that an operand is, or the labels that it names at any depth. -/
def Operand.namedLabels : Operand → List String
  | label name => [name]
  | immediate v => v.namedLabels
  | _ => []

/-- The labels that the operands of a statement name. -/
def Statement.namedLabels (s : Statement) : List String := s.operands.flatMap Operand.namedLabels

private theorem Statement.label?_of_namedLabels (h : s.namedLabels = []) : s.label? = none := by
  rw [label?]
  split
  · cases hhead : s.operands.head? with
    | none => rfl
    | some a =>
      have ha := List.flatMap_eq_nil_iff.mp h a (List.mem_of_mem_head? hhead)
      cases a with
      | label name => cases ha
      | _ => rfl
  · rfl

/-- The operand is a place to go to only where the opcode can go there. -/
def Operand.FitsOpcode (op : Opcode) (a : Operand) : Prop :=
  a.isLabel = true → op = .enterTry ∨ op.isBranch = true

namespace Placement

variable {p : Placement} {op : Opcode} {a b : Operand} {v w : Value}

/-- What stands for a label in values. -/
def number (p : Placement) (label : String) : Int32 :=
  Int32.ofNat ((p.resolve label).toOption.getD 0)

private theorem resolveValue_eq_ok :
    p.resolveValue v = .ok w ↔ (∀ l ∈ v.namedLabels, ∃ t, p.resolve l = .ok t) ∧
      w = v.mapLabels fun l ↦ .i32 (p.number l) := by
  have hfound {l : String} {t : Nat} (ht : p.resolve l = .ok t) :
      (do return Value.i32 (Int32.ofNat (← p.resolve l))) =
        (.ok (.i32 (p.number l)) : Except Error _) := by
    rw [number, ht]
    rfl
  -- the value is the same wherever all of its labels are found
  have heq (h : ∀ l ∈ v.namedLabels, ∃ t, p.resolve l = .ok t) :
      p.resolveValue v = .ok (v.mapLabels fun l ↦ .i32 (p.number l)) := by
    refine Value.resolve_eq_ok.mpr (Value.resolveLabels_eq_map fun l hl ↦ ?_)
    obtain ⟨t, ht⟩ := h l hl
    exact hfound ht
  constructor
  · intro h
    have hlabels (l : String) (hl : l ∈ v.namedLabels) : ∃ t, p.resolve l = .ok t := by
      obtain ⟨x, hx⟩ := Value.exists_of_resolveLabels (Value.resolve_eq_ok.mp h) l hl
      obtain ⟨t, ht, -⟩ := bind_eq_ok.mp hx
      exact ⟨t, ht⟩
    exact ⟨hlabels, Except.ok.inj (h.symm.trans (heq hlabels))⟩
  · rintro ⟨h, rfl⟩
    exact heq h

private theorem namedLabels_of_resolveValue (h : p.resolveValue v = .ok w) : w.namedLabels = [] := by
  rw [(resolveValue_eq_ok.mp h).2]
  exact Value.namedLabels_mapLabels (fun _ ↦ rfl) v

private theorem exists_resolveOperand_iff :
    (∃ b, p.resolveOperand op i a = .ok b) ↔
      (∀ l ∈ a.namedLabels, ∃ t, p.resolve l = .ok t) ∧ a.FitsOpcode op := by
  cases a with
  | label name =>
    simp only [Operand.namedLabels, List.forall_mem_singleton]
    constructor
    · rintro ⟨b, hb⟩
      obtain ⟨t, ht, hb⟩ := bind_eq_ok.mp hb
      refine ⟨⟨t, ht⟩, fun _ ↦ ?_⟩
      split at hb
      · next hop => exact .inl (eq_of_beq hop)
      · split at hb
        · next hop => exact .inr hop
        · cases hb
    · rintro ⟨ht, hop⟩
      refine exists_bind_ok ht fun t _ ↦ ?_
      rcases hop rfl with hop | hop
      · rw [if_pos (beq_iff_eq.mpr hop)]
        exact ⟨_, rfl⟩
      · rw [if_pos hop]
        split <;> exact ⟨_, rfl⟩
  | immediate v =>
    constructor
    · rintro ⟨b, hb⟩
      obtain ⟨w, hw, -⟩ := bind_eq_ok.mp hb
      refine ⟨(resolveValue_eq_ok.mp hw).1, fun h ↦ ?_⟩
      cases h
    · rintro ⟨h, -⟩
      exact exists_bind_ok ⟨_, resolveValue_eq_ok.mpr ⟨h, rfl⟩⟩ fun w _ ↦ ⟨_, rfl⟩
  | _ => simp [resolveOperand, Operand.namedLabels, Operand.FitsOpcode, Operand.isLabel, pure_eq_ok]

private theorem namedLabels_of_resolveOperand (h : p.resolveOperand op i a = .ok b) : b.namedLabels = [] := by
  cases a with
  | label name =>
    obtain ⟨t, -, h⟩ := bind_eq_ok.mp h
    split at h
    · cases h
      rfl
    · split at h
      · cases h
        rfl
      · cases h
  | immediate v =>
    obtain ⟨w, hw, h⟩ := bind_eq_ok.mp h
    cases h
    exact namedLabels_of_resolveValue hw
  | _ =>
    cases h
    rfl

private theorem exists_resolveStatements_iff :
    (∃ out, p.resolveStatements = .ok out) ↔
      ∀ s ∈ p.statements,
        (∀ l ∈ s.namedLabels, ∃ t, p.resolve l = .ok t) ∧ ∀ a ∈ s.operands, a.FitsOpcode s.op := by
  constructor
  · rintro ⟨out, hout⟩ s hs
    obtain ⟨i, hi⟩ := List.getElem?_of_mem hs
    have hmem : (s, i) ∈ p.statements.zipIdx := List.mem_zipIdx_iff_getElem?.mpr hi
    obtain ⟨s', -, hs'⟩ := (mem_mapM_ok hout).2 _ hmem
    obtain ⟨operands, hoperands, -⟩ := bind_eq_ok.mp hs'
    have hall (a : Operand) (ha : a ∈ s.operands) :
        (∀ l ∈ a.namedLabels, ∃ t, p.resolve l = .ok t) ∧ a.FitsOpcode s.op := by
      obtain ⟨b, -, hb⟩ := (mem_mapM_ok hoperands).2 a ha
      exact exists_resolveOperand_iff.mp ⟨b, hb⟩
    refine ⟨fun l hl ↦ ?_, fun a ha ↦ (hall a ha).2⟩
    obtain ⟨a, ha, hl⟩ := List.mem_flatMap.mp hl
    exact (hall a ha).1 l hl
  · intro h
    refine exists_mapM_ok fun e he ↦ ?_
    obtain ⟨s, i⟩ := e
    obtain ⟨hlabels, hfits⟩ := h s (List.fst_mem_of_mem_zipIdx he)
    refine exists_bind_ok (exists_mapM_ok fun a ha ↦ ?_) fun _ _ ↦ ⟨_, rfl⟩
    exact exists_resolveOperand_iff.mpr
      ⟨fun l hl ↦ hlabels l (List.mem_flatMap.mpr ⟨a, ha, hl⟩), hfits a ha⟩

private theorem namedLabels_of_resolveStatements (h : p.resolveStatements = .ok out) (hs : s ∈ out) :
    s.namedLabels = [] := by
  obtain ⟨⟨t, i⟩, -, ht⟩ := (mem_mapM_ok h).1 s hs
  obtain ⟨operands, hoperands, ht⟩ := bind_eq_ok.mp ht
  cases ht
  refine List.flatMap_eq_nil_iff.mpr fun b hb ↦ ?_
  obtain ⟨a, -, ha⟩ := (mem_mapM_ok hoperands).1 b hb
  exact namedLabels_of_resolveOperand ha

/-- A label can be resolved exactly if the code defines it. -/
theorem exists_resolve_iff (strip : Bool) :
    (∃ t, (ofCode strip 0 false code).resolve l = .ok t) ↔ l ∈ labelsOf code := by
  refine ⟨?_, exists_resolve⟩
  rintro ⟨t, ht⟩
  rw [resolve] at ht
  split at ht
  · next name t' hfind =>
    have hmem := List.mem_reverse.mp (List.mem_of_find?_eq_some hfind)
    have hname : name = l := by simpa using List.find?_some hfind
    rw [← map_fst_positions strip 0 false, ← hname]
    exact List.mem_map_of_mem hmem
  · cases ht

end Placement

/-! ### Statements that are kept -/

/-- No control comes to a position: an exit stands before it, and no label between the two. -/
def IsDead (code : List Statement) (i : Nat) : Prop :=
  ∃ j s, j < i ∧ code[j]? = some s ∧ s.op.isUnconditionalExit = true ∧
    ∀ k, j < k → k < i → labelAt? code k = none

/-- The statement at a position is kept: it defines no label, and if no control comes to it, it is neither
to be stripped nor added by the compiler itself. -/
structure KeptAt (strip : Bool) (code : List Statement) (i : Nat) (s : Statement) : Prop where
  found : code[i]? = some s
  plain : s.label? = none
  live : IsDead code i → strip = false ∧ s.synthetic = false

private theorem isDead_succ (h : code[i]? = some s) :
    IsDead code (i + 1) ↔
      s.label? = none ∧ (IsDead code i ∨ s.op.isUnconditionalExit = true) := by
  constructor
  · rintro ⟨j, t, hj, ht, hexit, hplain⟩
    rcases Nat.lt_succ_iff_lt_or_eq.mp hj with hj | rfl
    · refine ⟨?_, .inl ⟨j, t, hj, ht, hexit, fun k hk hki ↦ hplain k hk (Nat.lt_succ_of_lt hki)⟩⟩
      rw [← labelAt?_eq h]
      exact hplain i hj (Nat.lt_succ_self i)
    · obtain rfl : s = t := Option.some.inj (h.symm.trans ht)
      refine ⟨Statement.label?_of_ne fun hop ↦ ?_, .inr hexit⟩
      rw [hop] at hexit
      cases hexit
  · rintro ⟨hlabel, ⟨j, t, hj, ht, hexit, hplain⟩ | hexit⟩
    · refine ⟨j, t, Nat.lt_succ_of_lt hj, ht, hexit, fun k hk hki ↦ ?_⟩
      rcases Nat.lt_succ_iff_lt_or_eq.mp hki with hki | rfl
      · exact hplain k hk hki
      · rw [labelAt?_eq h, hlabel]
    · exact ⟨i, s, Nat.lt_succ_self i, h, hexit, fun k hk hki ↦ by omega⟩

private theorem deadAfter_take_iff (hi : i ≤ code.length) :
    deadAfter false (code.take i) = true ↔ IsDead code i := by
  induction i with
  | zero =>
    constructor
    · intro h
      cases h
    · rintro ⟨j, -, hj, -⟩
      exact absurd hj (Nat.not_lt_zero j)
  | succ i ih =>
    have hs := List.getElem?_eq_getElem hi
    rw [isDead_succ hs, ← ih (Nat.le_of_lt hi), List.take_add_one, hs, deadAfter_append]
    simp [deadAfter]

namespace Placement

private theorem mem_statements_iff {next : Nat} :
    s ∈ (ofCode strip next dead code).statements ↔
      ∃ i, code[i]? = some s ∧ s.label? = none ∧
        (deadAfter dead (code.take i) = true → strip = false ∧ s.synthetic = false) := by
  induction code generalizing next dead with
  | nil => simp [ofCode]
  | cons t rest ih =>
    rw [← Nat.or_exists_add_one]
    simp only [List.getElem?_cons_zero, List.getElem?_cons_succ, List.take_zero,
      List.take_succ_cons, deadAfter, ofCode, Option.some.injEq]
    cases ht : t.label? with
    | some name =>
      simp only [ih, Option.isNone_some, Bool.false_and]
      constructor
      · exact .inr
      · rintro (⟨rfl, hnone, -⟩ | h)
        · rw [ht] at hnone
          cases hnone
        · exact h
    | none =>
      simp only [Option.isNone_none, Bool.true_and]
      split
      · next hskip =>
        rw [Bool.and_eq_true, Bool.or_eq_true] at hskip
        rw [ih, hskip.1, Bool.true_or]
        constructor
        · exact .inr
        · rintro (⟨rfl, -, hkept⟩ | h)
          · obtain ⟨hstrip, hsynthetic⟩ := hkept rfl
            simp [hstrip, hsynthetic] at hskip
          · exact h
      · next hskip =>
        rw [List.mem_cons, ih]
        refine or_congr_left ⟨?_, fun h ↦ h.1.symm⟩
        rintro rfl
        refine ⟨rfl, ht, fun hdead ↦ ?_⟩
        simpa [hdead] using hskip

private theorem mem_statements_iff_keptAt :
    s ∈ (ofCode strip 0 false code).statements ↔ ∃ i, KeptAt strip code i s := by
  rw [mem_statements_iff]
  have hdead {i : Nat} (hs : code[i]? = some s) :=
    deadAfter_take_iff (Nat.le_of_lt (List.getElem?_eq_some_iff.mp hs).1)
  constructor
  · rintro ⟨i, hs, hl, hlive⟩
    exact ⟨i, hs, hl, fun h ↦ hlive ((hdead hs).mpr h)⟩
  · rintro ⟨i, hs, hl, hlive⟩
    exact ⟨i, hs, hl, fun h ↦ hlive ((hdead hs).mp h)⟩

/-- A `nullify` has no influence on what is kept of the others. -/
private theorem filter_statements_nullify (hs : s.op = .nullify) (next : Nat) :
    (ofCode strip next dead (s :: code)).statements.filter (·.op != .nullify) =
      (ofCode strip 0 dead code).statements.filter (·.op != .nullify) := by
  have hlabel : s.label? = none := Statement.label?_of_ne (by rw [hs]; decide)
  have hexit : s.op.isUnconditionalExit = false := by rw [hs]; rfl
  rw [ofCode, hlabel]
  simp only [hexit, Bool.or_false]
  split
  · rw [statements_ofCode]
  · rw [List.filter_cons_of_neg (by simp [hs]), statements_ofCode]

end Placement

/-- Merging has no influence on which other statements are kept. -/
private theorem Merged.filter_statements (h : Merged code out) (strip dead : Bool) :
    (Placement.ofCode strip 0 dead out).statements.filter (·.op != .nullify) =
      (Placement.ofCode strip 0 dead code).statements.filter (·.op != .nullify) := by
  induction h generalizing dead with
  | nil => rfl
  | @keep s rest out _ ih =>
    rw [Placement.ofCode, Placement.ofCode]
    cases s.label? with
    | some name => exact ih false
    | none =>
      simp only
      split
      · exact ih dead
      · rw [List.filter_cons, List.filter_cons, Placement.statements_ofCode,
          Placement.statements_ofCode (0 + 1), ih]
  | @join s t rest out hs ht _ ih =>
    have hjoined : (s.withLast (t.operands.getD 1 .null)).op = .nullify := hs
    rw [ih, Placement.filter_statements_nullify hjoined, Placement.filter_statements_nullify hs,
      Placement.filter_statements_nullify ht]

/-- What holds of every `nullify` holds of all kept statements of merged code if it does of those of the
code before. -/
private theorem Merged.forall_statements_iff {P : Statement → Prop} (h : Merged code out)
    (hcode : ∀ s ∈ code, s.op = .nullify → P s) (hout : ∀ s ∈ out, s.op = .nullify → P s) :
    (∀ s ∈ (Placement.ofCode strip 0 false out).statements, P s) ↔
      ∀ s ∈ (Placement.ofCode strip 0 false code).statements, P s := by
  -- statements of another kind are kept of both
  have hothers {a b : List Statement} (hb : ∀ s ∈ b, s.op = .nullify → P s)
      (heq : (Placement.ofCode strip 0 false a).statements.filter (·.op != .nullify) =
        (Placement.ofCode strip 0 false b).statements.filter (·.op != .nullify))
      (ha : ∀ s ∈ (Placement.ofCode strip 0 false a).statements, P s) :
      ∀ s ∈ (Placement.ofCode strip 0 false b).statements, P s := by
    intro s hs
    by_cases hop : s.op = .nullify
    · exact hb s (Placement.mem_of_mem_statements hs) hop
    · have hmem : s ∈ (Placement.ofCode strip 0 false b).statements.filter (·.op != .nullify) :=
        List.mem_filter.mpr ⟨hs, by simpa using hop⟩
      rw [← heq] at hmem
      exact ha s (List.mem_filter.mp hmem).1
  have heq := h.filter_statements strip false
  exact ⟨hothers hcode heq, hothers hout heq.symm⟩

/-! ### Placed code -/

private theorem Statement.namedLabels_of_not_isMalformed (h : ¬ s.IsMalformed) (hop : s.op = .nullify) :
    s.namedLabels = [] := by
  obtain ⟨range, hrange⟩ := not_isMalformed_iff.mp h hop
  obtain ⟨ty, ty', hoperands⟩ := ((clearedRange?_eq_ok hop).mp hrange).operands
  rw [namedLabels, hoperands]
  rfl

private theorem Statement.namedLabels_join {t : Statement} (hs : s.namedLabels = [])
    (ht : t.namedLabels = []) : (s.withLast (t.operands.getD 1 .null)).namedLabels = [] := by
  refine List.flatMap_eq_nil_iff.mpr fun a ha ↦ ?_
  rcases mem_operands_withLast ha with ha | rfl
  · exact List.flatMap_eq_nil_iff.mp hs a ha
  · rcases t.getD_operands 1 with hmem | hnull
    · exact List.flatMap_eq_nil_iff.mp ht _ hmem
    · rw [hnull]
      rfl

/-- The code that is placed: its ranges are merged, or only checked. -/
def rangedCode (code : List Statement) (o : Options) : Except Error (List Statement) :=
  if o.mergeNullify then mergeNullify code
  else do
    checkNullify 0 code
    pure code

private theorem merged_of_rangedCode {o : Options} (h : rangedCode code o = .ok out) : Merged code out := by
  rw [rangedCode] at h
  split at h
  · exact merged_of_mergeNullify h
  · obtain ⟨-, -, h⟩ := bind_eq_ok.mp h
    cases h
    exact .refl code

private theorem exists_rangedCode_iff {o : Options} :
    (∃ out, rangedCode code o = .ok out) ↔ ∀ s ∈ code, ¬ s.IsMalformed := by
  rw [rangedCode]
  split
  · exact exists_mergeNullify_iff
  · rw [← checkNullify_eq_ok_iff 0]
    constructor
    · rintro ⟨out, hout⟩
      obtain ⟨⟨⟩, hcheck, -⟩ := bind_eq_ok.mp hout
      exact hcheck
    · exact fun hcheck ↦ ⟨code, bind_eq_ok.mpr ⟨(), hcheck, rfl⟩⟩

private theorem place_eq_ok {o : Options} {placed : PlacedCode} :
    place code constants o = .ok placed ↔ ∃ ranged, rangedCode code o = .ok ranged ∧
      (Placement.ofCode o.stripUnreachable 0 false ranged).resolveStatements =
        .ok placed.statements ∧
      constants.mapM (Placement.ofCode o.stripUnreachable 0 false ranged).resolveValue =
        .ok placed.constants := by
  have hplace : place code constants o = rangedCode code o >>= fun ranged ↦ do
      let p := Placement.ofCode o.stripUnreachable 0 false ranged
      let statements ← p.resolveStatements
      let constants ← constants.mapM p.resolveValue
      return { statements, constants } := by
    rw [place, rangedCode]
    split
    · rfl
    · cases checkNullify 0 code <;> rfl
  rw [hplace]
  constructor
  · intro h
    obtain ⟨ranged, hranged, h⟩ := bind_eq_ok.mp h
    obtain ⟨statements, hstatements, h⟩ := bind_eq_ok.mp h
    obtain ⟨values, hvalues, h⟩ := bind_eq_ok.mp h
    cases h
    exact ⟨ranged, hranged, hstatements, hvalues⟩
  · rintro ⟨ranged, hranged, hstatements, hvalues⟩
    exact bind_eq_ok.mpr ⟨ranged, hranged, bind_eq_ok.mpr ⟨_, hstatements,
      bind_eq_ok.mpr ⟨_, hvalues, rfl⟩⟩⟩

/-- The labels that a statement names are defined by the code, and it can go to those that are operands. -/
def Statement.Resolvable (code : List Statement) (s : Statement) : Prop :=
  (∀ l ∈ s.namedLabels, l ∈ labelsOf code) ∧ ∀ a ∈ s.operands, a.FitsOpcode s.op

private theorem Statement.resolvable_of_namedLabels (h : s.namedLabels = []) : s.Resolvable code := by
  refine ⟨by rw [h]; exact List.forall_mem_nil _, fun a ha hlabel ↦ ?_⟩
  have hnone := List.flatMap_eq_nil_iff.mp h a ha
  cases a with
  | label name => cases hnone
  | _ => cases hlabel

/-- Once its ranges are in order, code can be placed exactly if the statements that are kept and the
constants can be resolved. -/
theorem exists_place_iff {o : Options} :
    (∃ placed, place code constants o = .ok placed) ↔ (∀ s ∈ code, ¬ s.IsMalformed) ∧
      (∀ i s, KeptAt o.stripUnreachable code i s → s.Resolvable code) ∧
      ∀ v ∈ constants, ∀ l ∈ v.namedLabels, l ∈ labelsOf code := by
  -- the same statements need resolving whether ranges are merged or not
  have hkept {ranged : List Statement} (hcode : ∀ s ∈ code, ¬ s.IsMalformed)
      (hmerged : Merged code ranged) :
      (∀ s ∈ (Placement.ofCode o.stripUnreachable 0 false ranged).statements, s.Resolvable code) ↔
        ∀ i s, KeptAt o.stripUnreachable code i s → s.Resolvable code := by
    have hnone (s : Statement) (hs : s ∈ code) (hop : s.op = .nullify) : s.namedLabels = [] :=
      Statement.namedLabels_of_not_isMalformed (hcode s hs) hop
    have hnone' := hmerged.forall_mem (P := fun s ↦ s.op = .nullify → s.namedLabels = [])
      (fun s t hs ht hs' ht' _ ↦ Statement.namedLabels_join (hs' hs) (ht' ht)) hnone
    rw [hmerged.forall_statements_iff
      (fun s hs hop ↦ Statement.resolvable_of_namedLabels (hnone s hs hop))
      (fun s hs hop ↦ Statement.resolvable_of_namedLabels (hnone' s hs hop))]
    simp only [Placement.mem_statements_iff_keptAt, forall_exists_index]
    exact forall_comm
  constructor
  · rintro ⟨placed, h⟩
    obtain ⟨ranged, hranged, hstatements, hvalues⟩ := place_eq_ok.mp h
    have hmerged := merged_of_rangedCode hranged
    have hcode := exists_rangedCode_iff.mp ⟨ranged, hranged⟩
    have hresolved := Placement.exists_resolveStatements_iff.mp ⟨_, hstatements⟩
    simp only [Placement.exists_resolve_iff, hmerged.labelsOf_eq] at hresolved
    refine ⟨hcode, (hkept hcode hmerged).mp hresolved, fun v hv l hl ↦ ?_⟩
    obtain ⟨w, -, hw⟩ := (mem_mapM_ok hvalues).2 v hv
    have hfound := (Placement.resolveValue_eq_ok.mp hw).1 l hl
    rwa [Placement.exists_resolve_iff, hmerged.labelsOf_eq] at hfound
  · rintro ⟨hcode, hstatements, hvalues⟩
    obtain ⟨ranged, hranged⟩ := exists_rangedCode_iff.mpr hcode
    have hmerged := merged_of_rangedCode hranged
    rw [← hkept hcode hmerged] at hstatements
    simp only [Statement.Resolvable, ← hmerged.labelsOf_eq,
      ← Placement.exists_resolve_iff o.stripUnreachable] at hstatements hvalues
    obtain ⟨statements, hstatements⟩ := Placement.exists_resolveStatements_iff.mpr hstatements
    obtain ⟨values, hvalues⟩ := exists_mapM_ok fun v hv ↦
      ⟨_, Placement.resolveValue_eq_ok.mpr ⟨hvalues v hv, rfl⟩⟩
    exact ⟨⟨statements, values⟩, place_eq_ok.mpr ⟨ranged, hranged, hstatements, hvalues⟩⟩

/-- Code can be placed exactly if its ranges are well formed, each label that a kept statement or a
constant names at any depth is defined, and labels are operands of kept branches and `try` statements
only. Then no label is left at any depth, and constants change in their labels only. -/
theorem place_leaves_no_labels (code : List Statement) (constants : List Value) (o : Options) :
    ((∃ placed, place code constants o = .ok placed) ↔
      (∀ s ∈ code, ¬ s.IsMalformed) ∧
      ((∀ i s, KeptAt o.stripUnreachable code i s → ∀ l ∈ s.namedLabels, l ∈ labelsOf code) ∧
        ∀ v ∈ constants, ∀ l ∈ v.namedLabels, l ∈ labelsOf code) ∧
      ∀ i s, KeptAt o.stripUnreachable code i s → ∀ a ∈ s.operands, a.isLabel = true →
        s.op = .enterTry ∨ s.op.isBranch = true) ∧
    ∀ placed, place code constants o = .ok placed →
      (∀ s ∈ placed.statements, s.label? = none ∧ s.namedLabels = []) ∧
      (∀ v ∈ placed.constants, v.namedLabels = []) ∧
      ∃ number : String → Int32,
        placed.constants = constants.map (·.mapLabels fun l ↦ .i32 (number l)) := by
  refine ⟨?_, fun placed h ↦ ?_⟩
  · rw [exists_place_iff]
    constructor
    · rintro ⟨hcode, hkept, hvalues⟩
      exact ⟨hcode, ⟨fun i s hs ↦ (hkept i s hs).1, hvalues⟩, fun i s hs ↦ (hkept i s hs).2⟩
    · rintro ⟨hcode, ⟨hkept, hvalues⟩, hfits⟩
      exact ⟨hcode, fun i s hs ↦ ⟨hkept i s hs, hfits i s hs⟩, hvalues⟩
  · obtain ⟨ranged, -, hstatements, hvalues⟩ := place_eq_ok.mp h
    refine ⟨fun s hs ↦ ?_, fun w hw ↦ ?_,
      (Placement.ofCode o.stripUnreachable 0 false ranged).number, ?_⟩
    · have hnone := Placement.namedLabels_of_resolveStatements hstatements hs
      exact ⟨Statement.label?_of_namedLabels hnone, hnone⟩
    · obtain ⟨v, -, hv⟩ := (mem_mapM_ok hvalues).1 w hw
      exact Placement.namedLabels_of_resolveValue hv
    · have hmap := (forall₂_of_mapM hvalues).imp fun v w hw ↦
        (Placement.resolveValue_eq_ok.mp hw).2.symm
      exact (List.forall₂_eq_eq_eq ▸ List.forall₂_map_left_iff.mpr hmap).symm

end MethodCompiler
