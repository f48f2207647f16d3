import MethodCompiler.Proofs.NeededLeaves

/-!
# Label tables while statements are inserted

An insertion moves the entries of a label table and adds at most one; the table is never built anew.
Still it is at all times the table that the statements would give, so labels stay unique, and an
insertion fails only for a label that the statements already define.
-/

namespace MethodCompiler

variable {code before behind : List Statement} {s : Statement} {c c' : LabelledCode} {table : LabelTable}
  {position start : Nat} {name : String}

/-! ### Tables of parts -/

private theorem labelsOf_cons (s : Statement) (rest : List Statement) :
    labelsOf (s :: rest) = s.label?.toList ++ labelsOf rest := by
  rw [labelsOf, List.filterMap_cons]
  cases s.label? <;> rfl

namespace LabelTable

private theorem entriesFrom_append (start : Nat) (before behind : List Statement) :
    entriesFrom start (before ++ behind) =
      entriesFrom start before ++ entriesFrom (start + before.length) behind := by
  rw [entriesFrom, List.zipIdx_append, List.filterMap_append, entriesFrom, entriesFrom]

/-- Entries before the position of an insertion stay where they are. -/
private theorem shift_entriesFrom_before (n : Nat) (h : start + before.length ≤ position) :
    (entriesFrom start before).shift position n = entriesFrom start before := by
  rw [shift]
  conv => rhs; rw [← List.map_id (entriesFrom start before)]
  refine List.map_congr_left fun e he ↦ ?_
  obtain ⟨name, i⟩ := e
  obtain ⟨hle, t, ht, -⟩ := mem_entriesFrom.mp he
  have hlt := (List.getElem?_eq_some_iff.mp ht).1
  simp only [id, if_neg (show ¬position ≤ i by omega)]

/-- Entries from the position of an insertion on make room. -/
private theorem shift_entriesFrom_behind (n : Nat) (h : position ≤ start) :
    (entriesFrom start behind).shift position n = entriesFrom (start + n) behind := by
  induction behind generalizing start with
  | nil => rfl
  | cons t rest ih =>
    rw [entriesFrom_cons, entriesFrom_cons, shift, List.map_append, ← shift, ← shift,
      ih (Nat.le_succ_of_le h), Nat.add_right_comm]
    cases t.label? with
    | none => rfl
    | some name => simp [shift, h]

/-- Room for one statement between two parts. -/
private theorem shift_entriesFrom_append (before behind : List Statement) :
    (entriesFrom 0 (before ++ behind)).shift before.length 1 =
      entriesFrom 0 before ++ entriesFrom (before.length + 1) behind := by
  rw [entriesFrom_append, shift, List.map_append, ← shift, ← shift,
    shift_entriesFrom_before 1 (Nat.le_of_eq (Nat.zero_add _)), Nat.zero_add,
    shift_entriesFrom_behind 1 (Nat.le_refl _)]

private theorem takeWhile_entriesFrom_append (before behind : List Statement) :
    (entriesFrom 0 before ++ entriesFrom (before.length + 1) behind).takeWhile (·.2 < before.length) =
      entriesFrom 0 before := by
  have hearlier : ∀ e ∈ entriesFrom 0 before, decide (e.2 < before.length) = true := by
    intro e he
    obtain ⟨-, t, ht, -⟩ := mem_entriesFrom.mp he
    exact decide_eq_true (List.getElem?_eq_some_iff.mp ht).1
  rw [List.takeWhile_append_of_pos hearlier]
  cases hlater : entriesFrom (before.length + 1) behind with
  | nil => exact List.append_nil _
  | cons e rest =>
    have hle := (mem_entriesFrom.mp (hlater ▸ List.mem_cons_self : e ∈ _)).1
    rw [List.takeWhile_cons_of_neg (by simp only [decide_eq_true_eq]; omega), List.append_nil]

/-- A table knows the labels that the code defines. -/
private theorem isSome_get? (h : build code = .ok table) :
    (table.get? name).isSome = true ↔ name ∈ labelsOf code := by
  obtain ⟨-, rfl⟩ := build_eq_ok.mp h
  rw [get?, Option.isSome_map, List.find?_isSome, ← map_fst_entriesFrom 0 code, List.mem_map]
  simp only [beq_iff_eq]

end LabelTable

/-! ### One insertion -/

namespace LabelledCode

/-- The table is the one that the statements give. -/
def Tabled (c : LabelledCode) : Prop := LabelTable.build c.statements = .ok c.labels

private theorem tabled_of_ofList (h : ofList code = .ok c) : c.Tabled := by
  obtain ⟨table, htable, h⟩ := bind_eq_ok.mp h
  obtain rfl := pure_eq_ok.mp h
  exact htable

/-- What an insertion does: it fails for a label that is already there, and else puts the statement in
its place and keeps the table right. -/
private theorem insert_cases (h : c.Tabled) (hposition : position ≤ c.statements.length) :
    (∃ name, s.label? = some name ∧ name ∈ labelsOf c.statements ∧
      c.insert position s = .error (.duplicateLabel name)) ∨
    ∃ c', c.insert position s = .ok c' ∧ c'.Tabled ∧
      (∀ name, s.label? = some name → name ∉ labelsOf c.statements) ∧
      c'.statements = c.statements.take position ++ s :: c.statements.drop position := by
  obtain ⟨hnodup, hlabels⟩ := LabelTable.build_eq_ok.mp h
  have hknown (name : String) : (c.labels.get? name).isSome = true ↔ name ∈ labelsOf c.statements :=
    LabelTable.isSome_get? h
  obtain ⟨before, behind, hcode, rfl⟩ : ∃ before behind, c.statements = before ++ behind ∧
      before.length = position :=
    ⟨_, _, (List.take_append_drop position c.statements).symm, List.length_take_of_le hposition⟩
  rw [hcode, List.take_left, List.drop_left]
  rw [hcode] at hnodup hknown hlabels
  simp only [insert, hcode, hlabels, List.take_left, LabelTable.shift_entriesFrom_append,
    LabelTable.takeWhile_entriesFrom_append, List.drop_left]
  rw [hlabels] at hknown
  cases hl : s.label? with
  | none =>
    refine .inr ⟨_, rfl, LabelTable.build_eq_ok.mpr ⟨?_, ?_⟩, by rintro name ⟨⟩, rfl⟩
    · rwa [labelsOf_append, labelsOf_cons, hl, Option.toList_none, List.nil_append, ← labelsOf_append]
    · rw [LabelTable.entriesFrom_append, LabelTable.entriesFrom_cons, hl, Nat.zero_add]
      rfl
  | some name =>
    simp only
    split
    · next hdefined => exact .inl ⟨name, rfl, (hknown name).mp hdefined, rfl⟩
    · next hnew =>
      rw [hknown] at hnew
      refine .inr ⟨_, rfl, LabelTable.build_eq_ok.mpr ⟨?_, ?_⟩, ?_, rfl⟩
      · rw [labelsOf_append] at hnodup hnew
        rw [labelsOf_append, labelsOf_cons, hl, Option.toList_some, List.singleton_append,
          List.nodup_middle, List.nodup_cons]
        exact ⟨hnew, hnodup⟩
      · rw [LabelTable.entriesFrom_append, LabelTable.entriesFrom_cons, hl, Nat.zero_add]
        rfl
      · rintro _ ⟨⟩
        exact hnew

/-! ### Sequences of insertions -/

/-- The code once an insertion has been asked for. One that fails leaves it as it is. -/
def attempt (c : LabelledCode) (position : Nat) (s : Statement) : LabelledCode :=
  match c.insert position s with
  | .ok c' => c'
  | .error _ => c

/-- The code once some insertions have been asked for, one after the other. -/
def attempts (c : LabelledCode) : List (Nat × Statement) → LabelledCode
  | [] => c
  | (position, s) :: rest => (c.attempt position s).attempts rest

/-- Each insertion is asked for at a position of the code that it finds, or at its end. -/
def InBounds (c : LabelledCode) : List (Nat × Statement) → Prop
  | [] => True
  | (position, s) :: rest => position ≤ c.statements.length ∧ (c.attempt position s).InBounds rest

private theorem Tabled.attempt (h : c.Tabled) (hposition : position ≤ c.statements.length) :
    (c.attempt position s).Tabled := by
  rw [LabelledCode.attempt]
  rcases insert_cases (s := s) h hposition with ⟨name, -, -, hfail⟩ | ⟨c', hinsert, htabled, -⟩
  · rw [hfail]
    exact h
  · rw [hinsert]
    exact htabled

private theorem Tabled.attempts {calls : List (Nat × Statement)} (h : c.Tabled) (hbounds : c.InBounds calls) :
    (c.attempts calls).Tabled := by
  induction calls generalizing c with
  | nil => exact h
  | cons call rest ih => exact ih (h.attempt hbounds.1) hbounds.2

end LabelledCode

open LabelledCode in
/-- Whatever has been inserted before, and whether it failed: after one more insertion the table is the
one that the statements give. The insertion fails exactly for a label that the statements define, and
changes nothing then; else its statement stands at its position. -/
theorem table_follows_insertions {calls : List (Nat × Statement)} (h : ofList code = .ok c)
    (hbounds : c.InBounds calls) (hposition : position ≤ (c.attempts calls).statements.length) :
    LabelTable.build ((c.attempts calls).attempt position s).statements =
        .ok ((c.attempts calls).attempt position s).labels ∧
      (∀ e, (c.attempts calls).insert position s = .error e ↔ ∃ name, s.label? = some name ∧
        name ∈ labelsOf (c.attempts calls).statements ∧ e = .duplicateLabel name) ∧
      (∀ e, (c.attempts calls).insert position s = .error e →
        (c.attempts calls).attempt position s = c.attempts calls) ∧
      ∀ c', (c.attempts calls).insert position s = .ok c' →
        (c.attempts calls).attempt position s = c' ∧
        c'.statements = (c.attempts calls).statements.take position ++
          s :: (c.attempts calls).statements.drop position := by
  have htabled : (c.attempts calls).Tabled := (tabled_of_ofList h).attempts hbounds
  refine ⟨htabled.attempt hposition, ?_, ?_, ?_⟩
  · intro e
    rcases insert_cases (s := s) htabled hposition with
      ⟨name, hl, hmem, hfail⟩ | ⟨c', hinsert, -, hnew, -⟩
    · rw [hfail]
      constructor
      · rintro ⟨⟩
        exact ⟨name, hl, hmem, rfl⟩
      · rintro ⟨name', hl', -, rfl⟩
        rw [hl] at hl'
        cases hl'
        rfl
    · rw [hinsert]
      refine ⟨by rintro ⟨⟩, ?_⟩
      rintro ⟨name, hl, hmem, -⟩
      exact absurd hmem (hnew name hl)
  · intro e hfail
    rw [attempt, hfail]
  · intro c' hok
    rcases insert_cases (s := s) htabled hposition with
      ⟨name, -, -, hfail⟩ | ⟨c'', hinsert, -, -, hstatements⟩
    · rw [hfail] at hok
      cases hok
    · rw [hinsert] at hok
      cases hok
      exact ⟨by rw [attempt, hinsert], hstatements⟩

/-- `last: return`, where a label, the same label again and a `leave` are inserted at the place of `last`. -/
private def spliceCode : LabelledCode := ⟨[.label "last", .of .ret []], [("last", 0)]⟩

private def spliceCalls : List (Nat × Statement) := [(0, .label "first"), (1, .label "first")]

/-- The label enters the table, the second one is refused, and the `leave` moves `last` but not `first`. -/
theorem splice_table_follows :
    LabelledCode.ofList [.label "last", .of .ret []] = .ok spliceCode ∧ spliceCode.InBounds spliceCalls ∧
      1 ≤ (spliceCode.attempts spliceCalls).statements.length ∧
      LabelTable.build [.label "first", .leave, .label "last", .of .ret []] =
        .ok [("first", 0), ("last", 2)] := by
  have hof : LabelledCode.ofList [.label "last", .of .ret []] = .ok spliceCode := rfl
  have hbounds : spliceCode.InBounds spliceCalls := ⟨by decide, by decide, trivial⟩
  have hposition : 1 ≤ (spliceCode.attempts spliceCalls).statements.length := by decide
  have hafter : (spliceCode.attempts spliceCalls).attempt 1 .leave =
      ⟨[.label "first", .leave, .label "last", .of .ret []], [("first", 0), ("last", 2)]⟩ := rfl
  have htable := (table_follows_insertions (s := .leave) hof hbounds hposition).1
  rw [hafter] at htable
  exact ⟨hof, hbounds, hposition, htable⟩

end MethodCompiler
