import Mathlib.Data.List.Chain
import MethodCompiler.Proofs.PlacementProgress

/-!
# Registers that merged ranges clear

Merging joins a `nullify` with the one before it exactly where its range follows on. `Coalesced` says
that of code and its merged form, and from it come what merging keeps and what it achieves: the same
registers are cleared in the same order, and nothing is left to join.
-/

namespace MethodCompiler

variable {code out rest : List Statement} {s t : Statement} {position first mid last : Nat}

namespace Statement

/-! ### Ranges -/

/-- The statement clears the registers from `first` to `last`. -/
structure Clears (s : Statement) (first last : Nat) : Prop where
  op : s.op = .nullify
  operands : ∃ ty ty', s.operands = [.register first ty, .register last ty']
  ascending : first ≤ last

/-- A `nullify` that does not have two registers in ascending order. -/
def IsMalformed (s : Statement) : Prop := s.op = .nullify ∧ ∀ first last, ¬ s.Clears first last

/-- The second statement clears the registers that follow those of the first. -/
def FollowedBy (s t : Statement) : Prop :=
  ∃ first mid last, s.Clears first mid ∧ t.Clears (mid + 1) last

/-- All registers of the statement have numbers below the greatest one of 32 bits. -/
def IsNarrow (s : Statement) : Prop := ∀ a ∈ s.operands, ∀ r ∈ a.register?, r < UInt32.size - 1

instance : DecidablePred IsNarrow := fun s ↦
  inferInstanceAs (Decidable (∀ a ∈ s.operands, ∀ r ∈ a.register?, r < UInt32.size - 1))

/-- Clear one register. -/
def clear (r : Nat) : Statement := of .nullify [.register r .object, .register r .object]

/-- The statement with a range of registers cleared one by one. The types of registers that are
cleared do not count. -/
def singles (s : Statement) : List Statement :=
  match s.op, s.operands with
  | .nullify, [.register first _, .register last _] =>
    (List.range' first (last + 1 - first)).map clear
  | _, _ => [s]

/-- The range of a `nullify` is what the statement clears. -/
theorem clearedRange?_eq_ok (hop : s.op = .nullify) :
    s.clearedRange? = .ok (first, last) ↔ s.Clears first last := by
  constructor
  · intro h
    unfold clearedRange? at h
    split at h
    · next a ty b ty' hoperands =>
      split at h
      · cases h
      · next hle =>
        cases h
        exact ⟨hop, ⟨ty, ty', hoperands⟩, Nat.le_of_not_lt hle⟩
    · cases h
  · rintro ⟨-, ⟨ty, ty', hoperands⟩, hle⟩
    simp only [clearedRange?, hoperands, if_neg (Nat.not_lt_of_le hle)]

private theorem Clears.unique {first' last' : Nat} (h : s.Clears first last) (h' : s.Clears first' last') :
    first = first' ∧ last = last' := by
  have heq := ((clearedRange?_eq_ok h.op).mpr h).symm.trans ((clearedRange?_eq_ok h.op).mpr h')
  exact Prod.mk.inj (Except.ok.inj heq)

private theorem Clears.not_isMalformed (h : s.Clears first last) : ¬ s.IsMalformed :=
  fun hbad ↦ hbad.2 first last h

/-- The range of a `nullify` can be read unless it is malformed. -/
theorem not_isMalformed_iff :
    ¬ s.IsMalformed ↔ (s.op = .nullify → ∃ range, s.clearedRange? = .ok range) := by
  constructor
  · intro h hop
    by_contra hnone
    refine h ⟨hop, fun first last hclears ↦ hnone ⟨(first, last), ?_⟩⟩
    exact (clearedRange?_eq_ok hop).mpr hclears
  · rintro h ⟨hop, hnone⟩
    obtain ⟨⟨first, last⟩, hrange⟩ := h hop
    exact hnone first last ((clearedRange?_eq_ok hop).mp hrange)

private theorem isMalformed_of_error {fault : RangeFault} (hop : s.op = .nullify)
    (h : s.clearedRange? = .error fault) : s.IsMalformed := by
  refine ⟨hop, fun first last hclears ↦ ?_⟩
  rw [(clearedRange?_eq_ok hop).mpr hclears] at h
  cases h

private theorem Clears.lt_of_isNarrow (h : s.Clears first last) (hs : s.IsNarrow) :
    last + 1 < UInt32.size := by
  obtain ⟨ty, ty', hoperands⟩ := h.operands
  have := hs (.register last ty') (by rw [hoperands]; simp) last rfl
  omega

private theorem Clears.singles_eq (h : s.Clears first last) :
    s.singles = (List.range' first (last + 1 - first)).map clear := by
  obtain ⟨ty, ty', hoperands⟩ := h.operands
  simp only [singles, h.op, hoperands]

/-! ### Joined ranges -/

/-- A statement and the one after it, whose range follows on, as one. -/
def joined (s t : Statement) : Statement := s.withLast (t.operands.getD 1 .null)

private theorem Clears.joined (h : s.Clears first mid) (h' : t.Clears (mid + 1) last) :
    (s.joined t).Clears first last := by
  obtain ⟨ty, ty', hs⟩ := h.operands
  obtain ⟨ty₁, ty₂, ht⟩ := h'.operands
  refine ⟨h.op, ⟨ty, ty₂, ?_⟩, ?_⟩
  · simp [Statement.joined, withLast, hs, ht]
  · have := h.ascending
    have := h'.ascending
    omega

/-- Joining clears the registers of the first range and then those of the second. -/
private theorem FollowedBy.singles_joined (h : s.FollowedBy t) :
    (s.joined t).singles = s.singles ++ t.singles := by
  obtain ⟨first, mid, last, hs, ht⟩ := h
  have hle := hs.ascending
  have hle' := ht.ascending
  rw [(hs.joined ht).singles_eq, hs.singles_eq, ht.singles_eq, ← List.map_append]
  congr 1
  calc List.range' first (last + 1 - first)
      = List.range' first ((mid + 1 - first) + (last + 1 - (mid + 1))) := by
        congr 1
        omega
    _ = List.range' first (mid + 1 - first) ++
          List.range' (first + (mid + 1 - first)) (last + 1 - (mid + 1)) :=
        List.range'_append_1.symm
    _ = List.range' first (mid + 1 - first) ++ List.range' (mid + 1) (last + 1 - (mid + 1)) := by
        rw [Nat.add_sub_of_le (Nat.le_succ_of_le hle)]

private theorem FollowedBy.not_isMalformed_joined (h : s.FollowedBy t) : ¬ (s.joined t).IsMalformed := by
  obtain ⟨first, mid, last, hs, ht⟩ := h
  exact (hs.joined ht).not_isMalformed

private theorem IsNarrow.joined (hs : s.IsNarrow) (ht : t.IsNarrow) : (s.joined t).IsNarrow := by
  intro a ha
  rcases mem_operands_withLast ha with ha | rfl
  · exact hs a ha
  · rcases t.getD_operands 1 with hmem | hnull
    · exact ht _ hmem
    · rw [hnull]
      intro r hr
      cases hr

end Statement

open Statement

/-! ### Merged code -/

/-- Code with the code that it is merged to: a statement is joined with the next one if that follows on,
and kept otherwise. -/
inductive Coalesced : List Statement → List Statement → Prop
  | nil : Coalesced [] []
  | keep {s : Statement} {rest out : List Statement} (hs : ∀ t ∈ rest.head?, ¬ s.FollowedBy t)
      (h : Coalesced rest out) : Coalesced (s :: rest) (s :: out)
  | join {s t : Statement} {rest out : List Statement} (hs : s.FollowedBy t)
      (h : Coalesced (s.joined t :: rest) out) : Coalesced (s :: t :: rest) out

namespace Coalesced

private theorem flatMap_singles (h : Coalesced code out) :
    out.flatMap singles = code.flatMap singles := by
  induction h with
  | nil => rfl
  | keep _ _ ih => rw [List.flatMap_cons, List.flatMap_cons, ih]
  | join hs _ ih =>
    rw [ih, List.flatMap_cons, List.flatMap_cons, List.flatMap_cons, hs.singles_joined,
      List.append_assoc]

private theorem forall_mem {P : Statement → Prop}
    (hjoin : ∀ s t : Statement, s.FollowedBy t → P s → P t → P (s.joined t))
    (h : Coalesced code out) (hall : ∀ s ∈ code, P s) : ∀ s ∈ out, P s := by
  induction h with
  | nil => exact hall
  | keep _ _ ih =>
    rw [List.forall_mem_cons] at hall ⊢
    exact ⟨hall.1, ih hall.2⟩
  | @join s t rest out hs _ ih =>
    rw [List.forall_mem_cons, List.forall_mem_cons] at hall
    exact ih (List.forall_mem_cons.mpr ⟨hjoin s t hs hall.1 hall.2.1, hall.2.2⟩)

/-- What is joined with later statements still begins with the same register. -/
private theorem exists_cons (h : Coalesced (s :: rest) out) :
    ∃ s' out', out = s' :: out' ∧
      ∀ first last, s'.Clears first last → ∃ last', s.Clears first last' := by
  generalize hcode : s :: rest = code at h
  induction h generalizing s rest with
  | nil => cases hcode
  | keep _ _ _ =>
    cases hcode
    exact ⟨_, _, rfl, fun first last h ↦ ⟨last, h⟩⟩
  | join hs _ ih =>
    cases hcode
    obtain ⟨s', out', rfl, hbegin⟩ := ih rfl
    refine ⟨s', out', rfl, fun first last h ↦ ?_⟩
    obtain ⟨a, mid, b, hs, ht⟩ := hs
    obtain ⟨last', hjoined⟩ := hbegin first last h
    rw [(hjoined.unique (hs.joined ht)).1]
    exact ⟨mid, hs⟩

/-- In merged code no range follows on the one before it. -/
private theorem isChain (h : Coalesced code out) : out.IsChain fun s t ↦ ¬ s.FollowedBy t := by
  induction h with
  | nil => exact .nil
  | @keep s rest out hs h ih =>
    refine List.isChain_cons.mpr ⟨fun t' ht' ↦ ?_, ih⟩
    cases rest with
    | nil =>
      cases h
      cases ht'
    | cons t rest =>
      obtain ⟨s', out', rfl, hbegin⟩ := h.exists_cons
      cases ht'
      rintro ⟨first, mid, last, hfirst, hnext⟩
      obtain ⟨last', ht⟩ := hbegin _ _ hnext
      exact hs t rfl ⟨first, mid, last', hfirst, ht⟩
  | join _ _ ih => exact ih

private theorem eq_of_isChain (h : Coalesced code out) (hc : code.IsChain fun s t ↦ ¬ s.FollowedBy t) :
    out = code := by
  induction h with
  | nil => rfl
  | keep _ _ ih => rw [ih (List.isChain_cons.mp hc).2]
  | @join s t _ _ hs _ _ => exact absurd hs ((List.isChain_cons.mp hc).1 t rfl)

end Coalesced

/-- A statement before the code that is merged is remembered with the last register that it clears, if it
clears any. -/
inductive IsPending : Option (Statement × Option Nat) → Prop
  | start : IsPending none
  | range {s : Statement} {first stop : Nat} (hs : s.IsNarrow) (h : s.Clears first stop) :
    IsPending (some (s, some stop))
  | other {s : Statement} (h : s.op ≠ .nullify) : IsPending (some (s, none))

private theorem IsPending.exists_clears {stop : Nat} (h : IsPending (some (s, some stop))) :
    s.IsNarrow ∧ ∃ first, s.Clears first stop := by
  cases h with
  | range hs h => exact ⟨hs, _, h⟩

private theorem coalesced_of_mergeNullifyFrom {previous : Option (Statement × Option Nat)}
    (hprevious : IsPending previous) (hnarrow : ∀ s ∈ code, s.IsNarrow)
    (h : mergeNullifyFrom position previous code = .ok out) :
    Coalesced (previous.elim [] ([·.1]) ++ code) out := by
  induction code generalizing position previous out with
  | nil =>
    cases h
    cases previous with
    | none => exact .nil
    | some p => exact .keep (by simp) .nil
  | cons s rest ih =>
    obtain ⟨hs, hrest⟩ := List.forall_mem_cons.mp hnarrow
    -- a statement that does not follow on stands after the one before it
    have hkeep {stop : Option Nat} (hstop : IsPending (some (s, stop)))
        (hapart : ∀ p ∈ previous, ¬ p.1.FollowedBy s)
        (h : (do return previous.elim [] ([·.1]) ++
          (← mergeNullifyFrom (position + 1) (some (s, stop)) rest)) = .ok out) :
        Coalesced (previous.elim [] ([·.1]) ++ s :: rest) out := by
      obtain ⟨more, hmore, h⟩ := bind_eq_ok.mp h
      cases h
      have hmore : Coalesced (s :: rest) more := ih hstop hrest hmore
      cases previous with
      | none => exact hmore
      | some p =>
        refine .keep (fun t ht ↦ ?_) hmore
        cases ht
        exact hapart p rfl
    rw [mergeNullifyFrom] at h
    split at h
    · next hop =>
      have hop : s.op = .nullify := eq_of_beq hop
      split at h
      · cases h
      · next first stop hrange =>
        have hclears : s.Clears first stop := (clearedRange?_eq_ok hop).mp hrange
        split at h
        · next p pstop =>
          obtain ⟨hp, start, hpclears⟩ := hprevious.exists_clears
          have hwrap : (pstop + 1) % UInt32.size = pstop + 1 :=
            Nat.mod_eq_of_lt (hpclears.lt_of_isNarrow hp)
          rw [hwrap] at h
          split at h
          · next hfirst =>
            rw [eq_of_beq hfirst] at hclears
            exact .join ⟨start, pstop, stop, hpclears, hclears⟩
              (ih (.range (hp.joined hs) (hpclears.joined hclears)) hrest h)
          · next hfirst =>
            refine hkeep (.range hs hclears) (fun p' hp' ↦ ?_) h
            cases hp'
            rintro ⟨a, b, c, ha, hb⟩
            rw [(hclears.unique hb).1, (hpclears.unique ha).2] at hfirst
            simp at hfirst
        · next hnone =>
          refine hkeep (.range hs hclears) (fun p hp ↦ ?_) h
          rintro ⟨a, b, c, ha, -⟩
          obtain ⟨p, stop'⟩ := p
          cases hp
          cases hprevious with
          | range _ _ => exact hnone _ _ rfl
          | other hop' => exact hop' ha.op
    · next hop =>
      have hop : s.op ≠ .nullify := by simpa using hop
      refine hkeep (.other hop) (fun p _ ↦ ?_) h
      rintro ⟨a, b, c, -, hb⟩
      exact hop hb.op

/-- Merged code is what its code is merged to. -/
theorem coalesced_of_mergeNullify (hnarrow : ∀ s ∈ code, s.IsNarrow)
    (h : mergeNullify code = .ok out) : Coalesced code out :=
  coalesced_of_mergeNullifyFrom .start hnarrow h

/-! ### Malformed ranges -/

/-- The check ends at the first malformed `nullify`. -/
private theorem checkNullify_eq_error {e : Error} (h : checkNullify position code = .error e) :
    ∃ i fault, e = .malformedNullify (position + i) fault ∧
      (∃ s, code[i]? = some s ∧ s.IsMalformed ∧ s.clearedRange? = .error fault) ∧
      ∀ s ∈ code.take i, ¬ s.IsMalformed := by
  induction code generalizing position with
  | nil => cases h
  | cons s rest ih =>
    -- past a statement that is not malformed, the check goes on with the others
    have hnext (hs : ¬ s.IsMalformed) (h : checkNullify (position + 1) rest = .error e) :
        ∃ i fault, e = .malformedNullify (position + i) fault ∧
          (∃ t, (s :: rest)[i]? = some t ∧ t.IsMalformed ∧ t.clearedRange? = .error fault) ∧
          ∀ t ∈ (s :: rest).take i, ¬ t.IsMalformed := by
      obtain ⟨i, fault, rfl, hi, hbefore⟩ := ih h
      refine ⟨i + 1, fault, by rw [Nat.add_right_comm, Nat.add_assoc], hi, ?_⟩
      rw [List.take_succ_cons]
      exact List.forall_mem_cons.mpr ⟨hs, hbefore⟩
    rw [checkNullify] at h
    split at h
    · next hop =>
      have hop : s.op = .nullify := eq_of_beq hop
      cases hrange : s.clearedRange? with
      | error fault =>
        rw [hrange] at h
        cases h
        exact ⟨0, fault, rfl, ⟨s, rfl, isMalformed_of_error hop hrange, hrange⟩,
          List.forall_mem_nil _⟩
      | ok range =>
        rw [hrange] at h
        exact hnext (not_isMalformed_iff.mpr fun _ ↦ ⟨range, hrange⟩) h
    · next hop =>
      exact hnext (fun hbad ↦ hop (beq_iff_eq.mpr hbad.1)) h

/-- The check passes exactly the code without malformed ranges. -/
theorem checkNullify_eq_ok_iff (position : Nat) :
    checkNullify position code = .ok () ↔ ∀ s ∈ code, ¬ s.IsMalformed := by
  constructor
  · intro h s hs hbad
    induction code generalizing position with
    | nil => cases hs
    | cons t rest ih =>
      rw [checkNullify] at h
      split at h
      · obtain ⟨range, hrange, h⟩ := bind_eq_ok.mp h
        rcases List.mem_cons.mp hs with rfl | hs
        · exact not_isMalformed_iff.mpr (fun _ ↦ ⟨range, mapError_eq_ok.mp hrange⟩) hbad
        · exact ih (position + 1) h hs
      · next hop =>
        rcases List.mem_cons.mp hs with rfl | hs
        · exact hop (beq_iff_eq.mpr hbad.1)
        · exact ih (position + 1) h hs
  · exact fun h ↦ checkNullify_eq_ok (fun s hs ↦ not_isMalformed_iff.mp (h s hs)) position

/-- Merging fails where the check does, and in the same way. -/
private theorem map_mergeNullifyFrom (position : Nat) (previous : Option (Statement × Option Nat))
    (code : List Statement) :
    (mergeNullifyFrom position previous code).map (fun _ ↦ ()) = checkNullify position code := by
  induction code generalizing position previous with
  | nil => rfl
  | cons s rest ih =>
    have hkeep (previous' : Option (Statement × Option Nat)) (done : List Statement) :
        Except.map (fun _ ↦ ()) (do return done ++ (← mergeNullifyFrom (position + 1) previous' rest)) =
          checkNullify (position + 1) rest := by
      rw [← ih (position + 1) previous']
      cases mergeNullifyFrom (position + 1) previous' rest <;> rfl
    rw [mergeNullifyFrom, checkNullify]
    split
    · cases s.clearedRange? with
      | error fault => rfl
      | ok range =>
        simp only
        split
        · split
          · exact ih _ _
          · exact hkeep _ _
        · exact hkeep _ _
    · exact hkeep _ _

private theorem mergeNullify_eq_error {e : Error} (h : mergeNullify code = .error e) :
    checkNullify 0 code = .error e := by
  rw [← map_mergeNullifyFrom 0 none code, ← mergeNullify, h]
  rfl

/-- Code can be merged exactly if it has no malformed ranges. -/
theorem exists_mergeNullify_iff :
    (∃ out, mergeNullify code = .ok out) ↔ ∀ s ∈ code, ¬ s.IsMalformed := by
  rw [← checkNullify_eq_ok_iff 0, ← map_mergeNullifyFrom 0 none code, ← mergeNullify]
  cases mergeNullify code with
  | error e => simp [Except.map]
  | ok out => simp [Except.map]

/-- Merging fails exactly at the first malformed range. Otherwise merged code clears the same registers in
the same order, with the other statements in between as they were, no range of it follows on the one
before it, and merging it again changes nothing. -/
theorem merging_keeps_cleared_registers (code : List Statement)
    (hnarrow : ∀ s ∈ code, s.IsNarrow) :
    ((∃ e, mergeNullify code = .error e) ↔ ∃ s ∈ code, s.IsMalformed) ∧
      (∀ e, mergeNullify code = .error e →
        ∃ i fault, e = .malformedNullify i fault ∧ (∃ s, code[i]? = some s ∧ s.IsMalformed) ∧
          ∀ s ∈ code.take i, ¬ s.IsMalformed) ∧
      ∀ out, mergeNullify code = .ok out →
        out.flatMap singles = code.flatMap singles ∧
          (out.IsChain fun s t ↦ ¬ s.FollowedBy t) ∧ mergeNullify out = .ok out := by
  refine ⟨?_, fun e h ↦ ?_, fun out h ↦ ?_⟩
  · have hok : (∃ out, mergeNullify code = .ok out) ↔ _ := exists_mergeNullify_iff
    cases h : mergeNullify code with
    | error e => simpa [h] using hok
    | ok out => simpa [h] using hok
  · obtain ⟨i, fault, he, ⟨s, hs, hbad, -⟩, hbefore⟩ := checkNullify_eq_error (mergeNullify_eq_error h)
    rw [Nat.zero_add] at he
    exact ⟨i, fault, he, ⟨s, hs, hbad⟩, hbefore⟩
  · have hmerged := coalesced_of_mergeNullify hnarrow h
    have hranges := exists_mergeNullify_iff.mp ⟨out, h⟩
    refine ⟨hmerged.flatMap_singles, hmerged.isChain, ?_⟩
    have hnarrow' := hmerged.forall_mem (fun _ _ _ ↦ IsNarrow.joined) hnarrow
    obtain ⟨out', hagain⟩ := exists_mergeNullify_iff.mpr
      (hmerged.forall_mem (fun _ _ hst _ _ ↦ hst.not_isMalformed_joined) hranges)
    rw [hagain, (coalesced_of_mergeNullify hnarrow' hagain).eq_of_isChain hmerged.isChain]

/-- Registers cleared at the ends of two scopes, some of them together. -/
private def scopeEnds : List Statement :=
  [clear 0, clear 1, .of .nullify [.register 2 .i32, .register 3 .string], clear 1, .label "end",
    clear 2, { clear 3 with synthetic := true }, clear 9]

/-- Ranges are joined to five statements, which clear the same registers in the same order. -/
theorem scopeEnds_keep_registers :
    (∀ s ∈ scopeEnds, s.IsNarrow) ∧ ∃ out, mergeNullify scopeEnds = .ok out ∧ out.length = 5 ∧
      out.flatMap singles = scopeEnds.flatMap singles ∧
      (out.IsChain fun s t ↦ ¬ s.FollowedBy t) ∧ mergeNullify out = .ok out := by
  have hnarrow : ∀ s ∈ scopeEnds, s.IsNarrow := by decide
  obtain ⟨out, hout, hlength⟩ : ∃ out, mergeNullify scopeEnds = .ok out ∧ out.length = 5 :=
    ⟨_, rfl, rfl⟩
  exact ⟨hnarrow, out, hout, hlength,
    (merging_keeps_cleared_registers scopeEnds hnarrow).2.2 out hout⟩

end MethodCompiler
