import MethodCompiler.Code.Placement
import MethodCompiler.Proofs.Machine
import MethodCompiler.Proofs.Success

/-!
# What merging of ranges keeps

Merging only ever joins two adjacent `nullify` statements into one, so labels, exits and the operands
that occur are those of the code before.
-/

namespace MethodCompiler

/-- Code in which adjacent `nullify` statements of other code may be joined. -/
inductive Merged : List Statement → List Statement → Prop
  | nil : Merged [] []
  | keep {s : Statement} {rest out : List Statement} (h : Merged rest out) :
    Merged (s :: rest) (s :: out)
  | join {s t : Statement} {rest out : List Statement} (hs : s.op = .nullify)
      (ht : t.op = .nullify) (h : Merged (s.withLast (t.operands.getD 1 .null) :: rest) out) :
    Merged (s :: t :: rest) out

variable {code out : List Statement}

/-- Code need not be merged. -/
theorem Merged.refl (code : List Statement) : Merged code code := by
  induction code with
  | nil => exact .nil
  | cons s rest ih => exact .keep ih

private theorem merged_of_mergeNullifyFrom {position : Nat} {last : Option (Statement × Option Nat)}
    (hlast : ∀ s stop, last = some (s, some stop) → s.op = .nullify)
    (h : mergeNullifyFrom position last code = .ok out) :
    Merged (last.elim [] ([·.1]) ++ code) out := by
  induction code generalizing position last out with
  | nil =>
    cases h
    rw [List.append_nil]
    exact .refl _
  | cons s rest ih =>
    -- a statement that is not joined with the one before stands after it
    have hkeep {r : Option Nat} (hr : ∀ stop, r = some stop → s.op = .nullify)
        (h : (do return last.elim [] ([·.1]) ++
          (← mergeNullifyFrom (position + 1) (some (s, r)) rest)) = .ok out) :
        Merged (last.elim [] ([·.1]) ++ s :: rest) out := by
      obtain ⟨more, hmore, h⟩ := bind_eq_ok.mp h
      cases h
      have hrest : Merged (s :: rest) more := by
        refine ih (fun t stop ht ↦ ?_) hmore
        cases ht
        exact hr stop rfl
      cases last with
      | none => exact hrest
      | some p => exact .keep hrest
    rw [mergeNullifyFrom] at h
    split at h
    · next hop =>
      have hop : s.op = .nullify := eq_of_beq hop
      split at h
      · cases h
      · next first stop hrange =>
        split at h
        · next previous previousStop =>
          split at h
          · have hprevious := hlast previous previousStop rfl
            refine .join hprevious hop (ih (fun t stop ht ↦ ?_) h)
            cases ht
            exact hprevious
          · exact hkeep (fun _ _ ↦ hop) h
        · exact hkeep (fun _ _ ↦ hop) h
    · refine hkeep (fun _ h ↦ ?_) h
      cases h

/-- What merging gives is the code with some ranges joined. -/
theorem merged_of_mergeNullify (h : mergeNullify code = .ok out) : Merged code out :=
  by
  refine merged_of_mergeNullifyFrom (fun s stop hlast ↦ ?_) h
  cases hlast

namespace Merged

/-- Merging makes code no longer. -/
theorem length_le (h : Merged code out) : out.length ≤ code.length := by
  induction h with
  | nil => exact Nat.le_refl _
  | keep _ ih => exact Nat.succ_le_succ ih
  | join _ _ _ ih =>
    rw [List.length_cons] at ih
    exact Nat.le_succ_of_le ih

/-- Merging keeps the labels that are defined. -/
theorem labelsOf_eq (h : Merged code out) : labelsOf out = labelsOf code := by
  have hnone {s : Statement} (hs : s.op = .nullify) : s.label? = none := by
    rw [Statement.label?, Statement.isLabel, hs]
    rfl
  induction h with
  | nil => rfl
  | @keep s rest out _ ih =>
    rw [← List.singleton_append, labelsOf_append, ih, ← labelsOf_append, List.singleton_append]
  | @join s t rest out hs ht _ ih =>
    have hjoined : (s.withLast (t.operands.getD 1 .null)).op = .nullify := hs
    rw [ih, labelsOf, labelsOf, List.filterMap_cons_none (hnone hjoined),
      List.filterMap_cons_none (hnone hs), List.filterMap_cons_none (hnone ht)]

/-- What holds of all statements and survives a join holds of all statements after merging. -/
theorem forall_mem {P : Statement → Prop}
    (hjoin : ∀ s t : Statement, s.op = .nullify → t.op = .nullify → P s → P t →
      P (s.withLast (t.operands.getD 1 .null)))
    (h : Merged code out) (hall : ∀ s ∈ code, P s) : ∀ s ∈ out, P s := by
  induction h with
  | nil => exact hall
  | keep _ ih =>
    rw [List.forall_mem_cons] at hall ⊢
    exact ⟨hall.1, ih hall.2⟩
  | @join s t rest out hs ht _ ih =>
    rw [List.forall_mem_cons, List.forall_mem_cons] at hall
    refine ih (List.forall_mem_cons.mpr ⟨?_, hall.2.2⟩)
    exact hjoin s t hs ht hall.1 hall.2.1

/-- Merged code ends in an exit if the code did. -/
theorem closed (h : Merged code out) (hc : Closed code) : Closed out := by
  have hopen {s : Statement} {rest : List Statement} (hs : s.op = .nullify)
      (hc : Closed (s :: rest)) : Closed rest := by
    refine closed_of_append (a := [s]) hc (not_closed_concat (a := []) ?_)
    rw [hs]
    rfl
  induction h with
  | nil => exact hc
  | @keep s rest out h ih =>
    rcases closed_of_cons hc with hrest | ⟨rfl, hop⟩
    · exact closed_cons (ih hrest)
    · cases h
      exact closed_singleton hop
  | @join s t rest out hs ht _ ih => exact ih (closed_cons (hopen ht (hopen hs hc)))

end Merged

end MethodCompiler
