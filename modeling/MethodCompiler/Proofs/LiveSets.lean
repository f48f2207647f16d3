import Mathlib.Data.List.Perm.Subperm
import MethodCompiler.Flow.Liveness

/-!
# Live sets solve the dataflow equations

Sweeps only add registers, and a sweep that changes a set makes the total number of entries larger.
The bound on the number of sweeps is therefore never reached, and the sets that come back are those
that a further sweep leaves alone. For them the equations hold block by block.
-/

namespace MethodCompiler

/-! ### Sets of registers -/

namespace RegisterSet

@[simp] private theorem mem_insert {r x : Nat} {s : RegisterSet} : x ∈ insert r s ↔ x = r ∨ x ∈ s := by
  induction s with
  | nil => simp [insert]
  | cons y rest ih =>
    simp only [insert]
    split
    · simp
    · split
      · next h => simp [beq_iff_eq.mp h]
      · simp only [List.mem_cons, ih]
        exact or_left_comm

@[simp] private theorem mem_union {x : Nat} {s t : RegisterSet} : x ∈ union s t ↔ x ∈ s ∨ x ∈ t := by
  unfold union
  induction s generalizing t with
  | nil => simp
  | cons y rest ih => simp [ih, or_left_comm, or_assoc]

/-- A set made from a list has its registers. -/
@[simp] theorem mem_ofList {x : Nat} {rs : List Nat} : x ∈ ofList rs ↔ x ∈ rs := by
  simp [ofList]

@[simp] private theorem mem_diff {x : Nat} {s t : RegisterSet} : x ∈ diff s t ↔ x ∈ s ∧ x ∉ t := by
  simp [diff]

/-- The registers of an intersection are those of both sets. -/
@[simp] theorem mem_inter {x : Nat} {s t : RegisterSet} : x ∈ inter s t ↔ x ∈ s ∧ x ∈ t := by
  simp [inter]

/-- A set lists its registers in ascending order, each once. -/
def Ascending (s : RegisterSet) : Prop := s.Pairwise (· < ·)

private theorem Ascending.insert {s : RegisterSet} (h : s.Ascending) (r : Nat) :
    (insert r s).Ascending := by
  induction s with
  | nil => simp [RegisterSet.insert, Ascending]
  | cons y rest ih =>
    obtain ⟨hy, hr⟩ := List.pairwise_cons.mp h
    simp only [RegisterSet.insert]
    split
    · next hlt =>
      refine List.pairwise_cons.mpr ⟨?_, h⟩
      intro z hz
      rcases List.mem_cons.mp hz with rfl | hz
      · exact hlt
      · exact Nat.lt_trans hlt (hy z hz)
    · split
      · exact h
      · next hlt hne =>
        refine List.pairwise_cons.mpr ⟨?_, ih hr⟩
        intro z hz
        rcases mem_insert.mp hz with rfl | hz
        · simp only [beq_iff_eq] at hne
          omega
        · exact hy z hz

/-- A union stands in ascending order if the set that it adds to does. -/
theorem Ascending.union {s t : RegisterSet} (h : t.Ascending) : (union s t).Ascending := by
  unfold RegisterSet.union
  induction s generalizing t with
  | nil => exact h
  | cons y rest ih => exact ih (h.insert y)

private theorem Ascending.nodup {s : RegisterSet} (h : s.Ascending) : s.Nodup :=
  List.Pairwise.imp Nat.ne_of_lt h

/-- Ascending sets with the same registers are equal. -/
theorem Ascending.eq_of_mem_iff {s t : RegisterSet} (hs : s.Ascending) (ht : t.Ascending)
    (h : ∀ x, x ∈ s ↔ x ∈ t) : s = t :=
  List.Perm.eq_of_pairwise (fun _ _ _ _ hab hba ↦ absurd hab (Nat.lt_asymm hba)) hs ht
    ((List.perm_ext_iff_of_nodup hs.nodup ht.nodup).mpr h)

/-- A set inside another has no more registers, and as many only if it is the other. -/
private theorem Ascending.length_lt {s t : RegisterSet} (hs : s.Ascending) (ht : t.Ascending)
    (h : s ⊆ t) (hne : s ≠ t) : s.length < t.length := by
  have hle := (List.subperm_of_subset hs.nodup h).length_le
  refine Nat.lt_of_le_of_ne hle fun he ↦ hne ?_
  have hp := (List.subperm_of_subset hs.nodup h).perm_of_length_le (Nat.le_of_eq he.symm)
  exact hs.eq_of_mem_iff ht fun x ↦ hp.mem_iff

end RegisterSet

/-! ### One block -/

namespace BlockFlow

/-- The registers that are live out of a block are those live into one of its successors. -/
@[simp] theorem mem_liveOut {f : BlockFlow} {sets : Nat → RegisterSet} {r : Nat} :
    r ∈ f.liveOut sets ↔ ∃ s ∈ f.successors, r ∈ sets s := by
  have fold (ss : List Nat) (acc : RegisterSet) :
      r ∈ ss.foldl (fun acc s ↦ RegisterSet.union (sets s) acc) acc ↔
        (∃ s ∈ ss, r ∈ sets s) ∨ r ∈ acc := by
    induction ss generalizing acc with
    | nil => simp
    | cons s rest ih => simp [ih, or_assoc, or_left_comm]
  simp [liveOut, fold]

/-- The registers that are live into a block are those that it uses, and those live out of it that it does
not define. -/
@[simp] theorem mem_liveIn {f : BlockFlow} {sets : Nat → RegisterSet} {r : Nat} :
    r ∈ f.liveIn sets ↔ (r ∈ f.liveOut sets ∧ r ∉ f.defs) ∨ r ∈ f.uses := by
  simp [liveIn]

private theorem liveIn_mono (f : BlockFlow) {sets sets' : Nat → RegisterSet}
    (h : ∀ s, sets s ⊆ sets' s) : f.liveIn sets ⊆ f.liveIn sets' := by
  intro r hr
  simp only [mem_liveIn, mem_liveOut] at hr ⊢
  rcases hr with ⟨⟨s, hs, hm⟩, hd⟩ | hu
  · exact .inl ⟨⟨s, hs, h s hm⟩, hd⟩
  · exact .inr hu

/-- The registers that a run of statements writes are those it wrote before and those of each
statement. -/
theorem mem_gather_defs {uses defs : RegisterSet} {stmts : List Statement} {r : Nat} :
    r ∈ (gather uses defs stmts).2 ↔ r ∈ defs ∨ ∃ s ∈ stmts, r ∈ s.writes := by
  induction stmts generalizing uses defs with
  | nil => simp [gather]
  | cons s rest ih => simp [gather, ih, or_left_comm, or_assoc]

/-- A register is used when some statement reads it and no statement before that one writes it. -/
theorem mem_gather_uses {uses defs : RegisterSet} {stmts : List Statement} {r : Nat} :
    r ∈ (gather uses defs stmts).1 ↔ r ∈ uses ∨ (r ∉ defs ∧
      ∃ (before : List Statement) (s : Statement) (after : List Statement),
        stmts = before ++ s :: after ∧ r ∈ s.reads ∧ ∀ t ∈ before, r ∉ t.writes) := by
  induction stmts generalizing uses defs with
  | nil => simp [gather]
  | cons s rest ih =>
    simp only [gather, ih, RegisterSet.mem_union, List.mem_filter, Bool.not_eq_true',
      List.contains_eq_mem, decide_eq_false_iff_not, not_or]
    constructor
    · rintro ((⟨hr, hd⟩ | hu) | ⟨⟨hw, hd⟩, before, t, after, rfl, ht, hb⟩)
      · exact .inr ⟨hd, [], s, rest, rfl, hr, by simp⟩
      · exact .inl hu
      · refine .inr ⟨hd, s :: before, t, after, rfl, ht, ?_⟩
        intro u hu
        rcases List.mem_cons.mp hu with rfl | hu
        · exact hw
        · exact hb u hu
    · rintro (hu | ⟨hd, before, t, after, he, ht, hb⟩)
      · exact .inl (.inr hu)
      · cases before with
        | nil =>
          obtain ⟨rfl, rfl⟩ := List.cons.inj he
          exact .inl (.inl ⟨ht, hd⟩)
        | cons u before =>
          obtain ⟨rfl, rfl⟩ := List.cons.inj he
          refine .inr ⟨⟨hb s (by simp), hd⟩, before, t, after, rfl, ht, ?_⟩
          exact fun v hv ↦ hb v (List.mem_cons_of_mem s hv)

private theorem gather_uses_ascending {uses defs : RegisterSet} (stmts : List Statement)
    (h : uses.Ascending) : (gather uses defs stmts).1.Ascending := by
  induction stmts generalizing uses defs with
  | nil => exact h
  | cons s rest ih => exact ih h.union

end BlockFlow

/-! ### Sweeps -/

namespace Liveness

/-- A sweep over the blocks from number `k` on, as a recursion on their list. -/
private def sweepFrom (old : List RegisterSet) : Nat → List BlockFlow → List RegisterSet
  | _, [] => []
  | k, f :: rest =>
    let later := sweepFrom old (k + 1) rest
    f.liveIn (fun s ↦ if s ≤ k then old.getD s [] else later.getD (s - k - 1) []) :: later

private theorem sweep_eq_sweepFrom (flows : List BlockFlow) (old : List RegisterSet) :
    sweep flows old = sweepFrom old 0 flows := by
  unfold sweep
  generalize 0 = k
  induction flows generalizing k with
  | nil => rfl
  | cons f rest ih => simp only [List.zipIdx_cons, List.foldr_cons, ih, sweepFrom]

private theorem length_sweepFrom (old : List RegisterSet) (k : Nat) (flows : List BlockFlow) :
    (sweepFrom old k flows).length = flows.length := by
  induction flows generalizing k with
  | nil => rfl
  | cons f rest ih => simp [sweepFrom, ih]

private theorem getElem?_sweepFrom {old : List RegisterSet} {k i : Nat} {flows : List BlockFlow}
    {f : BlockFlow} (h : flows[i]? = some f) :
    (sweepFrom old k flows)[i]? = some (f.liveIn fun s ↦
      if s ≤ k + i then old.getD s [] else (sweepFrom old k flows).getD (s - k) []) := by
  induction flows generalizing k i with
  | nil => simp at h
  | cons g rest ih =>
    cases i with
    | zero =>
      obtain rfl : g = f := by simpa using h
      simp only [sweepFrom, List.getElem?_cons_zero, Nat.add_zero]
      congr 2
      funext s
      split
      · rfl
      · rw [show s - k = s - k - 1 + 1 by omega, List.getD_cons_succ]
        simp
    | succ i =>
      simp only [sweepFrom, List.getElem?_cons_succ] at h ⊢
      rw [ih h]
      congr 2
      funext s
      rw [show k + 1 + i = k + (i + 1) by omega]
      split
      · rfl
      · rw [show s - k = s - (k + 1) + 1 by omega, List.getD_cons_succ]

/-- A sweep gives one set for each block. -/
theorem length_sweep (flows : List BlockFlow) (old : List RegisterSet) :
    (sweep flows old).length = flows.length := by
  rw [sweep_eq_sweepFrom, length_sweepFrom]

/-- A sweep gives each block the set that its equation asks for, from the new sets of later blocks
and the old sets of the others. -/
theorem getElem?_sweep (old : List RegisterSet) {flows : List BlockFlow} {b : Nat} {f : BlockFlow}
    (h : flows[b]? = some f) :
    (sweep flows old)[b]? = some (f.liveIn fun s ↦
      if s ≤ b then old.getD s [] else (sweep flows old).getD s []) := by
  rw [sweep_eq_sweepFrom, getElem?_sweepFrom h]
  simp

/-- One list of sets lies inside another, block by block. -/
def Below (sets sets' : List RegisterSet) : Prop := ∀ b, sets.getD b [] ⊆ sets'.getD b []

private theorem below_sweepFrom {old old' : List RegisterSet} (h : Below old old') (k : Nat)
    (flows : List BlockFlow) : Below (sweepFrom old k flows) (sweepFrom old' k flows) := by
  induction flows generalizing k with
  | nil => intro b; simp [sweepFrom]
  | cons f rest ih =>
    intro b
    cases b with
    | zero =>
      simp only [sweepFrom, List.getD_cons_zero]
      apply f.liveIn_mono
      intro s
      split
      · exact h s
      · exact ih (k + 1) _
    | succ b => simpa only [sweepFrom, List.getD_cons_succ] using ih (k + 1) b

/-- Sweeps are monotone. -/
theorem below_sweep {old old' : List RegisterSet} (h : Below old old') (flows : List BlockFlow) :
    Below (sweep flows old) (sweep flows old') := by
  rw [sweep_eq_sweepFrom, sweep_eq_sweepFrom]
  exact below_sweepFrom h 0 flows

/-- What holds of the sets between two sweeps. -/
structure Growing (flows : List BlockFlow) (sets : List RegisterSet) : Prop where
  length_eq : sets.length = flows.length
  ascending : ∀ s ∈ sets, s.Ascending
  /-- Only registers that some block uses are ever live. -/
  bounded : ∀ s ∈ sets, s ⊆ flows.flatMap (·.uses)
  below : Below sets (sweep flows sets)

private theorem mem_sweep {flows : List BlockFlow} {sets : List RegisterSet} {t : RegisterSet}
    (h : t ∈ sweep flows sets) : ∃ (b : Nat) (f : BlockFlow), flows[b]? = some f ∧
      t = f.liveIn fun s ↦
        if s ≤ b then sets.getD s [] else (sweep flows sets).getD s [] := by
  obtain ⟨b, hb, rfl⟩ := List.getElem_of_mem h
  have hf : flows[b]? = some (flows.get ⟨b, by rwa [length_sweep] at hb⟩) :=
    List.getElem?_eq_getElem _
  refine ⟨b, _, hf, ?_⟩
  have he := getElem?_sweep sets hf
  rw [List.getElem?_eq_getElem hb] at he
  exact Option.some.inj he

private theorem getD_subset {sets : List RegisterSet} {all : List Nat}
    (h : ∀ s ∈ sets, s ⊆ all) (b : Nat) : sets.getD b [] ⊆ all := by
  rw [List.getD_eq_getElem?_getD]
  cases hb : sets[b]? with
  | none => simp
  | some s => simpa using h s (List.mem_of_getElem? hb)

private theorem bounded_sweepFrom {old : List RegisterSet} {all : List Nat}
    (ho : ∀ s ∈ old, s ⊆ all) (k : Nat) (flows : List BlockFlow)
    (hu : ∀ f ∈ flows, f.uses ⊆ all) : ∀ s ∈ sweepFrom old k flows, s ⊆ all := by
  induction flows generalizing k with
  | nil => simp [sweepFrom]
  | cons f rest ih =>
    have hr := ih (k + 1) fun g hg ↦ hu g (List.mem_cons_of_mem f hg)
    intro t ht
    rcases List.mem_cons.mp ht with rfl | ht
    · intro r hm
      simp only [BlockFlow.mem_liveIn, BlockFlow.mem_liveOut] at hm
      rcases hm with ⟨⟨s, -, hm⟩, -⟩ | hm
      · split at hm
        · exact getD_subset ho s hm
        · exact getD_subset hr _ hm
      · exact hu f List.mem_cons_self hm
    · exact hr t ht

private theorem Growing.sweep {flows : List BlockFlow} {sets : List RegisterSet}
    (hu : ∀ f ∈ flows, f.uses.Ascending) (h : Growing flows sets) :
    Growing flows (sweep flows sets) where
  length_eq := length_sweep flows sets
  ascending := by
    intro t ht
    obtain ⟨b, f, hf, rfl⟩ := mem_sweep ht
    exact (hu f (List.mem_of_getElem? hf)).union
  bounded := by
    rw [sweep_eq_sweepFrom]
    apply bounded_sweepFrom h.bounded
    intro f hf r hr
    exact List.mem_flatMap.mpr ⟨f, hf, hr⟩
  below := below_sweep h.below flows

/-- The number of entries of all sets together. -/
def total (sets : List RegisterSet) : Nat := sets.flatten.length

private theorem total_lt {sets sets' : List RegisterSet} (hl : sets.length = sets'.length)
    (hs : ∀ s ∈ sets, s.Ascending) (hs' : ∀ s ∈ sets', s.Ascending) (hb : Below sets sets')
    (hne : sets ≠ sets') : total sets < total sets' := by
  induction sets generalizing sets' with
  | nil =>
    cases sets' with
    | nil => exact absurd rfl hne
    | cons t rest' => simp at hl
  | cons s rest ih =>
    cases sets' with
    | nil => simp at hl
    | cons t rest' =>
      have hst : s ⊆ t := by simpa using hb 0
      have hrest : Below rest rest' := fun b ↦ by simpa using hb (b + 1)
      have hsa := hs s List.mem_cons_self
      have hta := hs' t List.mem_cons_self
      have hle := (List.subperm_of_subset hsa.nodup hst).length_le
      have hl' : rest.length = rest'.length := by simpa using hl
      have ih' := ih hl' (fun u hu ↦ hs u (List.mem_cons_of_mem s hu))
        (fun u hu ↦ hs' u (List.mem_cons_of_mem t hu)) hrest
      simp only [total, List.flatten_cons, List.length_append] at ih' ⊢
      by_cases hr : rest = rest'
      · subst hr
        have hlt := hsa.length_lt hta hst fun he ↦ hne (by rw [he])
        omega
      · have hlt := ih' hr
        omega

private theorem total_le {sets : List RegisterSet} {all : List Nat}
    (hs : ∀ s ∈ sets, s.Ascending) (hb : ∀ s ∈ sets, s ⊆ all) :
    total sets ≤ sets.length * all.length := by
  induction sets with
  | nil => simp [total]
  | cons s rest ih =>
    have hle := (List.subperm_of_subset (hs s List.mem_cons_self).nodup
      (hb s List.mem_cons_self)).length_le
    have ih' := ih (fun u hu ↦ hs u (List.mem_cons_of_mem s hu))
      (fun u hu ↦ hb u (List.mem_cons_of_mem s hu))
    simp only [total, List.flatten_cons, List.length_append, List.length_cons, Nat.succ_mul] at ih' ⊢
    omega

/-- With more sweeps to go than entries to add, the iteration ends in sets that a sweep keeps. -/
private theorem sweep_iterate {flows : List BlockFlow} (hu : ∀ f ∈ flows, f.uses.Ascending)
    {fuel : Nat} {sets : List RegisterSet} (h : Growing flows sets)
    (hf : flows.length * (flows.flatMap (·.uses)).length < total sets + fuel) :
    sweep flows (iterate flows fuel sets) = iterate flows fuel sets := by
  induction fuel generalizing sets with
  | zero =>
    have hle := total_le h.ascending h.bounded
    rw [h.length_eq] at hle
    omega
  | succ fuel ih =>
    simp only [iterate]
    split
    · next he => exact beq_iff_eq.mp he
    · next hne =>
      have hg := h.sweep hu
      have hlt := total_lt (h.length_eq.trans hg.length_eq.symm) h.ascending hg.ascending h.below
        fun he ↦ hne (beq_iff_eq.mpr he.symm)
      exact ih hg (by omega)

private theorem growing_empty (flows : List BlockFlow) : Growing flows (flows.map fun _ ↦ []) where
  length_eq := List.length_map _
  ascending := by simp [RegisterSet.Ascending]
  bounded := by simp
  below := by
    intro b
    rw [List.getD_eq_getElem?_getD, List.getElem?_map]
    cases flows[b]? <;> simp

/-- The sets that come back are a solution: another sweep changes nothing. -/
theorem sweep_iterate_sweepBound {flows : List BlockFlow}
    (hu : ∀ f ∈ flows, f.uses.Ascending) :
    sweep flows (iterate flows (sweepBound flows) (flows.map fun _ ↦ [])) =
      iterate flows (sweepBound flows) (flows.map fun _ ↦ []) := by
  apply sweep_iterate hu (growing_empty flows)
  rw [sweepBound]
  omega

/-! ### The equations -/

variable {code : List Statement} {g : FlowGraph} {b : Nat} {block : Block} {r : Nat}

/-- What the blocks of a graph do to registers. -/
def flowsOf (code : List Statement) (g : FlowGraph) : List BlockFlow :=
  g.blocks.zipIdx.map fun (block, id) ↦ BlockFlow.ofBlock g code id block

/-- The flow of a block is made from the block. -/
theorem getElem?_flowsOf (code : List Statement) (hb : g.blocks[b]? = some block) :
    (flowsOf code g)[b]? = some (BlockFlow.ofBlock g code b block) := by
  simp [flowsOf, hb]

private theorem flowsOf_uses_ascending : ∀ f ∈ flowsOf code g, f.uses.Ascending := by
  intro f hf
  obtain ⟨⟨block, id⟩, -, rfl⟩ := List.mem_map.mp hf
  exact BlockFlow.gather_uses_ascending _ List.Pairwise.nil

/-- The sets that are computed are a solution: another sweep changes nothing. -/
theorem sweep_compute (code : List Statement) (g : FlowGraph) :
    sweep (flowsOf code g) (compute code g).liveIn = (compute code g).liveIn :=
  sweep_iterate_sweepBound flowsOf_uses_ascending

/-- Live at the end of a block is what is live at the start of some block after it. -/
theorem mem_liveOut_compute (hb : g.blocks[b]? = some block) :
    r ∈ (compute code g).liveOut.getD b [] ↔
      ∃ s ∈ g.successors b, r ∈ (compute code g).liveIn.getD s [] := by
  change r ∈ ((flowsOf code g).map
    (·.liveOut fun s ↦ (compute code g).liveIn.getD s [])).getD b [] ↔ _
  rw [List.getD_eq_getElem?_getD, List.getElem?_map, getElem?_flowsOf code hb, Option.map_some,
    Option.getD_some, BlockFlow.mem_liveOut]
  rfl

/-- Live at the start of a block is what it reads before writing it, and what is live at its end and
not written. -/
theorem mem_liveIn_compute (hb : g.blocks[b]? = some block) :
    r ∈ (compute code g).liveIn.getD b [] ↔
      (r ∈ (compute code g).liveOut.getD b [] ∧ ∀ s ∈ block.statements code, r ∉ s.writes) ∨
      ∃ (before : List Statement) (s : Statement) (after : List Statement),
        block.statements code = before ++ s :: after ∧ r ∈ s.reads ∧
        ∀ t ∈ before, r ∉ t.writes := by
  have hs := getElem?_sweep (compute code g).liveIn (getElem?_flowsOf code hb)
  simp only [sweep_compute, ite_self] at hs
  rw [List.getD_eq_getElem?_getD, hs, Option.getD_some, BlockFlow.mem_liveIn,
    BlockFlow.mem_liveOut, mem_liveOut_compute hb]
  simp [BlockFlow.ofBlock, BlockFlow.mem_gather_defs, BlockFlow.mem_gather_uses]

/-- The written registers are those that some statement writes. -/
theorem mem_written_compute :
    r ∈ (compute code g).written ↔ ∃ s ∈ code, r ∈ s.writes := by
  simp [compute]

end Liveness

end MethodCompiler
