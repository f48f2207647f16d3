import Mathlib.Algebra.Group.Nat.Defs
import Mathlib.Data.List.Chain
import Mathlib.Data.List.Permutation
import MethodCompiler.Proofs.FlowEdges
import MethodCompiler.Proofs.LiveSets

/-!
# Live sets are path liveness

A register is live at the start of a block exactly when some path of blocks leads from there to a read
of it and nothing on the way writes it. That the sets miss no path follows from their equations; that
they hold nothing else is kept by every sweep, in whatever order it takes the blocks.
-/

namespace MethodCompiler

variable {code : List Statement} {g : FlowGraph} {v b : Nat}

/-- A block reads a register before it writes it. A statement reads before it writes. -/
def FlowGraph.ReadsFirst (g : FlowGraph) (code : List Statement) (v b : Nat) : Prop :=
  ∃ block, g.blocks[b]? = some block ∧ ∃ (before : List Statement) (s : Statement) (after : List Statement),
    block.statements code = before ++ s :: after ∧ v ∈ s.reads ∧ ∀ t ∈ before, v ∉ t.writes

/-- A block does not write a register. -/
def FlowGraph.Keeps (g : FlowGraph) (code : List Statement) (v b : Nat) : Prop :=
  ∃ block, g.blocks[b]? = some block ∧ ∀ s ∈ block.statements code, v ∉ s.writes

/-- A path of blocks from `b` that ends in one that reads a register first, while the ones before it
do not write the register. -/
structure FlowGraph.ReadPath (g : FlowGraph) (code : List Statement) (v b : Nat)
    (before : List Nat) (last : Nat) : Prop where
  starts : (before ++ [last]).head? = some b
  follows : (before ++ [last]).IsChain fun b s ↦ s ∈ g.successors b
  reads : g.ReadsFirst code v last
  keeps : ∀ c ∈ before, g.Keeps code v c

namespace FlowGraph.ReadPath

private theorem single (h : g.ReadsFirst code v b) : g.ReadPath code v b [] b :=
  ⟨rfl, .singleton b, h, nofun⟩

private theorem cons {s last : Nat} {before : List Nat} (h : g.ReadPath code v s before last)
    (hs : s ∈ g.successors b) (hkeeps : g.Keeps code v b) :
    g.ReadPath code v b (b :: before) last := by
  refine ⟨rfl, ?_, h.reads, List.forall_mem_cons.mpr ⟨hkeeps, h.keeps⟩⟩
  refine List.isChain_cons.mpr ⟨fun c hc ↦ ?_, h.follows⟩
  cases h.starts.symm.trans hc
  exact hs

end FlowGraph.ReadPath

namespace Liveness

variable {flows : List BlockFlow} {sets : List RegisterSet} {P : Nat → Nat → Prop}

/-- Facts about registers at the start of blocks that go back over the blocks: what a block uses has
the fact, and what has it after a block and is not written there has it before. -/
structure GoesBack (flows : List BlockFlow) (P : Nat → Nat → Prop) : Prop where
  uses : ∀ {b f r}, flows[b]? = some f → r ∈ f.uses → P b r
  passes : ∀ {b f s r}, flows[b]? = some f → s ∈ f.successors → r ∉ f.defs → P s r → P b r

/-- One sweep adds only registers that have the fact. -/
private theorem GoesBack.sweep (h : GoesBack flows P) (hsets : ∀ b, ∀ r ∈ sets.getD b [], P b r) :
    ∀ b, ∀ r ∈ (sweep flows sets).getD b [], P b r := by
  -- a sweep goes from the last block to the first, and sees what it has found for later blocks
  intro b
  induction hn : flows.length - b using Nat.strongRecOn generalizing b with
  | ind n ih =>
    intro r hr
    cases hf : flows[b]? with
    | none =>
      have hlen : (Liveness.sweep flows sets).length ≤ b := by
        rw [length_sweep]
        exact List.getElem?_eq_none_iff.mp hf
      rw [List.getD_eq_getElem?_getD, List.getElem?_eq_none hlen] at hr
      cases hr
    | some f =>
      have hb := (List.getElem?_eq_some_iff.mp hf).1
      rw [List.getD_eq_getElem?_getD, getElem?_sweep sets hf, Option.getD_some,
        BlockFlow.mem_liveIn, BlockFlow.mem_liveOut] at hr
      rcases hr with ⟨⟨s, hs, hr⟩, hdefs⟩ | huse
      · refine h.passes hf hs hdefs ?_
        split at hr
        · exact hsets s r hr
        · exact ih (flows.length - s) (by omega) s rfl r hr
      · exact h.uses hf huse

/-- So do any number of sweeps. -/
private theorem GoesBack.iterate (h : GoesBack flows P) (n : Nat) :
    ∀ b, ∀ r ∈ ((Liveness.sweep flows)^[n] (flows.map fun _ ↦ [])).getD b [], P b r := by
  induction n with
  | zero =>
    intro b r hr
    rw [Function.iterate_zero_apply, List.getD_eq_getElem?_getD, List.getElem?_map] at hr
    cases hf : flows[b]? <;> simp [hf] at hr
  | succ n ih =>
    rw [Function.iterate_succ_apply']
    exact h.sweep ih

private theorem exists_iterate_eq (flows : List BlockFlow) (fuel : Nat) (sets : List RegisterSet) :
    ∃ n ≤ fuel, iterate flows fuel sets = (sweep flows)^[n] sets := by
  induction fuel generalizing sets with
  | zero => exact ⟨0, Nat.le_refl 0, rfl⟩
  | succ fuel ih =>
    rw [Liveness.iterate]
    split
    · exact ⟨0, Nat.zero_le _, rfl⟩
    · obtain ⟨n, hn, heq⟩ := ih (Liveness.sweep flows sets)
      exact ⟨n + 1, Nat.succ_le_succ hn, heq⟩

/-- Each flow comes from a block. -/
theorem exists_of_getElem?_flowsOf {f : BlockFlow} (h : (flowsOf code g)[b]? = some f) :
    ∃ block, g.blocks[b]? = some block ∧ f = BlockFlow.ofBlock g code b block := by
  cases hb : g.blocks[b]? with
  | none => simp [flowsOf, hb] at h
  | some block =>
    rw [getElem?_flowsOf code hb] at h
    exact ⟨block, rfl, (Option.some.inj h).symm⟩

/-- What goes back over the blocks holds of all that is live. -/
theorem GoesBack.of_mem_liveIn (h : GoesBack (flowsOf code g) P) :
    ∀ b, ∀ r ∈ (compute code g).liveIn.getD b [], P b r := by
  obtain ⟨n, -, heq⟩ := exists_iterate_eq (flowsOf code g) (sweepBound (flowsOf code g))
    ((flowsOf code g).map fun _ ↦ [])
  have hlive : (compute code g).liveIn =
      (Liveness.sweep (flowsOf code g))^[n] ((flowsOf code g).map fun _ ↦ []) := heq
  rw [hlive]
  exact h.iterate n

private theorem goesBack_readPath (code : List Statement) (g : FlowGraph) :
    GoesBack (flowsOf code g) fun b v ↦ ∃ before last, g.ReadPath code v b before last where
  uses {b f v} hf hv := by
    obtain ⟨block, hb, rfl⟩ := exists_of_getElem?_flowsOf hf
    rw [BlockFlow.ofBlock, BlockFlow.mem_gather_uses] at hv
    obtain hv | ⟨-, hread⟩ := hv
    · cases hv
    · exact ⟨[], b, .single ⟨block, hb, hread⟩⟩
  passes {b f s v} hf hs hv := by
    rintro ⟨before, last, hpath⟩
    obtain ⟨block, hb, rfl⟩ := exists_of_getElem?_flowsOf hf
    refine ⟨b :: before, last, hpath.cons hs ⟨block, hb, fun t ht hw ↦ hv ?_⟩⟩
    rw [BlockFlow.ofBlock, BlockFlow.mem_gather_defs]
    exact .inr ⟨t, ht, hw⟩

/-- Along a path to a read the register is live. -/
theorem mem_liveIn_of_readPath {before : List Nat} {last : Nat}
    (h : g.ReadPath code v b before last) : v ∈ (compute code g).liveIn.getD b [] := by
  induction before generalizing b with
  | nil =>
    cases h.starts
    obtain ⟨block, hb, hread⟩ := h.reads
    exact (mem_liveIn_compute hb).mpr (.inr hread)
  | cons c before ih =>
    cases h.starts
    obtain ⟨⟨block, hb, hkeeps⟩, hrest⟩ := List.forall_mem_cons.mp h.keeps
    obtain ⟨hstep, hchain⟩ := List.isChain_cons.mp h.follows
    obtain ⟨s, hs⟩ : ∃ s, (before ++ [last]).head? = some s := by simp
    have hlive := ih ⟨hs, hchain, h.reads, hrest⟩
    exact (mem_liveIn_compute hb).mpr
      (.inl ⟨(mem_liveOut_compute hb).mpr ⟨s, hstep s hs, hlive⟩, hkeeps⟩)

/-- The sweeps come to an end. A register is then live at the start of a block exactly when a path
from there leads to a read of it with no write before, and live at the end of a block exactly when it
is live at the start of some successor. -/
theorem live_iff_path_to_read (code : List Statement) (g : FlowGraph) :
    (∃ n ≤ sweepBound (flowsOf code g),
      (compute code g).liveIn = (sweep (flowsOf code g))^[n] ((flowsOf code g).map fun _ ↦ []) ∧
        sweep (flowsOf code g) (compute code g).liveIn = (compute code g).liveIn) ∧
    ∀ b, b < g.blocks.length → ∀ v,
      (v ∈ (compute code g).liveIn.getD b [] ↔ ∃ before last, g.ReadPath code v b before last) ∧
        (v ∈ (compute code g).liveOut.getD b [] ↔
          ∃ s ∈ g.successors b, v ∈ (compute code g).liveIn.getD s []) := by
  obtain ⟨n, hn, heq⟩ := exists_iterate_eq (flowsOf code g) (sweepBound (flowsOf code g))
    ((flowsOf code g).map fun _ ↦ [])
  have hlive : (compute code g).liveIn =
      (sweep (flowsOf code g))^[n] ((flowsOf code g).map fun _ ↦ []) := heq
  refine ⟨⟨n, hn, hlive, sweep_compute code g⟩, fun b hb v ↦ ⟨⟨fun hv ↦ ?_, ?_⟩, ?_⟩⟩
  · rw [hlive] at hv
    exact (goesBack_readPath code g).iterate n b v hv
  · rintro ⟨before, last, hpath⟩
    exact mem_liveIn_of_readPath hpath
  · exact mem_liveOut_compute (List.getElem?_eq_getElem hb)

/-- Two loops that share code. The first of them reads register 0. -/
private def twoLoopsCode : List Statement :=
  [.of .jump [.label "both"],
    .label "first",
    .of .reref [.input 0 .i32, .register 0 .i32],
    .label "both",
    .of .jumpTrue [.register 1 .bool, .label "first"],
    .of .jumpTrue [.register 2 .bool, .label "both"],
    .of .ret []]

private def twoLoopsGraph : FlowGraph where
  blocks := [⟨0, 0⟩, ⟨1, 2⟩, ⟨3, 4⟩, ⟨5, 5⟩, ⟨6, 6⟩]
  regions := ⟨List.replicate 7 none, []⟩
  edges := [⟨0, .block 2, .branch⟩, ⟨1, .block 2, .fallthrough⟩, ⟨2, .block 3, .fallthrough⟩,
    ⟨2, .block 1, .branch⟩, ⟨3, .block 4, .fallthrough⟩, ⟨3, .block 2, .branch⟩]

/-- From the second loop a path leads over both back edges to the read; after the loops none does. -/
theorem live_over_two_back_edges :
    FlowGraph.build twoLoopsCode [] = .ok twoLoopsGraph ∧
      (∃ before last, twoLoopsGraph.ReadPath twoLoopsCode 0 3 before last) ∧
      ¬∃ before last, twoLoopsGraph.ReadPath twoLoopsCode 0 4 before last := by
  obtain ⟨-, hlive⟩ := live_iff_path_to_read twoLoopsCode twoLoopsGraph
  have hflows : flowsOf twoLoopsCode twoLoopsGraph =
      [⟨[], [], [2]⟩, ⟨[0], [], [2]⟩, ⟨[1], [], [1, 3]⟩, ⟨[2], [], [2, 4]⟩, ⟨[], [], []⟩] := rfl
  have hsets : (compute twoLoopsCode twoLoopsGraph).liveIn =
      [[0, 1, 2], [0, 1, 2], [0, 1, 2], [0, 1, 2], []] := by
    change iterate (flowsOf twoLoopsCode twoLoopsGraph) _ _ = _
    rw [hflows]
    decide
  rw [hsets] at hlive
  exact ⟨rfl, (hlive 3 (by decide) 0).1.mp (by decide),
    fun hpath ↦ absurd ((hlive 4 (by decide) 0).1.mpr hpath) (by decide)⟩

end Liveness

end MethodCompiler
