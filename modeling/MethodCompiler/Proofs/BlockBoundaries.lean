import MethodCompiler.Proofs.FlowEdges

/-!
# Where blocks begin and end

Code is cut in exactly three kinds of places: before its first statement, before a label and after a
statement that ends its block. Between two cuts lies one block, so that the blocks, one after the
other, are all positions of the code, and the block number that a flow graph gives for a position is
that of the only block that holds it.
-/

namespace MethodCompiler

namespace Block

/-- The positions of a block, in order. -/
def positions (b : Block) : List Nat := List.range' b.start b.size

/-- A place to cut: the first position, a label, or the position after a statement that ends its
block. -/
def CutBefore (code : List Statement) (i : Nat) : Prop :=
  i = 0 ∨ (code[i]?).any (·.isLabel) = true ∨ (code[i - 1]?).any (·.op.exitsBlock) = true

/-- Blocks that divide some code, with cuts only where there must be one. -/
structure Partitions (blocks : List Block) (code : List Statement) : Prop where
  nonempty : ∀ b ∈ blocks, b.start ≤ b.last
  consecutive : blocks.IsChain fun b b' ↦ b'.start = b.last + 1
  /-- The blocks hold every position once, in order. -/
  covers : blocks.flatMap positions = List.range code.length
  starts_iff : ∀ i, (∃ b ∈ blocks, b.start = i) ↔ i < code.length ∧ CutBefore code i
  label_first : ∀ b ∈ blocks, ∀ i s, b.contains i = true → code[i]? = some s →
    s.isLabel = true → i = b.start
  exit_last : ∀ b ∈ blocks, ∀ i s, b.contains i = true → code[i]? = some s →
    s.op.exitsBlock = true → i = b.last

namespace Tiles

variable {lo hi : Nat} {bs : List Block}

private theorem flatMap_positions (h : Tiles lo bs hi) :
    bs.flatMap positions = List.range' lo (hi - lo) := by
  induction bs generalizing lo with
  | nil =>
    obtain rfl : lo = hi := h
    simp
  | cons b rest ih =>
    obtain ⟨rfl, hb, hr⟩ := h
    have hle := hr.le
    have hnext : b.last + 1 = b.start + b.size := by
      simp only [size]
      omega
    have hlen : hi - b.start = b.size + (hi - (b.start + b.size)) := by omega
    rw [List.flatMap_cons, ih hr, positions, hnext, List.range'_append_1, ← hlen]

private theorem isChain (h : Tiles lo bs hi) : bs.IsChain fun b b' ↦ b'.start = b.last + 1 := by
  induction bs generalizing lo with
  | nil => exact .nil
  | cons b rest ih =>
    obtain ⟨-, -, hr⟩ := h
    cases rest with
    | nil => exact .singleton b
    | cons b' rest => exact .cons_cons hr.1 (ih hr)

/-- A position of the tiled range has the number of the block that holds it, and no other. -/
private theorem indexOf_eq_iff {p id : Nat} (h : Tiles lo bs hi) (hlo : lo ≤ p) (hhi : p < hi) :
    indexOf bs p = id ↔ ∃ b, bs[id]? = some b ∧ b.contains p = true := by
  constructor
  · rintro rfl
    obtain ⟨id, b, hb, hp⟩ := h.exists_contains hlo hhi
    rw [h.indexOf_eq hb hp]
    exact ⟨b, hb, hp⟩
  · rintro ⟨b, hb, hp⟩
    exact h.indexOf_eq hb hp

end Tiles

/-- The scan keeps that the open block began at a place to cut, so every block it closes did. -/
private theorem cutBefore_of_mem_splitFrom {all code : List Statement} {start position : Nat}
    {b : Block} (hcode : all.drop position = code) (hstart : CutBefore all start)
    (hb : b ∈ splitFrom start position code) : CutBefore all b.start := by
  induction code generalizing start position with
  | nil =>
    simp only [splitFrom, List.mem_ite_nil_right, List.mem_singleton] at hb
    obtain ⟨-, rfl⟩ := hb
    exact hstart
  | cons s rest ih =>
    have hs : all[position]? = some s := by
      rw [← List.head?_drop, hcode, List.head?_cons]
    have hrest : all.drop (position + 1) = rest := by
      rw [← List.tail_drop, hcode, List.tail_cons]
    have hopen : CutBefore all
        (if (s.isLabel && decide (start < position)) = true then position else start) := by
      split
      · next hl =>
        have hl : s.isLabel = true := (Bool.and_eq_true_iff.mp hl).1
        exact .inr (.inl (by rw [hs]; exact hl))
      · exact hstart
    have hclosed : b ∈ (if (s.isLabel && decide (start < position)) = true
        then [⟨start, position - 1⟩] else []) → CutBefore all b.start := by
      rw [List.mem_ite_nil_right, List.mem_singleton]
      rintro ⟨-, rfl⟩
      exact hstart
    rw [splitFrom] at hb
    split at hb
    · next he =>
      have hafter : CutBefore all (position + 1) :=
        .inr (.inr (by rw [Nat.add_sub_cancel, hs]; exact he))
      rcases List.mem_append.mp hb with hb | hb
      · exact hclosed hb
      · rcases List.mem_cons.mp hb with rfl | hb
        · exact hopen
        · exact ih hrest hafter hb
    · rcases List.mem_append.mp hb with hb | hb
      · exact hclosed hb
      · exact ih hrest hopen hb

section Split

variable {code : List Statement} {i : Nat} {b : Block}

/-- A block that holds a place to cut starts there. -/
private theorem start_of_cutBefore (hb : b ∈ split code) (hi : b.contains i = true)
    (hcut : CutBefore code i) : b.start = i := by
  obtain ⟨id, hid⟩ := List.mem_iff_getElem?.mp hb
  obtain ⟨hlo, hhi⟩ := contains_iff.mp hi
  refine Nat.le_antisymm hlo (Nat.not_lt.mp fun hlt ↦ ?_)
  rcases hcut with rfl | hlabel | hexit
  · omega
  · obtain ⟨s, hs, hl⟩ := (Option.any_eq_true _ _).mp hlabel
    exact absurd hl (Bool.eq_false_iff.mp ((inside_split hid hs).1 hlt hhi))
  · obtain ⟨s, hs, he⟩ := (Option.any_eq_true _ _).mp hexit
    exact absurd he (Bool.eq_false_iff.mp ((inside_split hid hs).2 (by omega) (by omega)))

/-- A block that holds a statement that ends blocks ends there. -/
private theorem last_of_exitsBlock {s : Statement} (hb : b ∈ split code) (hi : b.contains i = true)
    (hs : code[i]? = some s) (he : s.op.exitsBlock = true) : b.last = i := by
  obtain ⟨id, hid⟩ := List.mem_iff_getElem?.mp hb
  obtain ⟨hlo, hhi⟩ := contains_iff.mp hi
  refine Nat.le_antisymm (Nat.not_lt.mp fun hlt ↦ ?_) hhi
  exact absurd he (Bool.eq_false_iff.mp ((inside_split hid hs).2 hlo hlt))

private theorem exists_start_iff :
    (∃ b ∈ split code, b.start = i) ↔ i < code.length ∧ CutBefore code i := by
  have ht := tiles_split code
  constructor
  · rintro ⟨b, hb, rfl⟩
    obtain ⟨id, hid⟩ := List.mem_iff_getElem?.mp hb
    have hbounds := ht.bounds hid
    exact ⟨by omega, cutBefore_of_mem_splitFrom List.drop_zero (.inl rfl) hb⟩
  · rintro ⟨hlt, hcut⟩
    obtain ⟨id, b, hid, hi⟩ := ht.exists_contains (Nat.zero_le i) hlt
    have hb := List.mem_of_getElem? hid
    exact ⟨b, hb, start_of_cutBefore hb hi hcut⟩

end Split

private theorem partitions_split (code : List Statement) : Partitions (split code) code where
  nonempty b hb := by
    obtain ⟨id, hid⟩ := List.mem_iff_getElem?.mp hb
    exact ((tiles_split code).bounds hid).2.1
  consecutive := (tiles_split code).isChain
  covers := by
    rw [(tiles_split code).flatMap_positions, Nat.sub_zero, List.range_eq_range']
  starts_iff _ := exists_start_iff
  label_first b hb i s hi hs hl := by
    have hcut : CutBefore code i := .inr (.inl (by rw [hs]; exact hl))
    exact (start_of_cutBefore hb hi hcut).symm
  exit_last b hb i s hi hs he := (last_of_exitsBlock hb hi hs he).symm

end Block

/-- The blocks of any code partition it at its labels and after its exits, and a flow graph numbers
every position by the one block that holds it. -/
theorem blocks_partition_code (code : List Statement) :
    Block.Partitions (Block.split code) code ∧
      ∀ constants g, FlowGraph.build code constants = .ok g → g.blocks = Block.split code ∧
        ∀ i < code.length, ∀ id,
          g.blockOf i = id ↔ ∃ b, g.blocks[id]? = some b ∧ b.contains i = true := by
  refine ⟨Block.partitions_split code, fun constants g hg ↦ ?_⟩
  have hblocks := FlowGraph.blocks_of_build hg
  refine ⟨hblocks, fun i hi id ↦ ?_⟩
  rw [FlowGraph.blockOf, hblocks]
  exact (Block.tiles_split code).indexOf_eq_iff (Nat.zero_le i) hi

/-- A loop that starts with its test: a jump first, two labels in a row, a label inside straight code
and an exit last. -/
private def testedLoopCode : List Statement :=
  [.of .jump [.label "test"],
    .label "body",
    .label "again",
    .of .move [.register 0 .bool, .input 0 .bool],
    .label "test",
    .of .jumpTrue [.register 0 .bool, .label "body"],
    .of .ret []]

private def testedLoopGraph : FlowGraph where
  blocks := [⟨0, 0⟩, ⟨1, 1⟩, ⟨2, 3⟩, ⟨4, 5⟩, ⟨6, 6⟩]
  regions := ⟨List.replicate 7 none, []⟩
  edges := [⟨0, .block 3, .branch⟩, ⟨1, .block 2, .fallthrough⟩, ⟨2, .block 3, .fallthrough⟩,
    ⟨3, .block 4, .fallthrough⟩, ⟨3, .block 1, .branch⟩]

/-- The label inside straight code opens a block of its own, which the branch after it closes. -/
theorem tested_loop_partitioned :
    FlowGraph.build testedLoopCode [] = .ok testedLoopGraph ∧
      Block.Partitions testedLoopGraph.blocks testedLoopCode ∧
      testedLoopGraph.blockOf 3 = 2 ∧ testedLoopGraph.blockOf 4 = 3 ∧
      testedLoopGraph.blockOf 5 = 3 ∧ testedLoopGraph.blockOf 6 = 4 := by
  have hg : FlowGraph.build testedLoopCode [] = .ok testedLoopGraph := rfl
  obtain ⟨hparts, hgraph⟩ := blocks_partition_code testedLoopCode
  obtain ⟨hblocks, hof⟩ := hgraph [] testedLoopGraph hg
  refine ⟨hg, hblocks ▸ hparts, (hof 3 (by decide) 2).mpr ⟨⟨2, 3⟩, rfl, rfl⟩,
    (hof 4 (by decide) 3).mpr ⟨⟨4, 5⟩, rfl, rfl⟩, (hof 5 (by decide) 3).mpr ⟨⟨4, 5⟩, rfl, rfl⟩,
    (hof 6 (by decide) 4).mpr ⟨⟨6, 6⟩, rfl, rfl⟩⟩

end MethodCompiler
