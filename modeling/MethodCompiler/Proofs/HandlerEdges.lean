import Mathlib.Data.List.Permutation
import Mathlib.Data.Option.Basic
import MethodCompiler.Proofs.FlowEdges
import MethodCompiler.Proofs.LiveSets
import MethodCompiler.Proofs.Machine
import MethodCompiler.Proofs.RegionWalk

/-!
# Edges from protected code to its handlers

An exception goes outward through the open regions to the first one that receives it. A block has one
edge for exceptions, and the innermost region of its last statement alone decides where it leads. So
the edge is there for a statement whose own region receives the exception, unless another region opens
behind it in its block; a handler inside protected code has none to the handler around it. Live sets
follow the edge from the end of the block, where a register that the block writes is no longer needed
from before it.
-/

namespace MethodCompiler

variable {code : List Statement} {map : RegionMap} {t t' : RegionTracker} {s s' : Statement}
  {stack : RegionStack} {position p : Nat} {l : String}

/-! ### States inside a block -/

private theorem RegionTracker.Steps.stack_eq (h : t.Steps s position stack t') (hopen : s.op ≠ .enterTry)
    (hclose : s.op ≠ .endFinally) : t'.stack = stack := by
  cases h with
  | plain | crosses => rfl
  | opens hop => exact absurd hop hopen
  | closes hop => exact absurd hop hclose

private theorem RegionTracker.Steps.stack_of_label? (h : t.Steps s position stack t')
    (hl : s.label? = none) : stack = t.stack := by
  cases h with
  | plain | opens | closes => rfl
  | crosses hl' =>
    rw [hl] at hl'
    cases hl'

/-- A statement that opens and closes nothing is in the state of the next one, unless that is a label. -/
private theorem RegionMap.getElem?_states_succ {start i : Nat}
    (h : scanFrom t start code = .ok map) (hs : code[i]? = some s) (hs' : code[i + 1]? = some s')
    (hopen : s.op ≠ .enterTry) (hclose : s.op ≠ .endFinally) (hl : s'.label? = none) :
    map.states[i + 1]? = map.states[i]? := by
  induction code generalizing t start i map with
  | nil => cases hs
  | cons first rest ih =>
    obtain ⟨⟨state, t₁⟩, hstep, h⟩ := bind_eq_ok.mp h
    obtain ⟨tail, htail, h⟩ := bind_eq_ok.mp h
    cases h
    cases i with
    | succ i =>
      rw [List.getElem?_cons_succ] at hs hs'
      rw [List.getElem?_cons_succ, List.getElem?_cons_succ]
      exact ih htail hs hs'
    | zero =>
      cases hs
      cases rest with
      | nil => cases hs'
      | cons second rest =>
        cases hs'
        obtain ⟨⟨state', t₂⟩, hstep', htail⟩ := bind_eq_ok.mp htail
        obtain ⟨tail', -, htail⟩ := bind_eq_ok.mp htail
        cases htail
        obtain ⟨stack, rfl, hsteps⟩ := RegionTracker.steps_of_step hstep
        obtain ⟨stack', rfl, hsteps'⟩ := RegionTracker.steps_of_step hstep'
        rw [hsteps'.stack_of_label? hl, hsteps.stack_eq hopen hclose]
        rfl

/-- From a statement on to the end of its block the state stays the same if no region is opened. -/
private theorem RegionMap.stateAt_last {id : Nat} {block : Block} (h : scan code = .ok map)
    (hb : (Block.split code)[id]? = some block) (hp : block.contains p = true)
    (htry : ∀ q s, p ≤ q → q < block.last → code[q]? = some s → s.op ≠ .enterTry) :
    map.stateAt block.last = map.stateAt p := by
  simp only [Block.contains, Bool.and_eq_true, decide_eq_true_eq] at hp
  have hlast := ((Block.tiles_split code).bounds hb).2.2
  have hstep (n : Nat) (hn : p + n ≤ block.last) : map.stateAt (p + n) = map.stateAt p := by
    induction n with
    | zero => rfl
    | succ n ih =>
      have hs : code[p + n]? = some code[p + n] := List.getElem?_eq_getElem (by omega)
      have hs' : code[p + n + 1]? = some code[p + n + 1] := List.getElem?_eq_getElem (by omega)
      have hclose : code[p + n].op ≠ .endFinally := by
        intro hop
        have hinside := (Block.inside_split hb hs).2 (by omega) (by omega)
        rw [hop] at hinside
        cases hinside
      have hl : code[p + n + 1].label? = none := by
        rw [Statement.label?, if_neg]
        exact Bool.eq_false_iff.mp ((Block.inside_split hb hs').1 (by omega) (by omega))
      rw [← ih (by omega), stateAt, stateAt, ← Nat.add_assoc,
        getElem?_states_succ h hs hs' (htry _ _ (by omega) (by omega) hs) hclose hl]
  obtain ⟨n, hn⟩ := Nat.exists_eq_add_of_le hp.2
  rw [hn]
  exact hstep n (by omega)

/-! ### Receivers -/

/-- The label to which a region sends exceptions that are raised in one of its phases. -/
def Region.receives? (r : Region) : Phase → Option String
  | .inTry => r.catchLabel.or r.finallyLabel
  | .inCatch => r.finallyLabel
  | .inFinally => none

namespace RegionMap

/-- The label to which an open region sends exceptions. -/
def receivedBy? (map : RegionMap) (x : RegionId × Phase) : Option String :=
  (map.regions[x.1]?).bind (·.receives? x.2)

/-- The label that an exception reaches first, going outward from a position. -/
def receiver? (map : RegionMap) (position : Nat) : Option String :=
  (stackAt map.regions (map.stateAt position)).findSome? map.receivedBy?

private theorem receiver?_of_innermost (h : (map.stateAt p).bind map.receivedBy? = some l) :
    map.receiver? p = some l := by
  obtain ⟨⟨id, phase⟩, hstate, hl⟩ := Option.bind_eq_some_iff.mp h
  rw [receiver?, hstate, stackAt, List.findSome?_cons, hl]

end RegionMap

namespace FlowGraph

variable {g : FlowGraph} {src : Source} {constants : List Value} {id : Nat} {block : Block}

private theorem Source.handlerLabel?_eq (src : Source) (state : RegionState) :
    src.handlerLabel? state = state.bind src.regions.receivedBy? := by
  unfold Source.handlerLabel?
  cases state with
  | none => rfl
  | some x =>
    obtain ⟨id, phase⟩ := x
    simp only [Option.bind_some, RegionMap.receivedBy?]
    cases src.regions.regions[id]? <;> cases phase <;> rfl

/-- A block has an edge to the label that receives what its last statement raises. -/
private theorem BuiltFrom.exists_edge (h : BuiltFrom src g) (hb : src.blocks[id]? = some block)
    (hl : src.handlerLabel? (src.regions.stateAt block.last) = some l) :
    ∃ j, labelAt? src.code j = some l ∧
      (Block.indexOf src.blocks j = id ∨ Block.indexOf src.blocks j ∈ g.successors id) := by
  obtain ⟨es, hes⟩ := (h.block_edges id block hb).1
  have hes' := hes
  obtain ⟨ts, -, hes'⟩ := bind_eq_ok.mp hes'
  obtain ⟨xs, hxs, hes'⟩ := bind_eq_ok.mp hes'
  simp only [Source.exceptionalEdges, hl] at hxs
  obtain ⟨handler, hhandler, hxs⟩ := bind_eq_ok.mp hxs
  obtain ⟨j, hj, hhandler⟩ := bind_eq_ok.mp hhandler
  cases hhandler
  obtain ⟨s, hs, hlabel⟩ := LabelTable.label_of_resolve h.labels_eq hj
  refine ⟨j, by rw [labelAt?, hs, Option.bind_some, hlabel], ?_⟩
  split at hxs
  · next hid => exact .inl (beq_iff_eq.mp hid)
  · right
    refine mem_successors.mpr ((h.edge_iff id _).mpr ⟨block, es, .exceptional, hb, .inl hes, ?_⟩)
    cases hxs
    cases hes'
    exact List.mem_map.mpr ⟨_, List.mem_append_right _ (List.mem_singleton.mpr rfl), rfl⟩

private theorem exists_edge_of_innermost (h : build code constants = .ok g)
    (hb : g.blocks[id]? = some block) (hp : block.contains p = true)
    (hl : (g.regions.stateAt p).bind g.regions.receivedBy? = some l)
    (htry : ∀ q s, p ≤ q → q < block.last → code[q]? = some s → s.op ≠ .enterTry) :
    ∃ j, labelAt? code j = some l ∧
      (Block.indexOf g.blocks j = id ∨ Block.indexOf g.blocks j ∈ g.successors id) := by
  obtain ⟨src, rfl, -, hsrc⟩ := builtFrom_of_build h
  rw [hsrc.graph_blocks] at hb ⊢
  rw [hsrc.graph_regions] at hl
  refine hsrc.exists_edge hb ?_
  rw [src.handlerLabel?_eq, RegionMap.stateAt_last hsrc.regions_eq (hsrc.blocks_eq ▸ hb) hp htry]
  exact hl

/-! ### Protected statements -/

/-- A statement whose innermost region receives what it raises has an edge to the handler, unless
another region opens behind it in its block. -/
theorem edge_to_receiving_handler (code : List Statement) (constants : List Value) (g : FlowGraph)
    (h : build code constants = .ok g) (id p : Nat) (block : Block) (l : String)
    (hb : g.blocks[id]? = some block) (hp : block.contains p = true)
    (hl : (g.regions.stateAt p).bind g.regions.receivedBy? = some l)
    (htry : ∀ q s, p ≤ q → q < block.last → code[q]? = some s → s.op ≠ .enterTry) :
    g.regions.receiver? p = some l ∧ ∃ j, labelAt? code j = some l ∧
      (Block.indexOf g.blocks j = id ∨ Block.indexOf g.blocks j ∈ g.successors id) :=
  ⟨RegionMap.receiver?_of_innermost hl, exists_edge_of_innermost h hb hp hl htry⟩

/-- `try { try {} catch {} } catch {}` -/
private def nestedCode : List Statement :=
  [.of .enterTry [.label "outer", .null, .label "end"],
    .of .enterTry [.label "inner", .null, .label "next"],
    .label "body",
    .of .jump [.label "next"],
    .label "inner",
    .of .jump [.label "next"],
    .label "next",
    .of .jump [.label "end"],
    .label "outer",
    .label "end",
    .of .ret []]

private def nestedGraph : FlowGraph where
  blocks := [⟨0, 1⟩, ⟨2, 3⟩, ⟨4, 5⟩, ⟨6, 7⟩, ⟨8, 8⟩, ⟨9, 10⟩]
  regions :=
    { states := [none, some (0, .inTry), some (1, .inTry), some (1, .inTry), some (1, .inCatch),
        some (1, .inCatch), some (0, .inTry), some (0, .inTry), some (0, .inCatch), none, none]
      regions := [⟨[], 0, some "outer", none, "end"⟩, ⟨[(0, .inTry)], 1, some "inner", none, "next"⟩] }
  edges := [⟨0, .block 1, .fallthrough⟩, ⟨0, .block 4, .exceptional⟩, ⟨1, .block 3, .branch⟩,
    ⟨1, .block 2, .exceptional⟩, ⟨2, .block 3, .branch⟩, ⟨3, .block 5, .branch⟩,
    ⟨3, .block 4, .exceptional⟩, ⟨4, .block 5, .fallthrough⟩]

private theorem build_nestedCode : build nestedCode [] = .ok nestedGraph := rfl

/-- The inner protected code has an edge to the inner handler. -/
theorem nested_body_has_edge : build nestedCode [] = .ok nestedGraph ∧
    nestedGraph.regions.receiver? 3 = some "inner" ∧ ∃ j, labelAt? nestedCode j = some "inner" ∧
      (Block.indexOf nestedGraph.blocks j = 1 ∨
        Block.indexOf nestedGraph.blocks j ∈ nestedGraph.successors 1) :=
  ⟨build_nestedCode, edge_to_receiving_handler nestedCode [] nestedGraph build_nestedCode 1 3 ⟨2, 3⟩
    "inner" rfl rfl rfl (by intro q s hq hq'; simp only at hq'; omega)⟩

/-- What the inner handler raises goes to the outer one, but its block has no edge there. -/
theorem nested_handler_has_no_edge : build nestedCode [] = .ok nestedGraph ∧
    nestedGraph.regions.receiver? 5 = some "outer" ∧ labelAt? nestedCode 8 = some "outer" ∧
      Block.indexOf nestedGraph.blocks 5 = 2 ∧ Block.indexOf nestedGraph.blocks 8 = 4 ∧
        4 ∉ nestedGraph.successors 2 := by
  refine ⟨build_nestedCode, rfl, rfl, rfl, rfl, fun hmem ↦ ?_⟩
  obtain ⟨kind, hedge⟩ := mem_successors.mp hmem
  revert hedge
  cases kind <;> decide

/-- A register that the handler of a protected statement needs is live at the start of the statement's
block, or the block writes it and it is live at its end; unless another region opens behind the
statement in its block. -/
theorem handler_registers_live (code : List Statement) (constants : List Value) (g : FlowGraph)
    (h : build code constants = .ok g) (id p : Nat) (block : Block) (r : RegionId) (region : Region)
    (l : String) (hb : g.blocks[id]? = some block) (hp : block.contains p = true)
    (hstate : g.regions.stateAt p = some (r, .inTry)) (hr : g.regions.regions[r]? = some region)
    (hl : region.catchLabel.or region.finallyLabel = some l)
    (htry : ∀ q s, p ≤ q → q < block.last → code[q]? = some s → s.op ≠ .enterTry) :
    ∃ j, labelAt? code j = some l ∧
      ∀ v ∈ (Liveness.compute code g).liveIn.getD (Block.indexOf g.blocks j) [],
        v ∈ (Liveness.compute code g).liveIn.getD id [] ∨
          v ∈ (Liveness.compute code g).liveOut.getD id [] ∧
            ∃ s ∈ block.statements code, v ∈ s.writes := by
  have hreceived : (g.regions.stateAt p).bind g.regions.receivedBy? = some l := by
    simp only [hstate, Option.bind_some, RegionMap.receivedBy?, hr]
    exact hl
  obtain ⟨j, hj, hedge⟩ := exists_edge_of_innermost h hb hp hreceived htry
  refine ⟨j, hj, fun v hv ↦ ?_⟩
  rcases hedge with rfl | hedge
  · exact .inl hv
  · have hout := (Liveness.mem_liveOut_compute hb).mpr ⟨_, hedge, hv⟩
    by_cases hwrites : ∃ s ∈ block.statements code, v ∈ s.writes
    · exact .inr ⟨hout, hwrites⟩
    · refine .inl ((Liveness.mem_liveIn_compute hb).mpr (.inl ⟨hout, fun s hs hw ↦ ?_⟩))
      exact hwrites ⟨s, hs, hw⟩

/-- A protected block that writes registers 1 and 0, and a handler that reads register 0. -/
private def guardedCode : List Statement :=
  [.of .move [.register 0 .i32, .int 1],
    .of .enterTry [.label "handler", .null, .label "end"],
    .label "body",
    .of .move [.register 1 .i32, .int 2],
    .of .move [.register 0 .i32, .int 3],
    .of .jump [.label "end"],
    .label "handler",
    .of .reref [.input 0 .i32, .register 0 .i32],
    .label "end",
    .of .ret []]

private def guardedGraph : FlowGraph where
  blocks := [⟨0, 1⟩, ⟨2, 5⟩, ⟨6, 7⟩, ⟨8, 9⟩]
  regions :=
    { states := [none, none, some (0, .inTry), some (0, .inTry), some (0, .inTry), some (0, .inTry),
        some (0, .inCatch), some (0, .inCatch), none, none]
      regions := [⟨[], 1, some "handler", none, "end"⟩] }
  edges := [⟨0, .block 1, .fallthrough⟩, ⟨1, .block 3, .branch⟩, ⟨1, .block 2, .exceptional⟩,
    ⟨2, .block 3, .fallthrough⟩]

private theorem build_guardedCode : build guardedCode [] = .ok guardedGraph := rfl

/-- What is live into the handler is live where the protected code starts, or written in it before its end.
-/
theorem guarded_register_live : build guardedCode [] = .ok guardedGraph ∧
    guardedGraph.regions.stateAt 3 = some (0, .inTry) ∧ ∃ j, labelAt? guardedCode j = some "handler" ∧
      ∀ v ∈ (Liveness.compute guardedCode guardedGraph).liveIn.getD
          (Block.indexOf guardedGraph.blocks j) [],
        v ∈ (Liveness.compute guardedCode guardedGraph).liveIn.getD 1 [] ∨
          v ∈ (Liveness.compute guardedCode guardedGraph).liveOut.getD 1 [] ∧
            ∃ s ∈ Block.statements ⟨2, 5⟩ guardedCode, v ∈ s.writes := by
  refine ⟨build_guardedCode, rfl, handler_registers_live guardedCode [] guardedGraph build_guardedCode
    1 3 ⟨2, 5⟩ 0 ⟨[], 1, some "handler", none, "end"⟩ "handler" rfl rfl rfl rfl rfl ?_⟩
  intro q s hq hq' hs
  obtain rfl | rfl : q = 3 ∨ q = 4 := by simp only at hq'; omega
  all_goals
    cases hs
    nofun

/-- The first statement of the block can raise before register 0 is written, and the handler reads it,
but the register is not live at the start of the block. -/
theorem guarded_register_not_live_in : build guardedCode [] = .ok guardedGraph ∧
    guardedGraph.regions.stateAt 3 = some (0, .inTry) ∧
    labelAt? guardedCode 6 = some "handler" ∧ Block.indexOf guardedGraph.blocks 6 = 2 ∧
    0 ∈ (Liveness.compute guardedCode guardedGraph).liveIn.getD 2 [] ∧
    Block.indexOf guardedGraph.blocks 3 = 1 ∧ (∀ s ∈ (guardedCode.drop 2).take 1, 0 ∉ s.writes) ∧
    0 ∉ (Liveness.compute guardedCode guardedGraph).liveIn.getD 1 [] := by
  have hflows : Liveness.flowsOf guardedCode guardedGraph =
      [⟨[], [0], [1]⟩, ⟨[], [0, 1], [2, 3]⟩, ⟨[0], [], [3]⟩, ⟨[], [], []⟩] := rfl
  have hsets : (Liveness.compute guardedCode guardedGraph).liveIn = [[], [], [0], []] := by
    change Liveness.iterate (Liveness.flowsOf guardedCode guardedGraph) _ _ = _
    rw [hflows]
    decide
  rw [hsets]
  exact ⟨build_guardedCode, rfl, rfl, rfl, by decide, rfl, by decide, by decide⟩

end FlowGraph

end MethodCompiler
