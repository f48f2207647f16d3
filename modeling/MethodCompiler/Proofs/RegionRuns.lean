import Mathlib.Data.List.TakeWhile
import Mathlib.Logic.Relation
import MethodCompiler.Proofs.ExitChains

/-!
# Regions at run time

Running code keeps a stack of its own: `try` pushes a region and `leave` pops one, which runs the cleanup
of that region first. This module has the steps of such runs, and says what the stacks of a walk mean for
them: which regions are open, and which cleanups are running.
-/

namespace MethodCompiler

/-! ### Runs -/

/-- A cleanup that a `leave` has started: where to go on behind it, and how many regions were open. -/
structure Pending where
  resume : Nat
  depth : Nat
  deriving DecidableEq, Repr

/-- Where a run is, with the open regions and the cleanups that are running, innermost first. -/
structure RegionPoint where
  position : Nat := 0
  opened : List RegionId := []
  pending : List Pending := []
  deriving DecidableEq, Repr

/-- A step of a run. Branches may go either way, and exceptions come from `throw` and `rethrow` only. -/
inductive RegionPoint.Moves (code : List Statement) (constants : List Value) (regions : List Region) :
    RegionPoint → RegionPoint → Prop
  | next {c : RegionPoint} {s : Statement} : code[c.position]? = some s → s.stops = false →
      s.op ≠ .leave → s.op ≠ .enterTry →
      Moves code constants regions c { c with position := c.position + 1 }
  | goes {c : RegionPoint} {s : Statement} {l : String} {j : Nat} : code[c.position]? = some s →
      s.target? = some l → labelAt? code j = some l →
      Moves code constants regions c { c with position := j }
  | switches {c : RegionPoint} {s : Statement} {l : String} {j : Nat} :
      code[c.position]? = some s → s.op = .switch → l ∈ FlowGraph.switchTargets s constants →
      labelAt? code j = some l → Moves code constants regions c { c with position := j }
  /-- A `try` opens its region. -/
  | opens {p : Nat} {opened : List RegionId} {pending : List Pending} {s : Statement}
      {id : RegionId} {r : Region} : code[p]? = some s → s.op = .enterTry →
      regions[id]? = some r → r.start = p →
      Moves code constants regions ⟨p, opened, pending⟩ ⟨p + 1, id :: opened, pending⟩
  /-- A `leave` closes a region without a cleanup. -/
  | leaves {p : Nat} {rest : List RegionId} {pending : List Pending} {s : Statement}
      {id : RegionId} {r : Region} : code[p]? = some s → s.op = .leave → regions[id]? = some r →
      r.finallyLabel = none →
      Moves code constants regions ⟨p, id :: rest, pending⟩ ⟨p + 1, rest, pending⟩
  /-- A `leave` closes a region and runs its cleanup. -/
  | cleans {p : Nat} {rest : List RegionId} {pending : List Pending} {s : Statement}
      {id : RegionId} {r : Region} {l : String} {j : Nat} : code[p]? = some s → s.op = .leave →
      regions[id]? = some r → r.finallyLabel = some l → labelAt? code j = some l →
      Moves code constants regions ⟨p, id :: rest, pending⟩
        ⟨j, rest, ⟨p + 1, rest.length⟩ :: pending⟩
  /-- A cleanup that is done goes on behind the `leave` that started it. -/
  | resumes {p : Nat} {opened : List RegionId} {e : Pending} {pending : List Pending}
      {s : Statement} : code[p]? = some s → s.op = .endFinally →
      Moves code constants regions ⟨p, opened, e :: pending⟩ ⟨e.resume, opened, pending⟩
  /-- An exception goes to the handler of the innermost region. Cleanups that began while that region
  was open are given up. -/
  | catches {p : Nat} {rest : List RegionId} {pending : List Pending} {s : Statement}
      {id : RegionId} {r : Region} {l : String} {j : Nat} : code[p]? = some s →
      s.op.isThrow = true → regions[id]? = some r → r.catchLabel = some l →
      labelAt? code j = some l → Moves code constants regions ⟨p, id :: rest, pending⟩
        ⟨j, id :: rest, pending.dropWhile (rest.length < ·.depth)⟩

/-- The point comes up in a run from the start of the code. -/
def RegionPoint.Reachable (code : List Statement) (constants : List Value) (regions : List Region) :
    RegionPoint → Prop :=
  Relation.ReflTransGen (Moves code constants regions) {}

/-- What a run finds at a statement, by what a scan says of it. -/
structure RegionPoint.Balanced (code : List Statement) (constants : List Value) (map : RegionMap)
    (c : RegionPoint) (s : Statement) : Prop where
  leave : s.op = .leave → c.opened ≠ []
  ret : s.op = .ret → c.opened = []
  /-- The innermost open region is that of the handler, if there is one. -/
  throw : s.op.isThrow = true → c.opened.head? =
    ((stackAt map.regions (map.stateAt c.position)).find? (catches map.regions)).map (·.1)
  endFinally : s.op = .endFinally → c.pending ≠ []
  /-- Away from leaves and from what follows them, the regions that are not in their cleanup are open. -/
  settled : s.op ≠ .leave → (∀ u, 0 < c.position → code[c.position - 1]? = some u → u.op ≠ .leave) →
    c.opened = live (stackAt map.regions (map.stateAt c.position))
  /-- Only a `return` and an exception that nothing handles end a run. -/
  moves : s.op ≠ .ret → (s.op.isThrow = true → c.opened ≠ []) →
    ∃ c', c.Moves code constants map.regions c'

variable {code : List Statement} {w : Walk code} {regions : List Region} {stack a b : RegionStack}
  {need : Nat → Nat} {pending : List Pending} {s : Statement} {id : RegionId} {phase : Phase}
  {chain rest : List RegionId} {i k : Nat}

/-! ### Stacks -/

/-- The regions that count are those that are not marked as in their cleanup. -/
theorem live_eq_marks (stack : RegionStack) :
    live stack = ((marks stack).filter (!·.2)).map (·.1) := by
  rw [live, marks, List.filter_map, List.map_map]
  rfl

/-- The part of a stack from the innermost cleanup on. -/
def fromCleanup (stack : RegionStack) : RegionStack := stack.dropWhile (·.2 != .inFinally)

/-- A region that is in no cleanup is not part of the stack from there on. -/
theorem fromCleanup_cons (h : phase ≠ .inFinally) :
    fromCleanup ((id, phase) :: stack) = fromCleanup stack :=
  List.dropWhile_cons_of_pos (bne_iff_ne.mpr h)

/-- The innermost cleanup may be that of the innermost region. -/
theorem fromCleanup_cleanup (id : RegionId) (stack : RegionStack) :
    fromCleanup ((id, .inFinally) :: stack) = (id, .inFinally) :: stack :=
  List.dropWhile_cons_of_neg (by simp)

/-- Regions that are in no cleanup are not part of the stack from there on. -/
theorem fromCleanup_append (h : ∀ x ∈ a, x.2 ≠ .inFinally) :
    fromCleanup (a ++ b) = fromCleanup b :=
  List.dropWhile_append_of_pos fun x hx ↦ bne_iff_ne.mpr (h x hx)

/-- Stacks with the same marks differ in the phase of one region at most. -/
theorem fromCleanup_eq_of_marks (ha : Linked regions a) (hb : Linked regions b)
    (h : marks a = marks b) : fromCleanup a = fromCleanup b := by
  cases a with
  | nil =>
    cases b with
    | nil => rfl
    | cons y b => cases h
  | cons x a =>
    cases b with
    | nil => cases h
    | cons y b =>
      obtain ⟨id, phase⟩ := x
      obtain ⟨id', phase'⟩ := y
      obtain ⟨hid, hfin⟩ := Prod.mk.inj (List.cons.inj h).1
      obtain rfl : id = id' := hid
      obtain ⟨⟨r, hr, rfl⟩, -⟩ := ha
      obtain ⟨⟨r', hr', rfl⟩, -⟩ := hb
      rw [hr] at hr'
      cases hr'
      have hfin : (phase == Phase.inFinally) = (phase' == Phase.inFinally) := hfin
      by_cases hphase : phase = .inFinally
      · rw [hphase, beq_self_eq_true] at hfin
        rw [hphase, ← beq_iff_eq.mp hfin.symm]
      · rw [beq_eq_false_iff_ne.mpr hphase] at hfin
        rw [fromCleanup_cons hphase, fromCleanup_cons (beq_eq_false_iff_ne.mp hfin.symm)]

/-- The region that stands at a place of the live ones. -/
theorem exists_of_drop_live (h : (live stack).drop k = id :: rest) : ∃ inner phase outer,
    stack = inner ++ (id, phase) :: outer ∧ phase ≠ .inFinally ∧ (live inner).length = k ∧
      rest = live outer := by
  induction stack generalizing k with
  | nil => cases k <;> cases h
  | cons x outer ih =>
    obtain ⟨id', phase⟩ := x
    rw [live_cons] at h
    split at h
    · next hfin =>
      obtain ⟨inner, phase', outer', rfl, hphase, hlength, hrest⟩ := ih h
      refine ⟨(id', phase) :: inner, phase', outer', rfl, hphase, ?_, hrest⟩
      rw [live_cons, if_pos hfin, hlength]
    · next hfin =>
      have hphase : phase ≠ .inFinally := by simpa using hfin
      cases k with
      | zero =>
        rw [List.drop_zero] at h
        cases h
        exact ⟨[], phase, outer, rfl, hphase, rfl, rfl⟩
      | succ k =>
        obtain ⟨inner, phase', outer', rfl, hphase', hlength, hrest⟩ := ih h
        refine ⟨(id', phase) :: inner, phase', outer', rfl, hphase', ?_, hrest⟩
        rw [live_cons, if_neg hfin, List.length_cons, hlength]

/-- A region that is not in its cleanup counts. -/
theorem live_cons_of_ne (h : phase ≠ .inFinally) : live ((id, phase) :: stack) = id :: live stack := by
  rw [live_cons, if_neg (by simpa using h)]

/-- The region that handles an exception, with those inside of it and around it. -/
theorem exists_of_find?_catches {x : RegionId × Phase}
    (h : stack.find? (catches regions) = some x) : ∃ inner id outer r l, x = (id, .inTry) ∧
      stack = inner ++ (id, .inTry) :: outer ∧
      stack.dropWhile (!catches regions ·) = (id, .inTry) :: outer ∧ regions[id]? = some r ∧
      r.catchLabel = some l := by
  obtain ⟨hx, inner, outer, rfl, hinner⟩ := List.find?_eq_some_iff_append.mp h
  obtain ⟨id, phase⟩ := x
  have hdrop : (inner ++ (id, phase) :: outer).dropWhile (!catches regions ·) =
      (id, phase) :: outer := by
    rw [List.dropWhile_append_of_pos hinner, List.dropWhile_cons_of_neg (by simp [hx])]
  rw [catches, Bool.and_eq_true, beq_iff_eq, Option.any_eq_true] at hx
  obtain ⟨hphase, r, hr, hcatch⟩ := hx
  obtain ⟨l, hl⟩ := Option.isSome_iff_exists.mp hcatch
  obtain rfl : phase = .inTry := hphase
  exact ⟨inner, id, outer, r, l, rfl, rfl, hdrop, hr, hl⟩

/-! ### Transfers -/

namespace Walk.Leaves

/-- A statement leaves no more regions than there are. -/
theorem length_le (h : w.Leaves i s chain) : chain.length ≤ (live (w.stack i)).length := by
  cases h with
  | ret => exact Nat.le_refl _
  | throw =>
    have hsplit : w.stack i = (w.stack i).takeWhile (!catches w.allRegions ·) ++
      (w.stack i).dropWhile (!catches w.allRegions ·) := List.takeWhile_append_dropWhile.symm
    have hlive := congrArg (List.length ∘ live) hsplit
    simp only [Function.comp, live_append, List.length_append] at hlive
    omega
  | @jump l j left hop hl hj hstack hleft =>
    rw [hstack, live_append, live_eq_map hleft, List.length_append]
    exact Nat.le_add_right _ _
  | stays => exact Nat.zero_le _

end Walk.Leaves

/-! ### What a run keeps -/

/-- The cleanups that are running are those that a stack says, and behind each of them the run goes on
among the leaves of a statement, with the stack of that statement. -/
inductive Walk.Resumable (w : Walk code) (need : Nat → Nat) : RegionStack → List Pending → Prop
  | none : Resumable w need [] []
  | cleanup {i : Nat} {id : RegionId} {phase : Phase} {inner outer : RegionStack}
      {pending : List Pending} : i < code.length → w.stack i = inner ++ (id, phase) :: outer →
      phase ≠ .inFinally → (live inner).length < need i →
      Resumable w need (fromCleanup (w.stack i)) pending →
      Resumable w need ((id, .inFinally) :: outer)
        (⟨paddedStart need i + ((live inner).length + 1), (live outer).length⟩ :: pending)

/-- An exception gives up the cleanups inside of the region that handles it. -/
theorem Walk.Resumable.thrown (h : w.Resumable need stack pending) {inner outer full : RegionStack}
    (hfull : fromCleanup full = stack) (hsplit : full = inner ++ (id, phase) :: outer)
    (hphase : phase ≠ .inFinally) :
    w.Resumable need (fromCleanup outer) (pending.dropWhile ((live outer).length < ·.depth)) := by
  induction h generalizing inner full with
  | none =>
    have hnone := List.dropWhile_eq_nil_iff.mp hfull
    have houter : fromCleanup outer = [] := by
      refine List.dropWhile_eq_nil_iff.mpr fun x hx ↦ hnone x ?_
      rw [hsplit]
      exact List.mem_append_right _ (List.mem_cons_of_mem _ hx)
    rw [houter]
    exact .none
  | @cleanup i id' phase' inner' outer' pending hi hstack hphase' hneed hrest ih =>
    -- the cleanup stands inside of the handling region, or around it
    have htail : full.takeWhile (·.2 != .inFinally) ++ (id', .inFinally) :: outer' =
        inner ++ (id, phase) :: outer := by
      rw [← hfull, fromCleanup, List.takeWhile_append_dropWhile, hsplit]
    rcases List.append_eq_append_iff.mp htail with ⟨mid, -, hmid⟩ | ⟨mid, htake, hmid⟩
    · cases mid with
      | nil =>
        cases hmid
        exact absurd rfl hphase
      | cons x mid =>
        rw [List.cons_append] at hmid
        obtain ⟨rfl, houter⟩ := List.cons.inj hmid
        have hdepth : (live outer).length < (live outer').length := by
          rw [houter, live_append, live_cons_of_ne hphase, List.length_append, List.length_cons]
          omega
        rw [List.dropWhile_cons_of_pos (by simpa using hdepth)]
        have hsplit' : w.stack i = (inner' ++ (id', phase') :: mid) ++ (id, phase) :: outer := by
          rw [hstack, houter]
          simp
        exact ih rfl hsplit'
    · cases mid with
      | nil =>
        cases hmid
        exact absurd rfl hphase
      | cons x mid =>
        rw [List.cons_append] at hmid
        obtain ⟨rfl, rfl⟩ := List.cons.inj hmid
        have hmem {y : RegionId × Phase} (hy : y ∈ mid) : y.2 ≠ .inFinally := by
          have hy' : y ∈ full.takeWhile (·.2 != .inFinally) := by
            rw [htake]
            exact List.mem_append_right _ (List.mem_cons_of_mem _ hy)
          have hne := List.mem_takeWhile_imp hy'
          exact bne_iff_ne.mp hne
        have hdepth : ¬(live (mid ++ (id', .inFinally) :: outer')).length < (live outer').length := by
          rw [live_append, live_cons, List.length_append]
          simp
        rw [fromCleanup_append fun _ hy ↦ hmem hy, fromCleanup_cleanup,
          List.dropWhile_cons_of_neg (by simpa using hdepth)]
        exact .cleanup hi hstack hphase' hneed hrest

end MethodCompiler
