import MethodCompiler.Proofs.RegionWalk

/-!
# Snapshots of open regions

A region remembers once, when it opens, what is around it. Regions around it stay in their phases as long
as it is open, because a label or `endfinally` moves the innermost region and no other. So what the
regions remember is at all times the stack of open regions, also when it is put together by going from
each region to its parent.
-/

namespace MethodCompiler

variable {regions : List Region} {t t' : RegionTracker} {s : Statement} {stack : RegionStack}
  {position : Nat} {walked later : List (Statement × Nat)}

/-! ### Walks -/

/-- The tracker behind some statements, each with the position that it is told to have. -/
def RegionTracker.walk (t : RegionTracker) : List (Statement × Nat) → Except Error RegionTracker
  | [] => .ok t
  | (s, position) :: rest => do
    let (_, t') ← t.step s position
    t'.walk rest

/-- A walk over two parts goes on with the second where the first has ended. -/
theorem RegionTracker.walk_append (t : RegionTracker) (walked later : List (Statement × Nat)) :
    t.walk (walked ++ later) = t.walk walked >>= fun t' ↦ t'.walk later := by
  induction walked generalizing t with
  | nil => rfl
  | cons x rest ih =>
    rw [List.cons_append, walk, walk]
    cases t.step x.1 x.2 with
    | error e => rfl
    | ok next => exact ih next.2

/-- What one statement keeps, a walk keeps. -/
private theorem RegionTracker.walk_induction {P : RegionTracker → Prop} (h : t.walk walked = .ok t')
    (ht : P t)
    (hstep : ∀ {t s position stack t'}, RegionTracker.Steps t s position stack t' → P t → P t') : P t' := by
  induction walked generalizing t with
  | nil =>
    cases h
    exact ht
  | cons x rest ih =>
    obtain ⟨⟨state, t₁⟩, hrun, h⟩ := bind_eq_ok.mp h
    obtain ⟨stack, -, hsteps⟩ := steps_of_step hrun
    exact ih h (hstep hsteps ht)

/-! ### From region to parent -/

/-- The region directly around a region and the phase that it was in, as the region remembers them. -/
def Region.parentState (r : Region) : RegionState := r.parent?.bind fun p ↦ r.parentPhase?.map (p, ·)

private theorem Region.parentState_eq (r : Region) : r.parentState = r.outer.head? := by
  rw [parentState, parent?, parentPhase?]
  cases r.outer.head? <;> rfl

/-- Going from a region to its parent, in the phase that it remembers, passes the regions of a stack and
comes to an end. -/
inductive Unwinds (regions : List Region) : RegionState → RegionStack → Prop
  | outside : Unwinds regions none []
  | inside {id : RegionId} {phase : Phase} {r : Region} {outer : RegionStack} : regions[id]? = some r →
      Unwinds regions r.parentState outer →
      Unwinds regions (some (id, phase)) ((id, phase) :: outer)

private theorem Linked.unwinds (h : Linked regions stack) : Unwinds regions stack.head? stack := by
  induction stack with
  | nil => exact .outside
  | cons x outer ih =>
    obtain ⟨⟨r, hr, houter⟩, -, hrest⟩ := h
    refine .inside hr ?_
    rw [r.parentState_eq, houter]
    exact ih hrest

/-! ### What statements keep -/

namespace RegionTracker

/-- The stack is linked, and so is what each region remembers. -/
structure Recorded (t : RegionTracker) : Prop where
  ordered : t.Ordered
  outer : ∀ {id r}, t.regions[id]? = some r → ∀ phase, Linked t.regions ((id, phase) :: r.outer)

private theorem recorded_empty : Recorded {} where
  ordered := trivial
  outer := by
    rintro id r ⟨⟩

private theorem Steps.recorded (h : t.Steps s position stack t') (ht : t.Recorded) : t'.Recorded where
  ordered := (h.linked ht.ordered).2
  outer {id r} hr phase := by
    cases h with
    | plain | crosses | closes => exact ht.outer hr phase
    | @opens r' hop hopen =>
      rcases Nat.lt_or_ge id t.regions.length with hlt | hge
      · rw [List.getElem?_append_left hlt] at hr
        exact (ht.outer hr phase).mono (List.prefix_append _ _)
      · -- the region that opens remembers the stack as it is
        have hnew := ((Steps.opens hop hopen).linked ht.ordered).2
        obtain rfl : t.regions.length = id := by
          have := (List.getElem?_eq_some_iff.mp hr).1
          rw [List.length_append, List.length_singleton] at this
          omega
        rw [List.getElem?_concat_length] at hr
        cases hr
        rw [(Region.of_open? hopen).1]
        exact hnew

/-- What the regions of a tracker remember is its stack. -/
structure Current (t : RegionTracker) : Prop where
  /-- The innermost region and what it remembers make up the stack. -/
  stack : stackAt t.regions t.current = t.stack
  unwinds : Unwinds t.regions t.current t.stack
  ancestors : ∀ {id phase outer}, t.stack = (id, phase) :: outer →
    ∃ r, t.region? id = some r ∧ r.ancestors = outer.map (·.1)
  parent_lt : ∀ {id r p}, t.region? id = some r → r.parent? = some p → p < id
  /-- From every region, whether open or not, the way through its parents ends. -/
  ends : ∀ {id r}, t.region? id = some r → ∀ phase,
    Unwinds t.regions (some (id, phase)) (stackAt t.regions (some (id, phase)))

private theorem Recorded.current (h : t.Recorded) : t.Current where
  stack := h.ordered.stackAt
  unwinds := h.ordered.unwinds
  ancestors {id phase outer} hstack := by
    have hlinked := h.ordered
    rw [Ordered, hstack] at hlinked
    obtain ⟨⟨r, hr, houter⟩, -⟩ := hlinked
    exact ⟨r, hr, by rw [Region.ancestors, houter]⟩
  parent_lt {id r p} hr hp := by
    obtain ⟨x, hx, rfl⟩ := Option.map_eq_some_iff.mp hp
    exact (h.outer hr .inTry).2.1 x (List.mem_of_head? hx)
  ends {id r} hr phase := by
    have hlinked := h.outer hr phase
    rw [← List.head?_cons (a := (id, phase)) (l := r.outer), hlinked.stackAt]
    exact hlinked.unwinds

private theorem recorded_of_walk (h : walk {} walked = .ok t) : t.Recorded :=
  walk_induction h recorded_empty fun hsteps ht ↦ hsteps.recorded ht

private theorem regions_le_of_walk (h : t.walk later = .ok t') : t.regions <+: t'.regions :=
  walk_induction (P := fun t' ↦ t.regions <+: t'.regions) h List.prefix_rfl
    fun hsteps hle ↦ hle.trans hsteps.regions_le

end RegionTracker

/-- After any statements that a tracker accepts, whatever their labels, its stack is what its regions
remember: the innermost one by itself, and each one by its parent. The parent of a region is an older
region, and the other open regions are the ancestors of the innermost one. Statements that follow leave
this snapshot of the stack as it is. -/
theorem snapshots_current (h : RegionTracker.walk {} walked = .ok t) :
    t.Current ∧ ∀ later t', t.walk later = .ok t' → stackAt t'.regions t.current = t.stack := by
  have hrecorded := RegionTracker.recorded_of_walk h
  refine ⟨hrecorded.current, fun later t' hlater ↦ ?_⟩
  exact (hrecorded.ordered.mono (RegionTracker.regions_le_of_walk hlater)).stackAt

/-- A region that is closed, another one with the same labels, and a region in its handler up to its
cleanup. -/
private def reusedCode : List Statement :=
  [.of .enterTry [.label "t_catch", .null, .label "t_end"],
    .label "t_catch",
    .label "t_end",
    .of .enterTry [.label "t_catch", .null, .label "t_end"],
    .label "t_catch",
    .of .enterTry [.null, .label "c_finally", .label "c_end"],
    .label "c_finally"]

private def reusedTracker : RegionTracker where
  regions := [⟨[], 0, some "t_catch", none, "t_end"⟩, ⟨[], 3, some "t_catch", none, "t_end"⟩,
    ⟨[(1, .inCatch)], 5, none, some "c_finally", "c_end"⟩]
  stack := [(2, .inFinally), (1, .inCatch)]

/-- The second region with these labels is in its handler, as the region inside it remembers. -/
theorem reused_snapshots_current :
    RegionTracker.walk {} reusedCode.zipIdx = .ok reusedTracker ∧ reusedTracker.Current ∧
      stackAt reusedTracker.regions (some (2, .inFinally)) = [(2, .inFinally), (1, .inCatch)] := by
  have hwalk : RegionTracker.walk {} reusedCode.zipIdx = .ok reusedTracker := rfl
  have hcurrent := (snapshots_current hwalk).1
  exact ⟨hwalk, hcurrent, hcurrent.stack⟩

end MethodCompiler
