import MethodCompiler.Proofs.LeaveScan
import MethodCompiler.Proofs.RegionRuns

/-!
# Balanced regions

Before a transfer stand as many leaves as the transfer needs. So the regions that are open at run time are
at every statement what a scan of the code says, and no leave finds the stack empty.
-/

namespace MethodCompiler

variable {code : List Statement} {w : Walk code} {sealed : Bool} {pool : List Value}
  {labels : LabelTable} {need : Nat → Nat} {c c' : RegionPoint} {s : Statement} {id : RegionId}
  {r : Region} {rest : List RegionId} {l : String} {i j k p : Nat}

/-- A run over code with leaves is at leaf `k` of statement `i`, or at the statement behind its
leaves. -/
structure Walk.Tracks (w : Walk code) (need : Nat → Nat) (i k : Nat) (c : RegionPoint) : Prop where
  lt : i < code.length
  le : k ≤ need i
  position : c.position = paddedStart need i + k
  opened : c.opened = (live (w.stack i)).drop k
  pending : w.Resumable need (fromCleanup (w.stack i)) c.pending

namespace Walk.Inserts

variable (h : w.Inserts sealed pool labels need)

include h

/-- A label of code with leaves is one of the code. -/
private theorem labelAt?_padded (hl : labelAt? (padded need code) p = some l) :
    ∃ j, labelAt? code j = some l ∧ j < code.length ∧ need j = 0 ∧ p = paddedStart need j := by
  obtain ⟨s, hs, hlabel⟩ := Option.bind_eq_some_iff.mp hl
  have hop := Statement.op_of_label? hlabel
  obtain ⟨j, hj, rfl⟩ := exists_of_getElem?_padded hs (by rw [hop]; decide)
  have hneed := h.leaving.need_eq_zero hj (by rw [hop]; rfl)
  exact ⟨j, by rw [labelAt?_eq hj, hlabel], (List.getElem?_eq_some_iff.mp hj).1, hneed,
    by rw [hneed, Nat.add_zero]⟩

private theorem labelAt?_inj (hi : labelAt? code i = some l) (hj : labelAt? code j = some l) : i = j :=
  MethodCompiler.labelAt?_inj (LabelTable.build_eq_ok.mp h.built).1 hi hj

/-- A branch leaves the regions that are not open where it goes. -/
private theorem exists_left (hs : code[i]? = some s) (htarget : s.target? = some l)
    (hj : labelAt? code j = some l) : ∃ left, w.stack i = left ++ w.stack j ∧
      (∀ x ∈ left, x.2 ≠ .inFinally) ∧ left.length = need i := by
  have hbranch := Statement.isBranch_of_target? htarget
  obtain ⟨chain, hleaves, hlength⟩ := h.exists_leaves hs
  cases hleaves with
  | ret hop =>
    rw [hop] at hbranch
    cases hbranch
  | throw hop =>
    rcases Opcode.isThrow_iff.mp hop with hop | hop
    all_goals
      rw [hop] at hbranch
      cases hbranch
  | @jump l' j' left hop hl hj' hstack hleft =>
    obtain rfl := Option.some.inj (hl.symm.trans htarget)
    obtain rfl := h.labelAt?_inj hj hj'
    rw [List.length_map] at hlength
    exact ⟨left, hstack, hleft, hlength⟩
  | stays _ _ hjump =>
    have hcond : s.op.isConditionalBranch = true := by
      rcases Bool.or_eq_true_iff.mp hbranch with hop | hcond
      · rw [hjump (beq_iff_eq.mp hop)] at htarget
        cases htarget
      · exact hcond
    obtain ⟨-, j', hj', hstack⟩ := (h.shaped.leads hs).conditional hcond l htarget
    obtain rfl := h.labelAt?_inj hj hj'
    exact ⟨[], hstack.symm, nofun, hlength⟩

/-- A run that comes to a label goes on with the stack of that label. -/
private theorem tracks_label (hl : labelAt? (padded need code) c.position = some l)
    (hj : labelAt? code j = some l) (hopened : c.opened = live (w.stack j))
    (hpending : w.Resumable need (fromCleanup (w.stack j)) c.pending) : w.Tracks need j 0 c := by
  obtain ⟨j', hj', hlt, -, hposition⟩ := h.labelAt?_padded hl
  obtain rfl := h.labelAt?_inj hj hj'
  exact ⟨hlt, Nat.zero_le _, hposition, hopened, hpending⟩

/-- The statement at a point that is tracked. -/
private theorem statement (ht : w.Tracks need i k c) (hs : (padded need code)[c.position]? = some s) :
    k < need i ∧ s.op = .leave ∨ k = need i ∧ code[i]? = some s ∧ s.op ≠ .leave := by
  rw [ht.position] at hs
  rcases Nat.lt_or_eq_of_le ht.le with hk | hk
  · rw [getElem?_padded_leave ht.lt hk] at hs
    cases hs
    exact .inl ⟨hk, rfl⟩
  · rw [hk, getElem?_padded ht.lt] at hs
    exact .inr ⟨hk, hs, h.ne_leave (List.mem_of_getElem? hs)⟩

private theorem of_ne_leave (ht : w.Tracks need i k c) (hs : (padded need code)[c.position]? = some s)
    (hop : s.op ≠ .leave) : k = need i ∧ code[i]? = some s := by
  rcases h.statement ht hs with ⟨-, hleave⟩ | ⟨hk, hs, -⟩
  · exact absurd hleave hop
  · exact ⟨hk, hs⟩

/-- A run that goes on to the next statement finds the regions open that a walk has behind this one. -/
private theorem tracks_next (hs : code[i]? = some s) (hstops : s.stops = false)
    (hlt : c.position < (padded need code).length)
    (hposition : c.position = paddedStart need (i + 1))
    (hopened : c.opened = live (w.tracker (i + 1)).stack)
    (hpending : w.Resumable need (fromCleanup (w.tracker (i + 1)).stack) c.pending) :
    w.Tracks need (i + 1) 0 c := by
  have hi : i + 1 < code.length := by
    have hle : i + 1 ≤ code.length := (List.getElem?_eq_some_iff.mp hs).1
    rcases Nat.lt_or_eq_of_le hle with hlt' | heq
    · exact hlt'
    · rw [hposition, length_padded, heq] at hlt
      exact absurd hlt (Nat.lt_irrefl _)
  have hmarks : marks (w.stack (i + 1)) = marks (w.tracker (i + 1)).stack := by
    rcases h.shaped.arrives hi with hmarks | ⟨u, -, hu, hstops'⟩
    · exact hmarks
    · rw [Nat.add_sub_cancel, hs] at hu
      cases hu
      rw [hstops] at hstops'
      cases hstops'
  have hordered : Linked w.allRegions (w.tracker (i + 1)).stack :=
    (w.ordered (Nat.le_of_lt hi)).mono (w.regions_le (Nat.le_of_lt hi) (Nat.le_refl _))
  refine ⟨hi, Nat.zero_le _, hposition, ?_, ?_⟩
  · rw [hopened, live_eq_marks, ← hmarks, ← live_eq_marks, List.drop_zero]
  · rw [fromCleanup_eq_of_marks (w.linked_allRegions hi) hordered hmarks]
    exact hpending

end Walk.Inserts

private theorem paddedStart_inj (h : paddedStart need i = paddedStart need j) : i = j := by
  rcases Nat.lt_trichotomy i j with hlt | heq | hgt
  · have := paddedStart_add_lt need hlt
    omega
  · exact heq
  · have := paddedStart_add_lt need hgt
    omega

/-! ### Steps -/

namespace Walk.Tracks

variable (ht : w.Tracks need i k c) (h : w.Inserts sealed pool labels need)

include ht h

/-- A statement that is no exit has no leaves. -/
private theorem unpadded (hs : (padded need code)[c.position]? = some s) (hleave : s.op ≠ .leave)
    (hexit : s.op.isUnconditionalExit = false) : code[i]? = some s ∧ need i = 0 ∧ k = 0 := by
  obtain ⟨hk, hs'⟩ := h.of_ne_leave ht hs hleave
  have hneed := h.leaving.need_eq_zero hs' hexit
  exact ⟨hs', hneed, hk.trans hneed⟩

private theorem next (hs : (padded need code)[c.position]? = some s) (hstops : s.stops = false)
    (hleave : s.op ≠ .leave) (htry : s.op ≠ .enterTry)
    (hlt : c.position + 1 < (padded need code).length) :
    w.Tracks need (i + 1) 0 { c with position := c.position + 1 } := by
  obtain ⟨hexit, hfin⟩ := Bool.or_eq_false_iff.mp hstops
  obtain ⟨hs', hneed, rfl⟩ := ht.unpadded h hs hleave hexit
  have hstack : (w.tracker (i + 1)).stack = w.stack i := by
    have hsteps := w.steps hs'
    generalize w.stack i = S, w.tracker (i + 1) = t' at hsteps ⊢
    cases hsteps with
    | plain => rfl
    | crosses => rfl
    | opens hop => exact absurd hop htry
    | closes hop =>
      rw [hop] at hfin
      cases hfin
  refine h.tracks_next hs' hstops hlt ?_ ?_ ?_
  · rw [paddedStart, hneed, ht.position]
  · rw [hstack]
    exact ht.opened
  · rw [hstack]
    exact ht.pending

/-- A branch goes where the regions are open that its leaves have left. -/
private theorem goes (hs : (padded need code)[c.position]? = some s) (htarget : s.target? = some l)
    (hl : labelAt? (padded need code) p = some l) :
    ∃ j, w.Tracks need j 0 { c with position := p } := by
  have hbranch := Statement.isBranch_of_target? htarget
  obtain ⟨hk, hs'⟩ := h.of_ne_leave ht hs (fun hop ↦ by rw [hop] at hbranch; cases hbranch)
  obtain ⟨j, hj, -⟩ := h.labelAt?_padded hl
  obtain ⟨left, hstack, hleft, hlength⟩ := h.exists_left hs' htarget hj
  refine ⟨j, h.tracks_label hl hj ?_ ?_⟩
  · rw [ht.opened, hstack, live_append, live_eq_map hleft]
    exact List.drop_left' (by rw [List.length_map, hlength, hk])
  · rw [← fromCleanup_append hleft, ← hstack]
    exact ht.pending

private theorem switches (hs : (padded need code)[c.position]? = some s) (hop : s.op = .switch)
    (htarget : l ∈ FlowGraph.switchTargets s pool)
    (hl : labelAt? (padded need code) p = some l) :
    ∃ j, w.Tracks need j 0 { c with position := p } := by
  obtain ⟨hs', -, rfl⟩ := ht.unpadded h hs (by rw [hop]; nofun) (by rw [hop]; rfl)
  obtain ⟨-, j, hj, hstack⟩ := (h.shaped.leads hs').switch hop l htarget
  refine ⟨j, h.tracks_label hl hj ?_ ?_⟩
  · rw [hstack]
    exact ht.opened
  · rw [hstack]
    exact ht.pending

/-- A `try` opens the region that a walk opens there. -/
private theorem opens (hs : (padded need code)[c.position]? = some s) (hop : s.op = .enterTry)
    (hr : w.allRegions[id]? = some r) (hstart : r.start = c.position)
    (hlt : c.position + 1 < (padded need code).length) :
    w.Tracks need (i + 1) 0 ⟨c.position + 1, id :: c.opened, c.pending⟩ := by
  obtain ⟨hs', hneed, rfl⟩ := ht.unpadded h hs (by rw [hop]; nofun) (by rw [hop]; rfl)
  obtain ⟨i', hi', hstart', hid⟩ := w.exists_opening (Nat.le_refl _) hr
  rw [hstart, ht.position, Nat.add_zero, h.leaving.position] at hstart'
  obtain rfl := paddedStart_inj hstart'
  have hstack : (w.tracker (i + 1)).stack = (id, .inTry) :: w.stack i := by
    have hsteps := w.steps hs'
    generalize w.stack i = S, w.tracker (i + 1) = t' at hsteps ⊢
    cases hsteps with
    | plain _ hopen => exact absurd hop hopen
    | crosses hl =>
      rw [Statement.op_of_label? hl] at hop
      cases hop
    | opens => rw [hid]
    | closes hclose =>
      rw [hclose] at hop
      cases hop
  have htry : Phase.inTry ≠ .inFinally := nofun
  refine h.tracks_next hs' (by rw [Statement.stops, hop]; rfl) hlt ?_ ?_ ?_
  · rw [paddedStart, hneed, ht.position]
  · rw [hstack, live_cons_of_ne htry, ht.opened, List.drop_zero]
  · rw [hstack, fromCleanup_cons htry]
    exact ht.pending

/-- The region that a `leave` pops, and what is around it. -/
private theorem popped (hs : (padded need code)[c.position]? = some s) (hop : s.op = .leave)
    (hopened : c.opened = id :: rest) : k < need i ∧ ∃ inner phase outer,
      w.stack i = inner ++ (id, phase) :: outer ∧ phase ≠ .inFinally ∧ (live inner).length = k ∧
      rest = live outer := by
  rcases h.statement ht hs with ⟨hk, -⟩ | ⟨-, -, hne⟩
  · exact ⟨hk, exists_of_drop_live (ht.opened.symm.trans hopened)⟩
  · exact absurd hop hne

private theorem leaves (hs : (padded need code)[c.position]? = some s) (hop : s.op = .leave)
    (hopened : c.opened = id :: rest) :
    w.Tracks need i (k + 1) ⟨c.position + 1, rest, c.pending⟩ := by
  obtain ⟨hk, -⟩ := ht.popped h hs hop hopened
  refine ⟨ht.lt, hk, ?_, ?_, ht.pending⟩
  · rw [ht.position]
    rfl
  · rw [← List.tail_drop, ← ht.opened, hopened]
    rfl

/-- A cleanup goes on among the leaves of the statement that started it. -/
private theorem cleans (hs : (padded need code)[c.position]? = some s) (hop : s.op = .leave)
    (hopened : c.opened = id :: rest) (hr : w.allRegions[id]? = some r)
    (hf : r.finallyLabel = some l) (hl : labelAt? (padded need code) p = some l) :
    ∃ j, w.Tracks need j 0 ⟨p, rest, ⟨c.position + 1, rest.length⟩ :: c.pending⟩ := by
  obtain ⟨hk, inner, phase, outer, hstack, hphase, hlength, rfl⟩ := ht.popped h hs hop hopened
  obtain ⟨first, last, hplaced⟩ := h.shaped.placed hr
  obtain ⟨j, hj, hstack', -⟩ := hplaced.cleanup l hf
  have hlinked := w.linked_allRegions ht.lt
  rw [hstack] at hlinked
  rw [hlinked.outer hr] at hstack'
  refine ⟨j, h.tracks_label hl hj ?_ ?_⟩
  · rw [hstack', live_cons]
    rfl
  · rw [hstack', fromCleanup_cleanup, ht.position, ← hlength, Nat.add_assoc]
    exact .cleanup ht.lt hstack hphase (by rwa [hlength]) ht.pending

private theorem resumes {e : Pending} {pending : List Pending}
    (hs : (padded need code)[c.position]? = some s) (hop : s.op = .endFinally)
    (hpending : c.pending = e :: pending) : ∃ j k, w.Tracks need j k ⟨e.resume, c.opened, pending⟩ := by
  obtain ⟨hs', -, rfl⟩ := ht.unpadded h hs (by rw [hop]; nofun) (by rw [hop]; rfl)
  obtain ⟨id, outer, hstack⟩ := w.of_endFinally hs' hop
  have hresumable := ht.pending
  rw [hstack, fromCleanup_cleanup, hpending] at hresumable
  cases hresumable with
  | @cleanup j _ phase inner _ _ hj hstack' hphase hneed hrest =>
    refine ⟨j, (live inner).length + 1, hj, hneed, rfl, ?_, hrest⟩
    change c.opened = _
    rw [ht.opened, hstack, hstack', live_append, live_cons_of_ne hphase, live_cons, List.drop_zero,
      ← List.drop_drop, List.drop_left]
    rfl

/-- The regions that are open at an exception: those from the one that handles it on. -/
private theorem thrown (hs : (padded need code)[c.position]? = some s) (hop : s.op.isThrow = true) :
    c.opened = live ((w.stack i).dropWhile (!catches w.allRegions ·)) := by
  have hne : s.op ≠ .leave := by
    rintro hleave
    rw [hleave] at hop
    cases hop
  obtain ⟨hk, hs'⟩ := h.of_ne_leave ht hs hne
  obtain ⟨chain, hleaves, hlength⟩ := h.exists_leaves hs'
  have hchain : chain = live ((w.stack i).takeWhile (!catches w.allRegions ·)) := by
    cases hleaves with
    | ret hop' | jump hop' =>
      rw [hop'] at hop
      cases hop
    | throw => rfl
    | stays _ hnot =>
      rw [hop] at hnot
      cases hnot
  have hsplit : w.stack i = (w.stack i).takeWhile (!catches w.allRegions ·) ++
    (w.stack i).dropWhile (!catches w.allRegions ·) := List.takeWhile_append_dropWhile.symm
  have hlive := congrArg live hsplit
  rw [live_append] at hlive
  rw [ht.opened, hk, ← hlength, hchain, hlive, List.drop_left]

private theorem catches (hs : (padded need code)[c.position]? = some s) (hop : s.op.isThrow = true)
    (hopened : c.opened = id :: rest) (hr : w.allRegions[id]? = some r)
    (hc : r.catchLabel = some l) (hl : labelAt? (padded need code) p = some l) :
    ∃ j, w.Tracks need j 0 ⟨p, id :: rest, c.pending.dropWhile (rest.length < ·.depth)⟩ := by
  have hthrown := ht.thrown h hs hop
  cases hfind : (w.stack i).find? (MethodCompiler.catches w.allRegions) with
  | none =>
    rw [List.find?_eq_head?_dropWhile_not, List.head?_eq_none_iff] at hfind
    rw [hfind, hopened] at hthrown
    cases hthrown
  | some x =>
    obtain ⟨inner, id', outer, -, -, -, hstack, hdrop, -⟩ := exists_of_find?_catches hfind
    have htry : Phase.inTry ≠ .inFinally := nofun
    rw [hdrop, live_cons_of_ne htry, hopened] at hthrown
    obtain ⟨rfl, rfl⟩ := List.cons.inj hthrown
    obtain ⟨first, last, hplaced⟩ := h.shaped.placed hr
    obtain ⟨j, hj, hstack'⟩ := hplaced.handler l hc
    have hlinked := w.linked_allRegions ht.lt
    rw [hstack] at hlinked
    rw [hlinked.outer hr] at hstack'
    have hcatch : Phase.inCatch ≠ .inFinally := nofun
    refine ⟨j, h.tracks_label hl hj ?_ ?_⟩
    · rw [hstack', live_cons_of_ne hcatch]
    · rw [hstack', fromCleanup_cons hcatch]
      exact ht.pending.thrown rfl hstack htry

end Walk.Tracks

/-! ### Runs -/

namespace Walk.Inserts

variable (h : w.Inserts sealed pool labels need)

include h

/-- A step goes from a point that is tracked to another one, unless it runs off the end of the code. -/
theorem tracks_of_moves (ht : w.Tracks need i k c)
    (hm : c.Moves (padded need code) pool w.allRegions c')
    (hlt : c'.position < (padded need code).length) : ∃ i k, w.Tracks need i k c' := by
  cases hm with
  | next hs hstops hleave htry => exact ⟨_, _, ht.next h hs hstops hleave htry hlt⟩
  | goes hs htarget hl =>
    obtain ⟨j, hj⟩ := ht.goes h hs htarget hl
    exact ⟨j, 0, hj⟩
  | switches hs hop htarget hl =>
    obtain ⟨j, hj⟩ := ht.switches h hs hop htarget hl
    exact ⟨j, 0, hj⟩
  | opens hs hop hr hstart => exact ⟨_, _, ht.opens h hs hop hr hstart hlt⟩
  | leaves hs hop => exact ⟨_, _, ht.leaves h hs hop rfl⟩
  | cleans hs hop hr hf hl =>
    obtain ⟨j, hj⟩ := ht.cleans h hs hop rfl hr hf hl
    exact ⟨j, 0, hj⟩
  | resumes hs hop => exact ht.resumes h hs hop rfl
  | catches hs hop hr hc hl =>
    obtain ⟨j, hj⟩ := ht.catches h hs hop rfl hr hc hl
    exact ⟨j, 0, hj⟩

private theorem tracks_start (hlt : 0 < (padded need code).length) : w.Tracks need 0 0 {} := by
  have hpos : 0 < code.length := by
    rw [length_padded] at hlt
    cases hcode : code.length with
    | zero =>
      rw [hcode] at hlt
      exact absurd hlt (Nat.lt_irrefl 0)
    | succ n => exact Nat.succ_pos n
  have hstack : w.stack 0 = [] := by
    rcases h.shaped.arrives hpos with hmarks | ⟨s, hpos', -⟩
    · rw [w.start] at hmarks
      exact List.map_eq_nil_iff.mp hmarks
    · exact absurd hpos' (Nat.lt_irrefl 0)
  refine ⟨hpos, Nat.zero_le _, rfl, ?_, ?_⟩
  · rw [hstack]
    rfl
  · rw [hstack]
    exact .none

/-- All points of a run are tracked. -/
theorem tracks_of_reachable (hc : c.Reachable (padded need code) pool w.allRegions)
    (hlt : c.position < (padded need code).length) : ∃ i k, w.Tracks need i k c := by
  induction hc with
  | refl => exact ⟨0, 0, h.tracks_start hlt⟩
  | @tail c c' _ hm ih =>
    have hc : c.position < (padded need code).length := by
      cases hm <;> exact (List.getElem?_eq_some_iff.mp (by assumption)).1
    obtain ⟨i, k, ht⟩ := ih hc
    exact h.tracks_of_moves ht hm hlt

end Walk.Inserts

/-! ### What a run finds -/

namespace Walk.Tracks

variable (ht : w.Tracks need i k c) (h : w.Inserts sealed pool labels need)
  (hs : (padded need code)[c.position]? = some s)

include ht h hs

private theorem opened_ne_nil (hop : s.op = .leave) : c.opened ≠ [] := by
  rcases h.statement ht hs with ⟨hk, -⟩ | ⟨-, -, hne⟩
  · obtain ⟨chain, hleaves, hlength⟩ := h.exists_leaves (List.getElem?_eq_getElem ht.lt)
    have hle := hleaves.length_le
    rw [ht.opened, Ne, List.drop_eq_nil_iff]
    omega
  · exact absurd hop hne

private theorem opened_of_ret (hop : s.op = .ret) : c.opened = [] := by
  obtain ⟨hk, hs'⟩ := h.of_ne_leave ht hs (by rw [hop]; nofun)
  obtain ⟨chain, hleaves, hlength⟩ := h.exists_leaves hs'
  have hchain : chain = live (w.stack i) := by
    cases hleaves with
    | ret => rfl
    | throw hop' =>
      rw [hop] at hop'
      cases hop'
    | jump hop' =>
      rw [hop] at hop'
      cases hop'
    | stays hne => exact absurd hop hne
  rw [ht.opened, hk, ← hlength, hchain, List.drop_length]

private theorem head?_opened (hop : s.op.isThrow = true) :
    c.opened.head? = ((w.stack i).find? (MethodCompiler.catches w.allRegions)).map (·.1) := by
  rw [ht.thrown h hs hop]
  cases hfind : (w.stack i).find? (MethodCompiler.catches w.allRegions) with
  | none =>
    rw [List.find?_eq_head?_dropWhile_not, List.head?_eq_none_iff] at hfind
    rw [hfind]
    rfl
  | some x =>
    obtain ⟨inner, id, outer, -, -, rfl, -, hdrop, -⟩ := exists_of_find?_catches hfind
    have htry : Phase.inTry ≠ .inFinally := nofun
    rw [hdrop, live_cons_of_ne htry]
    rfl

private theorem exists_pending (hop : s.op = .endFinally) : ∃ e pending, c.pending = e :: pending := by
  obtain ⟨hs', -⟩ := ht.unpadded h hs (by rw [hop]; nofun) (by rw [hop]; rfl)
  obtain ⟨id, outer, hstack⟩ := w.of_endFinally hs' hop
  have hresumable := ht.pending
  rw [hstack, fromCleanup_cleanup] at hresumable
  generalize c.pending = pending at hresumable
  cases hresumable
  exact ⟨_, _, rfl⟩

/-- Without leaves before it, a statement finds all regions open that are not in their cleanup. -/
private theorem opened_of_unpadded (hop : s.op ≠ .leave)
    (hbefore : ∀ u, 0 < c.position → (padded need code)[c.position - 1]? = some u → u.op ≠ .leave) :
    c.opened = live (w.stack i) := by
  obtain ⟨hk, -⟩ := h.of_ne_leave ht hs hop
  have hneed : need i = 0 := by
    by_contra hne
    have hposition := ht.position
    have hleave : (padded need code)[c.position - 1]? = some .leave := by
      rw [show c.position - 1 = paddedStart need i + (need i - 1) by omega]
      exact getElem?_padded_leave ht.lt (by omega)
    exact hbefore _ (by omega) hleave rfl
  rw [ht.opened, hk, hneed, List.drop_zero]

/-- A `leave` can close its region, and run its cleanup. -/
private theorem moves_leave (hop : s.op = .leave) :
    ∃ c', c.Moves (padded need code) pool w.allRegions c' := by
  obtain ⟨id, rest, hopened⟩ := List.exists_cons_of_ne_nil (ht.opened_ne_nil h hs hop)
  obtain ⟨-, inner, phase, outer, hstack, -⟩ := ht.popped h hs hop hopened
  obtain ⟨r, first, last, hr, hplaced, -⟩ := h.shaped.placedAt ht.lt
    (show (id, phase) ∈ w.stack i by rw [hstack]; simp)
  obtain ⟨p, opened, pending⟩ := c
  obtain rfl : opened = id :: rest := hopened
  cases hf : r.finallyLabel with
  | none => exact ⟨_, .leaves hs hop hr hf⟩
  | some l =>
    obtain ⟨j, hj, -⟩ := hplaced.cleanup l hf
    exact ⟨_, .cleans hs hop hr hf (labelAt?_padded_of_labelAt? hj)⟩

/-- A `try` can open its region. -/
private theorem moves_try (hop : s.op = .enterTry) :
    ∃ c', c.Moves (padded need code) pool w.allRegions c' := by
  obtain ⟨hs', -, rfl⟩ := ht.unpadded h hs (by rw [hop]; nofun) (by rw [hop]; rfl)
  obtain ⟨r, hr, hopen⟩ := w.exists_opened hs' hop
  have hstart := (Region.of_open? hopen).2
  rw [h.leaving.position] at hstart
  exact ⟨_, .opens hs hop hr (hstart.trans ht.position.symm)⟩

/-- An exception can go to the handler of the innermost region. -/
private theorem moves_throw (hop : s.op.isThrow = true) (hne : c.opened ≠ []) :
    ∃ c', c.Moves (padded need code) pool w.allRegions c' := by
  have hhead := ht.head?_opened h hs hop
  obtain ⟨id, rest, hopened⟩ := List.exists_cons_of_ne_nil hne
  rw [hopened, List.head?_cons] at hhead
  obtain ⟨x, hfind, hx⟩ := Option.map_eq_some_iff.mp hhead.symm
  obtain ⟨inner, id', outer, r, l, rfl, -, -, hr, hl⟩ := exists_of_find?_catches hfind
  obtain rfl : id' = id := hx
  obtain ⟨first, last, hplaced⟩ := h.shaped.placed hr
  obtain ⟨j, hj, -⟩ := hplaced.handler l hl
  obtain ⟨p, opened, pending⟩ := c
  obtain rfl : opened = id' :: rest := hopened
  exact ⟨_, .catches hs hop hr hl (labelAt?_padded_of_labelAt? hj)⟩

private theorem moves_jump (hop : s.op = .jump) :
    ∃ c', c.Moves (padded need code) pool w.allRegions c' := by
  obtain ⟨-, hs'⟩ := h.of_ne_leave ht hs (by rw [hop]; nofun)
  obtain ⟨l, hl⟩ := h.target (List.mem_of_getElem? hs') (by rw [hop]; rfl)
  obtain ⟨-, j, hj, -⟩ := (h.shaped.leads hs').branch l hl
  exact ⟨_, .goes hs hl (labelAt?_padded_of_labelAt? hj)⟩

private theorem moves (hret : s.op ≠ .ret) (hthrow : s.op.isThrow = true → c.opened ≠ []) :
    ∃ c', c.Moves (padded need code) pool w.allRegions c' := by
  by_cases hleave : s.op = .leave
  · exact ht.moves_leave h hs hleave
  by_cases htry : s.op = .enterTry
  · exact ht.moves_try h hs htry
  by_cases hop : s.op.isThrow = true
  · exact ht.moves_throw h hs hop (hthrow hop)
  by_cases hjump : s.op = .jump
  · exact ht.moves_jump h hs hjump
  by_cases hend : s.op = .endFinally
  · obtain ⟨e, pending, hpending⟩ := ht.exists_pending h hs hend
    obtain ⟨p, opened, pending'⟩ := c
    obtain rfl : pending' = e :: pending := hpending
    exact ⟨_, .resumes hs hend⟩
  · refine ⟨_, .next hs ?_ hleave htry⟩
    rw [Statement.stops, beq_eq_false_iff_ne.mpr hend, Bool.or_false]
    revert hret hop hjump
    cases s.op <;> simp [Opcode.isUnconditionalExit, Opcode.isThrow]

private theorem balanced {map : RegionMap} (hregions : map.regions = w.allRegions)
    (hstates : ∀ {i k}, i < code.length → k ≤ need i →
      map.stateAt (paddedStart need i + k) = (w.stack i).head?) :
    c.Balanced (padded need code) pool map s := by
  have hstack : stackAt map.regions (map.stateAt c.position) = w.stack i := by
    rw [hregions, ht.position, hstates ht.lt ht.le, (w.linked_allRegions ht.lt).stackAt]
  refine ⟨ht.opened_ne_nil h hs, ht.opened_of_ret h hs, ?_, ?_, ?_, ?_⟩
  · rw [hstack, hregions]
    exact ht.head?_opened h hs
  · intro hop
    obtain ⟨e, pending, hpending⟩ := ht.exists_pending h hs hop
    rw [hpending]
    exact List.cons_ne_nil _ _
  · rw [hstack]
    exact ht.opened_of_unpadded h hs
  · rw [hregions]
    exact ht.moves h hs

end Walk.Tracks

/-- In every run of the code of a method, with all leaves inserted, the open regions are what a scan of
the code says: none at a return, those from the handling one on at an exception, and all that are not in
their cleanup away from leaves. Every leave finds a region to leave. -/
theorem regions_balanced {m : Method} {symbols : SymbolTable} {o : Options}
    {functions : FunctionTable} {f : LoweredFunction}
    (h : (lowerFunction m symbols o functions).1 = .ok f) :
    ∃ map, RegionMap.scan f.code = .ok map ∧ ∀ c s,
      RegionPoint.Reachable f.code f.constants map.regions c → f.code[c.position]? = some s →
        c.Balanced f.code f.constants map s := by
  obtain ⟨lowered, hlowered, hleaves⟩ : ∃ lowered,
      (lowerMethod m symbols o functions).1 = .ok lowered ∧ lowered.withLeaves = .ok f :=
    bind_eq_ok.mp h
  have hwell : lowered.WellFormed false := wellFormed_of_lowerMethod hlowered nofun
  obtain ⟨w, labels, need, hw, rfl⟩ := hwell.exists_inserts hleaves
  obtain ⟨map, hscan, hregions, hstates⟩ := hw.leaving.exists_scan
  refine ⟨map, hscan, fun c s hc hs ↦ ?_⟩
  rw [hregions] at hc
  obtain ⟨i, k, ht⟩ := hw.tracks_of_reachable hc (List.getElem?_eq_some_iff.mp hs).1
  exact ht.balanced hw hs hregions hstates

/-- `try { try { return; } finally { tick(); } } catch { throw; }` -/
private def unwindMethod : Method where
  index := 0
  name := "unwind"
  isStatic := true
  params := []
  returnTy := .void
  body := .mk [.tryCatch Span.none
    (.mk [.tryCatch Span.none (.mk [.ret Span.none none] Span.none) []
      (some (.mk [.eval Span.none (.call ⟨1, Span.none⟩ (.name ⟨2, Span.none⟩ "tick") [])]
        Span.none))] Span.none)
    [.mk none none (.mk [.throw Span.none none] Span.none)] none] Span.none

private def unwindSymbols : SymbolTable where
  symbols := .ofList [(2, ⟨.method, "tick", .void, true, 8, false, true⟩)]
  types := .ofList [(1, .void)]

/-- A `return` through a cleanup and a handler that throws again find their regions open. -/
theorem unwind_balanced : ∃ f, (lowerFunction unwindMethod unwindSymbols {} .empty).1 = .ok f ∧
    (f.code.filter (·.op == .leave)).length = 4 ∧
    ∃ map, RegionMap.scan f.code = .ok map ∧ ∀ c s,
      RegionPoint.Reachable f.code f.constants map.regions c → f.code[c.position]? = some s →
        c.Balanced f.code f.constants map s := by
  have hleaves : ((lowerFunction unwindMethod unwindSymbols {} .empty).1.toOption.any fun f ↦
      (f.code.filter (·.op == .leave)).length == 4) = true := by decide +kernel
  cases hf : (lowerFunction unwindMethod unwindSymbols {} .empty).1 with
  | error e =>
    rw [hf] at hleaves
    cases hleaves
  | ok f =>
    rw [hf] at hleaves
    exact ⟨f, rfl, beq_iff_eq.mp hleaves, regions_balanced hf⟩

end MethodCompiler
