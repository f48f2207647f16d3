import MethodCompiler.Proofs.DefinedLabels
import MethodCompiler.Proofs.RegionSpans

/-!
# Handlers and their phases

An exception is thrown again only in the code of a catch clause, and that code stands behind the catch
label of its region. The tracker puts the region in its catch phase there and keeps it so up to the end
of the handler, whatever regions are opened and closed in between. So wherever an exception is thrown
again, the scan finds a region in its catch phase.
-/

namespace MethodCompiler

variable {c f : Option String} {e l : String} {body handler cleanup code part : List Statement}
  {s : Statement} {caught : Bool} {p : Nat}

/-! ### Code of handlers -/

/-- A statement in a part of a protected construct, by its position. -/
private theorem getElem?_protectedCode (h : (protectedCode c f e body handler cleanup)[p]? = some s)
    (htry : s.op ≠ .enterTry) (hlabel : s.op ≠ .label) (hend : s.op ≠ .endFinally) :
    (∃ k, p = 1 + k ∧ body[k]? = some s) ∨
    (∃ l k, c = some l ∧ p = 1 + body.length + 1 + k ∧ handler[k]? = some s) ∨
    ∃ l k before, f = some l ∧ protectedCode c f e body handler cleanup =
      before ++ cleanup ++ [Statement.of .endFinally [], Statement.label e] ∧ p = before.length + k ∧
      cleanup[k]? = some s := by
  unfold protectedCode at h ⊢
  rcases p with - | p
  · cases h
    exact absurd rfl htry
  rw [List.getElem?_cons_succ, List.getElem?_append] at h
  split at h
  · exact .inl ⟨p, Nat.add_comm p 1, h⟩
  next hbody =>
  have hbody : body.length ≤ p := Nat.le_of_not_lt hbody
  obtain ⟨q, rfl⟩ := Nat.exists_eq_add_of_le hbody
  rw [Nat.add_sub_cancel_left, List.getElem?_append] at h
  split at h
  · cases c with
    | none => cases h
    | some l =>
      rcases q with - | q
      · cases h
        exact absurd rfl hlabel
      · exact .inr (.inl ⟨l, q, rfl, by omega, h⟩)
  next hhandler =>
  generalize c.elim [] (fun l ↦ Statement.label l :: handler) = caught at h hhandler ⊢
  obtain ⟨k, rfl⟩ := Nat.exists_eq_add_of_le (Nat.le_of_not_lt hhandler)
  rw [Nat.add_sub_cancel_left] at h
  cases f with
  | none =>
    have hs := List.mem_of_getElem? h
    rw [List.mem_singleton.mp hs] at hlabel
    exact absurd rfl hlabel
  | some l =>
    rcases k with - | k
    · cases h
      exact absurd rfl hlabel
    have h : (cleanup ++ [Statement.of .endFinally [], Statement.label e])[k]? = some s := by
      simpa using h
    rw [List.getElem?_append] at h
    split at h
    · refine .inr (.inr ⟨l, k, .of .enterTry [Lowering.optionalLabel c, .label l, .label e] ::
        (body ++ (caught ++ [Statement.label l])), rfl, by simp [Lowering.optionalLabel], ?_, h⟩)
      simp only [List.length_cons, List.length_append, List.length_nil]
      omega
    · have hs := List.mem_of_getElem? h
      rcases List.mem_cons.mp hs with rfl | hs
      · exact absurd rfl hend
      · rw [List.mem_singleton.mp hs] at hlabel
        exact absurd rfl hlabel

/-- The position lies in the handler of a protected construct. -/
def InHandler (code : List Statement) (p : Nat) : Prop :=
  ∃ before l f e body handler cleanup after,
    code = before ++ protectedCode (some l) f e body handler cleanup ++ after ∧
    before.length + 1 + body.length < p ∧ p ≤ before.length + 1 + body.length + handler.length

private theorem InHandler.around (h : InHandler code p) (a b : List Statement) :
    InHandler (a ++ code ++ b) (a.length + p) := by
  obtain ⟨before, l, f, e, body, handler, cleanup, after, rfl, hlt, hle⟩ := h
  refine ⟨a ++ before, l, f, e, body, handler, cleanup, after ++ b, by simp, ?_, ?_⟩
  · rw [List.length_append]
    omega
  · rw [List.length_append]
    omega

/-- Code that throws an exception again only in handlers, or anywhere if `caught`, and whose protected
constructs have a handler or a cleanup. -/
inductive Contained : Bool → List Statement → Prop
  | nil {caught : Bool} : Contained caught []
  | append {caught : Bool} {a b : List Statement} : Contained caught a → Contained caught b →
      Contained caught (a ++ b)
  | statement {caught : Bool} {s : Statement} : s.op ≠ .rethrow → s.op ≠ .enterTry →
      Contained caught [s]
  | rethrow : Contained true [.of .rethrow []]
  | protect {caught : Bool} {c f : Option String} {e : String}
      {body handler cleanup : List Statement} : c.isSome ∨ f.isSome → Contained caught body →
      Contained true handler → Contained caught cleanup →
      Contained caught (protectedCode c f e body handler cleanup)

private theorem Contained.guards (h : Contained caught code) : Guards code := by
  induction h with
  | nil => exact fun hs ↦ absurd hs List.not_mem_nil
  | append _ _ iha ihb => exact fun hs ↦ (List.mem_append.mp hs).elim iha ihb
  | statement _ htry =>
    intro c f e hs
    rw [← List.mem_singleton.mp hs] at htry
    exact absurd rfl htry
  | rethrow =>
    intro c f e hs
    cases List.mem_singleton.mp hs
  | protect hsome _ _ _ ihb ihh ihc => exact Guards.of_parts hsome ihb ihh ihc

private theorem Contained.inHandler (h : Contained caught code) (hs : code[p]? = some s)
    (hop : s.op = .rethrow) : caught = true ∨ InHandler code p := by
  induction h generalizing p with
  | nil => cases hs
  | @append caught a b _ _ iha ihb =>
    rw [List.getElem?_append] at hs
    split at hs
    · refine (iha hs).imp_right fun h ↦ ?_
      simpa using h.around [] b
    · next hge =>
      refine (ihb hs).imp_right fun h ↦ ?_
      have := h.around a []
      rwa [List.append_nil, Nat.add_sub_cancel' (Nat.le_of_not_lt hge)] at this
  | statement hne _ =>
    rw [List.mem_singleton.mp (List.mem_of_getElem? hs)] at hop
    exact absurd hop hne
  | rethrow => exact .inl rfl
  | @protect caught c f e body handler cleanup _ _ _ _ ihb ihh ihc =>
    rcases getElem?_protectedCode hs (by rw [hop]; decide) (by rw [hop]; decide) (by rw [hop]; decide)
      with ⟨k, rfl, hk⟩ | ⟨l, k, rfl, rfl, hk⟩ | ⟨l, k, before, rfl, hcode, rfl, hk⟩
    · exact (ihb hk).imp_right fun h ↦ h.around [_] _
    · have hk := (List.getElem?_eq_some_iff.mp hk).1
      refine .inr ⟨[], l, f, e, body, handler, cleanup, [], by simp, ?_, ?_⟩
      · rw [List.length_nil]
        omega
      · rw [List.length_nil]
        omega
    · refine (ihc hk).imp_right fun h ↦ ?_
      rw [hcode]
      exact h.around before _

/-! ### The code of statements -/

/-- Code that throws no exception again and has no protected constructs. -/
private theorem contained_of_ne (h : ∀ s ∈ code, s.op ≠ .rethrow ∧ s.op ≠ .enterTry) :
    Contained caught code := by
  induction code with
  | nil => exact .nil
  | cons s rest ih =>
    obtain ⟨⟨hrethrow, htry⟩, hrest⟩ := List.forall_mem_cons.mp h
    exact .append (a := [s]) (.statement hrethrow htry) (ih hrest)

namespace Lowering

variable {k : Setting} {x : Spot} {held : List Nat} {defs : List String} {depth : Nat}
  {st st' st₁ st₂ : State} {u : Unit} {R : List Statement → Prop}

/-- A part with a property is added. -/
private def Gains (R : List Statement → Prop) (st st' : State) : Prop :=
  ∃ part, st'.bare = st.bare ++ part ∧ R part

/-- The same, for steps whose scopes are told of. -/
private def Adding (R : List Statement → Prop) (st st' : State) (_ : List ScopeSpan) : Prop := Gains R st st'

private theorem Gains.of_bare (h : st'.bare = st.bare) : Gains (Contained caught) st st' :=
  ⟨[], h.trans (List.append_nil _).symm, .nil⟩

private theorem Gains.emitted (hrun : emitStatement s st = .ok u st') (h : R [s.bare]) : Gains R st st' :=
  ⟨[s.bare], (appends_of_emitStatement hrun).1.code, h⟩

private theorem Gains.join {R₁ R₂ : List Statement → Prop} (h : ∀ {a b}, R₁ a → R₂ b → R (a ++ b))
    (h₁ : Gains R₁ st st₁) (h₂ : Gains R₂ st₁ st₂) : Gains R st st₂ := by
  obtain ⟨part₁, hcode₁, h₁⟩ := h₁
  obtain ⟨part₂, hcode₂, h₂⟩ := h₂
  exact ⟨part₁ ++ part₂, by rw [hcode₂, hcode₁, List.append_assoc], h h₁ h₂⟩

private theorem Gains.trans (h₁ : Gains (Contained caught) st st₁) (h₂ : Gains (Contained caught) st₁ st₂) :
    Gains (Contained caught) st st₂ :=
  .join Contained.append h₁ h₂

private theorem chains_adding {R₁ R₂ : List Statement → Prop} (h : ∀ {a b}, R₁ a → R₂ b → R (a ++ b)) :
    Chains held depth (Adding R₁) (Adding R₂) (Adding R) :=
  fun _ _ h₁ h₂ ↦ Gains.join h h₁ h₂

/-- What stands behind the start of a protected construct, from its body on. -/
private def Behind (caught : Bool) (c f : Option String) (e : String) (code : List Statement) : Prop :=
  ∃ body handler cleanup, code = (protectedCode c f e body handler cleanup).tail ∧ Contained caught body ∧
    Contained true handler ∧ Contained caught cleanup

private theorem Behind.prepend {a b : List Statement} (ha : Contained caught a) (hb : Behind caught c f e b) :
    Behind caught c f e (a ++ b) := by
  obtain ⟨body, handler, cleanup, rfl, hbody, hrest⟩ := hb
  exact ⟨a ++ body, handler, cleanup, (List.append_assoc a body _).symm, ha.append hbody, hrest⟩

/-- A protected construct keeps what its parts contain. -/
private theorem brings_contained {body handler cleanup : Recorded Unit} (hsome : c.isSome ∨ f.isSome)
    (hbody : Brings held depth (Adding (Contained caught)) body)
    (hhandler : Brings held depth (Adding (Contained true)) handler)
    (hcleanup : Brings held depth (Adding (Contained caught)) cleanup) :
    Brings held depth (Adding (Contained caught)) (protectedSteps c f e body handler cleanup) := by
  have hone (s : Statement) : Brings held depth (Adding (· = [s.bare])) (Recorded.lift (emitStatement s)) :=
    .statement fun hrun ↦ Gains.emitted hrun rfl
  have hcatch : Brings held depth (Adding fun part ↦
      ∃ h, part = c.elim [] (fun l ↦ .label l :: h) ∧ Contained true h) (handlerSteps c handler) := by
    cases c with
    | none => exact .nothing fun st ↦ ⟨[], (List.append_nil _).symm, [], rfl, .nil⟩
    | some l =>
      refine .seq (chains_adding ?_) (hone (.label l)) hhandler
      rintro _ b rfl hb
      exact ⟨b, rfl, hb⟩
  have hfinally : Brings held depth (Adding fun part ↦ ∃ h,
      part = f.elim [] (fun l ↦ .label l :: (h ++ [Statement.of .endFinally []])) ∧ Contained caught h)
      (cleanupSteps f cleanup) := by
    cases f with
    | none => exact .nothing fun st ↦ ⟨[], (List.append_nil _).symm, [], rfl, .nil⟩
    | some l =>
      have hfinish : Brings held depth
          (Adding fun part ↦ ∃ h, part = h ++ [Statement.of .endFinally []] ∧ Contained caught h)
          (cleanup >>= fun _ ↦ Recorded.lift (emit .endFinally [])) := by
        refine .seq (chains_adding ?_) hcleanup (hone (.of .endFinally []))
        rintro a _ ha rfl
        exact ⟨a, rfl, ha⟩
      refine .seq (chains_adding ?_) (hone (.label l)) hfinish
      rintro _ _ rfl ⟨h, rfl, hh⟩
      exact ⟨h, rfl, hh⟩
  have hlast : Brings held depth (Adding fun part ↦ ∃ h,
      part = f.elim [] (fun l ↦ .label l :: (h ++ [Statement.of .endFinally []])) ++ [Statement.label e] ∧
        Contained caught h) (cleanupSteps f cleanup >>= fun _ ↦ Recorded.lift (emitLabel e)) := by
    refine .seq (chains_adding ?_) hfinally (hone (.label e))
    rintro _ _ ⟨cleanup, rfl, hcleanup⟩ rfl
    exact ⟨cleanup, rfl, hcleanup⟩
  have hend : Brings held depth (Adding (Behind caught c f e)) (handlerSteps c handler >>= fun _ ↦
      cleanupSteps f cleanup >>= fun _ ↦ Recorded.lift (emitLabel e)) := by
    refine .seq (chains_adding ?_) hcatch hlast
    rintro _ _ ⟨handler, rfl, hhandler⟩ ⟨cleanup, rfl, hcleanup⟩
    exact ⟨[], handler, cleanup, rfl, .nil, hhandler, hcleanup⟩
  have hjump : Brings held depth (Adding (Contained caught)) (Recorded.lift (emitJumpIfReachable e)) :=
    .ifReachable (fun _ ↦ Gains.of_bare rfl) fun hrun ↦
      Gains.emitted hrun (.statement (by rintro ⟨⟩) (by rintro ⟨⟩))
  refine .seq (chains_adding ?_) (hone (.of .enterTry [optionalLabel c, optionalLabel f, .label e]))
    (.seq (chains_adding Behind.prepend) hbody (.seq (chains_adding Behind.prepend) hjump hend))
  rintro _ _ rfl ⟨body, handler, cleanup, rfl, hbody, hhandler, hcleanup⟩
  exact .protect hsome hbody hhandler hcleanup

private theorem Exit.contained (h : Exit caught s) : Contained caught [s.bare] := by
  cases h with
  | ret | trap => exact .statement (by rintro ⟨⟩) (by rintro ⟨⟩)
  | rethrow => exact .rethrow

private theorem contained_clearCode (scope : Scope) : Contained caught (clearCode scope) := by
  refine contained_of_ne fun s hs ↦ ?_
  obtain ⟨r, -, ty, rfl⟩ := exists_of_mem_clearCode hs
  exact ⟨by rintro ⟨⟩, by rintro ⟨⟩⟩

private theorem Ran.contained {own : Nat → Prop} {near : List String} (h : Ran k own near defs st st' part) :
    Contained caught part := by
  refine contained_of_ne fun s hs ↦ ?_
  have hcalm := (h.statements s hs).1
  refine ⟨fun hop ↦ ?_, fun hop ↦ ?_⟩ <;>
  · rw [hop] at hcalm
    cases hcalm

/-- Closing a scope adds statements that clear registers. -/
private theorem gains_popScope (hscopes : st.scopes ≠ [])
    (hpop : popScope ctx st = .ok u st') : Gains (Contained caught) st st' := by
  obtain ⟨scope, outer, hcons⟩ := List.exists_cons_of_ne_nil hscopes
  obtain ⟨code, clears, rfl, hcode, hclears⟩ := popScope_ok hcons hpop
  refine ⟨clears, hcode, ?_⟩
  rcases hclears with ⟨-, rfl⟩ | rfl
  · exact .nil
  · exact contained_clearCode scope

/-- The code of a statement throws again only in handlers, if its protected statements have a handler
or a cleanup. -/
private theorem Steps.contained {act : Lower Unit} {act' : Recorded Unit} (h : Steps k x held defs act act')
    (hfree : k.labelFree = true) (hstrict : k.strictness ≠ .loose) (hst : st.Ready held x.depth)
    (hrun : act'.run st = .ok u st') : Gains (Contained x.caught) st st' := by
  induction h generalizing st st' u with
  | pure =>
    cases hrun
    exact .of_bare rfl
  | fail e => cases hrun
  | seq ha _ iha ihb =>
    obtain ⟨_, st₁, hrun₁, hrun₂⟩ := exists_of_run_bind hrun
    exact (iha hst hrun₁).trans (ihb (ha.ready hfree hst hrun₁) hrun₂)
  | built hbuilt =>
    obtain ⟨-, part, hran⟩ := (hbuilt (fun _ ↦ True) st.nextRegister fun r hr ↦
      ⟨trivial, hst.held r hr⟩).ran_of_ready hst hrun
    exact ⟨part, hran.code, hran.contained⟩
  | @throw x _ _ _ hbuilt =>
    obtain ⟨v, st₁, hvalue, hthrow⟩ := exists_of_run_bind hrun
    obtain ⟨-, part, hran⟩ := (hbuilt (fun _ ↦ True) st.nextRegister).ran_of_ready hst hvalue
    have hgains : Gains (Contained x.caught) st st₁ := ⟨part, hran.code, hran.contained⟩
    exact hgains.trans (.emitted hthrow (.statement (by rintro ⟨⟩) (by rintro ⟨⟩)))
  | exit hs => exact .emitted hrun hs.contained
  | jump _ => exact .emitted hrun (.statement (by rintro ⟨⟩) (by rintro ⟨⟩))
  | jumpOut _ =>
    obtain ⟨code, rfl, hcode⟩ := jumpOut_ok hrun
    exact ⟨_, hcode, (contained_clearCode _).append (.statement (by rintro ⟨⟩) (by rintro ⟨⟩))⟩
  | ifReachable _ ih =>
    rcases ifReachable_ok hrun with hrun | ⟨-, rfl⟩
    · exact ih hst hrun
    · exact .of_bare rfl
  | annotate comment =>
    obtain ⟨code, rfl, hcode⟩ := annotate_ok hrun
    exact .of_bare hcode
  | register _ ih =>
    obtain ⟨_, _, hnew, hrun⟩ := exists_of_run_bind hrun
    cases hnew
    have hgains := ih _ hst.taken hrun
    exact hgains
  | @declare x _ _ _ _ _ _ _ _ hdepth hinit _ ihinit ihf =>
    obtain ⟨st₁, st₂, hrun₁, hbind, hrun₂⟩ := exists_of_declareLocal hrun
    have hst₁ := (hinit _).ready hfree hst.taken hrun₁
    have hscopes := hst₁.scopes_ne_nil hdepth
    have hst₂ := hst₁.named List.mem_cons_self hscopes hbind
    have hnamed : Gains (Contained x.caught) st₁ st₂ := by
      obtain rfl := bindRegister_ok hscopes hbind
      exact .of_bare rfl
    have hgains := ihinit _ hst.taken hrun₁
    exact (hgains.trans hnamed).trans (ihf _ hst₂ hrun₂)
  | constant hdepth _ =>
    obtain rfl := bindName_ok (hst.scopes_ne_nil hdepth) hrun
    exact .of_bare rfl
  | @scope x _ _ _ _ hact ih =>
    obtain ⟨st₁, hrun₁, hpop⟩ := exists_of_recordScope hrun
    have hscopes := (hact.ready hfree hst.opened hrun₁).scopes_ne_nil (Nat.succ_pos _)
    have hgains := ih hst.opened hrun₁
    exact hgains.trans (gains_popScope hscopes hpop)
  | construct kind parts _ _ ih =>
    obtain ⟨_, _, hnew, hrun⟩ := exists_of_run_bind hrun
    cases hnew
    have hgains := ih _ (hst.numbered _) hrun
    exact hgains
  | loop _ ih => exact ih hst hrun
  | inside _ _ _ ih => exact ih hst (run_inside hst hrun)
  | @protect x held _ _ body' cleanup' _ handler' handled cleaned clauses _ hsome _ hbody hhandler _ hcleanup
      ihb ihh ihc =>
    obtain ⟨n, _, hnew, hrun⟩ := exists_of_run_bind hrun
    cases hnew
    have hphases : (phaseLabel handled st.nextConstruct "catch").isSome ∨
        (phaseLabel cleaned st.nextConstruct "finally").isSome := by
      refine (hsome hstrict).imp ?_ ?_
      · rintro rfl
        rfl
      · rintro rfl
        rfl
    have hbody : Brings held x.depth (Adding (Contained x.caught)) body' := hbody.brings hfree ihb
    have hhandler : Brings held x.depth (Adding (Contained true)) (handler' st.nextConstruct) :=
      (hhandler _).brings hfree (ihh _)
    have hcleanup : Brings held x.depth (Adding (Contained x.caught)) cleanup' :=
      hcleanup.brings hfree ihc
    exact ((brings_contained hphases hbody hhandler hcleanup).run (hst.numbered _) hrun).2

end Lowering

/-! ### Walks through handlers -/

/-- A region stays in its catch phase at statements that define none of its labels. -/
private theorem RegionTracker.Steps.keeps_catch {t t' : RegionTracker} {stack : RegionStack} {id : RegionId}
    {r : Region} (h : t.Steps s p stack t') (hx : (id, .inCatch) ∈ t.stack)
    (hr : t.regions[id]? = some r) (hs : ∀ l, s.label? = some l → r.owns l = false) :
    (id, .inCatch) ∈ stack ∧ (id, .inCatch) ∈ t'.stack := by
  cases h with
  | plain => exact ⟨hx, hx⟩
  | opens => exact ⟨hx, List.mem_cons_of_mem _ hx⟩
  | closes hop hstack =>
    refine ⟨hx, ?_⟩
    rw [hstack] at hx
    rcases List.mem_cons.mp hx with hx | hx
    · cases hx
    · exact hx
  | @crosses l _ hl hcross =>
    refine (and_self_iff).mpr ?_
    rcases crossLabel_cases hcross with rfl | ⟨id', phase, outer, r', hstack, hr', hcases⟩
    · exact hx
    rw [hstack] at hx
    rcases List.mem_cons.mp hx with hx | hx
    · -- the label would be one of the region's own
      cases hx
      rw [region?, hr] at hr'
      cases hr'
      have hown := hs l hl
      simp only [Region.owns, Bool.or_eq_false_iff, beq_eq_false_iff_ne] at hown
      rcases hcases with ⟨hc, -⟩ | ⟨-, hf, -⟩ | ⟨he, -⟩
      · exact absurd hc hown.1.1
      · exact absurd hf hown.1.2
      · exact absurd he hown.2
    · rcases hcases with ⟨-, -, rfl⟩ | ⟨-, -, rfl⟩ | ⟨-, -, rfl⟩
      · exact List.mem_cons_of_mem _ hx
      · exact List.mem_cons_of_mem _ hx
      · exact hx

private theorem Walk.keeps_catch (w : Walk code) {id : RegionId} {r : Region} {i : Nat}
    (hr : w.allRegions[id]? = some r) (hx : (id, .inCatch) ∈ (w.tracker i).stack) (hip : i ≤ p)
    (hp : p < code.length)
    (hown : ∀ q l, i ≤ q → q ≤ p → labelAt? code q = some l → r.owns l = false) :
    (id, .inCatch) ∈ w.stack p := by
  have hstep (q : Nat) (hq : q < code.length) (hiq : i ≤ q) (hqp : q ≤ p)
      (hx : (id, .inCatch) ∈ (w.tracker q).stack) :
      (id, .inCatch) ∈ w.stack q ∧ (id, .inCatch) ∈ (w.tracker (q + 1)).stack := by
    have hs := List.getElem?_eq_getElem hq
    refine (w.steps hs).keeps_catch hx (w.getElem?_regions hr (Nat.le_of_lt hq)
      ((w.ordered (Nat.le_of_lt hq)).lt_length hx)) fun l hl ↦ hown q l hiq hqp ?_
    rw [labelAt?, hs]
    exact hl
  have hall (q : Nat) (hiq : i ≤ q) (hqp : q ≤ p) : (id, .inCatch) ∈ (w.tracker q).stack := by
    induction q with
    | zero => rwa [Nat.le_zero.mp hiq] at hx
    | succ q ih =>
      rcases Nat.le_succ_iff.mp hiq with hiq | rfl
      · exact (hstep q (by omega) hiq (by omega) (ih hiq (by omega))).2
      · exact hx
  exact (hstep p hp hip (Nat.le_refl p) (hall p hip (Nat.le_refl p))).1

/-- The labels of a protected construct stand before or behind the code of its handler. -/
private theorem CodeAt.exists_label {pos : Nat} {outer : RegionStack} {start : Nat}
    (hat : CodeAt code pos (protectedCode (some l) f e body handler cleanup)) {l' : String}
    (hown : Region.owns ⟨outer, start, some l, f, e⟩ l' = true) :
    ∃ q, labelAt? code q = some l' ∧
      (q = pos + 1 + body.length ∨ pos + 1 + body.length + handler.length < q) := by
  have hhandler := hat.tail.right
  have hend := hhandler.right.right
  rw [owns_iff, Option.toList_some, List.singleton_append, List.mem_cons, List.mem_append,
    Option.mem_toList, List.mem_singleton] at hown
  rcases hown with rfl | hf | rfl
  · exact ⟨_, hhandler.left.labelAt, .inl rfl⟩
  · obtain rfl : f = some l' := hf
    refine ⟨_, hhandler.right.left.labelAt, .inr ?_⟩
    simp only [Option.elim_some, List.length_cons]
    omega
  · refine ⟨_, hend.labelAt, .inr ?_⟩
    simp only [Option.elim_some, List.length_cons]
    omega

/-- In the handler of a protected construct its region is in the catch phase. -/
theorem Walk.catch_of_inHandler {sealed : Bool} {pool : List Value} {n : Nat} (w : Walk code)
    (hlaid : Laid sealed pool [] [] 0 n [] (code.map Statement.bare))
    (h : InHandler (code.map Statement.bare) p) (hp : p < code.length) :
    ∃ id, (id, .inCatch) ∈ w.stack p := by
  obtain ⟨before, l, f, e, body, handler, cleanup, after, hcode, hlt, hle⟩ := h
  have hat : CodeAt (code.map Statement.bare) before.length
      (protectedCode (some l) f e body handler cleanup) := by
    have := (CodeAt.refl (code.map Statement.bare))
    rw [hcode] at this ⊢
    have := this.left.right
    rwa [Nat.zero_add] at this
  have hnodup : (labelsOf code).Nodup := by
    rw [← labelsOf_map_bare]
    exact hlaid.nodup_labelsOf
  obtain ⟨-, hopens⟩ := w.bare.of_try hat
  have hr : w.allRegions[(w.tracker before.length).regions.length]? =
      some ⟨(w.tracker before.length).stack, w.position before.length, some l, f, e⟩ := by
    have hlength : before.length + 1 ≤ code.length := by omega
    obtain ⟨more, hmore⟩ := w.regions_le hlength (Nat.le_refl _)
    rw [Walk.allRegions, ← hmore, show w.tracker (before.length + 1) = _ from hopens]
    simp [Walk.bare]
  obtain ⟨first, last, hplaced⟩ := (hlaid.shaped w).placed hr
  obtain ⟨j, hj, hstack⟩ := hplaced.handler l rfl
  have hjpos : j = before.length + 1 + body.length := by
    have hlabel := hat.tail.right.left.labelAt
    rw [labelAt?_map_bare] at hlabel
    exact labelAt?_inj hnodup hj hlabel
  refine ⟨_, w.keeps_catch (i := j + 1) hr ?_ (by omega) hp fun q l' hjq hqp hl' ↦ ?_⟩
  · rw [(w.of_label hj).2, hstack]
    exact List.mem_cons_self
  · rw [← Bool.not_eq_true]
    intro hown
    obtain ⟨q', hq', hside⟩ := hat.exists_label hown
    rw [labelAt?_map_bare] at hq'
    have := labelAt?_inj hnodup hl' hq'
    omega

/-! ### The scan -/

private theorem padded_zero (code : List Statement) : padded (fun _ ↦ 0) code = code := by
  induction code with
  | nil => rfl
  | cons s rest ih => exact congrArg (s :: ·) ih

private theorem paddedStart_zero (i : Nat) : paddedStart (fun _ ↦ 0) i = i := by
  induction i with
  | zero => rfl
  | succ i ih => rw [paddedStart, ih, Nat.add_zero]

/-- A scan takes the steps of a walk that is told the positions in the code. -/
private theorem Walk.exists_scan (w : Walk code) (hposition : w.position = id)
    (hfinished : (w.tracker code.length).stack = []) :
    ∃ map, RegionMap.scan code = .ok map ∧ w.Scans map := by
  obtain ⟨map, hscan, hregions, hstates⟩ := exists_scanFrom_padded (fun _ ↦ 0) w.tracker w.stack 0
    (fun {i s} hs ↦ by
      rw [paddedStart_zero, Nat.zero_add, Nat.add_zero]
      have hsteps := w.steps hs
      rwa [hposition] at hsteps) hfinished
  rw [w.start, padded_zero] at hscan
  refine ⟨map, hscan, fun i ↦ congrFun hposition i, hregions, hfinished, fun {i} hi ↦ ?_⟩
  have := hstates (k := 0) hi (Nat.le_refl 0)
  rw [paddedStart_zero, Nat.add_zero] at this
  rw [RegionMap.stateAt, this]
  rfl

/-- The code of a method throws again only in handlers, if each of its protected statements has a handler
or a cleanup. -/
theorem contained_of_lowerMethod {m : Method} {symbols : SymbolTable} {o : Options} {t : FunctionTable}
    {f : LoweredFunction} (h : (lowerMethod m symbols o t).1 = .ok f)
    (hguarded : m.body.isGuarded = true) : Contained false (f.code.map Statement.bare) := by
  obtain ⟨st, rfl, hrun⟩ := exists_of_lowerMethod h
  let ctx : Lowering.Context := { method := m, symbols, comments := o.comments }
  have hasks : (ctx.setting .guarded).Asks fun leaving ↦ ctx.method.body.isOrderly leaving true true :=
    fun _ ↦ hguarded
  have hsteps := Lowering.Context.steps rfl .guarded hasks
  obtain ⟨part, hcode, hpart⟩ := hsteps.contained rfl (by rintro ⟨⟩) (.start t) hrun
  have hcode : st.code.toList.map Statement.bare = part := hcode
  rwa [← hcode] at hpart

/-- Where every protected statement of a method has a handler or a cleanup, a scan accepts its code, and
it finds a region in its catch phase wherever an exception is thrown again. -/
theorem rethrow_in_catch_phase {m : Method} {symbols : SymbolTable} {o : Options} {t : FunctionTable}
    {f : LoweredFunction} (h : (lowerMethod m symbols o t).1 = .ok f)
    (hguarded : m.body.isGuarded = true) :
    ∃ map, RegionMap.scan f.code = .ok map ∧ ∀ p s, f.code[p]? = some s → s.op = .rethrow →
      ∃ id, (id, Phase.inCatch) ∈ map.openAt p := by
  have hcontained := contained_of_lowerMethod h hguarded
  have hwell : f.WellFormed false := wellFormed_of_lowerMethod h (by rintro ⟨⟩)
  obtain ⟨n, hlaid⟩ := hwell.laid
  obtain ⟨w, hposition⟩ := hlaid.exists_walk hcontained.guards
  obtain ⟨map, hscan, hscans⟩ := w.exists_scan hposition (hlaid.shaped w).balanced
  refine ⟨map, hscan, fun p s hs hop ↦ ?_⟩
  have hp := (List.getElem?_eq_some_iff.mp hs).1
  have hbare : (f.code.map Statement.bare)[p]? = some s.bare := by rw [List.getElem?_map, hs]; rfl
  rw [hscans.openAt_eq hp]
  rcases hcontained.inHandler hbare hop with hfalse | hin
  · cases hfalse
  · exact w.catch_of_inHandler hlaid hin hp

/-- `try { } catch (Failure) { try { } finally { throw; } }` -/
private def nestedRethrow : Method where
  index := 0
  name := "retry"
  isStatic := true
  params := []
  returnTy := .void
  body := .mk [.tryCatch Span.none (.mk [] Span.none)
    [.mk (some (.named "Failure")) none (.mk [.tryCatch Span.none (.mk [] Span.none) []
      (some (.mk [.throw Span.none none] Span.none))] Span.none)] none] Span.none

/-- The exception is thrown again in a cleanup inside the handler, and behind the only clause. -/
theorem nested_rethrow_in_catch_phase :
    ∃ f, (lowerMethod nestedRethrow {} {} .empty).1 = .ok f ∧
      (f.code.filter (·.op == .rethrow)).length = 2 ∧
      ∃ map, RegionMap.scan f.code = .ok map ∧ ∀ p s, f.code[p]? = some s → s.op = .rethrow →
        ∃ id, (id, Phase.inCatch) ∈ map.openAt p := by
  have hcount : ((lowerMethod nestedRethrow {} {} .empty).1.toOption.any fun f ↦
      (f.code.filter (·.op == .rethrow)).length == 2) = true := by decide +kernel
  obtain ⟨f, hf, hcount⟩ := any_toOption.mp hcount
  exact ⟨f, hf, beq_iff_eq.mp hcount, rethrow_in_catch_phase hf (by decide)⟩

end MethodCompiler
