import MethodCompiler.Lowering.Body
import MethodCompiler.Proofs.Machine
import MethodCompiler.Proofs.Success

/-!
# What single steps of emitting code do

A step of emitting code adds statements behind those that are there, and constants behind those that are
there. Comments do not count: they are put on statements later. The lemmas here say this of the steps that
others are built from, and what closing a scope adds.
-/

namespace MethodCompiler

/-- A statement without its comment. -/
def Statement.bare (s : Statement) : Statement := { s with comment := none }

/-- Comments have no part in the labels of code. -/
theorem labelsOf_map_bare (code : List Statement) : labelsOf (code.map Statement.bare) = labelsOf code := by
  rw [labelsOf, List.filterMap_map]
  rfl

namespace Lowering

namespace State

/-- The code emitted so far, without comments. -/
def bare (st : State) : List Statement := st.code.toList.map Statement.bare

/-- The register is that of a local in scope. -/
def InScope (st : State) (r : Nat) : Prop :=
  ∃ scope ∈ st.scopes, ∃ name ty, (name, Binding.register r ty) ∈ scope

/-- The register has been given to a local. -/
def Names (st : State) (r : Nat) : Prop := ∃ name, (r, name) ∈ st.registerNames

/-- Names in scope stand for no constants that hold labels. -/
def LabelFree (st : State) : Prop :=
  ∀ scope ∈ st.scopes, ∀ name v, (name, Binding.constant v) ∈ scope → v.hasLabel = false

end State

variable {α β : Type} {act : Lower α} {st st₁ st₂ st' : State} {u : Unit} {s : Statement} {v : Value}
  {ctx : Context} {comment name : String} {scope : Scope} {outer : List Scope} {r k : Nat}

/-! ### Code and constants -/

/-- A step of emitting code has added some statements, and kept the constants. -/
structure Appends (st st' : State) (part : List Statement) : Prop where
  code : st'.bare = st.bare ++ part
  constants : st.constants <+: st'.constants

/-- A step that does nothing adds nothing. -/
theorem Appends.refl (st : State) : Appends st st [] := ⟨(List.append_nil _).symm, List.prefix_rfl⟩

/-- What two steps add, one after the other. -/
theorem Appends.trans {a b : List Statement} (h₁ : Appends st st₁ a) (h₂ : Appends st₁ st₂ b) :
    Appends st st₂ (a ++ b) :=
  ⟨by rw [h₂.code, h₁.code, List.append_assoc], h₁.constants.trans h₂.constants⟩

/-- What has been added, with comments. -/
theorem Appends.eq_map_bare {part part' : List Statement} (h : Appends st st' part)
    (hcode : st'.code.toList = st.code.toList ++ part') : part = part'.map Statement.bare := by
  have hbare := h.code
  rw [State.bare, hcode, List.map_append] at hbare
  exact (List.append_cancel_left hbare).symm

/-- An emitted statement stands behind the code. -/
theorem bare_push (st : State) (s : Statement) :
    State.bare { st with code := st.code.push s } = st.bare ++ [s.bare] := by
  simp [State.bare]

/-- Emitting a statement adds it. -/
theorem appends_of_emitStatement (h : emitStatement s st = .ok u st') :
    Appends st st' [s.bare] ∧ st'.nextConstruct = st.nextConstruct := by
  cases h
  exact ⟨⟨bare_push st s, List.prefix_rfl⟩, rfl⟩

/-- A run that drops its result is a run. -/
theorem discard_eq (act : Lower α) : discard act = act >>= fun _ ↦ pure () := by
  funext st
  simp only [discard, Functor.discard, Functor.mapConst, EStateM.map, Function.comp, bind, EStateM.bind]
  cases act st <;> rfl

private theorem run_modifyGet (g : State → α × State) (st : State) :
    (modifyGet g : Lower α) st = .ok (g st).1 (g st).2 := rfl

private theorem addConstant_of_some {i : Nat} (h : st.constants.findIdx? (· == v) = some i) :
    addConstant v st = .ok i st := by
  simp only [addConstant, run_modifyGet, h]

private theorem addConstant_of_none (h : st.constants.findIdx? (· == v) = none) :
    addConstant v st =
      .ok st.constants.length { st with constants := st.constants ++ [v] } := by
  simp only [addConstant, run_modifyGet, h]

/-- A constant has its place: it is new there, or an equal one was. -/
structure Added (v : Value) (st : State) (k : Nat) (constants : List Value) : Prop where
  kept : st.constants <+: constants
  entry : ∃ w, constants[k]? = some w ∧ (w = v ∨ st.constants[k]? = some w ∧ w.same v = true)
  others : ∀ (j : Nat) w, constants[j]? = some w → st.constants[j]? = some w ∨ j = k ∧ w = v

/-- A constant is added with regard to the constants only. -/
theorem exists_addConstant (v : Value) (st : State) : ∃ k constants, Added v st k constants ∧
    ∀ st₁ : State, st₁.constants = st.constants →
      addConstant v st₁ = .ok k { st₁ with constants } := by
  cases hfind : st.constants.findIdx? (· == v) with
  | some i =>
    obtain ⟨hlt, hsame, -⟩ := List.findIdx?_eq_some_iff_getElem.mp hfind
    have hentry := List.getElem?_eq_getElem hlt
    refine ⟨i, st.constants, ⟨List.prefix_rfl, ⟨_, hentry, .inr ⟨hentry, hsame⟩⟩, fun _ _ ↦ .inl⟩, ?_⟩
    intro st₁ h
    rw [addConstant_of_some (h ▸ hfind), ← h]
  | none =>
    refine ⟨st.constants.length, st.constants ++ [v],
      ⟨List.prefix_append _ _, ⟨v, List.getElem?_concat_length, .inl rfl⟩, fun j w hw ↦ ?_⟩, ?_⟩
    · simp only [List.getElem?_append] at hw
      split at hw
      · exact .inl hw
      · rw [List.getElem?_singleton] at hw
        split at hw
        · exact .inr ⟨by omega, (Option.some.inj hw).symm⟩
        · cases hw
    · intro st₁ h
      rw [addConstant_of_none (h ▸ hfind), ← h]

/-- Where literals go to the pool, loading one adds it there. -/
theorem exists_loadConstant (h : ctx.inPlace = false) (v : Value) (st : State) :
    ∃ k constants, Added v st k constants ∧ ∀ st₁ : State, st₁.constants = st.constants →
      loadConstant ctx v st₁ = .ok (.constant k) { st₁ with constants } := by
  obtain ⟨k, constants, hadd, hrun⟩ := exists_addConstant v st
  refine ⟨k, constants, hadd, fun st₁ h₁ ↦ ?_⟩
  rw [loadConstant, h, if_neg (by decide), run_bind (hrun st₁ h₁)]
  rfl

/-- Where literals stand in place, loading one changes nothing. -/
theorem loadConstant_inPlace (h : ctx.inPlace = true) (v : Value) :
    loadConstant ctx v = pure (.immediate v) := by
  rw [loadConstant, h, if_pos rfl]

/-! ### Comments -/

/-- A comment does not change the code without comments. -/
theorem map_bare_modify (code : Array Statement) (i : Nat) (comment : String) :
    (code.modify i fun s ↦ { s with comment := some comment }).toList.map Statement.bare =
      code.toList.map Statement.bare := by
  rw [Array.toList_modify]
  apply List.ext_getElem
  · simp
  · intro k h h'
    rw [List.getElem_map, List.getElem_map, List.getElem_modify]
    split <;> rfl

/-- A comment changes nothing but the code, and that only in its comments. -/
theorem annotate_ok (h : annotate ctx comment st = .ok u st') :
    ∃ code, st' = { st with code } ∧ code.toList.map Statement.bare = st.bare := by
  unfold annotate at h
  split at h
  · cases h
    exact ⟨_, rfl, map_bare_modify st.code _ comment⟩
  · cases h
    exact ⟨st.code, rfl, rfl⟩

/-! ### Scopes -/

/-- The registers of the locals of a scope. -/
def Scope.registers (scope : Scope) : List Nat :=
  scope.filterMap fun
    | (_, .register r _) => some r
    | (_, .constant _) => none

/-- A scope has the registers that names in it stand for. -/
theorem Scope.mem_registers : r ∈ scope.registers ↔ ∃ name ty, (name, Binding.register r ty) ∈ scope := by
  rw [registers, List.mem_filterMap]
  constructor
  · rintro ⟨⟨name, b⟩, hmem, hb⟩
    cases b with
    | register q ty =>
      cases hb
      exact ⟨name, ty, hmem⟩
    | constant v => cases hb
  · rintro ⟨name, ty, hmem⟩
    exact ⟨_, hmem, rfl⟩

/-- A register is in scope if some open scope has it. -/
theorem State.inScope_iff : st.InScope r ↔ ∃ scope ∈ st.scopes, r ∈ scope.registers := by
  simp only [InScope, Scope.mem_registers]

/-- What a name stands for in some scopes. -/
def binding? (scopes : List Scope) (name : String) : Option Binding :=
  scopes.findSome? fun scope ↦ (scope.reverse.find? (·.1 == name)).map (·.2)

/-- A look-up finds what a name stands for. -/
theorem lookup?_run (name : String) (st : State) :
    lookup? name st = .ok (binding? st.scopes name) st := rfl

/-- What a name stands for is in an open scope. -/
theorem mem_of_binding? {scopes : List Scope} {b : Binding} (h : binding? scopes name = some b) :
    ∃ scope ∈ scopes, ∃ name', (name', b) ∈ scope := by
  obtain ⟨scope, hscope, hmap⟩ := List.exists_of_findSome?_eq_some h
  obtain ⟨⟨name', b⟩, hfind, rfl⟩ := Option.map_eq_some_iff.mp hmap
  exact ⟨scope, hscope, name', List.mem_reverse.mp (List.mem_of_find?_eq_some hfind)⟩

/-- The statements that clear the registers of a scope. -/
def clearCode (scope : Scope) : List Statement :=
  scope.filterMap fun
    | (_, .register r ty) => some (.of .nullify [.register r ty, .register r ty])
    | (_, .constant _) => none

/-- Each clearing statement clears one register of the scope. -/
theorem exists_of_mem_clearCode (h : s ∈ clearCode scope) :
    ∃ r ∈ scope.registers, ∃ ty, s = .of .nullify [.register r ty, .register r ty] := by
  obtain ⟨⟨name, b⟩, hmem, hb⟩ := List.mem_filterMap.mp h
  cases b with
  | register r ty =>
    cases hb
    exact ⟨r, Scope.mem_registers.mpr ⟨name, ty, hmem⟩, ty, rfl⟩
  | constant v => cases hb

/-- Clearing bindings adds the statements that clear them. -/
theorem clearBindings_ok (h : clearBindings ctx scope st = .ok u st') :
    ∃ code, st' = { st with code } ∧
      code.toList.map Statement.bare = st.bare ++ clearCode scope := by
  induction scope generalizing st with
  | nil =>
    cases h
    exact ⟨_, rfl, (List.append_nil _).symm⟩
  | cons entry rest ih =>
    obtain ⟨name, b⟩ := entry
    cases b with
    | register r ty =>
      obtain ⟨_, st₁, hemit, h⟩ := exists_of_run_bind h
      obtain ⟨_, st₂, hannotate, h⟩ := exists_of_run_bind h
      cases hemit
      obtain ⟨code, rfl, hcode⟩ := annotate_ok hannotate
      obtain ⟨code', rfl, hcode'⟩ := ih h
      refine ⟨code', rfl, ?_⟩
      rw [hcode', State.bare, hcode]
      simp [State.bare, clearCode, Statement.bare, Statement.of]
    | constant v => exact ih h

private theorem closed_bare_iff (st : State) :
    Closed st.bare ↔ st.code.back?.any (·.op.isUnconditionalExit) = true := by
  rw [Closed, State.bare, List.getLast?_map, Option.any_map, ← Array.getLast?_toList]
  rfl

/-- A step that is run where control can be runs, or control cannot be there. -/
theorem ifReachable_ok {act : Lower Unit} (h : ifReachable act st = .ok u st') :
    act st = .ok u st' ∨ Closed st.bare ∧ st' = st := by
  obtain ⟨reached, _, hreach, h⟩ := exists_of_run_bind h
  cases hreach
  split at h
  · exact .inl h
  · next hreach =>
    cases h
    rw [Bool.not_eq_true, Bool.not_eq_false'] at hreach
    exact .inr ⟨(closed_bare_iff st).mpr hreach, rfl⟩

/-- Closing a scope clears its registers, unless control does not come to its end. -/
theorem popScope_ok (hscopes : st.scopes = scope :: outer) (h : popScope ctx st = .ok u st') :
    ∃ code clears, st' = { st with code, scopes := outer } ∧
      code.toList.map Statement.bare = st.bare ++ clears ∧
      (Closed st.bare ∧ clears = [] ∨ clears = clearCode scope) := by
  obtain ⟨_, _, hget, h⟩ := exists_of_run_bind h
  cases hget
  rw [hscopes] at h
  obtain ⟨_, _, hclose, h⟩ := exists_of_run_bind h
  cases hclose
  rcases ifReachable_ok h with h | ⟨hclosed, rfl⟩
  · obtain ⟨code, rfl, hcode⟩ := clearBindings_ok h
    exact ⟨code, _, rfl, hcode, .inr rfl⟩
  · exact ⟨st.code, [], rfl, (List.append_nil _).symm, .inl ⟨hclosed, rfl⟩⟩

/-- Leaving a construct clears the scopes that are left, and jumps. -/
theorem jumpOut_ok {label : String} {depth : Nat} (h : jumpOut ctx label depth st = .ok u st') :
    ∃ code, st' = { st with code } ∧ code.toList.map Statement.bare = st.bare ++
      (clearCode (st.scopes.take (st.scopes.length - depth)).flatten ++ [Statement.jump label]) := by
  obtain ⟨_, st₁, hclear, hjump⟩ := exists_of_run_bind h
  obtain ⟨_, _, hget, hclear⟩ := exists_of_run_bind hclear
  cases hget
  obtain ⟨code, rfl, hcode⟩ := clearBindings_ok hclear
  cases hjump
  refine ⟨_, rfl, ?_⟩
  rw [Array.toList_push, List.map_append, hcode, List.append_assoc]
  rfl

/-- The scopes, with more names in the innermost one. -/
def extendInnermost (added : Scope) : List Scope → List Scope
  | [] => []
  | scope :: outer => (scope ++ added) :: outer

/-- Names are added to a scope that is open. -/
theorem length_extendInnermost (added : Scope) (scopes : List Scope) :
    (extendInnermost added scopes).length = scopes.length := by
  cases scopes <;> rfl

/-- Where no names are added, the scopes stay as they are. -/
theorem extendInnermost_nil (scopes : List Scope) : extendInnermost [] scopes = scopes := by
  cases scopes with
  | nil => rfl
  | cons scope outer => rw [extendInnermost, List.append_nil]

/-- Names can be added in two parts. -/
theorem extendInnermost_append (a b : Scope) (scopes : List Scope) :
    extendInnermost (a ++ b) scopes = extendInnermost b (extendInnermost a scopes) := by
  cases scopes with
  | nil => rfl
  | cons scope outer => simp only [extendInnermost, List.append_assoc]

/-- The scopes have the names that they had, and the added ones. -/
theorem mem_of_extendInnermost {added : Scope} {scopes : List Scope} {e : String × Binding}
    (hscope : scope ∈ extendInnermost added scopes) (he : e ∈ scope) :
    e ∈ added ∨ ∃ scope' ∈ scopes, e ∈ scope' := by
  cases scopes with
  | nil => cases hscope
  | cons top outer =>
    rcases List.mem_cons.mp hscope with rfl | hscope
    · rcases List.mem_append.mp he with he | he
      · exact .inr ⟨top, List.mem_cons_self, he⟩
      · exact .inl he
    · exact .inr ⟨scope, List.mem_cons_of_mem _ hscope, he⟩

/-- Where a scope is open, a name is added to the innermost one. -/
theorem bindName_ok {b : Binding} (hscopes : st.scopes ≠ []) (h : bindName name b st = .ok u st') :
    st' = { st with scopes := extendInnermost [(name, b)] st.scopes } := by
  cases h
  obtain ⟨top, outer, hcons⟩ := List.exists_cons_of_ne_nil hscopes
  simp only [hcons, extendInnermost]

/-- Where a scope is open, a register is given to a local of the innermost one. -/
theorem bindRegister_ok {ty : Ty} (hscopes : st.scopes ≠ []) (h : bindRegister name r ty st = .ok u st') :
    st' = { st with
      registerNames := st.registerNames ++ [(r, name)]
      scopes := extendInnermost [(name, .register r ty)] st.scopes } := by
  cases h
  obtain ⟨top, outer, hcons⟩ := List.exists_cons_of_ne_nil hscopes
  simp only [hcons, extendInnermost]

end Lowering

end MethodCompiler
