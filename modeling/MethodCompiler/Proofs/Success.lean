import Mathlib.Data.List.Forall2
import MethodCompiler.Lowering.Basic

/-!
# Computations that succeed

What a successful computation tells about its parts: for results that may be an error, for lists that
are computed item by item, for look-ups, and for steps of emitting code.
-/

namespace MethodCompiler

variable {ε α β : Type}

/-- One step after another succeeds if both do. -/
theorem bind_eq_ok {x : Except ε α} {f : α → Except ε β} {b : β} :
    (x >>= f) = .ok b ↔ ∃ a, x = .ok a ∧ f a = .ok b := by
  cases x with
  | error e => simp [bind, Except.bind]
  | ok a => simp [bind, Except.bind]

/-- A result is what it is. -/
theorem pure_eq_ok {a b : α} : (pure a : Except ε α) = .ok b ↔ a = b := by
  simp [pure, Except.pure]

/-- Another error makes no difference to success. -/
theorem mapError_eq_ok {ε' : Type} {x : Except ε α} {f : ε → ε'} {a : α} :
    x.mapError f = .ok a ↔ x = .ok a := by
  cases x with
  | error e => simp [Except.mapError]
  | ok b => simp [Except.mapError]

/-- A test that only a result can pass. -/
theorem any_toOption {x : Except ε α} {p : α → Bool} :
    x.toOption.any p = true ↔ ∃ a, x = .ok a ∧ p a = true := by
  cases x with
  | error e => simp [Except.toOption]
  | ok a => simp [Except.toOption]

/-- The items of a list that was computed item by item are the results of its sources. -/
theorem mem_mapM_ok {f : α → Except ε β} {l : List α} {r : List β} (h : l.mapM f = .ok r) :
    (∀ b ∈ r, ∃ a ∈ l, f a = .ok b) ∧ ∀ a ∈ l, ∃ b ∈ r, f a = .ok b := by
  induction l generalizing r with
  | nil =>
    rw [List.mapM_nil, pure_eq_ok] at h
    subst h
    simp
  | cons a rest ih =>
    rw [List.mapM_cons] at h
    obtain ⟨b, hb, h⟩ := bind_eq_ok.mp h
    obtain ⟨bs, hbs, h⟩ := bind_eq_ok.mp h
    rw [pure_eq_ok] at h
    subst h
    obtain ⟨hsource, hresult⟩ := ih hbs
    constructor
    · intro c hc
      rcases List.mem_cons.mp hc with rfl | hc
      · exact ⟨a, List.mem_cons_self, hb⟩
      · obtain ⟨a', ha', hf⟩ := hsource c hc
        exact ⟨a', List.mem_cons_of_mem a ha', hf⟩
    · intro c hc
      rcases List.mem_cons.mp hc with rfl | hc
      · exact ⟨b, List.mem_cons_self, hb⟩
      · obtain ⟨b', hb', hf⟩ := hresult c hc
        exact ⟨b', List.mem_cons_of_mem b hb', hf⟩

/-- A list that was computed item by item has the result of each item in its place. -/
theorem forall₂_of_mapM {f : α → Except ε β} {l : List α} {r : List β} (h : l.mapM f = .ok r) :
    List.Forall₂ (fun a b ↦ f a = .ok b) l r := by
  induction l generalizing r with
  | nil =>
    rw [List.mapM_nil, pure_eq_ok] at h
    subst h
    exact .nil
  | cons a rest ih =>
    rw [List.mapM_cons] at h
    obtain ⟨b, hb, h⟩ := bind_eq_ok.mp h
    obtain ⟨bs, hbs, h⟩ := bind_eq_ok.mp h
    rw [pure_eq_ok] at h
    subst h
    exact .cons hb (ih hbs)

/-- One step after another has a result if both have one. -/
theorem exists_bind_ok {x : Except ε α} {f : α → Except ε β} (hx : ∃ a, x = .ok a)
    (hf : ∀ a, x = .ok a → ∃ b, f a = .ok b) : ∃ b, (x >>= f) = .ok b := by
  obtain ⟨a, ha⟩ := hx
  obtain ⟨b, hb⟩ := hf a ha
  exact ⟨b, bind_eq_ok.mpr ⟨a, ha, hb⟩⟩

/-- A list can be computed item by item if each item can. -/
theorem exists_mapM_ok {f : α → Except ε β} {l : List α} (h : ∀ a ∈ l, ∃ b, f a = .ok b) :
    ∃ r, l.mapM f = .ok r := by
  induction l with
  | nil => exact ⟨[], rfl⟩
  | cons a rest ih =>
    rw [List.forall_mem_cons] at h
    rw [List.mapM_cons]
    exact exists_bind_ok h.1 fun b _ ↦ exists_bind_ok (ih h.2) fun bs _ ↦ ⟨b :: bs, rfl⟩

/-- Related lists have related items. -/
theorem rel_getElem? {R : α → β → Prop} {l : List α} {r : List β} (h : List.Forall₂ R l r)
    (i : Nat) : Option.Rel R l[i]? r[i]? := by
  induction h generalizing i with
  | nil => exact .none
  | cons hab _ ih =>
    cases i with
    | zero => exact .some hab
    | succ i => exact ih i

/-- What stands in one list has its partner in the other one, at the same place. -/
theorem exists_of_forall₂ {R : α → β → Prop} {l : List α} {r : List β} {a : α} {i : Nat}
    (h : List.Forall₂ R l r) (ha : l[i]? = some a) : ∃ b, r[i]? = some b ∧ R a b := by
  have hrel := rel_getElem? h i
  rw [ha] at hrel
  cases hb : r[i]? with
  | none =>
    rw [hb] at hrel
    cases hrel
  | some b =>
    rw [hb] at hrel
    cases hrel with
    | some hab => exact ⟨b, rfl, hab⟩

/-- What stands in the second list has its partner in the first one. -/
theorem exists_mem_of_forall₂ {R : α → β → Prop} {l : List α} {r : List β} {b : β}
    (h : List.Forall₂ R l r) (hb : b ∈ r) : ∃ a ∈ l, R a b := by
  induction h with
  | nil => cases hb
  | cons hab _ ih =>
    rcases List.mem_cons.mp hb with rfl | hb
    · exact ⟨_, List.mem_cons_self, hab⟩
    · obtain ⟨a, ha, hab⟩ := ih hb
      exact ⟨a, List.mem_cons_of_mem _ ha, hab⟩

/-- Among entries with distinct keys, a look-up finds the entry of its key. -/
theorem find?_of_nodup {κ : Type} [BEq κ] [LawfulBEq κ] {entries : List (κ × α)} {k : κ} {a : α}
    (hd : (entries.map (·.1)).Nodup) (hm : (k, a) ∈ entries) :
    entries.find? (·.1 == k) = some (k, a) := by
  induction entries with
  | nil => cases hm
  | cons e rest ih =>
    obtain ⟨hnew, hd⟩ := List.nodup_cons.mp hd
    rcases List.mem_cons.mp hm with rfl | hm
    · exact List.find?_cons_of_pos (beq_self_eq_true _)
    · have hne : e.1 ≠ k := by
        rintro rfl
        exact hnew (List.mem_map.mpr ⟨_, hm, rfl⟩)
      rw [List.find?_cons_of_neg (by simpa using hne)]
      exact ih hd hm

namespace Lowering

variable {act : Lower α} {f : α → Lower β} {st st' : State} {a : α} {b : β}

/-- A step that succeeds is followed by the next one, from the state that it leaves. -/
theorem run_bind (h : act st = .ok a st') : (act >>= f) st = f a st' := by
  simp only [bind, EStateM.bind, h]

/-- A run of one step after another is a run of each. -/
theorem exists_of_run_bind (h : (act >>= f) st = .ok b st') :
    ∃ a st₁, act st = .ok a st₁ ∧ f a st₁ = .ok b st' := by
  simp only [bind, EStateM.bind] at h
  split at h
  · next a st₁ hact => exact ⟨a, st₁, hact, h⟩
  · cases h

/-- A step succeeds also where its result is not needed. -/
theorem run_discard (h : act st = .ok a st') : discard act st = .ok () st' := by
  simp only [discard, Functor.discard, Functor.mapConst, EStateM.map, Function.comp, h,
    Function.const]

end Lowering

end MethodCompiler
