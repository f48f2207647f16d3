import MethodCompiler.Proofs.ClearedRegisters
import MethodCompiler.Proofs.DefinedLabels
import MethodCompiler.Proofs.SlotWalks

/-!
# Ways out of a scope

Control leaves the code of a scope past its end, or by a jump to a label of a construct around it. On both
ways the last thing to happen to the register of a local is that it is cleared. `Enclosed` says this of a
run of statement code, for the scopes that it closes and, as far as it goes, for those that stay open.
-/

namespace MethodCompiler

/-! ### Places that control can go to -/

namespace Statement

variable {s : Statement} {pool : List Value} {l : String}

/-- The labels that control can go to from a statement. -/
def exits (pool : List Value) (s : Statement) : List String :=
  s.target?.toList ++ if s.op == .switch then FlowGraph.switchTargets s pool else []

private theorem leadsTo_of_mem_exits (h : l ∈ s.exits pool) : s.LeadsTo pool l := by
  rcases List.mem_append.mp h with h | h
  · exact .inl (Option.mem_toList.mp h)
  · split at h
    · next hop => exact .inr (.inl ⟨beq_iff_eq.mp hop, h⟩)
    · cases h

/-- Control goes only on from a statement that is no branch. -/
private theorem exits_eq_nil (hbranch : s.op.isBranch = false) (hswitch : s.op ≠ .switch) :
    s.exits pool = [] := by
  rw [exits, target?, hbranch, beq_false_of_ne hswitch]
  rfl

private theorem Clears.exits_eq_nil {first last : Nat} (h : s.Clears first last) : s.exits pool = [] := by
  refine Statement.exits_eq_nil ?_ ?_ <;> rw [h.op]
  · rfl
  · decide

end Statement

/-- The code ends with statements that clear one register each, `r` among them. -/
def EndsCleared (r : Nat) (code : List Statement) : Prop :=
  ∃ clears, clears <:+ code ∧ (∀ s ∈ clears, ∃ q, s.Clears q q) ∧ ∃ s ∈ clears, s.Clears r r

private theorem EndsCleared.append_left {r : Nat} {code : List Statement} (h : EndsCleared r code)
    (before : List Statement) : EndsCleared r (before ++ code) := by
  obtain ⟨clears, hsuffix, h⟩ := h
  exact ⟨clears, hsuffix.trans (List.suffix_append before code), h⟩

/-- Control goes from the code to its own labels, to labels of `near`, and by jumps to labels of `far`. In
front of such a jump all registers are cleared that must be, where so many scopes stay open. -/
def Escapes (pool : List Value) (near : List String) (far : List (String × Nat))
    (must : Nat → Nat → Prop) (code : List Statement) : Prop :=
  ∀ i s, code[i]? = some s → ∀ l ∈ s.exits pool, l ∈ labelsOf code ∨ l ∈ near ∨
    s = .jump l ∧ ∃ depth, (l, depth) ∈ far ∧ ∀ r, must depth r → EndsCleared r (code.take i)

namespace Escapes

variable {pool : List Value} {near near₁ : List String} {far far₁ : List (String × Nat)}
  {must must₁ must₂ : Nat → Nat → Prop} {a b code : List Statement}

private theorem nil : Escapes pool near far must [] := by
  intro i s hs
  cases hs

/-- Code that goes to labels of its own and to near ones only. -/
private theorem of_exits (h : ∀ s ∈ code, ∀ l ∈ s.exits pool, l ∈ labelsOf code ∨ l ∈ near) :
    Escapes pool near far must code := fun _ s hs l hl ↦
  (h s (List.mem_of_getElem? hs) l hl).imp_right .inl

/-- One part after another. What is near or far for the first may be a label of the second. -/
private theorem append (ha : Escapes pool near₁ far₁ must₁ a) (hb : Escapes pool near far must₂ b)
    (hnear : ∀ l ∈ near₁, l ∈ near ∨ l ∈ labelsOf b) (hfar : ∀ e ∈ far₁, e ∈ far ∨ e.1 ∈ labelsOf b)
    (hmust₁ : ∀ d r, must d r → must₁ d r) (hmust₂ : ∀ d r, must d r → must₂ d r) :
    Escapes pool near far must (a ++ b) := by
  intro i s hs l hl
  rw [labelsOf_append, List.mem_append]
  rcases Nat.lt_or_ge i a.length with hi | hi
  · rw [List.getElem?_append_left hi] at hs
    rw [List.take_append_of_le_length (Nat.le_of_lt hi)]
    rcases ha i s hs l hl with h | h | ⟨hjump, depth, he, hclear⟩
    · exact .inl (.inl h)
    · exact (hnear l h).elim (fun h ↦ .inr (.inl h)) fun h ↦ .inl (.inr h)
    · rcases hfar _ he with h | h
      · exact .inr (.inr ⟨hjump, depth, h, fun r hr ↦ hclear r (hmust₁ depth r hr)⟩)
      · exact .inl (.inr h)
  · rw [List.getElem?_append_right hi] at hs
    rcases hb _ s hs l hl with h | h | ⟨hjump, depth, he, hclear⟩
    · exact .inl (.inr h)
    · exact .inr (.inl h)
    · refine .inr (.inr ⟨hjump, depth, he, fun r hr ↦ ?_⟩)
      rw [List.take_append, List.take_of_length_le hi]
      exact (hclear r (hmust₂ depth r hr)).append_left a

/-- Where all labels that control goes to are defined in the code, it does not matter what is around. -/
private theorem closed (h : Escapes pool near₁ far₁ must₁ code) (hnear : ∀ l ∈ near₁, l ∈ labelsOf code)
    (hfar : ∀ e ∈ far₁, e.1 ∈ labelsOf code) : Escapes pool near far must code := by
  intro i s hs l hl
  rcases h i s hs l hl with h | h | ⟨-, depth, he, -⟩
  · exact .inl h
  · exact .inl (hnear l h)
  · exact .inl (hfar _ he)

/-- The same code with more around it. What was far may be near then. -/
private theorem mono (h : Escapes pool near₁ far₁ must code) (hnear : ∀ l ∈ near₁, l ∈ near)
    (hfar : ∀ e ∈ far₁, e ∈ far ∨ e.1 ∈ near) : Escapes pool near far must code := by
  intro i s hs l hl
  rcases h i s hs l hl with h | h | ⟨hjump, depth, he, hclear⟩
  · exact .inl h
  · exact .inr (.inl (hnear l h))
  · rcases hfar _ he with he | he
    · exact .inr (.inr ⟨hjump, depth, he, hclear⟩)
    · exact .inr (.inl he)

end Escapes

/-- From some position on, before which `r` is not touched, control leaves the code for a label that is not
near only after `r` has been cleared, if fewer scopes than `n` stay open there. -/
def Kept (pool : List Value) (near : List String) (far : List (String × Nat)) (n r : Nat)
    (code : List Statement) : Prop :=
  ∃ a b, code = a ++ b ∧ (∀ s ∈ a, r ∉ s.registers) ∧
    Escapes pool near far (fun depth q ↦ q = r ∧ depth < n) b

/-- Control leaves the code, by a jump or past its end, only where `r` has been cleared. -/
structure Confined (pool : List Value) (r : Nat) (code : List Statement) : Prop where
  jumps : ∀ i s, code[i]? = some s → ∀ l ∈ s.exits pool, l ∈ labelsOf code ∨
    s = .jump l ∧ EndsCleared r (code.take i)
  atEnd : code = [] ∨ Closed code ∨ EndsCleared r code

/-- For each of its locals, the code of a scope does not touch the register, and then contains it. -/
def ScopeSpan.Safe (pool : List Value) (code : List Statement) (span : ScopeSpan) : Prop :=
  ∀ r ∈ span.registers, ∃ before a b after, code = before ++ (a ++ (b ++ after)) ∧
    before.length = span.first ∧ before.length + (a.length + b.length) = span.last ∧
    (∀ s ∈ a, r ∉ s.registers) ∧ Confined pool r b

/-- A scope stays safe when code is added behind it. -/
private theorem ScopeSpan.Safe.append {pool : List Value} {code : List Statement} {span : ScopeSpan}
    (h : span.Safe pool code) (rest : List Statement) : span.Safe pool (code ++ rest) := by
  intro r hr
  obtain ⟨before, a, b, after, rfl, hspan⟩ := h r hr
  exact ⟨before, a, b, after ++ rest, by simp only [List.append_assoc], hspan⟩

namespace Lowering

variable {near near₁ : List String} {far far₁ : List (String × Nat)} {own own₁ own₂ : List String}
  {st st' st₁ st₂ : State} {spans spans₁ spans₂ : List ScopeSpan} {part part₁ part₂ : List Statement}
  {added added₁ added₂ scope : Scope} {scopes : List Scope} {pool : List Value} {s : Statement}
  {depth r n : Nat} {u : Unit}

/-! ### Scopes -/

private theorem registers_append (a b : Scope) : Scope.registers (a ++ b) = a.registers ++ b.registers :=
  List.filterMap_append

/-- The register belongs to a scope that is left where only the outermost `depth` scopes stay open. -/
def Leaves (scopes : List Scope) (depth r : Nat) : Prop :=
  ∃ scope ∈ scopes.take (scopes.length - depth), r ∈ scope.registers

private theorem Leaves.extended (h : Leaves scopes depth r) (added : Scope) :
    Leaves (extendInnermost added scopes) depth r := by
  obtain ⟨scope, hscope, hr⟩ := h
  rw [Leaves, length_extendInnermost]
  cases scopes with
  | nil => simp at hscope
  | cons top outer =>
    cases hk : (top :: outer).length - depth with
    | zero =>
      rw [hk] at hscope
      cases hscope
    | succ k =>
      rw [hk, List.take_succ_cons] at hscope
      rw [extendInnermost, List.take_succ_cons]
      rcases List.mem_cons.mp hscope with rfl | hscope
      · refine ⟨_, List.mem_cons_self, ?_⟩
        rw [registers_append]
        exact List.mem_append_left _ hr
      · exact ⟨scope, List.mem_cons_of_mem _ hscope, hr⟩

private theorem leaves_added (hr : r ∈ added.registers) (hdepth : depth < scopes.length) :
    Leaves (extendInnermost added scopes) depth r := by
  cases scopes with
  | nil => cases hdepth
  | cons top outer =>
    rw [Leaves, length_extendInnermost]
    obtain ⟨k, hk⟩ : ∃ k, (top :: outer).length - depth = k + 1 :=
      ⟨outer.length - depth, by rw [List.length_cons] at hdepth ⊢; omega⟩
    rw [hk, extendInnermost, List.take_succ_cons]
    refine ⟨_, List.mem_cons_self, ?_⟩
    rw [registers_append]
    exact List.mem_append_right _ hr

/-- What is left with the scopes is left also where one more is open. -/
private theorem Leaves.pushed (h : Leaves scopes depth r) (scope : Scope) :
    Leaves (scope :: scopes) depth r := by
  obtain ⟨scope', hscope', hr⟩ := h
  have hpos := List.length_pos_of_mem hscope'
  rw [List.length_take] at hpos
  refine ⟨scope', ?_, hr⟩
  rw [List.length_cons, Nat.succ_sub (by omega), List.take_succ_cons]
  exact List.mem_cons_of_mem _ hscope'

/-! ### Clearing -/

private theorem clears_of_mem_clearCode (h : s ∈ clearCode scope) : ∃ r ∈ scope.registers, s.Clears r r := by
  obtain ⟨r, hr, ty, rfl⟩ := exists_of_mem_clearCode h
  exact ⟨r, hr, rfl, ⟨ty, ty, rfl⟩, Nat.le_refl r⟩

private theorem endsCleared_clearCode (h : r ∈ scope.registers) : EndsCleared r (clearCode scope) := by
  refine ⟨_, List.suffix_refl _, fun s hs ↦ ?_, ?_⟩
  · obtain ⟨q, -, hq⟩ := clears_of_mem_clearCode hs
    exact ⟨q, hq⟩
  · obtain ⟨name, ty, hmem⟩ := Scope.mem_registers.mp h
    exact ⟨_, List.mem_filterMap.mpr ⟨_, hmem, rfl⟩, rfl, ⟨ty, ty, rfl⟩, Nat.le_refl r⟩

private theorem owned_of_mem_clearCode (h : ∀ r ∈ scope.registers, r < n) (hs : s ∈ clearCode scope) :
    s.Owned (fun _ ↦ True) n := by
  obtain ⟨r, hr, ty, rfl⟩ := exists_of_mem_clearCode hs
  have howned : (Operand.register r ty).Owned (fun _ ↦ True) n := by
    rintro _ ⟨⟩
    exact ⟨trivial, h r hr⟩
  exact Statement.owned_of_operands (by rintro ⟨⟩)
    (List.forall_mem_cons.mpr ⟨howned, List.forall_mem_singleton.mpr howned⟩)

/-! ### Runs -/

/-- What a run of statement code has done to the locals of scopes. The names `added` are new in the
innermost scope, and the scopes `spans` have been closed. -/
structure Enclosed (near : List String) (far : List (String × Nat)) (own : List String) (st st' : State)
    (spans : List ScopeSpan) (part : List Statement) (added : Scope) : Prop extends Appends st st' part where
  registers : st.nextRegister ≤ st'.nextRegister
  scopes : st'.scopes = extendInnermost added st.scopes
  unscoped : st.scopes = [] → added = []
  names : ∀ r, st'.Names r ↔ st.Names r ∨ r ∈ added.registers ∨ r ∈ spans.flatMap (·.registers)
  touched : ∀ s ∈ part, s.Owned (fun _ ↦ True) st'.nextRegister
  labels : ∀ l ∈ own, l ∈ labelsOf part
  escapes : ∀ pool, st'.constants <+: pool → Escapes pool near far (Leaves st.scopes) part
  fresh : ∀ r ∈ added.registers, st.nextRegister ≤ r ∧ r < st'.nextRegister
  kept : ∀ pool, st'.constants <+: pool → ∀ r ∈ added.registers, Kept pool near far st.scopes.length r part
  safe : ∀ pool, st'.constants <+: pool → ∀ span ∈ spans, span.Safe pool st'.bare

namespace Enclosed

/-- A step that leaves the scopes as they are. -/
private theorem of_escapes (happ : Appends st st' part) (hregisters : st.nextRegister ≤ st'.nextRegister)
    (hscopes : st'.scopes = st.scopes) (hnames : st'.registerNames = st.registerNames)
    (htouched : ∀ s ∈ part, s.Owned (fun _ ↦ True) st'.nextRegister)
    (hlabels : ∀ l ∈ own, l ∈ labelsOf part)
    (hescapes : ∀ pool, st'.constants <+: pool → Escapes pool near far (Leaves st.scopes) part) :
    Enclosed near far own st st' [] part [] where
  toAppends := happ
  registers := hregisters
  scopes := by rw [hscopes, extendInnermost_nil]
  unscoped _ := rfl
  names r := by simp [State.Names, hnames, Scope.registers]
  touched := htouched
  labels := hlabels
  escapes := hescapes
  fresh := List.forall_mem_nil _
  kept _ _ := List.forall_mem_nil _
  safe _ _ := List.forall_mem_nil _

/-- A step that emits no code and leaves the scopes as they are. -/
theorem quiet (hbare : st'.bare = st.bare) (hconstants : st'.constants = st.constants)
    (hregisters : st.nextRegister ≤ st'.nextRegister) (hscopes : st'.scopes = st.scopes)
    (hnames : st'.registerNames = st.registerNames) : Enclosed near far [] st st' [] [] [] :=
  .of_escapes ⟨by rw [hbare, List.append_nil], hconstants ▸ List.prefix_rfl⟩ hregisters hscopes hnames
    (List.forall_mem_nil _) (List.forall_mem_nil _) fun _ _ ↦ .nil

/-- A step that does nothing. -/
theorem refl (st : State) : Enclosed near far [] st st [] [] [] := .quiet rfl rfl (Nat.le_refl _) rfl rfl

/-- One step after another. The first may go to labels that the second defines. A local of the first is
in scope in the second. The code of the first does not touch a local of the second, whose register it
does not know yet. -/
theorem trans (h₁ : Enclosed near₁ far₁ own₁ st st₁ spans₁ part₁ added₁)
    (h₂ : Enclosed near far own₂ st₁ st₂ spans₂ part₂ added₂)
    (hnear : ∀ l ∈ near₁, l ∈ near ∨ l ∈ own₂) (hfar : ∀ e ∈ far₁, e ∈ far ∨ e.1 ∈ own₂) :
    Enclosed near far (own₁ ++ own₂) st st₂ (spans₁ ++ spans₂) (part₁ ++ part₂) (added₁ ++ added₂) := by
  have hnear' : ∀ l ∈ near₁, l ∈ near ∨ l ∈ labelsOf part₂ :=
    fun l hl ↦ (hnear l hl).imp_right (h₂.labels l)
  have hfar' : ∀ e ∈ far₁, e ∈ far ∨ e.1 ∈ labelsOf part₂ :=
    fun e he ↦ (hfar e he).imp_right (h₂.labels e.1)
  have hpool₁ {pool : List Value} (hpool : st₂.constants <+: pool) : st₁.constants <+: pool :=
    h₂.constants.trans hpool
  have hlength : st₁.scopes.length = st.scopes.length := by rw [h₁.scopes, length_extendInnermost]
  refine ⟨h₁.toAppends.trans h₂.toAppends, Nat.le_trans h₁.registers h₂.registers, ?_, fun hnone ↦ ?_,
    fun r ↦ ?_, ?_, ?_, ?_, ?_, ?_, ?_⟩
  · rw [h₂.scopes, h₁.scopes, extendInnermost_append]
  · rw [h₁.unscoped hnone, h₂.unscoped (List.eq_nil_of_length_eq_zero (hlength.trans (congrArg _ hnone)))]
    rfl
  · rw [h₂.names, h₁.names, registers_append, List.flatMap_append, List.mem_append, List.mem_append]
    tauto
  · exact List.forall_mem_append.mpr ⟨fun s hs ↦ (h₁.touched s hs).mono h₂.registers, h₂.touched⟩
  · rw [labelsOf_append]
    exact List.forall_mem_append.mpr ⟨fun l hl ↦ List.mem_append_left _ (h₁.labels l hl),
      fun l hl ↦ List.mem_append_right _ (h₂.labels l hl)⟩
  · intro pool hpool
    refine (h₁.escapes pool (hpool₁ hpool)).append (h₂.escapes pool hpool) hnear' hfar'
      (fun _ _ ↦ id) fun d r hr ↦ ?_
    rw [h₁.scopes]
    exact hr.extended added₁
  · rw [registers_append]
    refine List.forall_mem_append.mpr ⟨fun r hr ↦ ?_, fun r hr ↦ ?_⟩
    · exact ⟨(h₁.fresh r hr).1, Nat.lt_of_lt_of_le (h₁.fresh r hr).2 h₂.registers⟩
    · exact ⟨Nat.le_trans h₁.registers (h₂.fresh r hr).1, (h₂.fresh r hr).2⟩
  · intro pool hpool
    rw [registers_append]
    refine List.forall_mem_append.mpr ⟨fun r hr ↦ ?_, fun r hr ↦ ?_⟩
    · obtain ⟨a, b, rfl, huntouched, hescapes⟩ := h₁.kept pool (hpool₁ hpool) r hr
      refine ⟨a, b ++ part₂, List.append_assoc a b part₂, huntouched, ?_⟩
      refine hescapes.append (h₂.escapes pool hpool) hnear' hfar' (fun _ _ ↦ id) ?_
      rintro d _ ⟨rfl, hd⟩
      rw [h₁.scopes]
      exact leaves_added hr hd
    · obtain ⟨a, b, rfl, huntouched, hescapes⟩ := h₂.kept pool hpool r hr
      rw [hlength] at hescapes
      refine ⟨part₁ ++ a, b, (List.append_assoc part₁ a b).symm, ?_, hescapes⟩
      refine List.forall_mem_append.mpr ⟨fun s hs hmem ↦ ?_, huntouched⟩
      obtain ⟨x, hx, rfl⟩ := List.mem_map.mp hmem
      exact Nat.not_lt.mpr (h₂.fresh _ hr).1 (h₁.touched s hs x hx).2
  · intro pool hpool
    refine List.forall_mem_append.mpr ⟨fun span hspan ↦ ?_, h₂.safe pool hpool⟩
    rw [h₂.code]
    exact (h₁.safe pool (hpool₁ hpool) span hspan).append part₂

/-- Code that goes to labels of its own only does so in any surroundings. -/
theorem closed (h : Enclosed near₁ far₁ own st st' spans part added) (hnear : ∀ l ∈ near₁, l ∈ own)
    (hfar : ∀ e ∈ far₁, e.1 ∈ own) : Enclosed near far own st st' spans part added := by
  have hescapes (pool : List Value) (hpool : st'.constants <+: pool) (must : Nat → Nat → Prop) :
      Escapes pool near far must part :=
    (h.escapes pool hpool).closed (fun l hl ↦ h.labels l (hnear l hl))
      fun e he ↦ h.labels e.1 (hfar e he)
  exact { h with
    escapes := fun pool hpool ↦ hescapes pool hpool _
    kept := fun pool hpool r _ ↦
      ⟨[], part, rfl, List.forall_mem_nil _, hescapes pool hpool _⟩ }

/-- The same step with more around it. What was far may be near then. -/
theorem mono (h : Enclosed near₁ far₁ own st st' spans part added) (hnear : ∀ l ∈ near₁, l ∈ near)
    (hfar : ∀ e ∈ far₁, e ∈ far ∨ e.1 ∈ near) : Enclosed near far own st st' spans part added :=
  { h with
    escapes := fun pool hpool ↦ (h.escapes pool hpool).mono hnear hfar
    kept := fun pool hpool r hr ↦ by
      obtain ⟨a, b, hpart, huntouched, hescapes⟩ := h.kept pool hpool r hr
      exact ⟨a, b, hpart, huntouched, hescapes.mono hnear hfar⟩ }

/-- The labels of a construct do not matter outside of it. -/
theorem forget (h : Enclosed near far own st st' spans part added) :
    Enclosed near far [] st st' spans part added :=
  { h with labels := List.forall_mem_nil _ }

/-- A step seen from where its register is not in use yet. -/
theorem untaken
    (h : Enclosed near far own { st with nextRegister := st.nextRegister + 1 } st' spans part added) :
    Enclosed near far own st st' spans part added where
  toAppends := ⟨h.code, h.constants⟩
  registers := Nat.le_of_succ_le h.registers
  scopes := h.scopes
  unscoped := h.unscoped
  names := h.names
  touched := h.touched
  labels := h.labels
  escapes := h.escapes
  fresh r hr := ⟨Nat.le_of_succ_le (h.fresh r hr).1, (h.fresh r hr).2⟩
  kept := h.kept
  safe := h.safe

/-- A step seen from where its construct has no number yet. -/
theorem unnumbered (h : Enclosed near far own { st with nextConstruct := n } st' spans part added) :
    Enclosed near far own st st' spans part added where
  toAppends := ⟨h.code, h.constants⟩
  registers := h.registers
  scopes := h.scopes
  unscoped := h.unscoped
  names := h.names
  touched := h.touched
  labels := h.labels
  escapes := h.escapes
  fresh := h.fresh
  kept := h.kept
  safe := h.safe

/-- Expression code goes to labels of its own and to near ones. -/
theorem ofRan {k : Setting} (h : Ran k (fun _ ↦ True) near₁ own st st' part) (hnear : ∀ l ∈ near₁, l ∈ near) :
    Enclosed near far own st st' [] part [] := by
  have hlaid {pool : List Value} (hpool : st'.constants <+: pool) :
      Laid false pool near₁ near₁ _ _ own part :=
    h.laid (fun _ ↦ id) hpool
  refine .of_escapes h.toAppends h.registers h.scopes h.names (fun s hs ↦ (h.statements s hs).2)
    (hlaid List.prefix_rfl).own_subset fun pool hpool ↦ .of_exits fun s hs l hl ↦ ?_
  refine ((hlaid hpool).mem_of_leadsTo s hs l (Statement.leadsTo_of_mem_exits hl)).imp_right fun hl ↦ ?_
  exact hnear l (hl.elim id id)

/-- A statement from which control goes to near labels, if anywhere but on. -/
private theorem statement (hrun : emitStatement s st = .ok u st')
    (howned : s.bare.Owned (fun _ ↦ True) st.nextRegister)
    (hexits : ∀ pool, ∀ l ∈ s.bare.exits pool, l ∈ near) (hlabels : ∀ l ∈ own, l ∈ labelsOf [s.bare]) :
    Enclosed near far own st st' [] [s.bare] [] := by
  have happ := (appends_of_emitStatement hrun).1
  cases hrun
  exact .of_escapes happ (Nat.le_refl _) rfl rfl (List.forall_mem_singleton.mpr howned) hlabels fun pool _ ↦
    .of_exits (List.forall_mem_singleton.mpr fun l hl ↦ .inr (hexits pool l hl))

/-- A statement from which control goes nowhere but on, if anywhere. -/
theorem plain (hrun : emitStatement s st = .ok u st') (howned : s.bare.Owned (fun _ ↦ True) st.nextRegister)
    (hbranch : s.op.isBranch = false) (hswitch : s.op ≠ .switch) :
    Enclosed near far [] st st' [] [s.bare] [] := by
  refine .statement hrun howned (fun pool ↦ ?_) (List.forall_mem_nil _)
  have hexits : s.bare.exits pool = [] := Statement.exits_eq_nil hbranch hswitch
  rw [hexits]
  exact List.forall_mem_nil _

/-- A label. -/
theorem label {l : String} (hrun : emitLabel l st = .ok u st') :
    Enclosed near far [l] st st' [] [Statement.label l] [] := by
  refine .statement hrun (Statement.owned_of_operands (by rintro ⟨⟩) (List.forall_mem_singleton.mpr ?_))
    (fun pool ↦ ?_) fun _ ↦ id
  · exact Operand.owned_of_register? rfl
  · have hexits : (Statement.label l).bare.exits pool = [] := Statement.exits_eq_nil rfl (by rintro ⟨⟩)
    rw [hexits]
    exact List.forall_mem_nil _

/-- A jump to a near label. -/
theorem jump {l : String} (hl : l ∈ near) (hrun : emitJump l st = .ok u st') :
    Enclosed near far [] st st' [] [Statement.jump l] [] := by
  refine .statement hrun (Statement.owned_of_operands (by rintro ⟨⟩) (List.forall_mem_singleton.mpr ?_))
    (fun _ ↦ List.forall_mem_singleton.mpr hl) (List.forall_mem_nil _)
  exact Operand.owned_of_register? rfl

/-- Whatever is left, is cleared in front of the jump. -/
theorem jumpOut {ctx : Context} {l : String} (hl : (l, depth) ∈ far)
    (hscope : ∀ r, st.InScope r → r < st.nextRegister) (hrun : Lowering.jumpOut ctx l depth st = .ok u st') :
    ∃ part, Enclosed near far [] st st' [] part [] := by
  obtain ⟨code, rfl, hcode⟩ := jumpOut_ok hrun
  have hmem {r : Nat} : r ∈ Scope.registers (st.scopes.take (st.scopes.length - depth)).flatten ↔
      Leaves st.scopes depth r := by
    simp only [Scope.mem_registers, List.mem_flatten, Leaves]
    constructor
    · rintro ⟨name, ty, scope, hscope, hmem⟩
      exact ⟨scope, hscope, name, ty, hmem⟩
    · rintro ⟨scope, hscope, name, ty, hmem⟩
      exact ⟨name, ty, scope, hscope, hmem⟩
  have hlt (r : Nat) (hr : r ∈ Scope.registers (st.scopes.take (st.scopes.length - depth)).flatten) :
      r < st.nextRegister := by
    obtain ⟨scope, hmem, hr⟩ := hmem.mp hr
    exact hscope r (State.inScope_iff.mpr ⟨scope, List.mem_of_mem_take hmem, hr⟩)
  refine ⟨_, .of_escapes ⟨hcode, List.prefix_rfl⟩ (Nat.le_refl _) rfl rfl ?_ (List.forall_mem_nil _)
    fun pool _ ↦ ?_⟩
  · refine List.forall_mem_append.mpr ⟨fun s hs ↦ owned_of_mem_clearCode hlt hs,
      List.forall_mem_singleton.mpr (Statement.owned_of_operands (by rintro ⟨⟩) ?_)⟩
    exact List.forall_mem_singleton.mpr (Operand.owned_of_register? rfl)
  · intro i s hs l' hl'
    rcases Nat.lt_or_ge i (clearCode (st.scopes.take (st.scopes.length - depth)).flatten).length
      with hi | hi
    · rw [List.getElem?_append_left hi] at hs
      obtain ⟨q, -, hq⟩ := clears_of_mem_clearCode (List.mem_of_getElem? hs)
      rw [hq.exits_eq_nil] at hl'
      cases hl'
    · rw [List.getElem?_append_right hi, List.getElem?_singleton] at hs
      split at hs
      · next hzero =>
        cases hs
        cases List.mem_singleton.mp hl'
        refine .inr (.inr ⟨rfl, depth, hl, fun r hr ↦ ?_⟩)
        rw [List.take_append_of_le_length (Nat.le_of_sub_eq_zero hzero), List.take_of_length_le hi]
        exact endsCleared_clearCode (hmem.mpr hr)
      · cases hs

/-- The name of a constant has no register. -/
theorem bound {name : String} {v : Value} (hscopes : st.scopes ≠ [])
    (hrun : bindName name (.constant v) st = .ok u st') :
    Enclosed near far [] st st' [] [] [(name, .constant v)] := by
  obtain rfl := bindName_ok hscopes hrun
  exact ⟨⟨(List.append_nil _).symm, List.prefix_rfl⟩, Nat.le_refl _, rfl, fun hnone ↦ absurd hnone hscopes,
    fun r ↦ (or_iff_left fun h ↦ h.elim List.not_mem_nil List.not_mem_nil).symm, List.forall_mem_nil _,
    List.forall_mem_nil _, fun _ _ ↦ .nil, List.forall_mem_nil _, fun _ _ ↦ List.forall_mem_nil _,
    fun _ _ ↦ List.forall_mem_nil _⟩

/-- A local takes its register before its initial value is computed. -/
theorem declared {name : String} {ty : Ty} (hscopes : st₁.scopes ≠ [])
    (h : Enclosed [] [] [] { st with nextRegister := st.nextRegister + 1 } st₁ spans part added)
    (hbind : bindRegister name st.nextRegister ty st₁ = .ok u st₂) :
    Enclosed near far [] st st₂ spans part (added ++ [(name, Binding.register st.nextRegister ty)]) := by
  obtain rfl := bindRegister_ok hscopes hbind
  have hlt : st.nextRegister < st₁.nextRegister := h.registers
  have hescapes (pool : List Value) (hpool : st₁.constants <+: pool) (must : Nat → Nat → Prop) :
      Escapes pool near far must part :=
    (h.escapes pool hpool).closed (List.forall_mem_nil _) (List.forall_mem_nil _)
  refine ⟨⟨h.code, h.constants⟩, Nat.le_of_lt hlt, ?_, fun hnone ↦ ?_, fun r ↦ ?_, h.touched,
    List.forall_mem_nil _,
    fun pool hpool ↦ hescapes pool hpool _, ?_,
    fun pool hpool r _ ↦ ⟨[], part, rfl, List.forall_mem_nil _, hescapes pool hpool _⟩, h.safe⟩
  · exact (congrArg (extendInnermost _) h.scopes).trans (extendInnermost_append _ _ _).symm
  · exact absurd (h.scopes.trans (congrArg (extendInnermost added) hnone)) hscopes
  · have hnew : State.Names { st₁ with
          registerNames := st₁.registerNames ++ [(st.nextRegister, name)]
          scopes := extendInnermost [(name, .register st.nextRegister ty)] st₁.scopes } r ↔
        st₁.Names r ∨ r = st.nextRegister := by
      simp [State.Names, exists_or]
    have hlocal : r ∈ Scope.registers (added ++ [(name, Binding.register st.nextRegister ty)]) ↔
        r ∈ added.registers ∨ r = st.nextRegister := by
      rw [registers_append, List.mem_append]
      exact or_congr_right List.mem_singleton
    rw [hnew, h.names r, hlocal, or_assoc, or_right_comm]
    exact Iff.rfl
  · rw [registers_append]
    refine List.forall_mem_append.mpr ⟨fun r hr ↦ ?_, List.forall_mem_singleton.mpr ⟨Nat.le_refl _, hlt⟩⟩
    exact ⟨Nat.le_of_succ_le (h.fresh r hr).1, (h.fresh r hr).2⟩

end Enclosed

/-! ### Closing a scope -/

/-- What the code of a scope keeps in it, it contains once the scope has been closed. -/
private theorem confined_of_kept {b clears : List Statement} (hdepth : ∀ e ∈ far, e.2 < n)
    (h : Escapes pool [] far (fun depth q ↦ q = r ∧ depth < n) b) (hr : r ∈ scope.registers)
    (hclears : (b = [] ∨ Closed b) ∧ clears = [] ∨ clears = clearCode scope) :
    Confined pool r (b ++ clears) where
  jumps i s hs l hl := by
    rw [labelsOf_append, List.mem_append]
    rcases Nat.lt_or_ge i b.length with hi | hi
    · rw [List.getElem?_append_left hi] at hs
      rw [List.take_append_of_le_length (Nat.le_of_lt hi)]
      rcases h i s hs l hl with h | h | ⟨hjump, depth, he, hclear⟩
      · exact .inl (.inl h)
      · cases h
      · exact .inr ⟨hjump, hclear r ⟨rfl, hdepth _ he⟩⟩
    · rw [List.getElem?_append_right hi] at hs
      have hmem := List.mem_of_getElem? hs
      rcases hclears with ⟨-, rfl⟩ | rfl
      · cases hmem
      · obtain ⟨q, -, hq⟩ := clears_of_mem_clearCode hmem
        rw [hq.exits_eq_nil] at hl
        cases hl
  atEnd := by
    rcases hclears with ⟨hend, rfl⟩ | rfl
    · rw [List.append_nil]
      exact hend.imp_right .inl
    · exact .inr (.inr ((endsCleared_clearCode hr).append_left b))

/-- A scope is left to labels that are defined outside of it, where it is not open. -/
theorem Enclosed.recorded {ctx : Context} {body : Recorded Unit} (hdepth : ∀ e ∈ far, e.2 ≤ st.scopes.length)
    (hbody : body.run { st with scopes := [] :: st.scopes } = .ok () st₁)
    (hpart : Enclosed [] far own { st with scopes := [] :: st.scopes } st₁
      (body.closed { st with scopes := [] :: st.scopes }) part added)
    (hpop : popScope ctx st₁ = .ok () st₂) :
    ∃ part, Enclosed near far own st st₂ ((recordScope ctx body).closed st) part [] := by
  have hscopes : st₁.scopes = added :: st.scopes := hpart.scopes
  have hclosed := closed_recordScope hbody hpop
  obtain ⟨code, clears, rfl, hcode, hclears⟩ := popScope_ok hscopes hpop
  have hlocal (r : Nat) (hr : r ∈ added.registers) : r < st₁.nextRegister := (hpart.fresh r hr).2
  have hnone (pool : List Value) : ∀ s ∈ clears, s.exits pool = [] := by
    rcases hclears with ⟨-, rfl⟩ | rfl
    · exact List.forall_mem_nil _
    · intro s hs
      obtain ⟨q, -, hq⟩ := clears_of_mem_clearCode hs
      exact hq.exits_eq_nil
  have happ : Appends st { st₁ with code, scopes := st.scopes } (part ++ clears) := by
    refine ⟨?_, hpart.constants⟩
    rw [State.bare, hcode, hpart.code, List.append_assoc]
    rfl
  refine ⟨part ++ clears, happ, hpart.registers, (extendInnermost_nil _).symm, fun _ ↦ rfl, fun r ↦ ?_,
    List.forall_mem_append.mpr ⟨hpart.touched, ?_⟩, fun l hl ↦ ?_, fun pool hpool ↦ ?_,
    List.forall_mem_nil _, fun _ _ ↦ List.forall_mem_nil _, fun pool hpool ↦ ?_⟩
  · rw [hclosed, hscopes, List.flatMap_append, List.mem_append, List.flatMap_singleton]
    refine (hpart.names r).trans (or_congr_right ?_)
    exact or_comm.trans (or_iff_right_of_imp (by rintro ⟨⟩)).symm
  · rcases hclears with ⟨-, rfl⟩ | rfl
    · exact List.forall_mem_nil _
    · exact fun s hs ↦ owned_of_mem_clearCode hlocal hs
  · rw [labelsOf_append]
    exact List.mem_append_left _ (hpart.labels l hl)
  · have hquiet : Escapes pool near far (Leaves st.scopes) clears := .of_exits fun s hs l hl ↦ by
      rw [hnone pool s hs] at hl
      cases hl
    exact (hpart.escapes pool hpool).append hquiet (List.forall_mem_nil _) (fun _ ↦ .inl)
      (fun _ _ hr ↦ hr.pushed []) fun _ _ ↦ id
  · rw [hclosed, happ.code]
    refine List.forall_mem_append.mpr ⟨fun span hspan ↦ ?_, List.forall_mem_singleton.mpr ?_⟩
    · rw [← List.append_assoc]
      have hsafe := hpart.safe pool hpool span hspan
      rw [hpart.code] at hsafe
      exact hsafe.append clears
    · intro r hr
      rw [hscopes] at hr
      obtain ⟨a, b, rfl, huntouched, hescapes⟩ := hpart.kept pool hpool r hr
      refine ⟨st.bare, a, b ++ clears, [], by simp only [List.append_assoc, List.append_nil], ?_, ?_,
        huntouched, confined_of_kept (fun e he ↦ Nat.lt_succ_of_le (hdepth e he)) hescapes hr ?_⟩
      · rw [State.bare, List.length_map, Array.length_toList]
      · have hlength := congrArg List.length happ.code
        simp only [State.bare, List.length_map, Array.length_toList, List.length_append] at hlength ⊢
        omega
      · refine hclears.imp_left fun hend ↦ ⟨Decidable.or_iff_not_imp_left.mpr fun hb ↦ ?_, hend.2⟩
        have hclosed := hend.1
        rwa [hpart.code, ← List.append_assoc, Closed, List.getLast?_append_of_ne_nil _ hb] at hclosed

end Lowering

end MethodCompiler
