import MethodCompiler.Module.Function
import MethodCompiler.Proofs.InsertedLeaves
import MethodCompiler.Proofs.MergedRanges
import MethodCompiler.Proofs.TwinRuns

/-!
# Code stays well formed

The code of a method is laid out by constructs, its statements are sound, and it ends in an exit.
Inserting leaves, giving registers their slots and merging ranges keep statements well formed.
-/

namespace MethodCompiler

variable {constants : List Value} {s t : Statement} {code : List Statement} {n : Nat}

/-! ### Statements -/

private theorem Operand.Sound.mapRegister {a : Operand} (h : a.Sound n) (f : Nat → Nat) :
    (a.mapRegister f).Sound n := by
  cases a with
  | immediate v =>
    cases v with
    | registerIndex r => exact rfl
    | _ => exact h
  | _ => exact h

/-- Renumbering a register leaves a label as it is. -/
theorem Operand.label?_mapRegister (f : Nat → Nat) (a : Operand) :
    (a.mapRegister f).label? = a.label? := by
  cases a with
  | immediate v => cases v <;> rfl
  | _ => rfl

namespace Statement

private theorem formed_leave (constants : List Value) : leave.Formed constants :=
  ⟨nofun, nofun, nofun, nofun, nofun, nofun⟩

private theorem data_mapRegisters (f : Nat → Nat) (s : Statement) :
    (s.mapRegisters f).data = s.data.map (·.mapRegister f) := by
  unfold data mapRegisters
  dsimp only
  split
  · rfl
  · rfl
  · split
    · exact List.map_dropLast.symm
    · rfl

/-- Renumbering registers keeps the label that a statement defines. -/
theorem label?_mapRegisters (f : Nat → Nat) (s : Statement) :
    (s.mapRegisters f).label? = s.label? := by
  simp only [label?, mapRegisters, isLabel, List.head?_map, Option.bind_map]
  congr 2
  funext a
  exact Operand.label?_mapRegister f a

/-- Renumbering registers keeps the target of a branch. -/
theorem target?_mapRegisters (f : Nat → Nat) (s : Statement) :
    (s.mapRegisters f).target? = s.target? := by
  simp only [target?, mapRegisters, List.getLast?_map, Option.bind_map]
  congr 2
  funext a
  exact Operand.label?_mapRegister f a

private theorem table?_mapRegisters (f : Nat → Nat) {k : Nat} (h : s.table? = some k) :
    (s.mapRegisters f).table? = some k := by
  obtain ⟨op, operands, comment, synthetic⟩ := s
  obtain ⟨rfl, value, rfl⟩ := table?_eq_some h
  rfl

private theorem Formed.mapRegisters (h : s.Formed constants) (f : Nat → Nat) :
    (s.mapRegisters f).Formed constants where
  data a ha := by
    rw [data_mapRegisters] at ha
    obtain ⟨b, hb, rfl⟩ := List.mem_map.mp ha
    exact (h.data b hb).mapRegister f
  label hop := by
    obtain ⟨l, hl⟩ := h.label hop
    exact ⟨l, by rw [Statement.mapRegisters, hl]; rfl⟩
  branch hop := by
    obtain ⟨l, hl⟩ := h.branch hop
    exact ⟨l, (target?_mapRegisters f s).trans hl⟩
  handler hop := by
    have hlabel (l : Option String) : (Lowering.optionalLabel l).mapRegister f =
        Lowering.optionalLabel l := by cases l <;> rfl
    obtain ⟨c, f', e, he⟩ := h.handler hop
    refine ⟨c, f', e, ?_⟩
    rw [Statement.mapRegisters, he]
    simp only [List.map_cons, List.map_nil, hlabel]
    rfl
  switch hop := by
    obtain ⟨k, v, hk, hv⟩ := h.switch hop
    exact ⟨k, v, table?_mapRegisters f hk, hv⟩
  exit := h.exit

/-- A statement stays sound when its registers are renumbered. -/
theorem Sound.mapRegisters (h : s.Sound constants) (f : Nat → Nat) :
    (s.mapRegisters f).Sound constants where
  toFormed := h.toFormed.mapRegisters f
  cleared hop := by
    obtain ⟨r, ty, hr⟩ := h.cleared hop
    exact ⟨f r, ty, by rw [Statement.mapRegisters, hr]; rfl⟩

/-- The operands with another last one are among the old ones and the new one. -/
theorem mem_operands_withLast {a b : Operand} (h : a ∈ (s.withLast b).operands) :
    a ∈ s.operands ∨ a = b :=
  (List.mem_or_eq_of_mem_set h).imp_right id

/-- An operand that is asked for by its place is one of the operands, or missing. -/
theorem getD_operands (t : Statement) (i : Nat) :
    t.operands.getD i .null ∈ t.operands ∨ t.operands.getD i .null = .null := by
  rw [List.getD_eq_getElem?_getD]
  cases h : t.operands[i]? with
  | none => exact .inr rfl
  | some a => exact .inl (List.mem_of_getElem? h)

/-- Two ranges that are joined are one well formed range. -/
theorem Formed.join (hs : s.op = .nullify) (ht : t.op = .nullify) (h : s.Formed constants)
    (h' : t.Formed constants) : (s.withLast (t.operands.getD 1 .null)).Formed constants := by
  have hop : (s.withLast (t.operands.getD 1 .null)).op = .nullify := hs
  have hdata {u : Statement} (hu : u.op = .nullify) : u.data = u.operands := by
    rw [Statement.data, hu]
    rfl
  refine ⟨fun a ha ↦ ?_, fun h ↦ ?_, fun h ↦ ?_, fun h ↦ ?_, fun h ↦ ?_, fun h ↦ ?_⟩
  · rw [hdata hop] at ha
    rcases mem_operands_withLast ha with ha | rfl
    · exact h.data a (by rwa [hdata hs])
    · rcases t.getD_operands 1 with ht' | ht'
      · exact h'.data _ (by rwa [hdata ht])
      · rw [ht']
        exact rfl
  all_goals
    rw [hop] at h
    cases h

end Statement

/-! ### Code -/

/-- Leaves are well formed, so inserting them keeps code well formed. -/
theorem formed_padded (need : Nat → Nat) (h : ∀ s ∈ code, s.Formed constants) :
    ∀ s ∈ padded need code, s.Formed constants := by
  intro s hs
  rcases mem_padded hs with rfl | hs
  · exact Statement.formed_leave constants
  · exact h s hs

/-- Packed code stays well formed. -/
theorem Packing.formed_apply (p : Packing) (h : ∀ s ∈ code, s.Formed constants) :
    ∀ s ∈ p.apply code, s.Formed constants := by
  intro s hs
  obtain ⟨t, ht, rfl⟩ := List.mem_map.mp hs
  exact (h t ht).mapRegisters _

/-- Packing keeps the labels that are defined. -/
theorem Packing.labelsOf_apply (p : Packing) (code : List Statement) :
    labelsOf (p.apply code) = labelsOf code := by
  rw [labelsOf, Packing.apply, List.filterMap_map]
  congr 1
  funext s
  exact Statement.label?_mapRegisters _ s

/-- Packing keeps code closed. -/
theorem Packing.closed_apply (p : Packing) (h : Closed code) : Closed (p.apply code) := by
  rw [Closed, Packing.apply, List.getLast?_map, Option.any_map]
  exact h

/-! ### Methods -/

/-- What the code of a method is like; that of a tidy method is sealed. -/
structure LoweredFunction.WellFormed (f : LoweredFunction) (sealed : Bool) : Prop where
  sound : ∀ s ∈ f.code, s.Sound f.constants
  constants : ∀ (k : Nat) v, f.constants[k]? = some v →
    v.hasLabel = false ∨ v.IsJumpTable ∧ ∃ s ∈ f.code, s.table? = some k
  laid : ∃ n, Laid sealed f.constants [] [] 0 n [] (f.code.map Statement.bare)
  closed : Closed f.code

namespace LoweredFunction.WellFormed

variable {f : LoweredFunction} {sealed : Bool}

/-- Well formed code has no leaves yet. -/
theorem ne_leave (h : f.WellFormed sealed) : ∀ s ∈ f.code, s.op ≠ .leave := by
  intro s hs
  obtain ⟨n, hlaid⟩ := h.laid
  exact hlaid.ne_leave s.bare (List.mem_map_of_mem hs)

/-- Well formed code defines no label twice. -/
theorem nodup_labelsOf (h : f.WellFormed sealed) : (labelsOf f.code).Nodup := by
  obtain ⟨n, hlaid⟩ := h.laid
  rw [← labelsOf_map_bare]
  exact hlaid.nodup_labelsOf

end LoweredFunction.WellFormed

/-- The code of a method ends in an exit. -/
theorem Lowering.ends_lowerMethodBody (ctx : Lowering.Context) :
    Lowering.Ends (Lowering.lowerMethodBody ctx) := Lowering.Ends.bind fun _ ↦ Lowering.ends_ifReachable rfl

/-- The code of a method that is lowered is well formed, and sealed if the method is tidy. -/
theorem wellFormed_of_lowerMethod {m : Method} {symbols : SymbolTable} {o : Options}
    {table : FunctionTable} {f : LoweredFunction} {sealed : Bool}
    (h : (lowerMethod m symbols o table).1 = .ok f)
    (htidy : sealed = true → m.body.isTidy true true = true) : f.WellFormed sealed := by
  obtain ⟨st, rfl, hrun⟩ := exists_of_lowerMethod h
  have hend := hrun
  rw [Lowering.run_lowerMethodBody rfl] at hend
  let strictness : Lowering.Strictness := if sealed then .sealed else .loose
  have hasks : (Lowering.Context.setting { method := m, symbols, comments := o.comments } strictness).Asks
      fun leaving ↦ m.body.isOrderly leaving true true := by
    cases sealed with
    | true => exact fun _ ↦ htidy rfl
    | false => exact fun hk ↦ absurd rfl hk
  have hstrict : (strictness == .sealed) = sealed := by
    cases sealed <;> rfl
  obtain ⟨part, hwent⟩ := (Lowering.Context.steps rfl strictness hasks).went rfl (.start table) hrun
  have hpart : st.code.toList.map Statement.bare = part := hwent.code
  have hsound := hwent.sound .nil
  have hmem {s : Statement} (hs : s ∈ st.code.toList) : s.bare ∈ st.bare :=
    List.mem_map_of_mem hs
  refine ⟨fun s hs ↦ ?_, fun k v hv ↦ ?_, ?_, ?_⟩
  · obtain ⟨⟨hdata, hlabel, hbranch, hhandler, hswitch, hexit⟩, hcleared⟩ :=
      hsound.statements _ (hmem hs)
    exact ⟨⟨hdata, hlabel, hbranch, hhandler, hswitch, hexit⟩, hcleared⟩
  · refine (hsound.tables k v hv).imp_right fun ⟨htable, s, hs, hk⟩ ↦ ⟨htable, ?_⟩
    obtain ⟨s', hs', rfl⟩ := List.mem_map.mp hs
    exact ⟨s', hs', hk⟩
  · have hlaid : Laid (strictness == .sealed) st.constants [] [] 0 st.nextConstruct [] part :=
      hwent.laid _ List.prefix_rfl
    rw [hstrict, ← hpart] at hlaid
    exact ⟨_, hlaid⟩
  · have hends := Lowering.ends_lowerMethodBody _ _ _ _ hend
    rw [Closed, Lowering.State.bare, List.getLast?_map, Option.any_map] at hends
    exact hends

end MethodCompiler
