import MethodCompiler.Proofs.CompileOrder
import MethodCompiler.Proofs.FormedCode
import MethodCompiler.Proofs.Landing
import MethodCompiler.Proofs.SharedSlots

/-!
# Compiled functions are executable

Every number in a compiled function is in range: branches, handlers and jump tables lead to statements
of the function, registers are slots of its frame, and constants stand in its pool. Its last statement
is an exit, so control does not run off its end.
-/

namespace MethodCompiler

/-- The number of a statement, where there are `n`. -/
def IsPosition (n : Nat) (d : Int32) : Prop := 0 ≤ d.toInt ∧ d.toInt < n

/-- The registers of a statement are slots of a frame with `n` of them. -/
structure Statement.Within (n : Nat) (s : Statement) : Prop where
  register : ∀ r ty, .register r ty ∈ s.operands → r < n
  rebound : s.op = .reref → ∀ r, s.operands.head? = some (.immediate (.registerIndex r)) → r < n

/-- The numbers in a function are in range, and control does not run off its end. -/
structure CompiledFunction.Executable (f : CompiledFunction) (limit : Nat) : Prop where
  branch : ∀ {i : Nat} {s}, f.statements[i]? = some s → s.op.isBranch = true →
    ∃ d, s.operands.getLast? = some (.int d) ∧ 0 ≤ i + d.toInt ∧ i + d.toInt < f.statements.length
  handler : ∀ s ∈ f.statements, s.op = .enterTry → ∀ a ∈ s.operands,
    a = .null ∨ ∃ d, a = .int d ∧ IsPosition f.statements.length d
  table : ∀ s ∈ f.statements, s.op = .switch → ∃ k key value entries, s.table? = some k ∧
    f.constants[k]? = some (.table key value entries) ∧
    ∀ e ∈ entries, ∃ d, e.2 = .i32 d ∧ IsPosition f.statements.length d
  instruction : ∀ s ∈ f.statements, s.op ≠ .label
  exit : Closed f.statements
  registers : ∀ s ∈ f.statements, s.Within f.registers
  frame : f.registers ≤ limit
  constant : ∀ s ∈ f.statements, ∀ k, .constant k ∈ s.operands → k < f.constants.length

variable {strip : Bool} {code : List Statement} {constants : List Value} {i n : Nat} {s : Statement}
  {l : String}

/-! ### Slots -/

private theorem Statement.mem_registers_of_mem {r : Nat} {ty : Ty} (h : .register r ty ∈ s.operands) :
    r ∈ s.registers := by
  obtain ⟨i, hi⟩ := List.mem_iff_getElem?.mp h
  refine List.mem_map.mpr ⟨_, List.mem_filterMap.mpr ⟨(.register r ty, i), ?_, rfl⟩, rfl⟩
  exact List.mk_mem_zipIdx_iff_getElem?.mpr hi

private theorem Statement.mem_registers_of_rebound {r : Nat} (hop : s.op = .reref)
    (h : s.operands.head? = some (.immediate (.registerIndex r))) : r ∈ s.registers := by
  rw [List.head?_eq_getElem?] at h
  refine List.mem_map.mpr ⟨⟨0, r, .write⟩, List.mem_filterMap.mpr
    ⟨(.immediate (.registerIndex r), 0), List.mk_mem_zipIdx_iff_getElem?.mpr h, ?_⟩, rfl⟩
  rw [hop]
  rfl

/-- Packed code keeps to the slots of the frame. -/
private theorem within_of_pack {p : Packing} {name : String} {g : FlowGraph} {limit : Nat}
    (h : pack name code g limit = .ok p) : ∀ s ∈ p.apply code, s.Within p.count := by
  intro s hs
  obtain ⟨t, ht, rfl⟩ := List.mem_map.mp hs
  have hlt {r : Nat} (hr : r ∈ (t.mapRegisters p.slotOf).registers) : r < p.count := by
    rw [Statement.registers, Statement.accesses_mapRegisters, List.map_map] at hr
    obtain ⟨a, ha, rfl⟩ := List.mem_map.mp hr
    obtain ⟨q, hq⟩ := List.mem_iff_getElem?.mp ht
    exact p.slotOf_lt_count h ⟨t, hq, List.mem_map.mpr ⟨a, ha, rfl⟩⟩
  exact ⟨fun r ty hr ↦ hlt (Statement.mem_registers_of_mem hr),
    fun hop r hr ↦ hlt (Statement.mem_registers_of_rebound hop hr)⟩

private theorem within_of_merged {out : List Statement} (h : Merged code out)
    (hall : ∀ s ∈ code, s.Within n) : ∀ s ∈ out, s.Within n := by
  refine h.forall_mem (fun s t hs ht hsn htn ↦ ⟨fun r ty hr ↦ ?_, fun hop ↦ ?_⟩) hall
  · rcases Statement.mem_operands_withLast hr with hr | hr
    · exact hsn.register r ty hr
    · rcases t.getD_operands 1 with ht' | ht'
      · exact htn.register r ty (hr ▸ ht')
      · rw [ht'] at hr
        cases hr
  · rw [show s.op = .reref from hop] at hs
    cases hs

/-! ### Operands that stay -/

/-- A relation of operands that keeps registers and constants as they are. -/
structure KeepsStorage (R : Operand → Operand → Prop) : Prop where
  register : ∀ {a r ty}, R a (.register r ty) → a = .register r ty
  index : ∀ {a r}, R a (.immediate (.registerIndex r)) → a = .immediate (.registerIndex r)
  constant : ∀ {a k}, R a (.constant k) → a = .constant k
  constant' : ∀ {b k}, R (.constant k) b → b = .constant k

namespace KeepsStorage

variable {R : Operand → Operand → Prop} {s' : Statement}

private theorem within (hR : KeepsStorage R) (hop : s'.op = s.op)
    (h : List.Forall₂ R s.operands s'.operands) (hs : s.Within n) : s'.Within n := by
  refine ⟨fun r ty hr ↦ ?_, fun hreref r hr ↦ ?_⟩
  · obtain ⟨a, ha, hab⟩ := exists_mem_of_forall₂ h hr
    exact hs.register r ty (hR.register hab ▸ ha)
  · refine hs.rebound (hop.symm.trans hreref) r ?_
    rw [List.head?_eq_getElem?] at hr ⊢
    obtain ⟨a, ha, hab⟩ := exists_of_forall₂ h.flip hr
    rw [ha, hR.index hab]

private theorem constant_mem (hR : KeepsStorage R) (h : List.Forall₂ R s.operands s'.operands) {k : Nat}
    (hk : .constant k ∈ s'.operands) : .constant k ∈ s.operands := by
  obtain ⟨a, ha, hab⟩ := exists_mem_of_forall₂ h hk
  exact hR.constant hab ▸ ha

private theorem table? (hR : KeepsStorage R) (hop : s'.op = s.op)
    (h : List.Forall₂ R s.operands s'.operands) {k : Nat} (hk : s.table? = some k) :
    s'.table? = some k := by
  obtain ⟨op, operands, comment, synthetic⟩ := s
  obtain ⟨op', operands', comment', synthetic'⟩ := s'
  simp only at hop h
  subst hop
  obtain ⟨rfl, value, rfl⟩ := Statement.table?_eq_some hk
  cases h with
  | cons _ hrest =>
    cases hrest with
    | cons hk hnil =>
      cases hnil
      rw [hR.constant' hk]
      rfl

end KeepsStorage

/-! ### Placed code -/

section Placed

variable {places : String → Option Nat} {op : Opcode} {q : Nat} {s' : Statement}

private theorem registerIndex_of_resolve {v : Value} {r : Nat}
    (h : v.resolve (placeOf places) = .ok (.registerIndex r)) : v = .registerIndex r := by
  rw [Value.resolve_eq_ok] at h
  cases v with
  | label name =>
    rw [Value.resolveLabels, placeOf] at h
    cases hp : places name <;> rw [hp] at h <;> cases h
  | array elem items =>
    rw [Value.resolveLabels] at h
    cases (Prod.mk.inj h).2
  | table key value entries =>
    rw [Value.resolveLabels] at h
    cases (Prod.mk.inj h).2
  | _ => exact (Prod.mk.inj h).2

private theorem keepsStorage_rewritten : KeepsStorage (Operand.Rewritten places op q) where
  register h := by
    cases h with
    | kept => rfl
  index h := by
    cases h with
    | immediate hv => rw [registerIndex_of_resolve hv]
    | kept _ hv => exact absurd rfl (hv _)
  constant h := by
    cases h with
    | kept => rfl
  constant' h := by
    cases h with
    | kept => rfl

variable (hplaces : ∀ l t, places l = some t → t < n) (hn : n < 2 ^ 31)

include hplaces hn

/-- A branch holds the distance to a statement. -/
private theorem Statement.Rewritten.branch (h : s.Rewritten places q s') (hq : q < n)
    (hop : s.op.isBranch = true) (hl : s.target? = some l) :
    ∃ d, s'.operands.getLast? = some (.int d) ∧ 0 ≤ q + d.toInt ∧ q + d.toInt < n := by
  rw [target?, if_pos hop] at hl
  obtain ⟨a, ha, hlabel⟩ := Option.bind_eq_some_iff.mp hl
  rw [List.getLast?_eq_getElem?] at ha
  obtain ⟨b, hb, hab⟩ := exists_of_forall₂ h.operands ha
  rw [h.operands.length_eq, ← List.getLast?_eq_getElem?] at hb
  rw [hb]
  cases hab with
  | handler htry =>
    rw [htry] at hop
    cases hop
  | @branch l t _ ht =>
    have hlt := hplaces l t ht
    have hd := toInt_distance (Nat.lt_trans hlt hn) (Nat.lt_trans hq hn)
    exact ⟨_, rfl, by omega, by omega⟩
  | immediate => cases hlabel
  | kept hnone =>
    rw [hnone] at hlabel
    cases hlabel

private theorem isPosition_ofNat {t : Nat} (ht : places l = some t) : IsPosition n (Int32.ofNat t) := by
  have hlt := hplaces l t ht
  rw [IsPosition, Int32.toInt_ofNat_of_lt (Nat.lt_trans hlt hn)]
  omega

/-- A `try` holds the numbers of statements. -/
private theorem Statement.Rewritten.handler (h : s.Rewritten places q s') (hop : s.op = .enterTry)
    (hs : ∃ c f e, s.operands = [Lowering.optionalLabel c, Lowering.optionalLabel f, .label e]) :
    ∀ b ∈ s'.operands, b = .null ∨ ∃ d, b = .int d ∧ IsPosition n d := by
  intro b hb
  obtain ⟨a, ha, hab⟩ := exists_mem_of_forall₂ h.operands hb
  have hshape : a = .null ∨ ∃ l, a = .label l := by
    have hlabel (l : Option String) : Lowering.optionalLabel l = .null ∨
        ∃ l', Lowering.optionalLabel l = .label l' := by
      cases l with
      | none => exact .inl rfl
      | some l => exact .inr ⟨l, rfl⟩
    obtain ⟨c, f, e, he⟩ := hs
    rw [he, List.mem_cons, List.mem_cons, List.mem_singleton] at ha
    rcases ha with rfl | rfl | rfl
    · exact hlabel c
    · exact hlabel f
    · exact .inr ⟨e, rfl⟩
  rcases hshape with rfl | ⟨l, rfl⟩
  · cases hab with
    | immediate hv =>
      rw [Value.resolve_eq_ok] at hv
      cases hv
      exact .inl rfl
    | kept _ hv => exact absurd rfl (hv _)
  · cases hab with
    | handler _ hl => exact .inr ⟨_, rfl, isPosition_ofNat hplaces hn hl⟩
    | branch hbranch =>
      rw [hop] at hbranch
      cases hbranch
    | kept hnone => cases hnone

/-- The entries of a jump table become the numbers of statements. -/
private theorem entries_of_resolve {entries entries' : List (Value × Value)}
    (hentries : ∀ e ∈ entries, e.1.hasLabel = false ∧ ∃ l, e.2 = .label l)
    (h : Value.resolveEntries (placeOf places) entries = (none, entries')) :
    ∀ e ∈ entries', ∃ d, e.2 = .i32 d ∧ IsPosition n d := by
  induction entries generalizing entries' with
  | nil =>
    cases h
    exact nofun
  | cons entry rest ih =>
    obtain ⟨k, v⟩ := entry
    obtain ⟨⟨-, l, rfl⟩, hrest⟩ := List.forall_mem_cons.mp hentries
    rw [Value.resolveEntries] at h
    split at h
    · cases h
    · split at h
      · cases h
      · next w hw =>
        obtain ⟨herr, rfl⟩ := Prod.mk.inj h
        refine List.forall_mem_cons.mpr ⟨?_, ih hrest (Prod.ext herr rfl)⟩
        rw [Value.resolveLabels, placeOf] at hw
        cases ht : places l with
        | none =>
          rw [ht] at hw
          cases hw
        | some t =>
          rw [ht] at hw
          cases hw
          exact ⟨_, rfl, isPosition_ofNat hplaces hn ht⟩

private theorem table_of_resolve {v w : Value} (hv : v.IsJumpTable)
    (h : v.resolve (placeOf places) = .ok w) :
    ∃ key value entries, w = .table key value entries ∧
      ∀ e ∈ entries, ∃ d, e.2 = .i32 d ∧ IsPosition n d := by
  obtain ⟨key, value, entries, rfl, hentries⟩ := hv
  rw [Value.resolve_eq_ok, Value.resolveLabels] at h
  obtain ⟨herr, rfl⟩ := Prod.mk.inj h
  exact ⟨key, value, _, rfl, entries_of_resolve hplaces hn hentries (Prod.ext herr rfl)⟩

end Placed

/-- A constant among the operands of a well formed statement is in the pool. -/
private theorem Statement.Formed.constant (h : s.Formed constants) {k : Nat} (hk : .constant k ∈ s.operands) :
    k < constants.length := by
  by_cases hlabel : s.op = .label
  · obtain ⟨l, hl⟩ := h.label hlabel
    rw [hl, List.mem_singleton] at hk
    cases hk
  by_cases htry : s.op = .enterTry
  · obtain ⟨c, f, e, he⟩ := h.handler htry
    have hne (l : Option String) : .constant k ≠ Lowering.optionalLabel l := by cases l <;> nofun
    rw [he, List.mem_cons, List.mem_cons, List.mem_singleton] at hk
    rcases hk with hk | hk | hk
    · exact absurd hk (hne c)
    · exact absurd hk (hne f)
    · cases hk
  rcases h.mem_data_or_target hlabel htry hk with hk | ⟨l, -, hl⟩
  · exact h.data (.constant k) hk
  · cases hl

/-- Placing well formed code makes an executable function. -/
theorem executable_of_placedAs {placed : PlacedCode} {limit : Nat} {f : CompiledFunction}
    (hp : PlacedAs strip code constants placed) (hformed : ∀ s ∈ code, s.Formed constants)
    (hwithin : ∀ s ∈ code, s.Within f.registers) (hc : Closed code)
    (hstatements : f.statements = placed.statements) (hconstants : f.constants = placed.constants)
    (hlimit : f.registers ≤ limit) (hn : f.statements.length < 2 ^ 31) : f.Executable limit := by
  have hlength : f.statements.length = (Placement.ofCode strip 0 false code).statements.length := by
    rw [hstatements, hp.length]
  have hplaces (l : String) (t : Nat) (ht : landingOf strip code l = some t) :
      t < f.statements.length := by
    obtain ⟨i, hi, rfl⟩ := Option.map_eq_some_iff.mp ht
    rw [hlength]
    exact landing_lt_length strip hc (labelAt?_of_labelPosition? hi)
  have hsource {q : Nat} {s' : Statement} (hs' : f.statements[q]? = some s') :
      ∃ s ∈ code, s.label? = none ∧ s.Rewritten (landingOf strip code) q s' := by
    have hq := (List.getElem?_eq_some_iff.mp hs').1
    rw [hlength] at hq
    have hs := List.getElem?_eq_getElem hq
    obtain ⟨s'', hs'', hrewritten⟩ := hp.statement q _ hs
    rw [← hstatements, hs'] at hs''
    cases hs''
    have hmem := List.getElem_mem hq
    exact ⟨_, Placement.mem_of_mem_statements hmem, Placement.label?_of_mem_statements hmem,
      hrewritten⟩
  have hsource' {s' : Statement} (hs' : s' ∈ f.statements) :
      ∃ s ∈ code, ∃ q, s.label? = none ∧ s.Rewritten (landingOf strip code) q s' := by
    obtain ⟨q, hq⟩ := List.mem_iff_getElem?.mp hs'
    obtain ⟨s, hs, h⟩ := hsource hq
    exact ⟨s, hs, q, h⟩
  constructor
  case branch =>
    intro q s' hs' hop
    obtain ⟨s, hs, -, hrewritten⟩ := hsource hs'
    rw [hrewritten.op] at hop
    obtain ⟨l, hl⟩ := (hformed s hs).branch hop
    exact hrewritten.branch hplaces hn (List.getElem?_eq_some_iff.mp hs').1 hop hl
  case handler =>
    intro s' hs' hop
    obtain ⟨s, hs, q, -, hrewritten⟩ := hsource' hs'
    rw [hrewritten.op] at hop
    exact hrewritten.handler hplaces hn hop ((hformed s hs).handler hop)
  case table =>
    intro s' hs' hop
    obtain ⟨s, hs, q, -, hrewritten⟩ := hsource' hs'
    obtain ⟨k, v, hk, hv, htable⟩ := (hformed s hs).switch (hrewritten.op.symm.trans hop)
    obtain ⟨w, hw, hresolve⟩ := exists_of_forall₂ hp.constants hv
    obtain ⟨key, value, entries, rfl, hentries⟩ := table_of_resolve hplaces hn htable hresolve
    exact ⟨k, key, value, entries, keepsStorage_rewritten.table? hrewritten.op hrewritten.operands hk,
      hconstants ▸ hw, hentries⟩
  case instruction =>
    intro s' hs' hop
    obtain ⟨s, hs, q, hnone, hrewritten⟩ := hsource' hs'
    rw [hrewritten.op] at hop
    obtain ⟨l, hl⟩ := (hformed s hs).label hop
    rw [Statement.label?, Statement.isLabel, hop, hl] at hnone
    cases hnone
  case exit =>
    refine closed_congr (List.ext_getElem? fun q ↦ ?_)
      (Placement.closed_ofCode strip hc fun s hs ↦ (hformed s hs).exit)
    rw [List.getElem?_map, List.getElem?_map]
    cases hs : (Placement.ofCode strip 0 false code).statements[q]? with
    | none =>
      rw [List.getElem?_eq_none_iff, ← hlength] at hs
      rw [List.getElem?_eq_none_iff.mpr hs]
    | some s =>
      obtain ⟨s', hs', hrewritten⟩ := hp.statement q s hs
      rw [hstatements, hs', Option.map_some, Option.map_some, hrewritten.op]
  case registers =>
    intro s' hs'
    obtain ⟨s, hs, q, -, hrewritten⟩ := hsource' hs'
    exact keepsStorage_rewritten.within hrewritten.op hrewritten.operands (hwithin s hs)
  case frame => exact hlimit
  case constant =>
    intro s' hs' k hk
    obtain ⟨s, hs, q, -, hrewritten⟩ := hsource' hs'
    rw [hconstants, ← hp.constants.length_eq]
    exact (hformed s hs).constant (keepsStorage_rewritten.constant_mem hrewritten.operands hk)

/-! ### Linked functions -/

/-- Linking leaves an operand as it is, but for references in an immediate. -/
private theorem keepsStorage_link : KeepsStorage fun a b ↦ ∃ types, b = (a.link types).1 where
  register := by
    rintro a r ty ⟨types, h⟩
    cases a <;> cases h
    rfl
  index := by
    rintro a r ⟨types, h⟩
    cases a with
    | immediate v =>
      cases v <;> simp [Operand.link, Value.link] at h
      rw [h]
    | _ => cases h
  constant := by
    rintro a k ⟨types, h⟩
    cases a <;> cases h
    rfl
  constant' := by
    rintro b k ⟨types, rfl⟩
    rfl

private theorem Statement.op_link (types : TypeNames) (s : Statement) : (s.link types).1.op = s.op := rfl

private theorem forall₂_link_operands (types : TypeNames) (s : Statement) :
    List.Forall₂ (fun a b ↦ ∃ types, b = (a.link types).1) s.operands (s.link types).1.operands :=
  forall₂_linkAll Operand.link (fun types _ ↦ ⟨types, rfl⟩) types s.operands

private theorem link_int (types : TypeNames) (d : Int32) : ((Operand.int d).link types).1 = .int d := by
  simp [Operand.link, Operand.int, Value.link]

/-- The values of a table are linked one by one. -/
private theorem exists_of_mem_linkEntries {types : TypeNames} {entries : List (Value × Value)}
    {e' : Value × Value} (h : e' ∈ (Value.linkEntries types entries).1) :
    ∃ e ∈ entries, ∃ types, e'.2 = (e.2.link types).1 := by
  induction entries generalizing types with
  | nil => simp [Value.linkEntries] at h
  | cons entry rest ih =>
    obtain ⟨k, v⟩ := entry
    rw [Value.linkEntries] at h
    rcases List.mem_cons.mp h with rfl | h
    · exact ⟨_, List.mem_cons_self, _, rfl⟩
    · obtain ⟨e, he, hlink⟩ := ih h
      exact ⟨e, List.mem_cons_of_mem _ he, hlink⟩

/-- Linking an executable function leaves it executable. -/
theorem CompiledFunction.Executable.link {f : CompiledFunction} {limit : Nat}
    (h : f.Executable limit) (types : TypeNames) : (f.link types).1.Executable limit := by
  have hstatements : List.Forall₂ (fun s s' ↦ ∃ types, s' = (s.link types).1) f.statements
      (f.link types).1.statements :=
    forall₂_linkAll Statement.link (fun types _ ↦ ⟨types, rfl⟩) types f.statements
  have hconstants : List.Forall₂ (fun v w ↦ ∃ types, w = (v.link types).1) f.constants
      (f.link types).1.constants :=
    forall₂_linkAll Value.link (fun types _ ↦ ⟨types, rfl⟩) _ f.constants
  have hlength := hstatements.length_eq
  constructor
  case branch =>
    intro i s' hs' hop
    obtain ⟨s, hs, types, rfl⟩ := exists_of_forall₂ hstatements.flip hs'
    obtain ⟨d, hd, hbounds⟩ := h.branch hs hop
    have hoperands := forall₂_link_operands types s
    rw [List.getLast?_eq_getElem?] at hd
    obtain ⟨b, hb, types, rfl⟩ := exists_of_forall₂ hoperands hd
    rw [hoperands.length_eq, ← List.getLast?_eq_getElem?, link_int] at hb
    exact ⟨d, hb, hlength ▸ hbounds⟩
  case handler =>
    intro s' hs' hop b hb
    obtain ⟨s, hs, types, rfl⟩ := exists_mem_of_forall₂ hstatements hs'
    obtain ⟨a, ha, types, rfl⟩ := exists_mem_of_forall₂ (forall₂_link_operands types s) hb
    rcases h.handler s hs hop a ha with rfl | ⟨d, rfl, hd⟩
    · exact .inl (by simp [Operand.link, Operand.null, Value.link])
    · exact .inr ⟨d, link_int types d, hlength ▸ hd⟩
  case table =>
    intro s' hs' hop
    obtain ⟨s, hs, types, rfl⟩ := exists_mem_of_forall₂ hstatements hs'
    obtain ⟨k, key, value, entries, hk, hv, hentries⟩ := h.table s hs hop
    obtain ⟨w, hw, types', rfl⟩ := exists_of_forall₂ hconstants hv
    refine ⟨k, key, value, (Value.linkEntries types' entries).1,
      keepsStorage_link.table? (s.op_link types) (forall₂_link_operands types s) hk, ?_, fun e' he' ↦ ?_⟩
    · rw [hw, Value.link]
    · obtain ⟨e, he, types, hlink⟩ := exists_of_mem_linkEntries he'
      obtain ⟨d, hd, hposition⟩ := hentries e he
      refine ⟨d, ?_, hlength ▸ hposition⟩
      rw [hlink, hd]
      simp [Value.link]
  case instruction =>
    intro s' hs'
    obtain ⟨s, hs, types, rfl⟩ := exists_mem_of_forall₂ hstatements hs'
    exact h.instruction s hs
  case exit =>
    refine closed_congr ?_ h.exit
    refine List.forall₂_eq_eq_eq ▸ List.forall₂_map_left_iff.mpr (List.forall₂_map_right_iff.mpr ?_)
    exact hstatements.imp fun s s' ⟨types, hs'⟩ ↦ hs' ▸ rfl
  case registers =>
    intro s' hs'
    obtain ⟨s, hs, types, rfl⟩ := exists_mem_of_forall₂ hstatements hs'
    exact keepsStorage_link.within (s.op_link types) (forall₂_link_operands types s) (h.registers s hs)
  case frame => exact h.frame
  case constant =>
    intro s' hs' k hk
    obtain ⟨s, hs, types, rfl⟩ := exists_mem_of_forall₂ hstatements hs'
    rw [← hconstants.length_eq]
    exact h.constant s hs k (keepsStorage_link.constant_mem (forall₂_link_operands types s) hk)

/-! ### Units -/

/-- A method that compiles becomes an executable function. -/
theorem executable_of_compileMethod {m : Method} {symbols : SymbolTable} {o : Options}
    {table : FunctionTable} {f : CompiledFunction}
    (h : (compileMethod m symbols o table).1 = .ok f) (hn : f.statements.length < 2 ^ 31) :
    f.Executable o.maxRegisters := by
  obtain ⟨lowered, left, hlowered, hleaves, hfinish⟩ := forms_of_compileMethod h
  have hwell : lowered.WellFormed false := wellFormed_of_lowerMethod hlowered nofun
  obtain ⟨inserted, hinserted, hleaves⟩ := bind_eq_ok.mp hleaves
  cases hleaves
  obtain ⟨g, -, hfinish⟩ := bind_eq_ok.mp hfinish
  obtain ⟨packing, hpacked, hfinish⟩ := bind_eq_ok.mp hfinish
  obtain ⟨placed, hplace, hfinish⟩ := bind_eq_ok.mp hfinish
  cases hfinish
  obtain ⟨hpack, hpacked⟩ := Packing.pack_of_packCode hpacked
  rw [hpacked] at hplace
  obtain ⟨labels, w, need, -, -, hcode⟩ := exists_leaving hinserted hwell.ne_leave
  simp only [hcode] at hpack hplace
  have hnodup : (labelsOf (packing.apply (padded need lowered.code))).Nodup := by
    rw [Packing.labelsOf_apply, labelsOf_padded]
    exact hwell.nodup_labelsOf
  have hformed := packing.formed_apply (formed_padded need fun s hs ↦ (hwell.sound s hs).toFormed)
  obtain ⟨merged, -, hmerged, hplaced⟩ := placedAs_of_place hnodup hplace
  exact executable_of_placedAs hplaced
    (hmerged.forall_mem (fun _ _ ↦ Statement.Formed.join) hformed)
    (within_of_merged hmerged (within_of_pack hpack))
    (hmerged.closed (packing.closed_apply (closed_padded need hwell.closed))) rfl rfl
    (packing.count_le hpack) hn

/-- Every function of a compiled unit is executable as it stands. -/
theorem compiled_functions_executable (u : SourceUnit) (o : Options) (module : CompiledModule)
    (h : u.compile o = .ok module) :
    ∀ f ∈ module.functions, f.statements.length < 2 ^ 31 → f.Executable o.maxRegisters := by
  intro f hf hn
  obtain ⟨results, hresults, -⟩ := SourceUnit.exists_of_compile h
  rw [SourceUnit.compile_eq_ok hresults] at h
  cases h
  obtain ⟨g, hg, types, rfl⟩ := exists_mem_of_forall₂ (forall₂_linkAll CompiledFunction.link
    (R := fun g f ↦ ∃ types, f = (g.link types).1) (fun types _ ↦ ⟨types, rfl⟩) [] _) hf
  obtain ⟨r, hr, rfl⟩ := List.mem_map.mp ((List.mergeSort_perm _ _).mem_iff.mp hg)
  obtain ⟨m, -, hcompiles⟩ := exists_mem_of_forall₂ hresults hr
  have hok : (compileMethod m u.symbols o .empty).1 = .ok r.1 := by rw [hcompiles]
  have hlength := (forall₂_linkAll Statement.link (R := fun _ _ ↦ True) (fun _ _ ↦ trivial) types
    r.1.statements).length_eq
  exact (executable_of_compileMethod hok (hlength ▸ hn)).link types

private def serveNode (id : NodeId) : Node := ⟨id, Span.none⟩

private def serveCall (id : NodeId) (name : String) : Expr :=
  .call (serveNode id) (.name (serveNode (id + 10)) name) []

/-- `while (more()) { try { switch (mode) { case "skip": continue; default: tick(); break; } }
catch { return; } finally { tick(); } }` -/
private def serveMethod : Method where
  index := 0
  name := "serve"
  isStatic := true
  params := [{ name := "mode", ty := .string }]
  returnTy := .void
  body := .mk [.whileLoop Span.none (serveCall 1 "more") (.tryCatch Span.none
    (.mk [.switch Span.none (.name (serveNode 3) "mode")
      [.mk [.case (.string "skip")] [.continueLoop Span.none],
        .mk [.default] [.eval Span.none (serveCall 2 "tick"), .breakOut Span.none]]] Span.none)
    [.mk none none (.mk [.ret Span.none none] Span.none)]
    (some (.mk [.eval Span.none (serveCall 2 "tick")] Span.none)))] Span.none

private def serveUnit : SourceUnit where
  methods := [serveMethod]
  symbols :=
    { symbols := .ofList [(11, ⟨.method, "more", .bool, true, 7, false, true⟩),
        (12, ⟨.method, "tick", .void, true, 8, false, true⟩),
        (3, ⟨.parameter, "mode", .string, false, 0, false, false⟩)]
      types := .ofList [(1, .bool), (2, .void), (3, .string)] }

/-- A protected switch on strings in a loop compiles to a function that can be executed. -/
theorem serveUnit_executable : ∃ module, serveUnit.compile {} = .ok module ∧
    module.functions ≠ [] ∧ ∀ f ∈ module.functions, f.Executable 256 := by
  have hlengths : ((serveUnit.compile {}).toOption.any fun module ↦ !module.functions.isEmpty &&
      module.functions.all fun f ↦ decide (f.statements.length < 2 ^ 31)) = true := by decide +kernel
  cases h : serveUnit.compile {} with
  | error e =>
    rw [h] at hlengths
    cases hlengths
  | ok module =>
    rw [h] at hlengths
    simp only [Except.toOption, Option.any_some, Bool.and_eq_true, List.all_eq_true,
      decide_eq_true_eq] at hlengths
    refine ⟨module, rfl, by simpa using hlengths.1, fun f hf ↦ ?_⟩
    exact compiled_functions_executable serveUnit {} module h f hf (hlengths.2 f hf)

end MethodCompiler
