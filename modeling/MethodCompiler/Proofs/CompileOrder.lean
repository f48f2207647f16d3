import Mathlib.Data.List.Perm.Basic
import MethodCompiler.Module.Unit
import MethodCompiler.Proofs.TwinRuns

/-!
# The order of compilation

A method compiles to the same function whatever functions are known, and its calls only declare some
more. So a unit whose methods have different numbers, and whose calls agree on the names of functions,
becomes the same module in whatever order its methods are compiled.
-/

namespace MethodCompiler

/-! ### Declarations in any order -/

private theorem SortedMap.insertEntry_comm {α : Type} {i j : UInt32} (h : i ≠ j) (a b : α)
    (entries : List (UInt32 × α)) :
    insertEntry i a (insertEntry j b entries) = insertEntry j b (insertEntry i a entries) := by
  induction entries with
  | nil => grind [insertEntry]
  | cons e rest ih => grind [insertEntry]

private theorem SortedMap.contains_insert {α : Type} {m : SortedMap α} {i j : UInt32} (h : i ≠ j) (a : α) :
    (m.insert i a).contains j = m.contains j := by
  have hany (entries : List (UInt32 × α)) :
      (insertEntry i a entries).any (·.1 == j) = entries.any (·.1 == j) := by
    induction entries with
    | nil => simp [insertEntry, h]
    | cons e rest ih => grind [insertEntry]
  exact hany m.entries

/-- Declarations under different numbers can be made in either order. -/
private theorem FunctionTable.declare_comm {i j : UInt32} (h : i ≠ j) (t : FunctionTable)
    (f g : FunctionDecl) : (t.declare i f).declare j g = (t.declare j g).declare i f := by
  have hinsert : (t.insert i f).insert j g = (t.insert j g).insert i f := by
    simp only [SortedMap.insert, SortedMap.insertEntry_comm h]
  by_cases hi : t.contains i = true
  · by_cases hj : t.contains j = true
    · simp only [declare, hi, hj, if_true]
    · simp only [declare, hi, hj, if_true, SortedMap.contains_insert h.symm, Bool.false_eq_true,
        if_false]
  · by_cases hj : t.contains j = true
    · simp only [declare, hi, hj, if_true, SortedMap.contains_insert h, Bool.false_eq_true, if_false]
    · simp only [declare, hi, hj, SortedMap.contains_insert h, SortedMap.contains_insert h.symm,
        Bool.false_eq_true, if_false, hinsert]

/-- Calls that agree on names can be declared in any order. -/
private theorem FunctionTable.declareImplicit_perm {calls calls' : List (UInt32 × String)}
    (hperm : calls.Perm calls') (hnames : ∀ c ∈ calls, ∀ d ∈ calls, c.1 = d.1 → c.2 = d.2)
    (t : FunctionTable) : t.declareImplicit calls = t.declareImplicit calls' := by
  refine hperm.foldl_eq' (fun c hc d hd t ↦ ?_) t
  by_cases h : c.1 = d.1
  · rw [h, hnames c hc d hd h]
  · exact declare_comm h t _ _

/-! ### Sorting by number -/

private theorem pairwise_mergeSort_index {α : Type} (index : α → UInt32) (l : List α) :
    (l.mergeSort fun a b ↦ index a ≤ index b).Pairwise fun a b ↦ index a ≤ index b := by
  have hsorted : (l.mergeSort fun a b ↦ index a ≤ index b).Pairwise
      fun a b ↦ decide (index a ≤ index b) = true := by
    refine List.pairwise_mergeSort (fun a b c hab hbc ↦ ?_) (fun a b ↦ ?_) l
    · simp only [decide_eq_true_eq] at *
      exact UInt32.le_trans hab hbc
    · simpa using UInt32.le_total (index a) (index b)
  simpa using hsorted

/-- Lists of the same items with different numbers are sorted alike. -/
private theorem mergeSort_eq_of_perm {α : Type} (index : α → UInt32) {l l' : List α} (hperm : l.Perm l')
    (hindex : (l.map index).Nodup) :
    l.mergeSort (fun a b ↦ index a ≤ index b) = l'.mergeSort (fun a b ↦ index a ≤ index b) := by
  refine List.Perm.eq_of_pairwise (fun a b ha hb hab hba ↦ ?_) (pairwise_mergeSort_index index l)
    (pairwise_mergeSort_index index l')
    ((List.mergeSort_perm l _).trans (hperm.trans (List.mergeSort_perm l' _).symm))
  have hb : b ∈ l := hperm.mem_iff.mpr ((List.mergeSort_perm l' _).mem_iff.mp hb)
  have ha : a ∈ l := (List.mergeSort_perm l _).mem_iff.mp ha
  exact List.inj_on_of_nodup_map hindex ha hb (UInt32.le_antisymm hab hba)

/-- Items with different numbers are sorted into ascending order. -/
private theorem pairwise_lt_mergeSort {α : Type} (index : α → UInt32) {l : List α}
    (hindex : (l.map index).Nodup) :
    ((l.mergeSort fun a b ↦ index a ≤ index b).map index).Pairwise (· < ·) := by
  have hne : ((l.mergeSort fun a b ↦ index a ≤ index b).map index).Nodup :=
    ((List.mergeSort_perm l _).map index).nodup_iff.mpr hindex
  have hle := List.pairwise_map.mpr (pairwise_mergeSort_index index l)
  exact (hle.and hne).imp fun h ↦ UInt32.lt_of_le_of_ne h.1 h.2

private theorem min?_eq_of_perm {l l' : List UInt32} (h : l.Perm l') : l.min? = l'.min? := by
  cases hmin : l'.min? with
  | none =>
    rw [List.min?_eq_none_iff] at hmin ⊢
    subst hmin
    exact h.eq_nil
  | some a =>
    rw [List.min?_eq_some_iff] at hmin ⊢
    exact ⟨h.mem_iff.mpr hmin.1, fun b hb ↦ hmin.2 b (h.mem_iff.mp hb)⟩

/-! ### Methods -/

/-- A method becomes a function and declares some functions, whatever functions are known. -/
def CompilesTo (symbols : SymbolTable) (o : Options) (m : Method)
    (r : CompiledFunction × List (UInt32 × String)) : Prop :=
  ∀ t, compileMethod m symbols o t = (.ok r.1, t.declareImplicit r.2)

variable {symbols : SymbolTable} {o : Options} {m : Method} {t : FunctionTable}

/-- A method passes through its forms one after the other. -/
theorem forms_of_compileMethod {f : CompiledFunction} (h : (compileMethod m symbols o t).1 = .ok f) :
    ∃ lowered left, (lowerMethod m symbols o t).1 = .ok lowered ∧ lowered.withLeaves = .ok left ∧
      left.finish o = .ok f := by
  obtain ⟨left, hleft, hfinish⟩ := bind_eq_ok.mp h
  obtain ⟨lowered, hlowered, hleaves⟩ := bind_eq_ok.mp hleft
  exact ⟨lowered, left, hlowered, hleaves, hfinish⟩

/-- What a method becomes does not depend on the functions that are known. -/
theorem compilesTo_of_ok {f : CompiledFunction} (h : (compileMethod m symbols o t).1 = .ok f) :
    ∃ calls, (∀ c ∈ calls, c ∈ m.body.callees symbols) ∧ CompilesTo symbols o m (f, calls) := by
  obtain ⟨lowered, left, hlowered, hleaves, hfinish⟩ := forms_of_compileMethod h
  let k : Lowering.Setting :=
    { method := m, symbols, loading := .pooled, comments := o.comments, comments' := o.comments
      allowed := fun index name ↦ (index, name) ∈ m.body.callees symbols }
  obtain ⟨calls, hcalls, ⟨f', _, -, hrun⟩ | ⟨e, hrun⟩⟩ := lowerIn_alike k rfl rfl rfl fun _ hc ↦ hc
  · have hlower (t : FunctionTable) : lowerMethod m symbols o t = (.ok f', t.declareImplicit calls) :=
      (hrun t).1
    rw [hlower] at hlowered
    cases hlowered
    refine ⟨calls, hcalls, fun t' ↦ ?_⟩
    rw [compileMethod, lowerFunction, hlower]
    simp only [Except.bind, hleaves, hfinish]
  · have hlower : lowerMethod m symbols o t = (.error e, _) := (hrun t).1
    rw [hlower] at hlowered
    cases hlowered

private theorem index_of_compilesTo {r : CompiledFunction × List (UInt32 × String)}
    (h : CompilesTo symbols o m r) : r.1.index = m.index := by
  have hok : (compileMethod m symbols o .empty).1 = .ok r.1 := by rw [h]
  obtain ⟨lowered, left, hlowered, hleaves, hfinish⟩ := forms_of_compileMethod hok
  obtain ⟨st, rfl, -⟩ := exists_of_lowerMethod hlowered
  obtain ⟨code, -, hleaves⟩ := bind_eq_ok.mp hleaves
  cases hleaves
  obtain ⟨g, -, hfinish⟩ := bind_eq_ok.mp hfinish
  obtain ⟨packing, -, hfinish⟩ := bind_eq_ok.mp hfinish
  obtain ⟨placed, -, hfinish⟩ := bind_eq_ok.mp hfinish
  rw [← pure_eq_ok.mp hfinish]
  rfl

/-- Methods are compiled one by one: each becomes what it becomes alone. -/
private theorem compilesTo_of_compileMethods {methods : List Method} {fs : List CompiledFunction}
    {t' : FunctionTable} (h : compileMethods symbols o t methods = .ok (fs, t')) :
    ∃ results, List.Forall₂ (CompilesTo symbols o) methods results ∧
      ∀ c ∈ results.flatMap (·.2), c ∈ methods.flatMap (·.body.callees symbols) := by
  induction methods generalizing t fs with
  | nil => exact ⟨[], .nil, nofun⟩
  | cons m rest ih =>
    rw [compileMethods] at h
    rcases hm : compileMethod m symbols o t with ⟨compiled, functions⟩
    rw [hm] at h
    obtain ⟨f, hf, h⟩ := bind_eq_ok.mp h
    obtain ⟨⟨fs', t''⟩, hrest, h⟩ := bind_eq_ok.mp h
    cases h
    have hok : (compileMethod m symbols o t).1 = .ok f := by
      rw [hm]
      exact mapError_eq_ok.mp hf
    obtain ⟨calls, hcalls, hcompiles⟩ := compilesTo_of_ok hok
    obtain ⟨results, hresults, hmentioned⟩ := ih hrest
    refine ⟨(f, calls) :: results, .cons hcompiles hresults, fun c hc ↦ ?_⟩
    rw [List.flatMap_cons, List.mem_append] at hc ⊢
    exact hc.imp (hcalls c) (hmentioned c)

/-- Methods that compile alone compile one after the other. -/
private theorem compileMethods_eq_ok {methods : List Method}
    {results : List (CompiledFunction × List (UInt32 × String))}
    (h : List.Forall₂ (CompilesTo symbols o) methods results) (t : FunctionTable) :
    compileMethods symbols o t methods =
      .ok (results.map (·.1), t.declareImplicit (results.flatMap (·.2))) := by
  induction h generalizing t with
  | nil => rfl
  | cons hm _ ih =>
    rw [compileMethods, hm t]
    simp only [Except.mapError, List.flatMap_cons, FunctionTable.declareImplicit_append]
    simp only [bind, Except.bind, ih]
    rfl

/-! ### Linking -/

/-- Items are linked one by one. -/
theorem forall₂_linkAll {α : Type} (step : TypeNames → α → α × TypeNames) {R : α → α → Prop}
    (hstep : ∀ types a, R a (step types a).1) (types : TypeNames) (l : List α) :
    List.Forall₂ R l (linkAll step types l).1 := by
  induction l generalizing types with
  | nil => exact .nil
  | cons a rest ih => exact .cons (hstep types a) (ih _)

private theorem map_index_link (functions : List CompiledFunction) :
    (link functions).1.map (·.index) = functions.map (·.index) := by
  have h := forall₂_linkAll CompiledFunction.link (R := fun f g ↦ g.index = f.index)
    (fun _ _ ↦ rfl) [] functions
  exact List.forall₂_eq_eq_eq ▸ List.forall₂_map_left_iff.mpr (List.forall₂_map_right_iff.mpr h.flip)

/-! ### Units -/

/-- The functions that a unit mentions and does not declare. -/
def SourceUnit.callees (u : SourceUnit) : List (UInt32 × String) :=
  u.methods.flatMap (·.body.callees u.symbols)

/-- A unit whose methods compile becomes one module. -/
theorem SourceUnit.compile_eq_ok {u : SourceUnit}
    {results : List (CompiledFunction × List (UInt32 × String))}
    (h : List.Forall₂ (CompilesTo u.symbols o) u.methods results) :
    u.compile o = .ok
      { functions := (link ((results.map (·.1)).mergeSort fun a b ↦ a.index ≤ b.index)).1
        declarations := u.functionTable.declareImplicit (results.flatMap (·.2))
        types := (link ((results.map (·.1)).mergeSort fun a b ↦ a.index ≤ b.index)).2
        entryPoint := u.entryPoint? o.entryPoint } := by
  rw [compile, compileMethods_eq_ok h]
  rfl

/-- In a unit that compiles each method compiles alone, and declares only functions that the unit calls. -/
theorem SourceUnit.exists_of_compile {u : SourceUnit} {module : CompiledModule}
    (h : u.compile o = .ok module) :
    ∃ results, List.Forall₂ (CompilesTo u.symbols o) u.methods results ∧
      ∀ c ∈ results.flatMap (·.2), c ∈ u.callees := by
  obtain ⟨⟨fs, t'⟩, hmethods, -⟩ := bind_eq_ok.mp h
  exact compilesTo_of_compileMethods hmethods

private theorem map_index_of_compilesTo {methods : List Method}
    {results : List (CompiledFunction × List (UInt32 × String))}
    (h : List.Forall₂ (CompilesTo symbols o) methods results) :
    (results.map (·.1)).map (·.index) = methods.map (·.index) := by
  induction h with
  | nil => rfl
  | cons hm _ ih => rw [List.map_cons, List.map_cons, List.map_cons, index_of_compilesTo hm, ih]

/-- Methods in another order make the same module. -/
theorem SourceUnit.compile_of_perm {u : SourceUnit} (methods : List Method)
    (hperm : methods.Perm u.methods) (hindex : (u.methods.map (·.index)).Nodup)
    (hnames : ∀ c ∈ u.callees, ∀ d ∈ u.callees, c.1 = d.1 → c.2 = d.2) {module : CompiledModule}
    (h : u.compile o = .ok module) : ({ u with methods } : SourceUnit).compile o = .ok module := by
  obtain ⟨results, hresults, hmentioned⟩ := exists_of_compile h
  obtain ⟨results', hresults', hperm'⟩ := List.perm_comp_forall₂ hperm hresults
  rw [compile_eq_ok hresults] at h
  rw [← h, compile_eq_ok (u := { u with methods }) hresults']
  have htable : ({ u with methods } : SourceUnit).functionTable = u.functionTable := by
    rw [functionTable, methodsByIndex, ← mergeSort_eq_of_perm (·.index) hperm.symm hindex]
    rfl
  have hentry : ({ u with methods } : SourceUnit).entryPoint? o.entryPoint =
      u.entryPoint? o.entryPoint := min?_eq_of_perm ((hperm.filter _).map _)
  have hsorted := mergeSort_eq_of_perm (·.index) (hperm'.symm.map (·.1))
    (by rw [map_index_of_compilesTo hresults]; exact hindex)
  have hcalls := FunctionTable.declareImplicit_perm (hperm'.symm.flatMap_right (·.2))
    (fun c hc d hd ↦ hnames c (hmentioned c hc) d (hmentioned d hd)) u.functionTable
  rw [htable, hentry, ← hsorted, ← hcalls]

/-- The order in which the methods of a unit are compiled does not matter: both orders fail, or both
make the same module. Its functions stand in the order of their numbers, and its declarations are the
same however those of the methods interleave. -/
theorem compile_eq_of_perm (u : SourceUnit) (o : Options) (methods : List Method)
    (hperm : methods.Perm u.methods) (hindex : (u.methods.map (·.index)).Nodup)
    (hnames : ∀ c ∈ u.callees, ∀ d ∈ u.callees, c.1 = d.1 → c.2 = d.2) :
    (({ u with methods } : SourceUnit).compile o).toOption = (u.compile o).toOption ∧
      ∀ module, u.compile o = .ok module → (module.functions.map (·.index)).Pairwise (· < ·) ∧
        ∃ results, List.Forall₂ (CompilesTo u.symbols o) u.methods results ∧
          ∀ calls, calls.Perm (results.flatMap (·.2)) →
            u.functionTable.declareImplicit calls = module.declarations := by
  refine ⟨?_, fun module h ↦ ?_⟩
  · have hindex' : (methods.map (·.index)).Nodup := (hperm.map _).nodup_iff.mpr hindex
    have hback (c : UInt32 × String) (hc : c ∈ ({ u with methods } : SourceUnit).callees) :
        c ∈ u.callees := (hperm.flatMap_right _).mem_iff.mp hc
    cases h : u.compile o with
    | ok module => rw [u.compile_of_perm methods hperm hindex hnames h]
    | error e =>
      cases h' : ({ u with methods } : SourceUnit).compile o with
      | error e' => rfl
      | ok module =>
        have hok := SourceUnit.compile_of_perm u.methods hperm.symm hindex'
          (fun c hc d hd ↦ hnames c (hback c hc) d (hback d hd)) h'
        rw [h] at hok
        cases hok
  · obtain ⟨results, hresults, hmentioned⟩ := SourceUnit.exists_of_compile h
    rw [SourceUnit.compile_eq_ok hresults] at h
    cases h
    refine ⟨?_, results, hresults, fun calls hcalls ↦ ?_⟩
    · rw [map_index_link]
      apply pairwise_lt_mergeSort
      rw [map_index_of_compilesTo hresults]
      exact hindex
    · exact (FunctionTable.declareImplicit_perm hcalls.symm (fun c hc d hd ↦
        hnames c (hmentioned c hc) d (hmentioned d hd)) _).symm

/-- A method that logs, by a function that only calls mention. -/
private def loggingMethod (index : UInt32) (name : String) (node : NodeId) : Method where
  index := index
  name := name
  isStatic := true
  params := []
  returnTy := .void
  body := .mk [.eval Span.none (.call ⟨node, Span.none⟩ (.name ⟨0, Span.none⟩ "log") [])] Span.none

private def loggingUnit : SourceUnit where
  methods := [loggingMethod 4 "stop" 1, loggingMethod 3 "start" 2]
  symbols :=
    { symbols := .ofList [(0, ⟨.method, "log", .void, true, 9, false, true⟩)]
      types := .ofList [(1, .void), (2, .void)] }

/-- Two methods that both log compile to the same module in either order. -/
theorem loggingUnit_compiles_alike :
    (loggingUnit.compile {}).isOk = true ∧
      (({ loggingUnit with methods := loggingUnit.methods.reverse } : SourceUnit).compile
        {}).toOption = (loggingUnit.compile {}).toOption :=
  ⟨by decide +kernel, (compile_eq_of_perm loggingUnit {} loggingUnit.methods.reverse
    (List.reverse_perm _) (by decide) (by decide)).1⟩

end MethodCompiler
