import Mathlib.Algebra.Group.Int.Defs
import Mathlib.Algebra.Group.Nat.Defs
import Mathlib.Data.List.Nodup
import MethodCompiler.Module.Link

/-!
# References of a linked module

Linking goes through a module once and grows the table of types as it goes. All the same, the functions
that it makes are those that one final numbering of types gives, so a number stands for the same type
wherever it occurs. `LinksTo` says of one step what it enters and what it makes, for every table that
the one it leaves can grow to. Numbers are signed and have 32 bits: the number of a member is its index
below `2 ^ 31` only.
-/

namespace MethodCompiler

/-! ### References -/

namespace Value

/-- The type that a value refers to. -/
def typeName? : Value → Option String
  | type name => some name
  | _ => none

mutual

/-- The references to types and members that a value holds at any depth, in order. The key of an entry
comes before its value. -/
def references : Value → List Value
  | type name => [type name]
  | method i => [method i]
  | property i => [property i]
  | fieldRef i => [fieldRef i]
  | array _ items => itemReferences items
  | table _ _ entries => entryReferences entries
  | _ => []

def itemReferences : List Value → List Value
  | [] => []
  | v :: rest => v.references ++ itemReferences rest

def entryReferences : List (Value × Value) → List Value
  | [] => []
  | (k, v) :: rest => k.references ++ v.references ++ entryReferences rest

end

mutual

/-- The value with numbers in place of its references, as `number` gives them, and all else as it is. -/
def numbered (number : Value → Int32) : Value → Value
  | type name => i32 (number (type name))
  | method i => i32 (number (method i))
  | property i => i32 (number (property i))
  | fieldRef i => i32 (number (fieldRef i))
  | array elem items => array elem (numberedItems number items)
  | table key value entries => table key value (numberedEntries number entries)
  | v => v

def numberedItems (number : Value → Int32) : List Value → List Value
  | [] => []
  | v :: rest => v.numbered number :: numberedItems number rest

def numberedEntries (number : Value → Int32) : List (Value × Value) → List (Value × Value)
  | [] => []
  | (k, v) :: rest => (k.numbered number, v.numbered number) :: numberedEntries number rest

end

mutual

private theorem references_numbered (number : Value → Int32) (v : Value) :
    (v.numbered number).references = [] := by
  cases v with
  | array elem items => exact itemReferences_numbered number items
  | table key value entries => exact entryReferences_numbered number entries
  | _ => rfl

private theorem itemReferences_numbered (number : Value → Int32) (items : List Value) :
    itemReferences (numberedItems number items) = [] := by
  cases items with
  | nil => rfl
  | cons v rest =>
    rw [numberedItems, itemReferences, references_numbered number v,
      itemReferences_numbered number rest, List.append_nil]

private theorem entryReferences_numbered (number : Value → Int32) (entries : List (Value × Value)) :
    entryReferences (numberedEntries number entries) = [] := by
  cases entries with
  | nil => rfl
  | cons entry rest =>
    obtain ⟨k, v⟩ := entry
    rw [numberedEntries, entryReferences, references_numbered number k, references_numbered number v,
      entryReferences_numbered number rest, List.append_nil, List.append_nil]

end

end Value

namespace Operand

def references : Operand → List Value
  | immediate v => v.references
  | _ => []

def numbered (number : Value → Int32) : Operand → Operand
  | immediate v => immediate (v.numbered number)
  | operand => operand

private theorem references_numbered (number : Value → Int32) (a : Operand) :
    (a.numbered number).references = [] := by
  cases a with
  | immediate v => exact v.references_numbered number
  | _ => rfl

end Operand

namespace Statement

def references (s : Statement) : List Value := s.operands.flatMap Operand.references

def numbered (number : Value → Int32) (s : Statement) : Statement :=
  { s with operands := s.operands.map (Operand.numbered number) }

end Statement

namespace CompiledFunction

/-- The references of a function: those of its statements, then those of its constants. -/
def references (f : CompiledFunction) : List Value :=
  f.statements.flatMap Statement.references ++ f.constants.flatMap Value.references

def numbered (number : Value → Int32) (f : CompiledFunction) : CompiledFunction :=
  { f with
    statements := f.statements.map (Statement.numbered number)
    constants := f.constants.map (Value.numbered number) }

private theorem references_numbered (number : Value → Int32) (f : CompiledFunction) :
    (f.numbered number).references = [] := by
  simp [references, numbered, Statement.references, Statement.numbered, List.flatMap_map,
    Operand.references_numbered, Value.references_numbered]

end CompiledFunction

/-! ### The table of types -/

namespace TypeNames

variable {types final : TypeNames} {name : String} {refs refs' : List Value}

/-- The index that a reference stands for: the place of a type in the table, and the index that a member
has already. -/
def index (types : TypeNames) : Value → Nat
  | .type name => types.idxOf name
  | .method i | .property i | .fieldRef i => i.toNat
  | _ => 0

/-- The index of a reference as a signed number of 32 bits. -/
def number (types : TypeNames) (ref : Value) : Int32 := Int32.ofNat (types.index ref)

/-- The table with the types of some references, entered one after the other. -/
def enter (types : TypeNames) (refs : List Value) : TypeNames :=
  (refs.filterMap Value.typeName?).foldl (fun types name ↦ (types.intern name).2) types

private theorem intern_of_mem (h : name ∈ types) : types.intern name = (types.idxOf name, types) := by
  have hfind : types.findIdx? (· == name) = some (types.idxOf name) :=
    List.findIdx?_eq_some_iff_findIdx_eq.mpr ⟨List.idxOf_lt_length_of_mem h, rfl⟩
  rw [intern, hfind]

private theorem intern_of_notMem (h : name ∉ types) :
    types.intern name = (types.length, types ++ [name]) := by
  have hfind : types.findIdx? (· == name) = none := List.idxOf?_eq_none_iff.mpr h
  rw [intern, hfind]

private theorem prefix_intern (types : TypeNames) (name : String) : types <+: (types.intern name).2 := by
  by_cases h : name ∈ types
  · simp [intern_of_mem h]
  · simp [intern_of_notMem h]

private theorem nodup_intern (hd : types.Nodup) (name : String) : (types.intern name).2.Nodup := by
  by_cases h : name ∈ types
  · rwa [intern_of_mem h]
  · rw [intern_of_notMem h]
    exact List.nodup_append.mpr ⟨hd, List.nodup_singleton _, by grind⟩

/-- The number of a type is its place in every table that the one with it grows to. -/
private theorem intern_fst (h : (types.intern name).2 <+: final) :
    (types.intern name).1 = final.idxOf name := by
  obtain ⟨more, rfl⟩ := h
  by_cases hmem : name ∈ types
  · rw [intern_of_mem hmem, List.idxOf_append_of_mem hmem]
  · rw [intern_of_notMem hmem, List.append_assoc, List.idxOf_append_of_notMem hmem]
    simp

/-- As long as 32 bits can tell the types apart, so do their numbers. -/
theorem number_inj {a b : String} (hsize : types.length ≤ UInt32.size) (ha : a ∈ types)
    (hb : b ∈ types) : types.number (.type a) = types.number (.type b) ↔ a = b := by
  have hlt {name : String} (h : name ∈ types) : types.idxOf name < UInt32.size :=
    Nat.lt_of_lt_of_le (List.idxOf_lt_length_of_mem h) hsize
  constructor
  · intro h
    have heq := congrArg (fun k : Int32 ↦ k.toUInt32.toNat) h
    simp only [number, index, Int32.toUInt32_ofNat', UInt32.toNat_ofNat'] at heq
    rw [Nat.mod_eq_of_lt (hlt ha), Nat.mod_eq_of_lt (hlt hb)] at heq
    exact (List.idxOf_inj ha).mp heq
  · intro h
    rw [h]

/-- A number of 32 bits is the index where it has a sign bit to spare. -/
private theorem toInt_number {ref : Value} (h : types.index ref < 2 ^ 31) :
    (types.number ref).toInt = types.index ref :=
  Int32.toInt_ofNat_of_lt h

/-- An index that needs the sign bit becomes a negative number. -/
private theorem toInt_number_of_le {ref : Value} (h : 2 ^ 31 ≤ types.index ref)
    (hsize : types.index ref < UInt32.size) :
    (types.number ref).toInt = types.index ref - 2 ^ 32 := by
  rw [number, Int32.toInt_ofNat', Int.bmod_def]
  simp only [UInt32.size, Int32.size] at hsize ⊢
  omega

/-- The index of a member has 32 bits. -/
private theorem index_lt_of_member {ref : Value} (h : ref.typeName? = none) :
    types.index ref < UInt32.size := by
  cases ref with
  | type name => cases h
  | method i | property i | fieldRef i => exact i.toNat_lt_size
  | _ => exact Nat.zero_lt_succ _

private theorem enter_append (types : TypeNames) (refs refs' : List Value) :
    types.enter (refs ++ refs') = (types.enter refs).enter refs' := by
  rw [enter, enter, enter, List.filterMap_append, List.foldl_append]

private theorem prefix_enter (types : TypeNames) (refs : List Value) : types <+: types.enter refs := by
  rw [enter]
  induction refs.filterMap Value.typeName? generalizing types with
  | nil => exact List.prefix_rfl
  | cons name rest ih => exact (prefix_intern types name).trans (ih _)

private theorem nodup_enter (hd : types.Nodup) (refs : List Value) : (types.enter refs).Nodup := by
  rw [enter]
  induction refs.filterMap Value.typeName? generalizing types with
  | nil => exact hd
  | cons name rest ih => exact ih (nodup_intern hd name)

/-- New types are entered in the order of their first use. -/
theorem enter_eq (types : TypeNames) (refs : List Value) :
    types.enter refs =
      types ++ ((refs.filterMap Value.typeName?).removeAll types).eraseDups := by
  rw [enter]
  induction refs.filterMap Value.typeName? generalizing types with
  | nil => simp [List.removeAll]
  | cons name rest ih =>
    rw [List.foldl_cons, ih]
    by_cases h : name ∈ types
    · have hcons : (name :: rest).removeAll types = rest.removeAll types :=
        List.filter_cons_of_neg (by simpa using h)
      rw [intern_of_mem h, hcons]
    · have hcons : (name :: rest).removeAll types = name :: rest.removeAll types :=
        List.filter_cons_of_pos (by simpa using h)
      have hrest : rest.removeAll (types ++ [name]) =
          (rest.removeAll types).filter (fun b ↦ !b == name) := by
        simp only [List.removeAll, List.filter_filter]
        congr 1
        funext b
        simp [Bool.and_comm, Bool.beq_eq_decide_eq]
      rw [intern_of_notMem h, hcons, List.eraseDups_cons, hrest, List.append_assoc,
        List.singleton_append]

end TypeNames

/-! ### Linking -/

/-- What is made of something with references, from a table of types: the types are entered, and the
references are numbered by every table that comes of it. -/
structure LinksTo {α : Type} (types : TypeNames) (refs : List Value)
    (numbered : (Value → Int32) → α) (linked : α × TypeNames) : Prop where
  entered : linked.2 = types.enter refs
  result : ∀ final : TypeNames, types.enter refs <+: final → linked.1 = numbered final.number

namespace LinksTo

variable {α β γ : Type} {types : TypeNames} {refs refs' : List Value}
  {n : (Value → Int32) → α} {n' : (Value → Int32) → β} {r : α × TypeNames} {r' : β × TypeNames}

private theorem pure (types : TypeNames) (a : α) : LinksTo types [] (fun _ ↦ a) (a, types) :=
  ⟨rfl, fun _ _ ↦ rfl⟩

private theorem map (g : α → β) (h : LinksTo types refs n r) :
    LinksTo types refs (fun k ↦ g (n k)) (g r.1, r.2) :=
  ⟨h.entered, fun final hfinal ↦ congrArg g (h.result final hfinal)⟩

/-- Two things are linked one after the other. -/
private theorem map₂ (g : α → β → γ) (h : LinksTo types refs n r) (h' : LinksTo r.2 refs' n' r') :
    LinksTo types (refs ++ refs') (fun k ↦ g (n k) (n' k)) (g r.1 r'.1, r'.2) := by
  have htypes : types.enter (refs ++ refs') = r.2.enter refs' := by
    rw [TypeNames.enter_append, h.entered]
  refine ⟨by rw [htypes, h'.entered], fun final hfinal ↦ ?_⟩
  rw [htypes] at hfinal
  have hbefore : types.enter refs <+: final := by
    rw [← h.entered]
    exact (TypeNames.prefix_enter r.2 refs').trans hfinal
  rw [h.result final hbefore, h'.result final hfinal]

end LinksTo

mutual

private theorem Value.linksTo (types : TypeNames) (v : Value) :
    LinksTo types v.references v.numbered (v.link types) := by
  cases v with
  | type name =>
    exact ⟨rfl, fun final hfinal ↦
      congrArg (fun i ↦ Value.i32 (Int32.ofNat i)) (TypeNames.intern_fst hfinal)⟩
  | method i | property i | fieldRef i =>
    refine ⟨rfl, fun _ _ ↦ congrArg Value.i32 ?_⟩
    rw [TypeNames.number, TypeNames.index, ← UInt32.toInt32_ofNat', UInt32.ofNat_toNat]
  | array elem items => exact (Value.linksTo_items types items).map (Value.array elem)
  | table key value entries => exact (Value.linksTo_entries types entries).map (Value.table key value)
  | _ => exact ⟨rfl, fun _ _ ↦ rfl⟩

private theorem Value.linksTo_items (types : TypeNames) (items : List Value) :
    LinksTo types (itemReferences items) (numberedItems · items) (linkItems types items) := by
  cases items with
  | nil => exact .pure types []
  | cons v rest => exact (Value.linksTo types v).map₂ List.cons (Value.linksTo_items _ rest)

private theorem Value.linksTo_entries (types : TypeNames) (entries : List (Value × Value)) :
    LinksTo types (entryReferences entries) (numberedEntries · entries)
      (linkEntries types entries) := by
  cases entries with
  | nil => exact .pure types []
  | cons entry rest =>
    obtain ⟨k, v⟩ := entry
    exact ((Value.linksTo types k).map₂ Prod.mk (Value.linksTo _ v)).map₂ List.cons
      (Value.linksTo_entries _ rest)

end

private theorem linksTo_linkAll {α : Type} {step : TypeNames → α → α × TypeNames} {refs : α → List Value}
    {n : (Value → Int32) → α → α} (h : ∀ types a, LinksTo types (refs a) (n · a) (step types a))
    (types : TypeNames) (l : List α) :
    LinksTo types (l.flatMap refs) (fun k ↦ l.map (n k)) (linkAll step types l) := by
  induction l generalizing types with
  | nil => exact .pure types []
  | cons a rest ih => exact (h types a).map₂ List.cons (ih _)

private theorem Operand.linksTo (types : TypeNames) (a : Operand) :
    LinksTo types a.references (Operand.numbered · a) (a.link types) := by
  cases a with
  | immediate v => exact (v.linksTo types).map Operand.immediate
  | _ => exact .pure types _

private theorem Statement.linksTo (types : TypeNames) (s : Statement) :
    LinksTo types s.references (Statement.numbered · s) (s.link types) :=
  (linksTo_linkAll Operand.linksTo types s.operands).map fun operands ↦
    ({ s with operands } : Statement)

private theorem CompiledFunction.linksTo (types : TypeNames) (f : CompiledFunction) :
    LinksTo types f.references (CompiledFunction.numbered · f) (f.link types) :=
  (linksTo_linkAll Statement.linksTo types f.statements).map₂
    (fun statements constants ↦ ({ f with statements, constants } : CompiledFunction))
    (linksTo_linkAll (n := Value.numbered) Value.linksTo _ f.constants)

/-- The types that functions refer to, in the order of their references. -/
def namedTypes (functions : List CompiledFunction) : List String :=
  (functions.flatMap CompiledFunction.references).filterMap Value.typeName?

/-- The functions that a module is linked to, with its table of types. -/
structure LinkedAs (functions linked : List CompiledFunction) (types : TypeNames) : Prop where
  /-- No reference is left in an immediate operand or a constant, at any depth. -/
  resolved : ∀ f ∈ linked, f.references = []
  nodup : types.Nodup
  /-- The table lists the types that occur, in the order of their first occurrence. -/
  listed : types = (namedTypes functions).eraseDups
  /-- Every reference has become its number, and nothing else has changed. -/
  replaced : linked = functions.map (CompiledFunction.numbered types.number)
  /-- A type that occurs stands in the table at its index. -/
  index : ∀ name ∈ namedTypes functions, types[types.idxOf name]? = some name
  /-- Two types have the same index exactly if they are the same. -/
  index_inj : ∀ a ∈ namedTypes functions, ∀ b ∈ namedTypes functions,
    types.idxOf a = types.idxOf b ↔ a = b
  /-- As long as 32 bits can tell the types apart, so do their numbers. -/
  number_inj : types.length ≤ UInt32.size → ∀ a ∈ namedTypes functions,
    ∀ b ∈ namedTypes functions, types.number (.type a) = types.number (.type b) ↔ a = b
  /-- As long as a signed number of 32 bits can be any index of a type, numbers of types are indices. -/
  type_number : types.length ≤ 2 ^ 31 → ∀ name ∈ namedTypes functions,
    (types.number (.type name)).toInt = types.idxOf name
  /-- The number of a reference is its index, the place of a type in the table and a member's own index,
  where a signed number of 32 bits can be that index. -/
  number_eq : ∀ ref ∈ functions.flatMap CompiledFunction.references, types.index ref < 2 ^ 31 →
    (types.number ref).toInt = types.index ref
  /-- A larger index of a member has become a negative number. -/
  number_wraps : ∀ ref ∈ functions.flatMap CompiledFunction.references, ref.typeName? = none →
    2 ^ 31 ≤ types.index ref → (types.number ref).toInt = types.index ref - 2 ^ 32

/-- Linking replaces every reference by a number, and numbers types alike in all functions. -/
theorem link_numbers_references (functions : List CompiledFunction) :
    LinkedAs functions (link functions).1 (link functions).2 := by
  have hlinks : LinksTo [] (functions.flatMap CompiledFunction.references)
      (fun k ↦ functions.map (CompiledFunction.numbered k)) (link functions) :=
    linksTo_linkAll CompiledFunction.linksTo [] functions
  generalize link functions = linked at hlinks
  obtain ⟨linked, types⟩ := linked
  have hentered : types = TypeNames.enter [] (functions.flatMap CompiledFunction.references) :=
    hlinks.entered
  have htypes : types = (namedTypes functions).eraseDups := by
    rw [hentered, TypeNames.enter_eq]
    simp [List.removeAll, namedTypes]
  have hfunctions : linked = functions.map (CompiledFunction.numbered types.number) :=
    hlinks.result types (hentered ▸ List.prefix_rfl)
  have hmem {name : String} (h : name ∈ namedTypes functions) : name ∈ types := by
    rw [htypes]
    exact List.mem_eraseDups.mpr h
  refine ⟨fun f hf ↦ ?_, ?_, htypes, hfunctions, fun name h ↦ List.getElem?_idxOf (hmem h),
    fun a ha b _ ↦ List.idxOf_inj (hmem ha),
    fun hsize a ha b hb ↦ TypeNames.number_inj hsize (hmem ha) (hmem hb), fun hsize name h ↦ ?_,
    fun _ _ ↦ TypeNames.toInt_number,
    fun _ _ hmember hle ↦ TypeNames.toInt_number_of_le hle (TypeNames.index_lt_of_member hmember)⟩
  · rw [hfunctions] at hf
    obtain ⟨g, -, rfl⟩ := List.mem_map.mp hf
    exact g.references_numbered _
  · rw [hentered]
    exact TypeNames.nodup_enter List.nodup_nil _
  · exact TypeNames.toInt_number
      (Nat.lt_of_lt_of_le (List.idxOf_lt_length_of_mem (hmem h)) hsize)

/-- A function that calls the method with the largest index there is. -/
private def callOfLargest : CompiledFunction where
  index := 4294967295
  name := "F"
  statements := [.of .callVoid [.immediate (.method 4294967295)]]
  registers := 0
  inputs := 0
  constants := []

/-- The call no longer has the index of the method that it calls. -/
theorem largest_method_becomes_negative :
    (link [callOfLargest]).1.map (·.statements) = [[.of .callVoid [.immediate (.i32 (-1))]]] := by
  rfl

end MethodCompiler
