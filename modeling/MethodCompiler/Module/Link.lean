import MethodCompiler.Module.Function

/-!
# Linking

References to types and members become numbers. Types are numbered in the order of their first use,
over all functions of a module; members have their numbers already.
-/

namespace MethodCompiler

/-- The names of types; the position of a name is its number. -/
abbrev TypeNames := List String

namespace TypeNames

/-- The number of a type, which is entered if it is new. -/
def intern (types : TypeNames) (name : String) : Nat × TypeNames :=
  match types.findIdx? (· == name) with
  | some i => (i, types)
  | none => (types.length, types ++ [name])

end TypeNames

namespace Value

mutual

/-- Replace the references in a value by numbers, given the types named so far. -/
def link (types : TypeNames) : Value → Value × TypeNames
  | type name =>
    let (i, types) := types.intern name
    (i32 (Int32.ofNat i), types)
  | method i | property i | fieldRef i => (i32 i.toInt32, types)
  | array elem items =>
    let (items, types) := linkItems types items
    (array elem items, types)
  | table key value entries =>
    let (entries, types) := linkEntries types entries
    (table key value entries, types)
  | v => (v, types)

def linkItems (types : TypeNames) : List Value → List Value × TypeNames
  | [] => ([], types)
  | v :: rest =>
    let (v, types) := v.link types
    let (rest, types) := linkItems types rest
    (v :: rest, types)

def linkEntries (types : TypeNames) : List (Value × Value) → List (Value × Value) × TypeNames
  | [] => ([], types)
  | (k, v) :: rest =>
    let (k, types) := k.link types
    let (v, types) := v.link types
    let (rest, types) := linkEntries types rest
    ((k, v) :: rest, types)

end

end Value

/-- Apply a linking step to each element of a list, from left to right. -/
def linkAll {α : Type} (step : TypeNames → α → α × TypeNames) (types : TypeNames) :
    List α → List α × TypeNames
  | [] => ([], types)
  | a :: rest =>
    let (a, types) := step types a
    let (rest, types) := linkAll step types rest
    (a :: rest, types)

/-- Link an immediate operand. -/
def Operand.link (types : TypeNames) : Operand → Operand × TypeNames
  | immediate v =>
    let (v, types) := v.link types
    (immediate v, types)
  | operand => (operand, types)

/-- Link the operands of a statement. -/
def Statement.link (types : TypeNames) (s : Statement) : Statement × TypeNames :=
  let (operands, types) := linkAll Operand.link types s.operands
  ({ s with operands }, types)

/-- Link the statements of a function, then its constants. -/
def CompiledFunction.link (types : TypeNames) (f : CompiledFunction) :
    CompiledFunction × TypeNames :=
  let (statements, types) := linkAll Statement.link types f.statements
  let (constants, types) := linkAll Value.link types f.constants
  ({ f with statements, constants }, types)

/-- Link the functions of a module, and return the types that they name. -/
def link (functions : List CompiledFunction) : List CompiledFunction × TypeNames :=
  linkAll CompiledFunction.link [] functions

end MethodCompiler
