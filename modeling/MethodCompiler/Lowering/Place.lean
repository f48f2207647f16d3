import MethodCompiler.Lowering.Basic

/-!
# Places

A place is what an assignment writes. A variable is read and written in place; fields of objects,
properties and elements are loaded and stored by statements.
-/

namespace MethodCompiler.Lowering

/-- Where an assignable expression lives. -/
inductive Place where
  /-- A register, an input slot or a field of `this`. -/
  | direct (operand : Operand) (ty : Ty)
  | staticField (field : UInt32) (ty : Ty)
  | field (object : Operand) (field : UInt32) (ty : Ty)
  | staticProperty (property : UInt32) (ty : Ty)
  | property (object : Operand) (property : UInt32) (ty : Ty)
  /-- An element of an array, or of a table. -/
  | element (collection key : Operand) (table : Bool) (ty : Ty)
  deriving Repr, Inhabited

namespace Place

def ty : Place → Ty
  | direct _ ty | staticField _ ty | field _ _ ty | staticProperty _ ty | property _ _ ty
  | element _ _ _ ty => ty

/-- The register that a place is. -/
def register? : Place → Option Operand
  | direct (.register r t) _ => some (.register r t)
  | _ => none

/-- Read a place. -/
def load (into : Option Operand) : Place → Lower Operand
  | direct operand ty => deliver operand into ty
  | staticField i ty => read .getStatic [.immediate (.fieldRef i)] ty
  | field object i ty => read .getField [object, .immediate (.fieldRef i)] ty
  | staticProperty i ty => read .getStaticProperty [.immediate (.property i)] ty
  | property object i ty => read .getProperty [object, .immediate (.property i)] ty
  | element collection key table ty =>
    read (if table then .tableGet else .arrayGet) [collection, key] ty
where
  read (op : Opcode) (operands : List Operand) (ty : Ty) : Lower Operand := do
    let dst ← destination into ty
    emit op (dst :: operands)
    return dst

/-- Write a place. -/
def store (value : Operand) : Place → Lower Unit
  | direct dst ty => copyInto dst value ty
  | staticField i _ => emit .setStatic [.immediate (.fieldRef i), value]
  | field object i _ => emit .setField [object, .immediate (.fieldRef i), value]
  | staticProperty i _ => emit .setStaticProperty [.immediate (.property i), value]
  | property object i _ => emit .setProperty [object, .immediate (.property i), value]
  | element collection key table _ =>
    emit (if table then .tableSet else .arraySet) [collection, key, value]

/-- Keep the object and the key of a place from what runs before the place is used. -/
def pinned (later : List Expr) : Place → Lower Place
  | field object i ty => return .field (← pin object later) i ty
  | property object i ty => return .property (← pin object later) i ty
  | element collection key table ty =>
    return .element (← pin collection later) (← pin key later) table ty
  | place => return place

end Place

end MethodCompiler.Lowering
