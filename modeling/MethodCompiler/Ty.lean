/-!
# Static types

The types that a method tree carries: enough of each to pick immediates and to decide whether an
assignment copies a value or rebinds a reference.
-/

namespace MethodCompiler

/-- A static type. -/
inductive Ty where
  | void
  | bool
  | char
  | i8
  | u8
  | i16
  | u16
  | i32
  | u32
  | i64
  | u64
  | f32
  | f64
  | string
  | object
  | null
  /-- A class, struct, interface or delegate type by its qualified name. -/
  | named (name : String)
  | array (elem : Ty)
  /-- A keyed table from keys to values. -/
  | table (key value : Ty)
  deriving DecidableEq, Repr, Inhabited

namespace Ty

/-- The type of methods without a result. -/
def isVoid : Ty → Bool
  | void => true
  | _ => false

def isString : Ty → Bool
  | string => true
  | _ => false

/-- The integer types; a character counts as one. -/
def isInteger : Ty → Bool
  | i8 | u8 | i16 | u16 | i32 | u32 | i64 | u64 | char => true
  | _ => false

def isFloat : Ty → Bool
  | f32 | f64 => true
  | _ => false

def isNumeric (ty : Ty) : Bool := ty.isInteger || ty.isFloat

/-- Reference types are rebound by an assignment; all others are copied. -/
def isReference : Ty → Bool
  | string | object | null | named _ | array _ | table _ _ => true
  | _ => false

/-- Types that a `foreach` can walk and that have a `Length`. -/
def isSequence : Ty → Bool
  | array _ | string => true
  | _ => false

def isTable : Ty → Bool
  | table _ _ => true
  | _ => false

/-- The element type of an array, or the value type of a table. -/
def element? : Ty → Option Ty
  | array elem => some elem
  | table _ value => some value
  | _ => none

/-- The written form of a type, as it stands in listings and type tables. -/
def text : Ty → String
  | void => "void"
  | bool => "bool"
  | char => "char"
  | i8 => "i8"
  | u8 => "u8"
  | i16 => "i16"
  | u16 => "u16"
  | i32 => "i32"
  | u32 => "u32"
  | i64 => "i64"
  | u64 => "u64"
  | f32 => "f32"
  | f64 => "f64"
  | string => "string"
  | object => "object"
  | null => "null"
  | named name => name
  | array elem => elem.text ++ "[]"
  | table key value => "table<" ++ key.text ++ ", " ++ value.text ++ ">"

end Ty

end MethodCompiler
