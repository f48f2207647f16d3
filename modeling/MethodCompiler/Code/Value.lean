import MethodCompiler.Ty

/-!
# Immediate values

Scalars, the arrays and tables of a constant pool, and the references that stand for a number until
a later stage knows it: labels until statements have their final places, types and members until a
module is linked.
-/

namespace MethodCompiler

/-- A value that a statement or a constant pool holds. -/
inductive Value where
  | i8 (n : Int8)
  | u8 (n : UInt8)
  | i16 (n : Int16)
  | u16 (n : UInt16)
  | i32 (n : Int32)
  | u32 (n : UInt32)
  | i64 (n : Int64)
  | u64 (n : UInt64)
  | f32 (x : Float32)
  | f64 (x : Float)
  | bool (b : Bool)
  | char (c : Char)
  | string (s : String)
  | null
  /-- An array constant with its element type. -/
  | array (elem : Ty) (items : List Value)
  /-- A table constant; its keys keep the order of their first insertion. -/
  | table (key value : Ty) (entries : List (Value × Value))
  /-- The place of a label, known once statements are placed. -/
  | label (name : String)
  /-- A type by name, numbered when a module is linked. -/
  | type (name : String)
  | method (index : UInt32)
  | property (index : UInt32)
  | fieldRef (index : UInt32)
  /-- A register by number: the destination that `reref` rebinds. -/
  | registerIndex (r : Nat)
  deriving Repr, Inhabited

namespace Value

mutual

/-- Equality of kind and content. Floating-point numbers compare as numbers do: the two zeros are
equal, and a value that is no number differs from itself. -/
def same : Value → Value → Bool
  | i8 a, i8 b => a == b
  | u8 a, u8 b => a == b
  | i16 a, i16 b => a == b
  | u16 a, u16 b => a == b
  | i32 a, i32 b => a == b
  | u32 a, u32 b => a == b
  | i64 a, i64 b => a == b
  | u64 a, u64 b => a == b
  | f32 a, f32 b => a == b
  | f64 a, f64 b => a == b
  | bool a, bool b => a == b
  | char a, char b => a == b
  | string a, string b => a == b
  | null, null => true
  | array e xs, array e' ys => e == e' && sameItems xs ys
  | table k v xs, table k' v' ys => k == k' && v == v' && sameEntries xs ys
  | label a, label b => a == b
  | type a, type b => a == b
  | method a, method b => a == b
  | property a, property b => a == b
  | fieldRef a, fieldRef b => a == b
  | registerIndex a, registerIndex b => a == b
  | _, _ => false

/-- The same values in the same order. -/
def sameItems : List Value → List Value → Bool
  | [], [] => true
  | x :: xs, y :: ys => x.same y && sameItems xs ys
  | _, _ => false

/-- The same keys and values in the same order. -/
def sameEntries : List (Value × Value) → List (Value × Value) → Bool
  | [], [] => true
  | (k, v) :: xs, (k', v') :: ys => k.same k' && v.same v' && sameEntries xs ys
  | _, _ => false

end

instance : BEq Value := ⟨same⟩

/-- The static type of a scalar or an aggregate; references have none. -/
def ty? : Value → Option Ty
  | i8 _ => some .i8
  | u8 _ => some .u8
  | i16 _ => some .i16
  | u16 _ => some .u16
  | i32 _ => some .i32
  | u32 _ => some .u32
  | i64 _ => some .i64
  | u64 _ => some .u64
  | f32 _ => some .f32
  | f64 _ => some .f64
  | bool _ => some .bool
  | char _ => some .char
  | string _ => some .string
  | null => some .null
  | array elem _ => some (.array elem)
  | table key value _ => some (.table key value)
  | _ => none

/-- The value is a reference that a later stage replaces. -/
def isMeta : Value → Bool
  | label _ | type _ | method _ | property _ | fieldRef _ | registerIndex _ => true
  | _ => false

def isAggregate : Value → Bool
  | array _ _ | table _ _ _ => true
  | _ => false

mutual

/-- The value is a label or holds one at some depth. -/
def hasLabel : Value → Bool
  | label _ => true
  | array _ items => anyItemHasLabel items
  | table _ _ entries => anyEntryHasLabel entries
  | _ => false

def anyItemHasLabel : List Value → Bool
  | [] => false
  | v :: rest => v.hasLabel || anyItemHasLabel rest

def anyEntryHasLabel : List (Value × Value) → Bool
  | [] => false
  | (k, v) :: rest => k.hasLabel || v.hasLabel || anyEntryHasLabel rest

end

/-- An integer or a character as a 64-bit integer, where it fits. -/
def asInt64? : Value → Option Int64
  | i8 n => some n.toInt64
  | u8 n => some (Int64.ofNat n.toNat)
  | i16 n => some n.toInt64
  | u16 n => some (Int64.ofNat n.toNat)
  | i32 n => some n.toInt64
  | u32 n => some (Int64.ofNat n.toNat)
  | i64 n => some n
  | u64 n => if n.toNat < 0x8000000000000000 then some (Int64.ofNat n.toNat) else none
  | char c => some (Int64.ofNat c.toNat)
  | _ => none

/-- Enter a value under a key: an equal key keeps its place and its spelling and takes the new
value, any other key goes to the end. -/
def insertEntry (key value : Value) : List (Value × Value) → List (Value × Value)
  | [] => [(key, value)]
  | (k, v) :: rest => if k == key then (k, value) :: rest else (k, v) :: insertEntry key value rest

/-- The value under the first key equal to `key`. -/
def findEntry? (key : Value) (entries : List (Value × Value)) : Option Value :=
  (entries.find? (·.1 == key)).map (·.2)

mutual

/-- Replace labels by what `resolve` gives for their names, from left to right. A failure keeps what
was replaced before it: the value that comes back is always the one reached. -/
def resolveLabels {ε : Type} (resolve : String → Except ε Value) : Value → Option ε × Value
  | label name =>
    match resolve name with
    | .ok v => (none, v)
    | .error e => (some e, label name)
  | array elem items =>
    let (err, items) := resolveItems resolve items
    (err, array elem items)
  | table key value entries =>
    let (err, entries) := resolveEntries resolve entries
    (err, table key value entries)
  | v => (none, v)

def resolveItems {ε : Type} (resolve : String → Except ε Value) :
    List Value → Option ε × List Value
  | [] => (none, [])
  | v :: rest =>
    match v.resolveLabels resolve with
    | (some e, v) => (some e, v :: rest)
    | (none, v) =>
      let (err, rest) := resolveItems resolve rest
      (err, v :: rest)

def resolveEntries {ε : Type} (resolve : String → Except ε Value) :
    List (Value × Value) → Option ε × List (Value × Value)
  | [] => (none, [])
  | (k, v) :: rest =>
    match k.resolveLabels resolve with
    | (some e, k) => (some e, (k, v) :: rest)
    | (none, k) =>
      match v.resolveLabels resolve with
      | (some e, v) => (some e, (k, v) :: rest)
      | (none, v) =>
        let (err, rest) := resolveEntries resolve rest
        (err, (k, v) :: rest)

end

/-- The value with every label replaced, or the first failure. -/
def resolve {ε : Type} (f : String → Except ε Value) (v : Value) : Except ε Value :=
  match v.resolveLabels f with
  | (none, v) => .ok v
  | (some e, _) => .error e

end Value

end MethodCompiler
