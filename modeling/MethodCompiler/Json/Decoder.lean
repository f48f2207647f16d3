import MethodCompiler.Json.Basic

/-!
# Reading typed values from documents

A decoder reads a value from a document and knows how many objects and arrays may still be open
around it. Records are objects, in which unknown fields are passed over without a look inside, or
arrays of their fields in order. Variants are names, or objects with the name as their only field.
-/

namespace MethodCompiler

namespace StringPiece

/-- The characters of some pieces. Two code units that form a pair are one character; a surrogate
without its partner is none. -/
def decode? : List StringPiece → Option (List Char)
  | [] => some []
  | char c :: rest => (decode? rest).map (c :: ·)
  | unit hi :: unit lo :: rest =>
    if 0xd800 ≤ hi && hi < 0xdc00 then
      if 0xdc00 ≤ lo && lo < 0xe000 then
        let code := 0x10000 + (hi.toNat - 0xd800) * 0x400 + (lo.toNat - 0xdc00)
        (decode? rest).map (Char.ofNat code :: ·)
      else none
    else if 0xdc00 ≤ hi && hi < 0xe000 then none
    else (decode? (unit lo :: rest)).map (Char.ofNat hi.toNat :: ·)
  | unit code :: rest =>
    if 0xd800 ≤ code && code < 0xe000 then none
    else (decode? rest).map (Char.ofNat code.toNat :: ·)

/-- The text of some pieces. -/
def text? (s : List StringPiece) : Option String := (decode? s).map String.ofList

end StringPiece

namespace NumberToken

/-- The number that some decimal digits write. -/
def natOfDigits (ds : List Char) : Nat := ds.foldl (fun n c ↦ n * 10 + (c.toNat - 48)) 0

/-- The integer that is written without point and exponent. A negative zero is no integer. -/
def int? (n : NumberToken) : Option Int :=
  if n.fraction.isEmpty && n.exponent.isNone then
    let m := natOfDigits n.whole
    if n.negative then if m == 0 then none else some (-m) else some m
  else none

/-- Take up digits as long as the number stays within 64 bits, and return the digits left over. -/
def significand (acc : Nat) : List Char → Nat × List Char
  | [] => (acc, [])
  | c :: rest =>
    let next := acc * 10 + (c.toNat - 48)
    if next < UInt64.size then significand next rest else (acc, c :: rest)

/-- A power of ten as a floating-point number. -/
def tenTo (e : Nat) : Float := Float.ofScientific 1 false e

/-- A significand scaled by a power of ten. The scaling is done in floating point and rounds each
time; a result out of range is refused, and one too small becomes zero. -/
def scale? (f : Float) (e : Int) : Option Float :=
  if f == 0 then some f
  else if 308 < e then none
  else if 0 ≤ e then
    let r := f * tenTo e.toNat
    if r.isInf then none else some r
  else if -308 ≤ e then some (f / tenTo (-e).toNat)
  else if -616 ≤ e then some (f / tenTo 308 / tenTo (-e - 308).toNat)
  else some 0

/-- The floating-point number that is written: the digits that fit 64 bits, scaled by a power of
ten. Digits of the whole part that do not fit still count as places. -/
def float? (n : NumberToken) : Option Float := do
  let (whole, dropped) := significand 0 n.whole
  let (digits, ignored) := significand whole n.fraction
  let places : Int := dropped.length - (n.fraction.length - ignored.length)
  let exponent : Int := match n.exponent with
    | some (true, ds) => -natOfDigits ds
    | some (false, ds) => natOfDigits ds
    | none => 0
  let f ← scale? (UInt64.ofNat digits).toFloat (places + exponent)
  return if n.negative then -f else f

end NumberToken

/-- A reader of values from documents, given how many objects and arrays may still be opened. -/
abbrev Decoder (α : Type) := (depth : Nat) → Json → Option α

namespace Decoder

variable {α β : Type}

def string : Decoder String := fun _ j ↦ match j with
  | .string s => StringPiece.text? s
  | _ => none

def bool : Decoder Bool := fun _ j ↦ match j with
  | .bool b => some b
  | _ => none

/-- A string of exactly one character. -/
def char : Decoder Char := fun depth j ↦ do
  match (← string depth j).toList with
  | [c] => some c
  | _ => none

/-- An integer from `lo` up to, but not including, `hi`. -/
def intBetween (lo hi : Int) : Decoder Int := fun _ j ↦ match j with
  | .number n => do
    let i ← n.int?
    if lo ≤ i && i < hi then some i else none
  | _ => none

def uint16 : Decoder UInt16 := fun depth j ↦
  (intBetween 0 UInt16.size depth j).map (UInt16.ofNat ·.toNat)

def uint32 : Decoder UInt32 := fun depth j ↦
  (intBetween 0 UInt32.size depth j).map (UInt32.ofNat ·.toNat)

def uint64 : Decoder UInt64 := fun depth j ↦
  (intBetween 0 UInt64.size depth j).map (UInt64.ofNat ·.toNat)

def int64 : Decoder Int64 := fun depth j ↦
  (intBetween (-0x8000000000000000) 0x8000000000000000 depth j).map Int64.ofInt

/-- Any number. -/
def float : Decoder Float := fun _ j ↦ match j with
  | .number n => n.float?
  | _ => none

/-- A value, or null for none. -/
def nullable (d : Decoder α) : Decoder (Option α) := fun depth j ↦ match j with
  | .null => some none
  | j => (d depth j).map some

def list (d : Decoder α) : Decoder (List α) := fun depth j ↦ match depth, j with
  | depth + 1, .array items => items.mapM (d depth)
  | _, _ => none

/-- An array of two values. -/
def pair (d : Decoder α) (e : Decoder β) : Decoder (α × β) := fun depth j ↦ match depth, j with
  | depth + 1, .array [a, b] => do return (← d depth a, ← e depth b)
  | _, _ => none

/-- The number that a field name writes: decimal digits without escapes, sign or leading zero. -/
def numericName? (name : List StringPiece) : Option UInt32 := do
  let digits ← name.mapM fun
    | .char c => if c.isDigit then some c else none
    | .unit _ => none
  if digits.isEmpty || (digits.head? == some '0' && 1 < digits.length) then none
  let n := NumberToken.natOfDigits digits
  if n < UInt32.size then some (UInt32.ofNat n) else none

/-- An object whose field names are numbers. -/
def numbered (d : Decoder α) : Decoder (List (UInt32 × α)) := fun depth j ↦ match depth, j with
  | depth + 1, .object fields => fields.mapM fun (name, j) ↦ do
    return (← numericName? name, ← d depth j)
  | _, _ => none

/-- The fields of a record as found in a document. -/
structure Record where
  /-- The document of each field, in the order of declaration. -/
  fields : List (Option Json)
  /-- The record was an array, which can leave out fields only at its end. -/
  positional : Bool
  /-- How many objects and arrays may be opened inside the fields. -/
  depth : Nat

namespace Record

/-- The first of the fields, and the others. -/
def uncons (r : Record) : Option Json × Record :=
  (r.fields.head?.join, { r with fields := r.fields.tail })

end Record

/-- A reader of the fields of a record, one after the other. -/
abbrev FieldReader := StateT Record Option

/-- A field that must be there. -/
def required (d : Decoder α) : FieldReader α := fun r ↦ do
  let (field, r) := r.uncons
  return (← d r.depth (← field), r)

/-- A field that may be left out. -/
def defaulted (d : Decoder α) (default : α) : FieldReader α := fun r ↦
  match r.uncons with
  | (none, r) => some (default, r)
  | (some j, r) => do return (← d r.depth j, r)

/-- A field that may be null. An object may leave it out, an array may not. -/
def optional (d : Decoder α) : FieldReader (Option α) := fun r ↦
  match r.uncons with
  | (none, r) => if r.positional then none else some (none, r)
  | (some j, r) => do return (← nullable d r.depth j, r)

/-- The documents of the named fields of an object. Every name of the object must be a text, and no
named field may occur twice. -/
def select? (names : List String) (fields : List (List StringPiece × Json)) :
    Option (List (Option Json)) := do
  let fields ← fields.mapM fun (name, j) ↦ do return (← StringPiece.text? name, j)
  names.mapM fun name ↦
    match fields.filter (·.1 == name) with
    | [] => some none
    | [(_, j)] => some (some j)
    | _ => none

/-- A record with the given field names. -/
def record (names : List String) (read : FieldReader α) : Decoder α := fun depth j ↦
  match depth, j with
  | depth + 1, .object fields => do
    let r : Record := { fields := ← select? names fields, positional := false, depth }
    return (← read r).1
  | depth + 1, .array items => do
    if names.length < items.length then none
    let r : Record := { fields := items.map some, positional := true, depth }
    return (← read r).1
  | _, _ => none

/-- A variant: its name, and its data if it has any. -/
def variant (read : String → Option (Json × Nat) → Option α) : Decoder α := fun depth j ↦
  match depth, j with
  | _, .string s => do read (← StringPiece.text? s) none
  | depth + 1, .object [(name, j)] => do read (← StringPiece.text? name) (some (j, depth))
  | _, _ => none

/-- The data of a variant that has some. -/
def payload (d : Decoder α) : Option (Json × Nat) → Option α
  | some (j, depth) => d depth j
  | none => none

/-- A variant without data may have null for it. -/
def noPayload (a : α) : Option (Json × Nat) → Option α
  | none | some (.null, _) => some a
  | _ => none

end Decoder

end MethodCompiler
