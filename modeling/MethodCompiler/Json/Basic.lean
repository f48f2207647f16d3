/-!
# JSON documents

A document keeps its numbers and strings as they are written. A number is turned into an integer or
a floating-point number by the reader that wants one, and a string may hold surrogate escapes that
form no character as long as nobody asks for its text. Objects keep the order of their fields, and
repeated fields too.
-/

namespace MethodCompiler

/-- A piece of a written string. -/
inductive StringPiece where
  /-- A character, written as such or by a short escape. -/
  | char (c : Char)
  /-- A 16-bit code unit, written by its hexadecimal digits. -/
  | unit (code : UInt16)
  deriving DecidableEq, Repr, Inhabited

/-- A written number. -/
structure NumberToken where
  negative : Bool
  /-- The digits before the point. -/
  whole : List Char
  /-- The digits after the point; there is no point when there are none. -/
  fraction : List Char := []
  /-- The sign and the digits of the exponent, if there is one. -/
  exponent : Option (Bool × List Char) := none
  deriving DecidableEq, Repr, Inhabited

/-- A JSON document. -/
inductive Json where
  | null
  | bool (b : Bool)
  | number (n : NumberToken)
  | string (s : List StringPiece)
  | array (items : List Json)
  | object (fields : List (List StringPiece × Json))
  deriving Repr, Inhabited

namespace Json

/-- A string by its characters. -/
def ofString (s : String) : Json := string (s.toList.map .char)

/-- A natural number by its decimal digits. -/
def ofNat (n : Nat) : Json := number { negative := false, whole := Nat.toDigits 10 n }

/-- An integer by its sign and decimal digits. -/
def ofInt (n : Int) : Json :=
  number { negative := n < 0, whole := Nat.toDigits 10 n.natAbs }

/-- An object by its field names. -/
def ofFields (fields : List (String × Json)) : Json :=
  object (fields.map fun (name, value) ↦ (name.toList.map .char, value))

end Json

end MethodCompiler
