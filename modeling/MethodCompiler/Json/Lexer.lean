import MethodCompiler.Json.Basic

/-!
# Tokens of JSON text
-/

namespace MethodCompiler.Json

/-- A token of JSON text. -/
inductive Token where
  | openObject
  | closeObject
  | openArray
  | closeArray
  | comma
  | colon
  | null
  | bool (b : Bool)
  | number (n : NumberToken)
  | string (s : List StringPiece)
  deriving DecidableEq, Repr, Inhabited

namespace Token

/-- The blanks between tokens. -/
def isBlank (c : Char) : Bool := c == ' ' || c == '\n' || c == '\t' || c == '\r'

/-- The value of a hexadecimal digit. -/
def hexDigit? (c : Char) : Option Nat :=
  if c.isDigit then some (c.toNat - 48)
  else if 'a' ≤ c && c ≤ 'f' then some (c.toNat - 87)
  else if 'A' ≤ c && c ≤ 'F' then some (c.toNat - 55)
  else none

/-- The code unit of four hexadecimal digits. -/
def hexUnit? (a b c d : Char) : Option UInt16 := do
  let hi := (← hexDigit? a) * 16 + (← hexDigit? b)
  let lo := (← hexDigit? c) * 16 + (← hexDigit? d)
  return UInt16.ofNat (hi * 256 + lo)

/-- The character that a short escape stands for. -/
def shortEscape? : Char → Option Char
  | '"' => some '"'
  | '\\' => some '\\'
  | '/' => some '/'
  | 'b' => some '\x08'
  | 'f' => some '\x0c'
  | 'n' => some '\n'
  | 'r' => some '\r'
  | 't' => some '\t'
  | _ => none

/-- A string after its opening quote, and the text after its closing one. Control characters must be
escaped. -/
def stringBody? : List Char → Option (List StringPiece × List Char)
  | [] => none
  | '"' :: rest => some ([], rest)
  | '\\' :: 'u' :: a :: b :: c :: d :: rest => do
    let code ← hexUnit? a b c d
    let (pieces, rest) ← stringBody? rest
    return (.unit code :: pieces, rest)
  | '\\' :: e :: rest => do
    let c ← shortEscape? e
    let (pieces, rest) ← stringBody? rest
    return (.char c :: pieces, rest)
  | c :: rest => do
    if c == '\\' || c.toNat < 32 then none
    let (pieces, rest) ← stringBody? rest
    return (.char c :: pieces, rest)

/-- The exponent of a number, if one follows. -/
def exponent? (cs : List Char) : Option (Option (Bool × List Char) × List Char) :=
  let digits (negative : Bool) (cs : List Char) :=
    let ds := cs.takeWhile Char.isDigit
    if ds.isEmpty then none else some (some (negative, ds), cs.dropWhile Char.isDigit)
  match cs with
  | c :: rest =>
    if c == 'e' || c == 'E' then
      match rest with
      | '+' :: rest => digits false rest
      | '-' :: rest => digits true rest
      | rest => digits false rest
    else some (none, cs)
  | [] => some (none, [])

/-- A number after its sign, and the text after it. The digits before the point start with a zero
only if they are just that. -/
def number? (negative : Bool) (cs : List Char) : Option (NumberToken × List Char) := do
  let whole := cs.takeWhile Char.isDigit
  let rest := cs.dropWhile Char.isDigit
  if whole.isEmpty || (whole.head? == some '0' && 1 < whole.length) then none
  let (fraction, rest) ← match rest with
    | '.' :: rest =>
      let ds := rest.takeWhile Char.isDigit
      if ds.isEmpty then none else some (ds, rest.dropWhile Char.isDigit)
    | rest => some ([], rest)
  let (exponent, rest) ← exponent? rest
  return ({ negative, whole, fraction, exponent }, rest)

/-- The token at the start of some text that is not blank, and the text after it. -/
def first? : List Char → Option (Token × List Char)
  | '\x7b' :: rest => some (openObject, rest)
  | '\x7d' :: rest => some (closeObject, rest)
  | '[' :: rest => some (openArray, rest)
  | ']' :: rest => some (closeArray, rest)
  | ',' :: rest => some (comma, rest)
  | ':' :: rest => some (colon, rest)
  | '"' :: rest => (stringBody? rest).map fun (s, rest) ↦ (string s, rest)
  | 'n' :: 'u' :: 'l' :: 'l' :: rest => some (null, rest)
  | 't' :: 'r' :: 'u' :: 'e' :: rest => some (bool true, rest)
  | 'f' :: 'a' :: 'l' :: 's' :: 'e' :: rest => some (bool false, rest)
  | '-' :: rest => (number? true rest).map fun (n, rest) ↦ (number n, rest)
  | rest => (number? false rest).map fun (n, rest) ↦ (number n, rest)

/-- The tokens of some text, at most `fuel` of them. -/
def scanFrom : Nat → List Char → Option (List Token)
  | 0, _ => none
  | fuel + 1, cs =>
    match cs.dropWhile isBlank with
    | [] => some []
    | cs => do
      let (token, rest) ← first? cs
      return token :: (← scanFrom fuel rest)

/-- The tokens of some text. Each takes up at least one character. -/
def scan (cs : List Char) : Option (List Token) := scanFrom (cs.length + 1) cs

end Token

end MethodCompiler.Json
