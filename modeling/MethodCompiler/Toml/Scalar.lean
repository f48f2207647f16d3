import MethodCompiler.Toml.Basic
import MethodCompiler.Toml.Text

/-!
# Numbers, truth values and dates of TOML

A value without quotes and brackets is a word: it reaches to the next blank, comment, line break,
comma or closing bracket. What kind of value it is shows in the whole word.
-/

namespace MethodCompiler.Toml

/-- The character ends a word. -/
def endsWord (c : Char) : Bool := [' ', '\t', '#', '\n', '\r', ',', ']', '\x7d'].contains c

def word (cs : List Char) : List Char × List Char := cs.span (!endsWord ·)

/-! ## Numbers -/

/-- The digits of a word in which single underscores may stand between digits. -/
def digits? (isDigit : Char → Bool) : List Char → Option (List Char)
  | [] => none
  | [c] => if isDigit c then some [c] else none
  | c :: '_' :: rest => if isDigit c then (digits? isDigit rest).map (c :: ·) else none
  | c :: rest => if isDigit c then (digits? isDigit rest).map (c :: ·) else none

/-- Digits without a leading zero, or a single zero. -/
def wholeDigits? (cs : List Char) : Option (List Char) :=
  match cs with
  | '0' :: _ :: _ => none
  | _ => digits? Char.isDigit cs

/-- The number that some digits of a base write. -/
def natOfDigits (base : Nat) (ds : List Char) : Nat :=
  ds.foldl (fun n c ↦ n * base + (hexDigit? c).getD 0) 0

/-- The sign of a word, true for minus, and the word without it. -/
def splitSign : List Char → Bool × List Char
  | '-' :: rest => (true, rest)
  | '+' :: rest => (false, rest)
  | cs => (false, cs)

/-- An integer, which must fit 64 bits. -/
def integer? (cs : List Char) : Option Int := do
  let n : Int ← match cs with
    | '0' :: 'x' :: rest => (digits? (hexDigit? · |>.isSome) rest).map (natOfDigits 16 ·)
    | '0' :: 'o' :: rest => (digits? (fun c ↦ '0' ≤ c && c ≤ '7') rest).map (natOfDigits 8 ·)
    | '0' :: 'b' :: rest => (digits? (fun c ↦ c == '0' || c == '1') rest).map (natOfDigits 2 ·)
    | _ =>
      let (negative, ds) := splitSign cs
      (wholeDigits? ds).map fun ds ↦
        if negative then -(natOfDigits 10 ds : Int) else natOfDigits 10 ds
  if -0x8000000000000000 ≤ n && n < 0x8000000000000000 then some n else none

/-- A decimal number is too large for a 64-bit floating-point number: it rounds to 2 ^ 1024 or more.
The digits are those without the point, and `exponent` is the place of the last one. -/
def overflows (ds : List Char) (exponent : Int) : Bool :=
  let n := natOfDigits 10 ds
  let limit := 1 <<< 1024 - 1 <<< 970
  if n == 0 then false
  else if exponent < 0 then
    if ds.length < (-exponent).toNat then false else limit * Nat.pow 10 (-exponent).toNat ≤ n
  else if 400 < exponent then true
  else limit ≤ n * Nat.pow 10 exponent.toNat

/-- The digits after an exponent mark with their sign. -/
def exponent? (cs : List Char) : Option Int :=
  let (negative, ds) := splitSign cs
  (digits? Char.isDigit ds).map fun ds ↦
    if negative then -(natOfDigits 10 ds : Int) else natOfDigits 10 ds

/-- The word is a number with a fraction or an exponent, or one of the special values. A positive
number must be in range. -/
def isFloat (cs : List Char) : Bool :=
  let (negative, body) := splitSign cs
  if body == ['i', 'n', 'f'] || body == ['n', 'a', 'n'] then true
  else
    let (mantissa, tail) := body.span fun c ↦ c != 'e' && c != 'E'
    let (whole, fraction) := mantissa.span (· != '.')
    let checked : Option Bool := do
      let ds ← wholeDigits? whole
      let fs ← match fraction with
        | [] => if tail.isEmpty then none else some []
        | _ :: fs => digits? Char.isDigit fs
      let e ← match tail with
        | [] => some 0
        | _ :: es => exponent? es
      return negative || !overflows (ds ++ fs) (e - fs.length)
    checked.getD false

/-! ## Dates -/

/-- The number that two digits write, if it lies between two bounds. -/
def twoDigits? (lo hi : Nat) (a b : Char) : Option Nat :=
  if a.isDigit && b.isDigit then
    let n := natOfDigits 10 [a, b]
    if lo ≤ n && n ≤ hi then some n else none
  else none

/-- The number of days of a month. -/
def daysIn (year month : Nat) : Nat :=
  if month == 2 then
    if year % 4 == 0 && (year % 100 != 0 || year % 400 == 0) then 29 else 28
  else if [4, 6, 9, 11].contains month then 30
  else 31

/-- The characters after a date. -/
def date? : List Char → Option (List Char)
  | y1 :: y2 :: y3 :: y4 :: '-' :: m1 :: m2 :: '-' :: d1 :: d2 :: rest => do
    let year := [y1, y2, y3, y4]
    if !year.all Char.isDigit then none
    let month ← twoDigits? 1 12 m1 m2
    let _ ← twoDigits? 1 (daysIn (natOfDigits 10 year) month) d1 d2
    some rest
  | _ => none

/-- The characters after a time of day, which may have a fraction of a second. -/
def time? : List Char → Option (List Char)
  | h1 :: h2 :: ':' :: m1 :: m2 :: ':' :: s1 :: s2 :: rest => do
    let _ ← twoDigits? 0 23 h1 h2
    let _ ← twoDigits? 0 59 m1 m2
    let _ ← twoDigits? 0 60 s1 s2
    match rest with
    | '.' :: c :: rest => if c.isDigit then some (rest.dropWhile Char.isDigit) else none
    | rest => some rest
  | _ => none

/-- The word is the distance of a time from the standard one, or nothing. -/
def isOffset : List Char → Bool
  | [] | ['Z'] | ['z'] => true
  | [sign, h1, h2, ':', m1, m2] =>
    (sign == '+' || sign == '-') && (twoDigits? 0 23 h1 h2).isSome && (twoDigits? 0 59 m1 m2).isSome
  | _ => false

/-- The word is a time of day with or without an offset. -/
def isOffsetTime (cs : List Char) : Bool := (time? cs).any isOffset

/-- A date, a time of day, or both. A single space may stand between them. -/
def scanDateTime (cs : List Char) : Option (String × List Char) :=
  let (w, rest) := word cs
  match date? w with
  | none => if (time? w).any List.isEmpty then some (String.ofList w, rest) else none
  | some [] =>
    match rest with
    | ' ' :: tail =>
      let (t, after) := word tail
      if isOffsetTime t then some (String.ofList (w ++ ' ' :: t), after)
      else some (String.ofList w, rest)
    | _ => some (String.ofList w, rest)
  | some (mark :: t) =>
    if (mark == 'T' || mark == 't') && isOffsetTime t then some (String.ofList w, rest) else none

/-- A value without quotes and brackets. -/
def scalar (cs : List Char) : Option (Toml × List Char) :=
  let (w, rest) := word cs
  if w == ['t', 'r', 'u', 'e'] then some (.bool true, rest)
  else if w == ['f', 'a', 'l', 's', 'e'] then some (.bool false, rest)
  else
    match integer? w with
    | some n => some (.int n, rest)
    | none =>
      if isFloat w then some (.float (String.ofList w), rest)
      else (scanDateTime cs).map fun (text, rest) ↦ (.dateTime text, rest)

end MethodCompiler.Toml
