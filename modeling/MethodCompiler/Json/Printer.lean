import MethodCompiler.Json.Basic

/-!
# Writing JSON text

Compact text. Strings escape quotes, backslashes and control characters and hold all other
characters as they are.
-/

namespace MethodCompiler

/-- The hexadecimal digits of a code unit, four of them. -/
def StringPiece.hexDigits (code : Nat) : List Char :=
  [code / 4096 % 16, code / 256 % 16, code / 16 % 16, code % 16].map Nat.digitChar

/-- The written form of a piece of a string. -/
def StringPiece.chars : StringPiece → List Char
  | unit code => '\\' :: 'u' :: hexDigits code.toNat
  | char '"' => ['\\', '"']
  | char '\\' => ['\\', '\\']
  | char '\x08' => ['\\', 'b']
  | char '\x0c' => ['\\', 'f']
  | char '\n' => ['\\', 'n']
  | char '\r' => ['\\', 'r']
  | char '\t' => ['\\', 't']
  | char c => if c.toNat < 32 then '\\' :: 'u' :: hexDigits c.toNat else [c]

/-- The written form of a number. -/
def NumberToken.chars (n : NumberToken) : List Char :=
  let sign := if n.negative then ['-'] else []
  let fraction := if n.fraction.isEmpty then [] else '.' :: n.fraction
  let exponent := match n.exponent with
    | some (negative, digits) => 'e' :: (if negative then '-' else '+') :: digits
    | none => []
  sign ++ n.whole ++ fraction ++ exponent

namespace Json

/-- A string in quotes. -/
def stringChars (s : List StringPiece) : List Char := '"' :: s.flatMap StringPiece.chars ++ ['"']

mutual

/-- The text of a document. -/
def chars : Json → List Char
  | null => ['n', 'u', 'l', 'l']
  | bool true => ['t', 'r', 'u', 'e']
  | bool false => ['f', 'a', 'l', 's', 'e']
  | number n => n.chars
  | string s => stringChars s
  | array items => '[' :: itemChars items ++ [']']
  | object fields => '\x7b' :: fieldChars fields ++ ['\x7d']

def itemChars : List Json → List Char
  | [] => []
  | [j] => j.chars
  | j :: rest => j.chars ++ ',' :: itemChars rest

def fieldChars : List (List StringPiece × Json) → List Char
  | [] => []
  | [(name, j)] => stringChars name ++ ':' :: j.chars
  | (name, j) :: rest => stringChars name ++ ':' :: j.chars ++ ',' :: fieldChars rest

end

/-- Write a document as text. -/
def render (j : Json) : String := String.ofList j.chars

end Json

end MethodCompiler
