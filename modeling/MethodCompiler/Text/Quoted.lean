import MethodCompiler.Text.Unprintable

/-!
# Quoted text

Strings stand in double quotes and characters in single quotes. A backslash introduces the short
escapes, and a character without a visible form is written by its code point in hexadecimal.
-/

namespace MethodCompiler.Text

/-- One character of text quoted with `quote`. -/
def escapeChar (quote c : Char) : List Char :=
  if c == quote then ['\\', c]
  else
    match c with
    | '\x00' => ['\\', '0']
    | '\t' => ['\\', 't']
    | '\r' => ['\\', 'r']
    | '\n' => ['\\', 'n']
    | '\\' => ['\\', '\\']
    | c =>
      if isUnprintable c then "\\u\x7b".toList ++ Nat.toDigits 16 c.toNat ++ ['\x7d'] else [c]

/-- A string in double quotes. -/
def quoteString (s : String) : String :=
  String.ofList ('"' :: s.toList.flatMap (escapeChar '"') ++ ['"'])

/-- A character in single quotes. -/
def quoteChar (c : Char) : String :=
  String.ofList ('\x27' :: escapeChar '\x27' c ++ ['\x27'])

end MethodCompiler.Text
