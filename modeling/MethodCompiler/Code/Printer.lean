import MethodCompiler.Code.Statement
import MethodCompiler.Text.Decimal
import MethodCompiler.Text.Quoted

/-!
# Text of values, operands and statements

Integers carry the name of their type except the common 32-bit ones. A listing has one statement per
line, with labels flush left.
-/

namespace MethodCompiler

namespace Value

mutual

/-- The written form of a value. -/
def text : Value → String
  | i8 n => "i8 " ++ toString n.toInt
  | u8 n => "u8 " ++ toString n.toNat
  | i16 n => "i16 " ++ toString n.toInt
  | u16 n => "u16 " ++ toString n.toNat
  | i32 n => toString n.toInt
  | u32 n => "u32 " ++ toString n.toNat
  | i64 n => "i64 " ++ toString n.toInt
  | u64 n => "u64 " ++ toString n.toNat
  | f32 x => "f32 " ++ Text.ofFloat32 x
  | f64 x => "f64 " ++ Text.ofFloat x
  | bool b => if b then "bool true" else "bool false"
  | char c => "char " ++ Text.quoteChar c
  | string s => Text.quoteString s
  | null => "null"
  | array _ items => "[" ++ ", ".intercalate (itemTexts items) ++ "]"
  | table _ _ entries => "\x7b" ++ ", ".intercalate (entryTexts entries) ++ "\x7d"
  | label name => "@" ++ name
  | type name => "type " ++ name
  | method i => "method " ++ toString i.toNat
  | property i => "prop " ++ toString i.toNat
  | fieldRef i => "field " ++ toString i.toNat
  | registerIndex r => "#r" ++ toString r

/-- The texts of the elements of an array. -/
def itemTexts : List Value → List String
  | [] => []
  | v :: rest => v.text :: itemTexts rest

/-- The texts of the entries of a table, each a key and its value. -/
def entryTexts : List (Value × Value) → List String
  | [] => []
  | (k, v) :: rest => (k.text ++ ": " ++ v.text) :: entryTexts rest

end

end Value

/-- The written form of an operand. -/
def Operand.text : Operand → String
  | immediate v => v.text
  | register r _ => "r" ++ toString r
  | input slot _ => "in" ++ toString slot.toNat
  | field i _ => "f" ++ toString i.toNat
  | constant i => "c" ++ toString i
  | this _ => "this"
  | exception => "exc"
  | label name => "@" ++ name

namespace Statement

/-- The written form of a statement. A label shows its name only, without its comment. -/
def text (s : Statement) : String :=
  match s.label? with
  | some name => name ++ ":"
  | none =>
    let head := s.op.mnemonic
    let body := if s.operands.isEmpty then head
      else head ++ " " ++ ", ".intercalate (s.operands.map Operand.text)
    match s.comment with
    | some comment => body ++ "  ; " ++ comment
    | none => body

/-- A statement as a line of a listing. -/
def line (s : Statement) : String := if s.isLabel then s.text else "    " ++ s.text

end Statement

/-- The lines of a listing. -/
def listing (code : List Statement) : List String := code.map Statement.line

end MethodCompiler
