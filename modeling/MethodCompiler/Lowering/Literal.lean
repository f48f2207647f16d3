import MethodCompiler.Code.Value
import MethodCompiler.Error
import MethodCompiler.Tree.Expr

/-!
# Literals as immediates

The static type of a literal decides the width of its immediate. Narrowing keeps the low bits.
-/

namespace MethodCompiler

/-- A signed integer as a floating-point number, from how its magnitude is rounded to one. -/
def signedFloat {α : Type} [Neg α] (magnitude : UInt64 → α) (n : Int64) : α :=
  if n < 0 then -magnitude (-n).toUInt64 else magnitude n.toUInt64

/-- An integer as an immediate of a type. A number that is no character gives the null character. -/
def intValue (n : Int64) (ty : Ty) (span : Span) : Except Error Value :=
  match ty with
  | .i8 => .ok (.i8 n.toInt8)
  | .u8 => .ok (.u8 n.toUInt64.toUInt8)
  | .i16 => .ok (.i16 n.toInt16)
  | .u16 => .ok (.u16 n.toUInt64.toUInt16)
  | .i32 | .object => .ok (.i32 n.toInt32)
  | .u32 => .ok (.u32 n.toUInt64.toUInt32)
  | .i64 => .ok (.i64 n)
  | .u64 => .ok (.u64 n.toUInt64)
  | .f32 => .ok (.f32 (signedFloat UInt64.toFloat32 n))
  | .f64 => .ok (.f64 (signedFloat UInt64.toFloat n))
  | .char => .ok (.char (Char.ofNat n.toUInt64.toUInt32.toNat))
  | _ => .error (.unsupported ("integer literal of type " ++ ty.text) span)

/-- A literal as an immediate of a type. -/
def literalValue (lit : Literal) (ty : Ty) (span : Span) : Except Error Value :=
  match lit, ty with
  | .bool b, _ => .ok (.bool b)
  | .char c, .char | .char c, .object => .ok (.char c)
  | .char c, _ => intValue (Int64.ofNat c.toNat) ty span
  | .int n, _ => intValue n ty span
  | .uint n, .u64 => .ok (.u64 n)
  | .uint n, _ => intValue n.toInt64 ty span
  | .float x, .f32 => .ok (.f32 x.toFloat32)
  | .float x, _ => .ok (.f64 x)
  | .string s, _ => .ok (.string s)
  | .null, _ => .ok .null

end MethodCompiler
