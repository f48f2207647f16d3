import MethodCompiler.Proofs.ExpressionCode

/-!
# A machine of words

All values are 32-bit words here, and zero counts as false. The opcodes of this machine have the meaning
that the operators of expressions have, so what is proved of every such machine can be seen at work.
-/

namespace MethodCompiler

open Lowering

namespace Words

def ofBool (b : Bool) : Int32 := if b then 1 else 0

def immediate : Value → Int32
  | .i32 n => n
  | .bool b => ofBool b
  | _ => 0

def binary : BinaryOp → Int32 → Int32 → Int32
  | .add, a, b => a + b
  | .sub, a, b => a - b
  | .mul, a, b => a * b
  | .div, a, b => a / b
  | .mod, a, b => a % b
  | .bitAnd, a, b => a &&& b
  | .bitOr, a, b => a ||| b
  | .bitXor, a, b => a ^^^ b
  | .shl, a, b => a <<< b
  | .shr, a, b => a >>> b
  | .eq, a, b => ofBool (a == b)
  | .ne, a, b => ofBool (!(a == b))
  | .lt, a, b => ofBool (decide (a < b))
  | .le, a, b => ofBool (decide (a ≤ b))
  | .gt, a, b => ofBool (!decide (a ≤ b))
  | .ge, a, b => ofBool (!decide (a < b))

def unary : UnaryOp → Int32 → Int32
  | .neg, a => -a
  | .plus, a => a
  | .not, a => ofBool (a == 0)
  | .bitNot, a => ~~~a

def compute : Opcode → List Int32 → Int32
  | .neg, [a] => unary .neg a
  | .bitNot, [a] => unary .bitNot a
  | .not, [a] => unary .not a
  | .add, [a, b] => binary .add a b
  | .sub, [a, b] => binary .sub a b
  | .mul, [a, b] => binary .mul a b
  | .div, [a, b] => binary .div a b
  | .mod, [a, b] => binary .mod a b
  | .and, [a, b] => binary .bitAnd a b
  | .or, [a, b] => binary .bitOr a b
  | .xor, [a, b] => binary .bitXor a b
  | .shl, [a, b] => binary .shl a b
  | .shr, [a, b] => binary .shr a b
  | .eq, [a, b] => binary .eq a b
  | .ne, [a, b] => binary .ne a b
  | .lt, [a, b] => binary .lt a b
  | .le, [a, b] => binary .le a b
  | .gt, [a, b] => binary .gt a b
  | .ge, [a, b] => binary .ge a b
  | _, _ => 0

/-- A branch looks at the first two values. -/
def taken (op : Opcode) (values : List Int32) : Bool :=
  let a := values.getD 0 0
  let b := values.getD 1 0
  match op with
  | .jumpTrue => !(a == 0)
  | .jumpFalse => a == 0
  | .jumpEq => a == b
  | .jumpNe => !(a == b)
  | .jumpLt => decide (a < b)
  | .jumpLe => decide (a ≤ b)
  | .jumpGt => !decide (a ≤ b)
  | .jumpGe => !decide (a < b)
  | _ => false

end Words

/-- A machine of 32-bit words. -/
def wordMachine (invoke : Invoke Int32) : Machine Int32 where
  immediate := Words.immediate
  constant _ := 0
  compute := Words.compute
  taken := Words.taken
  invoke

/-- Operators on 32-bit words; zero counts as false. -/
def wordMeaning (invoke : Invoke Int32) : Meaning Int32 where
  literal lit ty :=
    match literalValue lit ty Span.none with
    | .ok v => Words.immediate v
    | .error _ => 0
  unary := Words.unary
  binary := Words.binary
  truth a := !(a == 0)
  invoke
  undefined := 0

/-- Whether a literal has an immediate of a type does not depend on where it stands. -/
private theorem literalValue_span {lit : Literal} {ty : Ty} {span : Span} {v : Value}
    (h : literalValue lit ty span = .ok v) (span' : Span) : literalValue lit ty span' = .ok v := by
  have hint (n : Int64) (h : intValue n ty span = .ok v) : intValue n ty span' = .ok v := by
    cases ty <;> first | exact h | cases h
  cases lit with
  | bool | string | null => exact h
  | int n => exact hint n h
  | char c => cases ty <;> first | exact h | exact hint (Int64.ofNat c.toNat) h
  | uint n => cases ty <;> first | exact h | exact hint n.toInt64 h
  | float x => cases ty <;> exact h

variable (invoke : Invoke Int32)

private theorem truth_ofBool (b : Bool) : (wordMeaning invoke).truth (Words.ofBool b) = b := by
  cases b <;> rfl

/-- The machine of words implements the meaning of expressions over words. -/
theorem words_implement : Implements (wordMachine invoke) (wordMeaning invoke) where
  immediate h := by
    simp only [wordMachine, wordMeaning, literalValue_span h Span.none]
  plus _ := rfl
  neg _ := rfl
  bitNot _ := rfl
  not _ := rfl
  binary op _ _ := by cases op <;> rfl
  jumpTrue _ := rfl
  relation {op _} h a b := by
    cases op <;> first | (cases h; exact (truth_ofBool invoke _).symm) | cases h
  inverted {branch _} h values := by
    cases branch <;> cases h <;> simp [wordMachine, Words.taken]
  truth_bool b _ := truth_ofBool invoke b
  truth_not a := by
    rw [show (wordMeaning invoke).unary .not a = Words.ofBool (a == 0) from rfl, truth_ofBool]
    simp [wordMeaning]
  invoke := rfl

end MethodCompiler
