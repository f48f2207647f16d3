/-!
# Decimal text of binary floating-point numbers

A finite number is written with the fewest decimal digits that read back to it, always in positional
notation. `Binary.shortest` finds these digits in exact arithmetic; `Decimal.text` lays them out.
-/

namespace MethodCompiler.Text

/-- The decimal number `digits * 10 ^ exponent`. -/
structure Decimal where
  digits : Nat
  exponent : Int
  deriving DecidableEq, Repr, Inhabited

/-- Positional notation: a point only where there is a fraction, and no exponent. -/
def Decimal.text (d : Decimal) : String :=
  let ds := Nat.toDigits 10 d.digits
  match d.exponent with
  | .ofNat e => String.ofList (ds ++ List.replicate e '0')
  | .negSucc e =>
    let places := e + 1
    let padded := List.replicate (places + 1 - ds.length) '0' ++ ds
    let whole := padded.length - places
    String.ofList (padded.take whole ++ '.' :: padded.drop whole)

/-- The positive number `mant * 2 ^ exp` of a binary format. -/
structure Binary where
  mant : Nat
  exp : Int
  /-- The next smaller number of the format is only half as far away as the next larger one. -/
  narrow : Bool
  deriving DecidableEq, Repr, Inhabited

namespace Binary

/-- The multiple of `10 ^ unit` next to the number that reads back to it, if there is one. Of two
such multiples the nearer is taken, and the larger at equal distance. A number with an even
significand also owns the two ends of the interval that rounds to it. -/
def onGrid? (b : Binary) (unit : Int) : Option Decimal :=
  -- Everything is scaled by `4 * 2 ^ (-exp) * 10 ^ (-unit)`, so that the grid has step `step`.
  let exp := b.exp - 2
  let scale := Nat.pow 10 (-unit).toNat <<< exp.toNat
  let step := Nat.pow 10 unit.toNat <<< (-exp).toNat
  let value := 4 * b.mant * scale
  let below := (if b.narrow then 1 else 2) * scale
  let above := 2 * scale
  let floor := value / step
  let rest := value % step
  let closed := b.mant % 2 == 0
  let down := rest < below || (closed && rest == below)
  let up := step < rest + above || (closed && step == rest + above)
  if up && (!down || step ≤ 2 * rest) then some ⟨floor + 1, unit⟩
  else if down then some ⟨floor, unit⟩
  else none

/-- The exponents of the decimal grids that can hold a fitting multiple, from the coarsest on: the
first is above the number, and no number of a format in use needs places beyond the 345th. -/
def grids (b : Binary) : List Int :=
  let top := (Nat.toDigits 10 (b.mant <<< b.exp.toNat)).length
  (List.range (top + 346)).map fun (i : Nat) ↦ (top : Int) - (i : Int)

/-- The fewest digits that read back: the coarsest grid with a fitting multiple decides. -/
def shortest (b : Binary) : Decimal := (b.grids.findSome? b.onGrid?).getD ⟨0, 0⟩

end Binary

/-- How a binary format lays out its bits: `fraction` low bits, then `exponent` bits, then a sign. -/
structure Layout where
  fraction : Nat
  exponent : Nat
  deriving DecidableEq, Repr, Inhabited

namespace Layout

/-- The 32-bit format. -/
def single : Layout := ⟨23, 8⟩

/-- The 64-bit format. -/
def double : Layout := ⟨52, 11⟩

/-- The text of a number from its bits. Zero keeps its sign, a number that is none has no sign. -/
def text (l : Layout) (bits : Nat) : String :=
  let hidden := 1 <<< l.fraction
  let fraction := bits % hidden
  let exponent := bits / hidden % 1 <<< l.exponent
  let negative := bits >>> (l.fraction + l.exponent) == 1
  let sign := if negative then "-" else ""
  let bias := 1 <<< (l.exponent - 1) - 1 + l.fraction
  if exponent == 1 <<< l.exponent - 1 then
    if fraction == 0 then sign ++ "inf" else "NaN"
  else if exponent == 0 && fraction == 0 then sign ++ "0"
  else if exponent == 0 then sign ++ (Binary.shortest ⟨fraction, 1 - (bias : Int), false⟩).text
  else sign ++ (Binary.shortest ⟨hidden + fraction, (exponent : Int) - bias, fraction == 0⟩).text

end Layout

/-- The text of a 64-bit number. -/
def ofFloat (x : Float) : String := Layout.double.text x.toBits.toNat

/-- The text of a 32-bit number. -/
def ofFloat32 (x : Float32) : String := Layout.single.text x.toBits.toNat

end MethodCompiler.Text
