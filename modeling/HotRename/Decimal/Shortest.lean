import HotRename.Decimal.Basic

/-!
# The shortest decimal of a binary64 value

A binary64 value stands for all numbers that round to it. Of the decimals among them the one with
the fewest digits is chosen, and of several the nearest. The search goes from coarse grids of
decimals to fine ones, in exact arithmetic.
-/

namespace HotRename

/-- A binary64 value that is finite and not below zero: `mantissa * 2 ^ exponent`. -/
structure Binary64 where
  mantissa : Nat
  exponent : Int
  /-- The value below is half as far away as the value above. -/
  narrowBelow : Bool
  deriving DecidableEq, Repr

namespace Binary64

/-- Number of values between two powers of two. -/
def binade : Nat := 4503599627370496

/-- The value with the given bits; the sign bit does not count. -/
def ofBits (bits : Nat) : Binary64 :=
  let exponent := bits / binade % 2048
  let fraction := bits % binade
  if exponent = 0 then { mantissa := fraction, exponent := -1074, narrowBelow := false }
  else {
    mantissa := binade + fraction
    exponent := (exponent : Int) - 1075
    narrowBelow := fraction = 0 && 1 < exponent }

/-- The multiple of `10 ^ e` that rounds to the value, if there is one; of two the nearer, and of
    two that are equally near the even one. -/
def onGrid (v : Binary64) (e : Int) : Option Nat :=
  -- Lengths are counted so that a quarter of the last place of the mantissa is `quarter`.
  let quarter := Nat.pow 2 (v.exponent - 2).toNat * Nat.pow 10 (-e).toNat
  let step := Nat.pow 2 (2 - v.exponent).toNat * Nat.pow 10 e.toNat
  let value := 4 * v.mantissa * quarter
  let low := value - (if v.narrowBelow then 1 else 2) * quarter
  let high := value + 2 * quarter
  let inside (n : Nat) : Bool :=
    if v.mantissa % 2 = 0 then low ≤ n * step && n * step ≤ high
    else low < n * step && n * step < high
  let below := value / step
  let downFirst :=
    match compare (2 * value) ((2 * below + 1) * step) with
    | .lt => true
    | .eq => below % 2 = 0
    | .gt => false
  (if downFirst then [below, below + 1] else [below + 1, below]).find? inside

/-- The exponents of the grids, from coarse to fine. -/
def gridExponents : List Int :=
  (List.range 660).map fun (i : Nat) => 310 - (i : Int)

/-- The exact value as a decimal. -/
def exact (v : Binary64) : Decimal :=
  { negative := false
    digits := v.mantissa * Nat.pow 2 v.exponent.toNat * Nat.pow 5 (-v.exponent).toNat
    exponent := min v.exponent 0 }

/-- The decimal with the fewest digits that rounds to the value. -/
def shortest (v : Binary64) : Decimal :=
  if v.mantissa = 0 then { negative := false, digits := 0, exponent := 0 }
  else
    (gridExponents.findSome? fun e =>
      (v.onGrid e).map fun n => { negative := false, digits := n, exponent := e }).getD v.exact

end Binary64

/-- The shortest decimal of a finite value that is not below zero, or its negative. -/
def Decimal.ofFloat (negative : Bool) (x : Float) : Decimal :=
  { (Binary64.ofBits x.toBits.toNat).shortest with negative }

end HotRename
