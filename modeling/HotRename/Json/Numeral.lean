import HotRename.Decimal.Shortest
import HotRename.Json.Basic

/-!
# Numerals

What a number in a document stands for. A whole number that fits 64 bits is that integer. Any other
number is a binary64 value: a significand of at most 64 bits is rounded, then scaled by a power of
ten and rounded again. A number beyond the largest such value stands for nothing.
-/

namespace HotRename.Json

/-- The parts of a number as they are written. -/
structure Numeral where
  /-- A minus sign, or nothing. -/
  sign : List Char
  /-- The digits before the point. -/
  whole : List Char
  /-- The point and the digits after it, or nothing. -/
  fraction : List Char
  /-- The mark of the exponent, its sign and its digits, or nothing. -/
  exponent : List Char

namespace Numeral

/-- The characters of a numeral. -/
def chars (n : Numeral) : List Char :=
  n.sign ++ n.whole ++ n.fraction ++ n.exponent

/-- The value of a decimal digit. -/
def digitValue (c : Char) : Nat :=
  c.toNat - '0'.toNat

/-- The value of a run of decimal digits. -/
def digitsValue (ds : List Char) : Nat :=
  ds.foldl (fun n d => 10 * n + digitValue d) 0

/-- The value of the exponent. -/
def exponentValue (n : Numeral) : Int :=
  match n.exponent with
  | _ :: '-' :: ds => -(digitsValue ds : Int)
  | _ :: '+' :: ds => digitsValue ds
  -- The mark stands first, and a sign may be missing.
  | _ :: ds => digitsValue ds
  | [] => 0

/-- The number `significand * 10 ^ exponent`. -/
structure Scaled where
  significand : Nat
  exponent : Int
  /-- A digit did not fit. -/
  full : Bool

/-- The bound of significands. -/
def wordSize : Nat := 18446744073709551616

/-- Takes a digit before the point. From the first on that does not fit, they only scale. -/
def Scaled.takeWhole (s : Scaled) (c : Char) : Scaled :=
  let next := 10 * s.significand + digitValue c
  if !s.full && next < wordSize then { s with significand := next }
  else { s with exponent := s.exponent + 1, full := true }

/-- Takes a digit after the point. From the first on that does not fit, they do not count. -/
def Scaled.takeFraction (s : Scaled) (c : Char) : Scaled :=
  let next := 10 * s.significand + digitValue c
  if !s.full && next < wordSize then
    { s with significand := next, exponent := s.exponent - 1 }
  else { s with full := true }

/-- The digits before the point. -/
def wholePart (n : Numeral) : Scaled :=
  n.whole.foldl Scaled.takeWhole { significand := 0, exponent := 0, full := false }

/-- All digits and the exponent. -/
def scaled (n : Numeral) : Scaled :=
  -- Digits after the point are tried anew, even if some before it did not fit.
  let s := (n.fraction.drop 1).foldl Scaled.takeFraction { n.wholePart with full := false }
  { s with exponent := s.exponent + n.exponentValue }

/-- A power of ten. -/
def powerOfTen (e : Nat) : Float :=
  Float.ofScientific 1 false e

/-- The binary64 value of a scaled significand. The largest power of ten that has one is the 308th,
    so a smaller scale takes two divisions, and below the 616th everything is zero. -/
def Scaled.toFloat? (s : Scaled) : Option Float :=
  let x := s.significand.toFloat
  -- The significand is rounded here, before it is scaled.
  if 0 ≤ s.exponent then
    if s.exponent ≤ 308 then
      let y := x * powerOfTen s.exponent.toNat
      if y.isFinite then some y else none
    else if s.significand = 0 then some x
    else none
  else
    let e := (-s.exponent).toNat
    if e ≤ 308 then some (x / powerOfTen e)
    else if e ≤ 616 then some (x / powerOfTen 308 / powerOfTen (e - 308))
    else some (0 : Nat).toFloat

/-- The numeral has neither a point nor an exponent, and its digits fit 64 bits. -/
def fitsWord (n : Numeral) : Bool :=
  n.fraction.isEmpty && n.exponent.isEmpty && !n.wholePart.full

/-- The number a numeral stands for. -/
def number? (n : Numeral) : Option JsonNumber :=
  let magnitude := n.wholePart.significand
  if n.fitsWord && n.sign.isEmpty then some (.natural magnitude)
  -- Minus zero is no integer.
  else if n.fitsWord && 0 < magnitude && magnitude ≤ 9223372036854775808 then
    some (.negative magnitude)
  else n.scaled.toFloat?.map fun x => .real (.ofFloat (!n.sign.isEmpty) x)

/-- The value a numeral stands for. -/
def value (n : Numeral) : Json :=
  match n.number? with
  | some x => .number x
  | none => .void

end Numeral
end HotRename.Json
