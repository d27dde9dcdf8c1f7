/-!
# Decimal numbers

A decimal number is a run of digits, scaled by a power of ten. `text` writes it so that it cannot
be taken for an integer: with a point, or with an exponent where the point would stand far off.
-/

namespace HotRename

/-- The number `digits * 10 ^ exponent`, or its negative. -/
structure Decimal where
  negative : Bool
  digits : Nat
  exponent : Int
  deriving DecidableEq, Repr

namespace Decimal

/-- A run of zeros. -/
def zeros (count : Int) : String :=
  String.ofList (List.replicate count.toNat '0')

/-- The digits, with the point after the given number of them. -/
def withPoint (digits : List Char) (place : Nat) : String :=
  String.ofList (digits.take place) ++ "." ++ String.ofList (digits.drop place)

/-- The digits, with the point after the first if there are more, and the exponent of the first. -/
def scientific (digits : List Char) (exponent : Int) : String :=
  (if digits.length = 1 then String.ofList digits else withPoint digits 1) ++ s!"e{exponent}"

/-- The number without its sign. The point is written where it stands if that is at most 16 places
    after the first digit or at most four zeros before it. -/
def magnitudeText (d : Decimal) : String :=
  let digits := (toString d.digits).toList
  let place := digits.length + d.exponent
  if d.digits = 0 then "0.0"
  else if 0 ≤ d.exponent ∧ place ≤ 16 then
    String.ofList digits ++ zeros d.exponent ++ ".0"
  else if 0 < place ∧ place ≤ 16 then withPoint digits place.toNat
  else if -5 < place ∧ place ≤ 0 then "0." ++ zeros (-place) ++ String.ofList digits
  else scientific digits (place - 1)

/-- The number as it is written. -/
def text (d : Decimal) : String :=
  (if d.negative then "-" else "") ++ d.magnitudeText

end Decimal
end HotRename
