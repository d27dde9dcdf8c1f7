import HotRename.Toml.Document

/-!
# Numbers and dates in TOML

A number or date is a run of characters that fits one of the forms as a whole. Underscores may
stand between two digits. Integers have to fit 64 bits with sign; of other numbers and of dates
only the form is read.
-/

namespace HotRename.Toml.Scalar

/-- Digits of the given class with single underscores between them; gives the digits. -/
def digitsOf (isDigit : Char → Bool) : List Char → Option (List Char)
  | [] => none
  | [d] => if isDigit d then some [d] else none
  -- A digit has to follow the underscore, since the rest may not be empty.
  | d :: '_' :: rest => if isDigit d then (digitsOf isDigit rest).map (d :: ·) else none
  | d :: rest => if isDigit d then (digitsOf isDigit rest).map (d :: ·) else none

/-- The value of a digit in a base up to sixteen. -/
def digitValue (c : Char) : Nat :=
  if c.isDigit then c.toNat - '0'.toNat
  else if c.isLower then c.toNat - 'a'.toNat + 10
  else c.toNat - 'A'.toNat + 10

/-- The value of digits in a base. -/
def valueOf (base : Nat) (ds : List Char) : Nat :=
  ds.foldl (fun n d => base * n + digitValue d) 0

/-- A digit of base sixteen. -/
def isHex (c : Char) : Bool :=
  c.isDigit || ('a' ≤ c && c ≤ 'f') || ('A' ≤ c && c ≤ 'F')

/-- A digit of base eight. -/
def isOctal (c : Char) : Bool :=
  '0' ≤ c && c ≤ '7'

/-- A digit of base two. -/
def isBinary (c : Char) : Bool :=
  c = '0' || c = '1'

/-- Decimal digits that do not start with a zero, or a zero alone. -/
def wholeDigits (cs : List Char) : Option (List Char) := do
  let ds ← digitsOf Char.isDigit cs
  -- The comparison is with what is written, so that `0_` and `00` are refused.
  if ds.head? = some '0' ∧ cs ≠ ['0'] then none else some ds

/-- The sign at the front of a number, `true` for minus, and what follows it. -/
def splitSign : List Char → Bool × List Char
  | '-' :: rest => (true, rest)
  | '+' :: rest => (false, rest)
  | cs => (false, cs)

/-- An integer that fits 64 bits with sign. -/
def bounded (n : Int) : Option Int :=
  if -9223372036854775808 ≤ n ∧ n < 9223372036854775808 then some n else none

/-- Reads an integer. -/
def integer? (cs : List Char) : Option Int :=
  match cs with
  | '0' :: 'x' :: rest => do bounded (valueOf 16 (← digitsOf isHex rest))
  | '0' :: 'o' :: rest => do bounded (valueOf 8 (← digitsOf isOctal rest))
  | '0' :: 'b' :: rest => do bounded (valueOf 2 (← digitsOf isBinary rest))
  | cs => do
    let (minus, rest) := splitSign cs
    let n := valueOf 10 (← wholeDigits rest)
    bounded (if minus then -(n : Int) else n)

/-- The value `digits * 10 ^ exponent` is too large for a floating-point number of 64 bits. -/
def overflows (digits : Nat) (exponent : Int) : Bool :=
  -- Halfway between the largest such number and the next power of two.
  let limit := Nat.pow 2 1024 - Nat.pow 2 970
  let size := exponent + (toString digits).length
  -- The number of digits decides, unless it comes close to the limit.
  if digits = 0 ∨ size < 300 then false
  else if 400 < size then true
  else if 0 ≤ exponent then limit ≤ digits * Nat.pow 10 exponent.toNat
  else limit * Nat.pow 10 (-exponent).toNat ≤ digits

/-- The exponent of a number after its mark; without a mark it is zero. -/
def exponent? : List Char → Option Int
  | [] => some 0
  | mark :: cs => do
    if mark ≠ 'e' ∧ mark ≠ 'E' then none
    let (minus, rest) := splitSign cs
    let n := valueOf 10 (← digitsOf Char.isDigit rest)
    return if minus then -(n : Int) else n

/-- A character that marks an exponent. -/
def isExponentMark (c : Char) : Bool :=
  c = 'e' || c = 'E'

/-- Whether the characters are a floating-point number that is not too large. -/
def isFloat (cs : List Char) : Bool :=
  let (minus, cs) := splitSign cs
  if cs = ['i', 'n', 'f'] ∨ cs = ['n', 'a', 'n'] then true
  else
    let mantissa := cs.takeWhile fun c => !isExponentMark c
    let whole := mantissa.takeWhile (· ≠ '.')
    let fraction := mantissa.dropWhile (· ≠ '.')
    let exponent := cs.dropWhile fun c => !isExponentMark c
    let fractionDigits := if fraction = [] then some [] else digitsOf Char.isDigit (fraction.drop 1)
    match wholeDigits whole, fractionDigits, exponent? exponent with
    | some ws, some fs, some e =>
      -- Without a point and an exponent it is an integer. Only positive numbers can be too large.
      !(fraction.isEmpty && exponent.isEmpty) &&
        (minus || !overflows (valueOf 10 (ws ++ fs)) (e - fs.length))
    | _, _, _ => false

/-- A number of exactly so many decimal digits within the given bounds. -/
def field (count least greatest : Nat) (cs : List Char) : Bool :=
  cs.length = count && cs.all Char.isDigit && least ≤ valueOf 10 cs && valueOf 10 cs ≤ greatest

/-- Number of days of a month. -/
def daysIn (year month : Nat) : Nat :=
  if month = 2 then
    if year % 4 = 0 ∧ (year % 100 ≠ 0 ∨ year % 400 = 0) then 29 else 28
  else if month = 4 ∨ month = 6 ∨ month = 9 ∨ month = 11 then 30
  else 31

/-- Whether the characters are a date, as in `1979-05-27`. -/
def isDate : List Char → Bool
  | [y₁, y₂, y₃, y₄, '-', m₁, m₂, '-', d₁, d₂] =>
    let year := [y₁, y₂, y₃, y₄]
    field 4 0 9999 year && field 2 1 12 [m₁, m₂] &&
      field 2 1 (daysIn (valueOf 10 year) (valueOf 10 [m₁, m₂])) [d₁, d₂]
  | _ => false

/-- Whether the characters are a fraction of a second, or nothing. -/
def isSecondFraction : List Char → Bool
  | [] => true
  | '.' :: ds => !ds.isEmpty && ds.all Char.isDigit
  | _ => false

/-- Whether the characters are a time of day, as in `07:32:00.5`. -/
def isTime : List Char → Bool
  | h₁ :: h₂ :: ':' :: m₁ :: m₂ :: ':' :: s₁ :: s₂ :: rest =>
    field 2 0 23 [h₁, h₂] && field 2 0 59 [m₁, m₂] && field 2 0 60 [s₁, s₂] &&
      isSecondFraction rest
  | _ => false

/-- Whether the characters are an offset from universal time, or nothing. -/
def isOffset : List Char → Bool
  | [] => true
  | ['Z'] | ['z'] => true
  | [sign, h₁, h₂, ':', m₁, m₂] =>
    (sign = '+' || sign = '-') && field 2 0 23 [h₁, h₂] && field 2 0 59 [m₁, m₂]
  | _ => false

/-- Whether the characters are a time of day with an offset that may be left out. -/
def isTimeWithOffset (cs : List Char) : Bool :=
  let isMark := fun c => c = 'Z' || c = 'z' || c = '+' || c = '-'
  isTime (cs.takeWhile fun c => !isMark c) && isOffset (cs.dropWhile fun c => !isMark c)

/-- Whether the characters are a date, a time, or both with a `T` between them. -/
def isDatetime (cs : List Char) : Bool :=
  -- A time alone has no offset.
  isTime cs || isDate cs ||
    (isDate (cs.take 10) && (cs.drop 10).head?.any (fun c => c = 'T' || c = 't') &&
      isTimeWithOffset (cs.drop 11))

/-- A character that numbers, dates and truth values are written with. -/
def isScalarChar (c : Char) : Bool :=
  c.isAlphanum || c = '_' || c = '+' || c = '-' || c = '.' || c = ':'

/-- The value that the characters stand for. -/
def ofChars? (cs : List Char) : Option Node :=
  if cs = ['t', 'r', 'u', 'e'] then some (.boolean true)
  else if cs = ['f', 'a', 'l', 's', 'e'] then some (.boolean false)
  else if isDatetime cs then some .datetime
  else if isFloat cs then some .float
  else (integer? cs).map .integer

/-- The number, date or truth value at the front of a text. A blank may stand between a date and
    a time. -/
def read (cs : List Char) : Option (Node × List Char) :=
  let first := cs.takeWhile isScalarChar
  let rest := cs.dropWhile isScalarChar
  match rest with
  | ' ' :: more =>
    if isDate first ∧ isTimeWithOffset (more.takeWhile isScalarChar) then
      some (.datetime, more.dropWhile isScalarChar)
    else (ofChars? first).map fun node => (node, rest)
  | _ => (ofChars? first).map fun node => (node, rest)

end HotRename.Toml.Scalar
