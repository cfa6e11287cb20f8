import SchemaModels.Decimal.Shortest

/-!
# JSON numbers

A number is an integer or a real. Integers are those of a signed or an unsigned 64-bit word;
whatever is written with a point or an exponent, lies outside those ranges, or is a negative zero,
is a real. An integer and a real are never equal.

* `Number.text`: a real is written with the fewest digits that read back, in plain notation from
  `10^-5` up to `10^16` and with an exponent elsewhere.
* `Number.ofParts`: the number that sign, digits and exponent denote. A real is read from its
  leading digits, as many as fit an unsigned word, scaled by one rounded power of ten at a time.
-/

namespace SchemaModels

/-- A JSON number. -/
inductive Number where
  | integer (n : Int)
  | real (x : Binary64)
  deriving DecidableEq

namespace Number

/-- Equality of numbers: the two zeros among the reals are one. -/
def same : Number → Number → Bool
  | integer a, integer b => a == b
  | real x, real y => x.same y
  | _, _ => false

/-! ### Conversions -/

/-- The real nearest to a number. -/
def toReal? : Number → Option Binary64
  | integer n => Binary64.ofNat (n < 0) n.natAbs
  | real x => some x

/-- The integer that a number is equal to, of a real only if it fits a signed word. -/
def toInteger? : Number → Option Int
  | integer n => some n
  | real x => x.toInt?.filter fun n => n.natAbs < Nat.pow 2 63

/-! ### Text -/

/-- The digits of a natural number. -/
def digitsOf (n : Nat) : List Char := Nat.toDigits 10 n

/-- How a format lays out a decimal: the exponents of the leading digit, from `plainFrom` up to but
not including `plainBelow`, that are written in plain notation. -/
structure Layout where
  plainFrom : Int
  plainBelow : Int

/-- Reals are plain from `10^-5` up to `10^16`. -/
def layout : Layout := ⟨-5, 16⟩

/-- Digits with the point after the first `point` of them, with at least one digit on each side. -/
def plain (digits : List Char) (point : Int) : List Char :=
  if point ≤ 0 then '0' :: '.' :: (List.replicate point.natAbs '0' ++ digits)
  else
    let whole := point.toNat
    if digits.length ≤ whole then
      digits ++ List.replicate (whole - digits.length) '0' ++ ['.', '0']
    else digits.take whole ++ '.' :: digits.drop whole

/-- Digits with the point after the first one, and the exponent with its sign. -/
def scientific (digits : List Char) (exponent : Int) : List Char :=
  let fraction := digits.drop 1
  digits.take 1 ++ (if fraction.isEmpty then [] else '.' :: fraction) ++
    'e' :: (if exponent < 0 then '-' else '+') :: digitsOf exponent.natAbs

/-- The text of a magnitude that is not zero. -/
def decimalText (d : Binary64.Decimal) : List Char :=
  let digits := digitsOf d.digits
  let exponent := d.exponent + digits.length - 1
  if layout.plainFrom ≤ exponent ∧ exponent < layout.plainBelow then plain digits (exponent + 1)
  else scientific digits exponent

/-- The text of a real. -/
def realText (x : Binary64) : List Char :=
  (if x.negative then ['-'] else []) ++
    if x.isZero then ['0', '.', '0'] else decimalText x.shortest

/-- The text of an integer. -/
def integerText (n : Int) : List Char :=
  if n < 0 then '-' :: digitsOf n.natAbs else digitsOf n.natAbs

/-- The text of a number. -/
def text : Number → List Char
  | integer n => integerText n
  | real x => realText x

/-! ### Reading -/

/-- The numbers of an unsigned word. -/
def wordLimit : Nat := Nat.pow 2 64

/-- A number extended by as many leading digits as keep it within a word, and their count. -/
def accumulate (n : Nat) : List Nat → Nat × Nat
  | [] => (n, 0)
  | d :: ds =>
      if 10 * n + d < wordLimit then
        let r := accumulate (10 * n + d) ds
        (r.1, r.2 + 1)
      else (n, 0)

/-- The real nearest to a power of ten that has one. -/
def powerOfTen (k : Nat) : Binary64 := (Binary64.ofNat false (Nat.pow 10 k)).getD .zero

/-- The largest power of ten applied in one step. -/
def largestPower : Nat := 308

/-- Divisions by the largest power, until the number is zero or their count is reached. -/
def divideDown : Nat → Binary64 → Option Binary64
  | 0, x => some x
  | steps + 1, x =>
      if x.isZero then some x else (x.dividedBy (powerOfTen largestPower)).bind (divideDown steps)

/-- A real times a power of ten, unless that overflows. -/
def scale (x : Binary64) (exponent : Int) : Option Binary64 :=
  let k := exponent.natAbs
  if 0 ≤ exponent then
    if k ≤ largestPower then x.times (powerOfTen k) else if x.isZero then some x else none
  else
    let steps := (k - 1) / largestPower
    (divideDown steps x).bind fun y => y.dividedBy (powerOfTen (k - largestPower * steps))

/-- A written number: its sign, the digits before and after the point, the exponent. -/
structure Parts where
  negative : Bool
  whole : List Nat
  fraction : Option (List Nat)
  exponent : Option Int

/-- The real that the parts denote, unless it overflows. -/
def Parts.toReal (p : Parts) : Option Binary64 :=
  let leading := accumulate 0 p.whole
  let all := accumulate leading.1 (p.fraction.getD [])
  let exponent := ((p.whole.length - leading.2 : Nat) : Int) - all.2 + p.exponent.getD 0
  (Binary64.ofNat false all.1).bind fun x =>
    (scale x exponent).map fun y => { y with negative := p.negative }

/-- The number that the parts denote, unless it overflows. -/
def ofParts (p : Parts) : Option Number :=
  let leading := accumulate 0 p.whole
  let n : Int := if p.negative then -(leading.1 : Int) else leading.1
  if p.fraction.isNone ∧ p.exponent.isNone ∧ leading.2 = p.whole.length ∧
      -(Nat.pow 2 63 : Int) ≤ n ∧ ¬(p.negative ∧ leading.1 = 0) then
    some (integer n)
  else p.toReal.map real

end Number

end SchemaModels
