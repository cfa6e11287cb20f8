/-!
# Finite binary64 numbers

A finite binary64 number is a sign and a magnitude word below `2047 · 2^52`. The word `w` stands
for an integer number of units of `2^-1074` (`scaled`), and larger words stand for larger
numbers. Rounding a quotient gives the nearest number, a tie the even one (`ofRatio`), and fails
only when the result would not be finite.

* `ofRatio`, `ofNat`, `times`, `dividedBy`: correctly rounded arithmetic.
* `toInt?`: the integer a number is equal to.

Powers are written `Nat.pow b n`, which no instance for `b ^ n` can change.
-/

namespace SchemaModels

/-- The number of magnitude words of finite numbers. -/
abbrev Binary64.wordLimit : Nat := 2047 * Nat.pow 2 52

/-- A finite binary64 number. -/
structure Binary64 where
  negative : Bool
  word : Fin Binary64.wordLimit
  deriving DecidableEq

namespace Binary64

/-! ### The value of a word -/

/-- The integer that a word multiplies by a power of two. -/
def significand (w : Nat) : Nat := if w < Nat.pow 2 52 then w else Nat.pow 2 52 + w % Nat.pow 2 52

/-- The power of two, counted from `2^-1074`, of a word's last place. -/
def place (w : Nat) : Nat := w / Nat.pow 2 52 - 1

/-- The magnitude in units of `2^-1074`. -/
def scaled (x : Binary64) : Nat := significand x.word * Nat.pow 2 (place x.word)

def zero : Binary64 := ⟨false, ⟨0, by decide⟩⟩

def isZero (x : Binary64) : Bool := x.word.val == 0

def neg (x : Binary64) : Binary64 := { x with negative := !x.negative }

/-- Equality of numbers, for which the two zeros are one. -/
def same (x y : Binary64) : Bool := x == y || (x.isZero && y.isZero)

/-! ### Rounding -/

/-- The integer nearest to a quotient, the even one of two. -/
def roundHalfEven (num den : Nat) : Nat :=
  let floor := num / den
  let twice := 2 * (num % den)
  if twice < den then floor
  else if twice = den then floor + floor % 2
  else floor + 1

/-- The word nearest to a quotient. -/
def nearestWord (num den : Nat) : Nat :=
  let units := num * Nat.pow 2 1074
  let place := Nat.log2 (units / den) - 52
  place * Nat.pow 2 52 + roundHalfEven units (den * Nat.pow 2 place)

/-- The finite number nearest to a quotient, unless that overflows. -/
def ofRatio (negative : Bool) (num den : Nat) : Option Binary64 :=
  let w := nearestWord num den
  if h : w < wordLimit then some ⟨negative, ⟨w, h⟩⟩ else none

/-- The number nearest to an integer magnitude. -/
def ofNat (negative : Bool) (n : Nat) : Option Binary64 := ofRatio negative n 1

/-- The product, rounded. -/
def times (x y : Binary64) : Option Binary64 :=
  ofRatio (x.negative != y.negative) (x.scaled * y.scaled) (Nat.pow 2 1074 * Nat.pow 2 1074)

/-- The quotient by a number that is not zero, rounded. -/
def dividedBy (x y : Binary64) : Option Binary64 :=
  ofRatio (x.negative != y.negative) x.scaled y.scaled

/-! ### Integers -/

/-- The integer a number is equal to. -/
def toInt? (x : Binary64) : Option Int :=
  if x.scaled % Nat.pow 2 1074 = 0 then
    let n : Int := (x.scaled / Nat.pow 2 1074 : Nat)
    some (if x.negative then -n else n)
  else none

end Binary64

end SchemaModels
