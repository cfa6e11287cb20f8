import SchemaModels.Decimal.Binary64
import SchemaModels.Json.Reader
import SchemaModels.Toml.Basic

/-!
# Values without quotes

Booleans, numbers, and moments of time. Digits may have single underscores between them. An integer
fits a word of 128 bits, signed or unsigned; a number with a fraction or an exponent does not
overflow binary64; a moment is a date, a time of day, or both, then also with an offset.

* `ofWord?`: the value that a word writes.
-/

namespace SchemaModels.Toml

/-! ### Digits -/

/-- Digits in groups with underscores between them, and the rest after them. -/
def readGroups (digit? : Char → Option Nat) : List Char → Option (List Nat × List Char)
  | [] => none
  | c :: '_' :: s =>
      (digit? c).bind fun d => (readGroups digit? s).map fun r => (d :: r.1, r.2)
  | c :: s =>
      (digit? c).map fun d =>
        match readGroups digit? s with
        | some r => (d :: r.1, r.2)
        | none => ([d], s)

/-- The value of a digit in a base up to sixteen. -/
def digitIn? (base : Nat) (c : Char) : Option Nat := (Json.hexValue? c).filter (· < base)

/-- The number that digits denote in a base. -/
def ofDigitsIn (base : Nat) (digits : List Nat) : Nat := digits.foldl (fun n d => base * n + d) 0

/-- All of a text as digits of a base. -/
def digitsIn? (base : Nat) (s : List Char) : Option (List Nat) :=
  match readGroups (digitIn? base) s with
  | some (digits, []) => some digits
  | _ => none

/-! ### Numbers -/

/-- Whether an integer fits a word of 128 bits, signed or unsigned. -/
def fitsWord (n : Int) : Bool := -(Nat.pow 2 127 : Int) ≤ n && n < (Nat.pow 2 128 : Int)

/-- An integer, if it fits a word. -/
def ofInteger? (n : Int) : Option Toml := if fitsWord n then some (.integer n) else none

/-- An integer in a base that its mark states. -/
def marked? : List Char → Option Toml
  | '0' :: 'x' :: s => (digitsIn? 16 s).bind fun ds => ofInteger? (ofDigitsIn 16 ds)
  | '0' :: 'o' :: s => (digitsIn? 8 s).bind fun ds => ofInteger? (ofDigitsIn 8 ds)
  | '0' :: 'b' :: s => (digitsIn? 2 s).bind fun ds => ofInteger? (ofDigitsIn 2 ds)
  | _ => none

/-- Whether digits times a power of ten are below the limit of binary64. -/
def fitsReal (digits : List Nat) (exponent : Int) : Bool :=
  let digits := digits.dropWhile (· == 0)
  let places : Int := digits.length + exponent
  let n := ofDigitsIn 10 digits
  digits.isEmpty || places < 309 ||
    (places == 309 &&
      (if 0 ≤ exponent then Binary64.ofRatio false (n * Nat.pow 10 exponent.natAbs) 1
        else Binary64.ofRatio false n (Nat.pow 10 exponent.natAbs)).isSome)

/-- A point and digits, if a point comes next. -/
def readFraction : List Char → Option (Option (List Nat) × List Char)
  | '.' :: s => (readGroups (digitIn? 10) s).map fun r => (some r.1, r.2)
  | s => some (none, s)

/-- An exponent, if one comes next. -/
def readExponent : List Char → Option (Option Int × List Char)
  | [] => some (none, [])
  | c :: s =>
      if c = 'e' ∨ c = 'E' then
        let sign := Json.readSign s
        (readGroups (digitIn? 10) sign.2).map fun r =>
          let n : Int := ofDigitsIn 10 r.1
          (some (if sign.1 then -n else n), r.2)
      else some (none, c :: s)

/-- A decimal number without its sign. Of its whole digits the first is not a zero, unless it stands
alone. -/
def decimal? (written : List Char) (negative : Bool) (s : List Char) : Option Toml := do
  let (whole, s) ← readGroups (digitIn? 10) s
  if whole.head? = some 0 ∧ 1 < whole.length then none
  else
    let (fraction, s) ← readFraction s
    let (exponent, s) ← readExponent s
    if !s.isEmpty then none
    else if fraction.isNone ∧ exponent.isNone then
      let n : Int := ofDigitsIn 10 whole
      ofInteger? (if negative then -n else n)
    else
      let places := fraction.getD []
      if fitsReal (whole ++ places) (exponent.getD 0 - places.length) then
        some (.real (String.ofList written))
      else none

/-- A number with its sign, if it has one. -/
def number? (s : List Char) : Option Toml :=
  let sign := Json.readSign s
  if sign.2 = "inf".toList ∨ sign.2 = "nan".toList then some (.real (String.ofList s))
  else decimal? s sign.1 sign.2

/-! ### Moments -/

/-- A number of exactly some digits. -/
def readFixed : Nat → List Char → Option (Nat × List Char)
  | 0, s => some (0, s)
  | _ + 1, [] => none
  | count + 1, c :: s => do
      let d ← Json.digit? c
      let (n, s) ← readFixed count s
      some (d * Nat.pow 10 count + n, s)

/-- A given character. -/
def readMark (mark : Char) : List Char → Option (List Char)
  | [] => none
  | c :: s => if c = mark then some s else none

/-- The number of days in a month. -/
def daysIn (year month : Nat) : Nat :=
  if month = 2 then
    if year % 4 = 0 ∧ (year % 100 ≠ 0 ∨ year % 400 = 0) then 29 else 28
  else if month = 4 ∨ month = 6 ∨ month = 9 ∨ month = 11 then 30
  else 31

/-- A date. -/
def readDate (s : List Char) : Option (List Char) := do
  let (year, s) ← readFixed 4 s
  let (month, s) ← readFixed 2 (← readMark '-' s)
  let (day, s) ← readFixed 2 (← readMark '-' s)
  if 1 ≤ month ∧ month ≤ 12 ∧ 1 ≤ day ∧ day ≤ daysIn year month then some s else none

/-- Seconds with a fraction, after their colon. -/
def readSeconds (s : List Char) : Option (List Char) := do
  let (second, s) ← readFixed 2 s
  if 60 < second then none
  else
    match s with
    | '.' :: s => (Json.readDigits1 s).map Prod.snd
    | s => some s

/-- Hours and minutes. -/
def readClock (s : List Char) : Option (List Char) := do
  let (hour, s) ← readFixed 2 s
  let (minute, s) ← readFixed 2 (← readMark ':' s)
  if hour < 24 ∧ minute < 60 then some s else none

/-- A time of day. -/
def readTime (s : List Char) : Option (List Char) :=
  (readClock s).bind fun s =>
    match s with
    | ':' :: s => readSeconds s
    | s => some s

/-- Whether a text is an offset from universal time, or nothing. -/
def isOffset : List Char → Bool
  | [] => true
  | c :: s =>
      if c = 'Z' ∨ c = 'z' then s.isEmpty
      else (c = '+' || c = '-') && (readClock s).any List.isEmpty

/-- Whether a text is a date, a time, or both. -/
def isMoment (s : List Char) : Bool :=
  match readDate s with
  | some [] => true
  | some (c :: s) =>
      (c = 'T' || c = 't' || c = ' ') && (readTime s).any isOffset
  | none => (readTime s).any List.isEmpty

/-! ### Words -/

/-- The value that a word writes. -/
def ofWord? (s : List Char) : Option Toml :=
  if s = "true".toList then some (.boolean true)
  else if s = "false".toList then some (.boolean false)
  else if isMoment s then some (.moment (String.ofList s))
  else (marked? s).or (number? s)

/-- The characters of words. -/
def isWordChar (c : Char) : Bool :=
  c.isAlphanum || c = '_' || c = '+' || c = '-' || c = '.' || c = ':'

/-- A word. After a date, a single space and digits go on with it. -/
def readWord (s : List Char) : List Char × List Char :=
  let word := s.takeWhile isWordChar
  let rest := s.drop word.length
  match rest with
  | ' ' :: c :: rest' =>
      if c.isDigit && (readDate word).any List.isEmpty then
        let time := (c :: rest').takeWhile isWordChar
        (word ++ ' ' :: time, (c :: rest').drop time.length)
      else (word, rest)
  | _ => (word, rest)

end SchemaModels.Toml
