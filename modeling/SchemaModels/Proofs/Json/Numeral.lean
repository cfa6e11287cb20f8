import Mathlib.Tactic.Ring
import SchemaModels.Json.Reader
import SchemaModels.Proofs.Decimal.Nearest

/-!
# Numerals

A numeral is a sign, digits, digits after a point, and an exponent. Without point and exponent it
denotes an integer, else the real that is nearest to it. The text of a number is a numeral that
denotes the number.

* `Parts.nearest?`: the number that the parts of a numeral denote.
* `readNearest`: the number that the numeral at the start of a text denotes.
* `Numeral`, `readParts_text`: a numeral as it is written, from which its parts are read.
* `nearest?_parts`: digits and exponent that agree with the shortest decimal of a real denote it.
* `readNearest_text`: the text of a number denotes the number.
-/

namespace SchemaModels.Number

open Json

/-- The digits before and after the point. -/
def Parts.digits (p : Parts) : List Nat := p.whole ++ p.fraction.getD []

/-- The power of ten of the last digit. -/
def Parts.place (p : Parts) : Int := p.exponent.getD 0 - (p.fraction.getD []).length

/-- The number that a numeral denotes: an integer without point and exponent, else the nearest
real, unless that overflows. -/
def Parts.nearest? (p : Parts) : Option Number :=
  if p.fraction.isNone ∧ p.exponent.isNone then
    some (.integer (if p.negative then -(ofDigits p.whole : Int) else ofDigits p.whole))
  else
    (Binary64.ofRatio p.negative (ofDigits p.digits * Nat.pow 10 p.place.toNat)
      (Nat.pow 10 (-p.place).toNat)).map .real

/-- The parts of the numeral at the start of a text, and the text after it. -/
def readParts (s : List Char) : Option (Parts × List Char) := do
  let (negative, s) := readMinus s
  let (whole, s) ← readWhole s
  let (fraction, s) ← readFraction s
  let (exponent, s) ← readExponent s
  some (⟨negative, whole, fraction, exponent⟩, s)

/-- The number that the numeral at the start of a text denotes, and the text after it. -/
def readNearest (s : List Char) : Option (Number × List Char) :=
  (readParts s).bind fun r => r.1.nearest?.map fun n => (n, r.2)

/-! ### Digits -/

/-- The value of a digit. -/
def digitValue (c : Char) : Nat := c.toNat - '0'.toNat

/-- A text that does not go on with a digit. -/
def EndsDigits (rest : List Char) : Prop := ∀ c ∈ rest.head?, c.isDigit = false

/-- A text that does not go on as a numeral. -/
def EndsNumeral (rest : List Char) : Prop :=
  ∀ c ∈ rest.head?, c.isDigit = false ∧ c ≠ '.' ∧ c ≠ 'e' ∧ c ≠ 'E'

theorem EndsNumeral.endsDigits {rest : List Char} (h : EndsNumeral rest) : EndsDigits rest :=
  fun c hc => (h c hc).1

theorem digit?_of_isDigit {c : Char} (h : c.isDigit = true) : digit? c = some (digitValue c) :=
  if_pos h

/-- Only the digit zero has the value zero. -/
theorem eq_zero_of_digitValue {c : Char} (h : c.isDigit = true) (hc : digitValue c = 0) :
    c = '0' := by
  have hdigit : c.isDigit = (decide (48 ≤ c.toNat) && decide (c.toNat ≤ 57)) := rfl
  rw [hdigit, Bool.and_eq_true, decide_eq_true_eq, decide_eq_true_eq] at h
  have hvalue : c.toNat - 48 = 0 := hc
  have hnat : c.toNat = '0'.toNat := by
    show c.toNat = 48
    omega
  exact Char.toNat_inj.mp hnat

theorem readDigits_of_endsDigits {rest : List Char} (hrest : EndsDigits rest) :
    readDigits rest = ([], rest) := by
  cases rest with
  | nil => rfl
  | cons c rest =>
      have hc : digit? c = none := if_neg (by rw [hrest c rfl]; exact Bool.false_ne_true)
      rw [readDigits, hc]

theorem readDigits_append {rest : List Char} (hrest : EndsDigits rest) : ∀ {ds : List Char},
    (∀ c ∈ ds, c.isDigit = true) → readDigits (ds ++ rest) = (ds.map digitValue, rest)
  | [], _ => readDigits_of_endsDigits hrest
  | c :: ds, h => by
      obtain ⟨hc, hds⟩ := List.forall_mem_cons.mp h
      rw [List.cons_append, readDigits, digit?_of_isDigit hc, readDigits_append hrest hds]
      rfl

theorem ofDigits_map (ds : List Char) :
    ofDigits (ds.map digitValue) = Nat.ofDigitChars 10 ds 0 := by
  rw [Nat.ofDigitChars_eq_foldl, ofDigits, List.foldl_map]
  rfl

theorem isDigit_of_mem_digitsOf {n : Nat} {c : Char} (h : c ∈ digitsOf n) : c.isDigit = true :=
  Nat.isDigit_of_mem_toDigits (by decide) (by decide) h

theorem digitsOf_ne_nil (n : Nat) : digitsOf n ≠ [] := Nat.toDigits_ne_nil

theorem ofDigits_digitsOf (n : Nat) : ofDigits ((digitsOf n).map digitValue) = n := by
  rw [ofDigits_map]
  exact Nat.ofDigitChars_ten_toDigits

/-- The digits of a number that is not zero do not begin with a zero. -/
theorem head?_digitsOf_ne {n : Nat} (h : 0 < n) : (digitsOf n).head? ≠ some '0' := by
  induction n using Nat.strongRecOn with
  | ind n ih =>
      unfold digitsOf at ih ⊢
      rw [Nat.toDigits_eq_if (by decide)]
      split
      · rw [List.head?_singleton]
        intro hc
        have := Nat.digitChar_eq_zero.mp (Option.some.inj hc)
        omega
      · have hhead := ih (n / 10) (by omega) (by omega)
        obtain ⟨c, ds, hds⟩ :=
          List.exists_cons_of_ne_nil (Nat.toDigits_ne_nil (n := n / 10) (b := 10))
        rw [hds] at hhead ⊢
        exact hhead

/-! ### Parts -/

/-- Digits, of which there is one. -/
structure IsDigits (ds : List Char) : Prop where
  ne_nil : ds ≠ []
  isDigit : ∀ c ∈ ds, c.isDigit = true

/-- Digits before the point: they begin with a zero only if there is no other digit. -/
structure IsWhole (ds : List Char) : Prop extends IsDigits ds where
  zero : ds.head? = some '0' → ds.length = 1

theorem isDigits_digitsOf (n : Nat) : IsDigits (digitsOf n) :=
  ⟨digitsOf_ne_nil n, fun _ hc => isDigit_of_mem_digitsOf hc⟩

theorem isWhole_zero : IsWhole ['0'] :=
  ⟨⟨List.cons_ne_nil _ _, List.forall_mem_singleton.mpr rfl⟩, fun _ => rfl⟩

theorem isWhole_digitsOf (n : Nat) : IsWhole (digitsOf n) := by
  refine ⟨isDigits_digitsOf n, fun hzero => ?_⟩
  rcases Nat.eq_zero_or_pos n with rfl | hn
  · rfl
  · exact absurd hzero (head?_digitsOf_ne hn)

/-- The exponent of a numeral, with its letter and sign. -/
def exponentText (e : Int) : List Char := 'e' :: (if e < 0 then '-' else '+') :: digitsOf e.natAbs

section read
variable {rest : List Char}

theorem readDigits1_append (hrest : EndsDigits rest) {ds : List Char} (h : IsDigits ds) :
    readDigits1 (ds ++ rest) = some (ds.map digitValue, rest) := by
  rw [readDigits1, readDigits_append hrest h.isDigit]
  simp [h.ne_nil]

theorem readWhole_append (hrest : EndsDigits rest) {ds : List Char} (h : IsWhole ds) :
    readWhole (ds ++ rest) = some (ds.map digitValue, rest) := by
  rw [readWhole, readDigits1_append hrest h.toIsDigits, Option.bind_some]
  refine if_neg fun ⟨hhead, hlength⟩ => ?_
  rw [List.length_map] at hlength
  obtain ⟨c, ds', rfl⟩ := List.exists_cons_of_ne_nil h.ne_nil
  have hc : c = '0' :=
    eq_zero_of_digitValue (h.isDigit c List.mem_cons_self) (Option.some.inj hhead)
  have := h.zero (by rw [hc]; rfl)
  omega

theorem readMinus_append (negative : Bool) {s : List Char} (h : s.head? ≠ some '-') :
    readMinus ((if negative then ['-'] else []) ++ s) = (negative, s) := by
  cases negative with
  | true => rfl
  | false =>
      show readMinus s = (false, s)
      unfold readMinus
      split
      · exact absurd rfl h
      · rfl

theorem readFraction_append (hrest : EndsDigits rest) {ds : List Char} (h : IsDigits ds) :
    readFraction ('.' :: (ds ++ rest)) = some (some (ds.map digitValue), rest) := by
  rw [readFraction, readDigits1_append hrest h]
  rfl

theorem readFraction_none (h : rest.head? ≠ some '.') : readFraction rest = some (none, rest) := by
  unfold readFraction
  split
  · exact absurd rfl h
  · rfl

theorem readExponent_append (hrest : EndsDigits rest) (e : Int) :
    readExponent (exponentText e ++ rest) = some (some e, rest) := by
  have hsign : ∀ s, readSign ((if e < 0 then '-' else '+') :: s) = (decide (e < 0), s) := by
    intro s
    split
    · rename_i h
      rw [decide_eq_true h]
      rfl
    · rename_i h
      rw [decide_eq_false h]
      rfl
  have hvalue : (if decide (e < 0) then -(e.natAbs : Int) else e.natAbs) = e := by
    simp only [decide_eq_true_eq]
    split <;> omega
  have hread := readDigits1_append hrest (isDigits_digitsOf e.natAbs)
  show readExponent ('e' :: (if e < 0 then '-' else '+') :: (digitsOf e.natAbs ++ rest)) = _
  rw [readExponent, if_pos (.inl rfl), hsign]
  dsimp only
  rw [hread, Option.map_some]
  dsimp only
  rw [ofDigits_digitsOf, hvalue]

theorem readExponent_none (h : EndsNumeral rest) : readExponent rest = some (none, rest) := by
  cases rest with
  | nil => rfl
  | cons c rest =>
      obtain ⟨-, -, he, hE⟩ := h c rfl
      exact if_neg (not_or.mpr ⟨he, hE⟩)

end read

/-! ### Numerals -/

/-- A numeral as it is written, without its sign. -/
structure Numeral where
  whole : List Char
  fraction : Option (List Char)
  exponent : Option Int
  isWhole : IsWhole whole
  isDigits : ∀ ds ∈ fraction, IsDigits ds

namespace Numeral
variable (n : Numeral)

def exponentPart : List Char := n.exponent.elim [] exponentText

def fractionPart : List Char := n.fraction.elim [] ('.' :: ·)

def text : List Char := n.whole ++ (n.fractionPart ++ n.exponentPart)

def parts (negative : Bool) : Parts :=
  ⟨negative, n.whole.map digitValue, n.fraction.map (·.map digitValue), n.exponent⟩

/-- The digits before and after the point. -/
def digits : List Char := n.whole ++ n.fraction.getD []

/-- The power of ten of the last digit. -/
def place : Int := n.exponent.getD 0 - (n.fraction.getD []).length

section read
variable {n} {rest : List Char}

theorem readExponent_part (hrest : EndsNumeral rest) :
    readExponent (n.exponentPart ++ rest) = some (n.exponent, rest) := by
  unfold exponentPart
  cases n.exponent with
  | none => exact readExponent_none hrest
  | some e => exact readExponent_append hrest.endsDigits e

/-- No digit and no point follows the fraction. -/
theorem head?_exponentPart (hrest : EndsNumeral rest) :
    ∀ c ∈ (n.exponentPart ++ rest).head?, c.isDigit = false ∧ c ≠ '.' := by
  unfold exponentPart
  cases n.exponent with
  | none => exact fun c hc => ⟨(hrest c hc).1, (hrest c hc).2.1⟩
  | some e =>
      rintro c hc
      obtain rfl : 'e' = c := Option.some.inj hc
      decide

theorem readFraction_part (hrest : EndsNumeral rest) :
    readFraction (n.fractionPart ++ (n.exponentPart ++ rest)) =
      some (n.fraction.map (·.map digitValue), n.exponentPart ++ rest) := by
  have hends := head?_exponentPart (n := n) hrest
  unfold fractionPart
  cases hfraction : n.fraction with
  | none => exact readFraction_none fun h => (hends _ h).2 rfl
  | some ds => exact readFraction_append (fun c hc => (hends c hc).1) (n.isDigits ds hfraction)

/-- No digit follows the digits before the point. -/
theorem endsDigits_fractionPart (hrest : EndsNumeral rest) :
    EndsDigits (n.fractionPart ++ (n.exponentPart ++ rest)) := by
  unfold fractionPart
  cases n.fraction with
  | none => exact fun c hc => (head?_exponentPart hrest c hc).1
  | some ds =>
      rintro c hc
      obtain rfl : '.' = c := Option.some.inj hc
      decide

/-- The parts of a numeral are read from its text. -/
theorem readParts_text (n : Numeral) (negative : Bool) (hrest : EndsNumeral rest) :
    readParts ((if negative then ['-'] else []) ++ (n.text ++ rest)) =
      some (n.parts negative, rest) := by
  have hminus : (n.whole ++ (n.fractionPart ++ (n.exponentPart ++ rest))).head? ≠ some '-' := by
    obtain ⟨c, ds, hwhole⟩ := List.exists_cons_of_ne_nil n.isWhole.ne_nil
    rw [hwhole]
    intro hc
    have hdigit := n.isWhole.isDigit c (hwhole ▸ List.mem_cons_self)
    rw [Option.some.inj hc] at hdigit
    exact absurd hdigit (by decide)
  unfold readParts
  rw [text, List.append_assoc, List.append_assoc, readMinus_append _ hminus]
  dsimp only
  rw [readWhole_append (endsDigits_fractionPart hrest) n.isWhole]
  simp only [Option.bind_eq_bind, Option.bind_some]
  rw [readFraction_part hrest]
  simp only [Option.bind_some]
  rw [readExponent_part hrest]
  rfl

end read

theorem ofDigits_parts (negative : Bool) :
    ofDigits (n.parts negative).digits = Nat.ofDigitChars 10 n.digits 0 := by
  rw [← ofDigits_map, digits, List.map_append, Parts.digits, parts]
  cases n.fraction <;> rfl

theorem place_parts (negative : Bool) : (n.parts negative).place = n.place := by
  rw [Parts.place, place, parts]
  cases n.fraction with
  | none => rfl
  | some ds => simp

end Numeral

/-! ### Reals -/

section real
variable {x : Binary64}

theorem digits_shortest_pos (h : x.isZero = false) : 0 < x.shortest.digits := by
  obtain ⟨i, -, hholds⟩ := x.exists_holds_shortest h
  refine Nat.pos_of_ne_zero fun hzero => ?_
  rw [hzero, Nat.zero_mul] at hholds
  exact absurd (Binary64.pos_of_holds h hholds) (Nat.lt_irrefl 0)

/-- A point of the grid of the shortest decimal, in quarters of `10^-k`, as a quotient. -/
theorem point_mul_eq {i t p m k : Nat} (h : i + m = t + p + k) (d : Nat) :
    d * (4 * Nat.pow 10 i) * Nat.pow 10 m =
      4 * (d * Nat.pow 10 t * Nat.pow 10 p * Nat.pow 2 k) * Nat.pow 5 k := by
  have hpow : Nat.pow 10 i * Nat.pow 10 m = Nat.pow 10 t * Nat.pow 10 p * Nat.pow 10 k := by
    have hadd : ∀ a b, Nat.pow 10 (a + b) = Nat.pow 10 a * Nat.pow 10 b := Nat.pow_add 10
    rw [← hadd, h, hadd, hadd]
  have hten : Nat.pow 10 k = Nat.pow 2 k * Nat.pow 5 k := Nat.mul_pow 2 5 k
  calc
    d * (4 * Nat.pow 10 i) * Nat.pow 10 m = 4 * d * (Nat.pow 10 i * Nat.pow 10 m) := by ring
    _ = 4 * (d * Nat.pow 10 t * Nat.pow 10 p * Nat.pow 2 k) * Nat.pow 5 k := by
      rw [hpow, hten]
      ring

/-- Digits and exponent that agree with the shortest decimal of a real denote the real. -/
theorem nearest?_parts (hx : x.isZero = false) {p : Parts} {t : Nat}
    (hreal : ¬(p.fraction.isNone ∧ p.exponent.isNone)) (hnegative : p.negative = x.negative)
    (hdigits : ofDigits p.digits = x.shortest.digits * Nat.pow 10 t)
    (hplace : p.place + t = x.shortest.exponent) : p.nearest? = some (real x) := by
  obtain ⟨i, hi, hholds⟩ := x.exists_holds_shortest hx
  have hexp : ∀ k, k = 1074 → i + (-p.place).toNat = t + p.place.toNat + k := by
    intro k hk
    omega
  have hpos : 0 < Nat.pow 10 (-p.place).toNat := Nat.pow_pos (by decide)
  have hpoint := fun k hk => point_mul_eq (hexp k hk) x.shortest.digits
  rw [Parts.nearest?, if_neg hreal, hdigits, hnegative,
    Binary64.ofRatio_of_holds hpos hpoint hholds, Option.map_some]

/-- The digits and the exponent of a numeral are those of a decimal, up to zeros at its end. -/
structure Numeral.Denotes (n : Numeral) (d : Binary64.Decimal) : Prop where
  isReal : ¬(n.fraction.isNone ∧ n.exponent.isNone)
  exists_zeros : ∃ t : Nat, Nat.ofDigitChars 10 n.digits 0 = d.digits * Nat.pow 10 t ∧
    n.place + t = d.exponent

theorem Numeral.Denotes.nearest? {n : Numeral} (h : n.Denotes x.shortest)
    (hx : x.isZero = false) : (n.parts x.negative).nearest? = some (real x) := by
  obtain ⟨t, hdigits, hplace⟩ := h.exists_zeros
  have hreal := h.isReal
  refine nearest?_parts hx (t := t) ?_ rfl ?_ ?_
  · rwa [Numeral.parts, Option.isNone_map]
  · rw [n.ofDigits_parts, hdigits]
  · rw [n.place_parts, hplace]

end real

/-! ### Decimals -/

section decimal
variable {d : Binary64.Decimal}

theorem ofDigitChars_digitsOf (n : Nat) : Nat.ofDigitChars 10 (digitsOf n) 0 = n :=
  Nat.ofDigitChars_ten_toDigits

theorem isDigit_replicate {c : Char} {k : Nat} (h : c ∈ List.replicate k '0') :
    c.isDigit = true := by
  rw [List.eq_of_mem_replicate h]
  rfl

/-- The leading digits of a number that is not zero. -/
theorem isWhole_take {n k : Nat} (hn : 0 < n) (hk : 0 < k) : IsWhole ((digitsOf n).take k) := by
  have hne : (digitsOf n).take k ≠ [] := by
    rw [ne_eq, List.take_eq_nil_iff, not_or]
    exact ⟨by omega, digitsOf_ne_nil n⟩
  refine ⟨⟨hne, fun c hc => isDigit_of_mem_digitsOf (List.mem_of_mem_take hc)⟩, fun hzero => ?_⟩
  rw [List.head?_take, if_neg (by omega)] at hzero
  exact absurd hzero (head?_digitsOf_ne hn)

/-- A small decimal: the point stands before zeros and the digits. -/
theorem exists_plain_before {point : Int} (hpoint : point ≤ 0)
    (hexponent : d.exponent = point - (digitsOf d.digits).length) :
    ∃ n : Numeral, n.Denotes d ∧ n.text = plain (digitsOf d.digits) point := by
  have hdigits := isDigits_digitsOf d.digits
  have hfraction : IsDigits (List.replicate point.natAbs '0' ++ digitsOf d.digits) :=
    ⟨by simp [hdigits.ne_nil], fun c hc =>
      (List.mem_append.mp hc).elim isDigit_replicate (hdigits.isDigit c)⟩
  refine ⟨⟨['0'], some _, none, isWhole_zero, fun _ hds => Option.some.inj hds ▸ hfraction⟩,
    ⟨by simp, 0, ?_, ?_⟩, ?_⟩
  · show Nat.ofDigitChars 10 (['0'] ++ (List.replicate _ '0' ++ digitsOf d.digits)) 0 = _
    rw [Nat.ofDigitChars_append, Nat.ofDigitChars_append, Nat.ofDigitChars_replicate_zero]
    exact (ofDigitChars_digitsOf _).trans (Nat.mul_one _).symm
  · simp only [Numeral.place, Option.getD_none, Option.getD_some, List.length_append,
      List.length_replicate]
    omega
  · rw [plain, if_pos hpoint]
    simp [Numeral.text, Numeral.fractionPart, Numeral.exponentPart]

/-- A large decimal: zeros and the point stand after the digits. -/
theorem exists_plain_after (hd : 0 < d.digits) {point : Int} (hpoint : 0 < point)
    (hlength : (digitsOf d.digits).length ≤ point.toNat)
    (hexponent : d.exponent = point - (digitsOf d.digits).length) :
    ∃ n : Numeral, n.Denotes d ∧ n.text = plain (digitsOf d.digits) point := by
  have hdigits := isDigits_digitsOf d.digits
  generalize hzeros : point.toNat - (digitsOf d.digits).length = zeros
  have hwhole : IsWhole (digitsOf d.digits ++ List.replicate zeros '0') := by
    refine ⟨⟨by simp [hdigits.ne_nil], fun c hc =>
      (List.mem_append.mp hc).elim (hdigits.isDigit c) isDigit_replicate⟩, fun hzero => ?_⟩
    obtain ⟨c, ds, hds⟩ := List.exists_cons_of_ne_nil hdigits.ne_nil
    have hhead := head?_digitsOf_ne hd
    rw [hds] at hzero hhead
    exact absurd hzero hhead
  refine ⟨⟨_, some ['0'], none, hwhole, fun _ hds =>
    Option.some.inj hds ▸ isWhole_zero.toIsDigits⟩, ⟨by simp, zeros + 1, ?_, ?_⟩, ?_⟩
  · show Nat.ofDigitChars 10 (digitsOf d.digits ++ List.replicate zeros '0' ++ ['0']) 0 = _
    rw [List.append_assoc, ← List.replicate_succ', Nat.ofDigitChars_append,
      Nat.ofDigitChars_replicate_zero, ofDigitChars_digitsOf, Nat.mul_comm]
    rfl
  · simp only [Numeral.place, Option.getD_none, Option.getD_some, List.length_singleton]
    omega
  · rw [plain, if_neg (by omega)]
    dsimp only
    rw [if_pos hlength, hzeros]
    simp [Numeral.text, Numeral.fractionPart, Numeral.exponentPart]

/-- The point stands between the digits. -/
theorem exists_plain_within (hd : 0 < d.digits) {point : Int} (hpoint : 0 < point)
    (hlength : point.toNat < (digitsOf d.digits).length)
    (hexponent : d.exponent = point - (digitsOf d.digits).length) :
    ∃ n : Numeral, n.Denotes d ∧ n.text = plain (digitsOf d.digits) point := by
  have hfraction : IsDigits ((digitsOf d.digits).drop point.toNat) :=
    ⟨by rw [ne_eq, List.drop_eq_nil_iff]; omega, fun c hc =>
      isDigit_of_mem_digitsOf (List.mem_of_mem_drop hc)⟩
  refine ⟨⟨_, some _, none, isWhole_take hd (k := point.toNat) (by omega), fun _ hds =>
    Option.some.inj hds ▸ hfraction⟩, ⟨by simp, 0, ?_, ?_⟩, ?_⟩
  · rw [Numeral.digits, Option.getD_some, List.take_append_drop, ofDigitChars_digitsOf]
    exact (Nat.mul_one _).symm
  · simp only [Numeral.place, Option.getD_none, Option.getD_some, List.length_drop]
    omega
  · rw [plain, if_neg (by omega)]
    dsimp only
    rw [if_neg (by omega)]
    simp [Numeral.text, Numeral.fractionPart, Numeral.exponentPart]

/-- The point stands after the first digit, if there are others. -/
theorem exists_scientific (hd : 0 < d.digits) {exponent : Int}
    (hexponent : d.exponent = exponent + 1 - (digitsOf d.digits).length) :
    ∃ n : Numeral, n.Denotes d ∧ n.text = scientific (digitsOf d.digits) exponent := by
  have hvalue := ofDigitChars_digitsOf d.digits
  have hdigit : ∀ c ∈ (digitsOf d.digits).drop 1, c.isDigit = true := fun c hc =>
    isDigit_of_mem_digitsOf (List.mem_of_mem_drop hc)
  have hwhole := isWhole_take hd Nat.one_pos
  obtain ⟨c, ds, hds⟩ := List.exists_cons_of_ne_nil (digitsOf_ne_nil d.digits)
  rw [hds] at hvalue hdigit hwhole hexponent ⊢
  rw [List.length_cons] at hexponent
  rw [scientific]
  cases ds with
  | nil =>
      refine ⟨⟨_, none, some exponent, hwhole, fun _ hds => nomatch hds⟩, ⟨by simp, 0, ?_, ?_⟩, rfl⟩
      · exact hvalue.trans (Nat.mul_one _).symm
      · rw [List.length_nil] at hexponent
        simp only [Numeral.place, Option.getD_none, Option.getD_some, List.length_nil]
        omega
  | cons c' ds =>
      have hfraction : IsDigits (c' :: ds) := ⟨List.cons_ne_nil _ _, hdigit⟩
      refine ⟨⟨_, some (c' :: ds), some exponent, hwhole, fun _ hds =>
        Option.some.inj hds ▸ hfraction⟩, ⟨by simp, 0, ?_, ?_⟩, rfl⟩
      · exact hvalue.trans (Nat.mul_one _).symm
      · simp only [Numeral.place, Option.getD_some]
        omega

/-- The text of a decimal is a numeral that denotes it. -/
theorem exists_decimalText (hd : 0 < d.digits) :
    ∃ n : Numeral, n.Denotes d ∧ n.text = decimalText d := by
  unfold decimalText
  dsimp only
  split
  · have hexponent : d.exponent = d.exponent + (digitsOf d.digits).length - 1 + 1 -
        (digitsOf d.digits).length := by omega
    rcases Int.lt_or_le 0 (d.exponent + (digitsOf d.digits).length - 1 + 1) with hpoint | hpoint
    · rcases Nat.lt_or_ge (d.exponent + (digitsOf d.digits).length - 1 + 1).toNat
          (digitsOf d.digits).length with hlength | hlength
      · exact exists_plain_within hd hpoint hlength hexponent
      · exact exists_plain_after hd hpoint hlength hexponent
    · exact exists_plain_before hpoint hexponent
  · exact exists_scientific hd (by omega)

end decimal

/-! ### Texts -/

theorem readNearest_numeral {numeral : Numeral} {negative : Bool} {n : Number}
    (h : (numeral.parts negative).nearest? = some n) {rest : List Char}
    (hrest : EndsNumeral rest) :
    readNearest ((if negative then ['-'] else []) ++ (numeral.text ++ rest)) = some (n, rest) := by
  rw [readNearest, numeral.readParts_text negative hrest, Option.bind_some, h, Option.map_some]

/-- The text of an integer is its numeral. -/
theorem exists_integerText (i : Int) : ∃ (numeral : Numeral) (negative : Bool),
    (numeral.parts negative).nearest? = some (integer i) ∧
      integerText i = (if negative then ['-'] else []) ++ numeral.text := by
  refine ⟨⟨digitsOf i.natAbs, none, none, isWhole_digitsOf _, fun _ hds => nomatch hds⟩,
    i < 0, ?_, ?_⟩
  · rw [Parts.nearest?, if_pos ⟨rfl, rfl⟩]
    dsimp only [Numeral.parts]
    rw [ofDigits_digitsOf]
    congr 2
    simp only [decide_eq_true_eq]
    split <;> omega
  · simp only [integerText, Numeral.text, Numeral.fractionPart, Numeral.exponentPart,
      Option.elim_none, List.append_nil, decide_eq_true_eq]
    split <;> rfl

/-- The numeral of both zeros. -/
def Numeral.zero : Numeral :=
  ⟨['0'], some ['0'], none, isWhole_zero, fun _ hds =>
    Option.some.inj hds ▸ isWhole_zero.toIsDigits⟩

theorem nearest?_zero {x : Binary64} (h : x.isZero = true) :
    (Numeral.zero.parts x.negative).nearest? = some (real x) := by
  have hdigits : ofDigits (Numeral.zero.parts x.negative).digits = 0 := rfl
  have hreal : ¬((Numeral.zero.parts x.negative).fraction.isNone ∧
      (Numeral.zero.parts x.negative).exponent.isNone) := fun h => nomatch h.1
  rw [Parts.nearest?, if_neg hreal, hdigits, Nat.zero_mul]
  show (Binary64.ofRatio x.negative 0 _).map _ = _
  rw [Binary64.ofRatio_zero h, Option.map_some]

/-- The text of a real is a numeral to which the real is nearest. -/
theorem exists_realText (x : Binary64) : ∃ numeral : Numeral,
    (numeral.parts x.negative).nearest? = some (real x) ∧
      realText x = (if x.negative then ['-'] else []) ++ numeral.text := by
  unfold realText
  cases hx : x.isZero with
  | true => exact ⟨.zero, nearest?_zero hx, rfl⟩
  | false =>
      obtain ⟨numeral, hdenotes, htext⟩ := exists_decimalText (digits_shortest_pos hx)
      refine ⟨numeral, hdenotes.nearest? hx, ?_⟩
      rw [htext, if_neg Bool.false_ne_true]

theorem exists_text : ∀ n : Number, ∃ (numeral : Numeral) (negative : Bool),
    (numeral.parts negative).nearest? = some n ∧
      n.text = (if negative then ['-'] else []) ++ numeral.text
  | integer i => exists_integerText i
  | real x => (exists_realText x).imp fun _ h => ⟨_, h⟩

/-- The text of a number begins with a minus or a digit. -/
theorem exists_cons_text (n : Number) : ∃ c s, n.text = c :: s ∧ (c = '-' ∨ c.isDigit = true) := by
  obtain ⟨numeral, negative, -, htext⟩ := n.exists_text
  obtain ⟨c, ds, hwhole⟩ := List.exists_cons_of_ne_nil numeral.isWhole.ne_nil
  rw [htext]
  cases negative with
  | true => exact ⟨'-', numeral.text, rfl, .inl rfl⟩
  | false =>
      rw [if_neg Bool.false_ne_true, List.nil_append, Numeral.text, hwhole]
      exact ⟨c, _, rfl, .inr (numeral.isWhole.isDigit c (hwhole ▸ List.mem_cons_self))⟩

/-- The text of a number denotes the number. -/
theorem readNearest_text (n : Number) {rest : List Char} (hrest : EndsNumeral rest) :
    readNearest (n.text ++ rest) = some (n, rest) := by
  obtain ⟨numeral, negative, hvalue, htext⟩ := n.exists_text
  rw [htext, List.append_assoc]
  exact readNearest_numeral hvalue hrest

end SchemaModels.Number
