import Mathlib.Data.Nat.Log
import Mathlib.Tactic.Linarith
import Mathlib.Tactic.Ring
import SchemaModels.Decimal.Shortest

/-!
# The shortest decimal rounds to its number

A quotient rounds to a number when it is no further away than half way to the numbers next to it,
and half way only if the significand is even. The shortest decimal of a number is in this interval,
so whatever reads it as the nearest number reads the number again.

* `roundHalfEven_eq`: what rounds to an integer.
* `nearest_of_bounds`: what rounds to a word. Below a power of two the numbers lie twice as close.
* `exists_holds_shortest`: the shortest decimal lies in the neighbourhood of its number.
* `ofRatio_of_holds`: what lies there rounds to the number.
-/

namespace SchemaModels.Binary64

/-! ### Rounding to integers -/

/-- An integer is rounded to by what is no more than half a unit away, by an exact half only if the
integer is even. -/
theorem roundHalfEven_eq {num den n : Nat} (hden : 0 < den)
    (hlow : 2 * n * den ≤ 2 * num + den) (hhigh : 2 * num ≤ (2 * n + 1) * den)
    (htie : n % 2 = 1 → 2 * n * den < 2 * num + den ∧ 2 * num < (2 * n + 1) * den) :
    roundHalfEven num den = n := by
  have hdiv := Nat.div_add_mod num den
  have hmod := Nat.mod_lt num hden
  unfold roundHalfEven
  dsimp only
  generalize num / den = q at hdiv ⊢
  generalize num % den = r at hdiv hmod ⊢
  have hlower : n ≤ q + 1 := by
    have := Nat.lt_of_mul_lt_mul_right (a := 2 * den) (b := n) (c := q + 2) (by nlinarith)
    omega
  have hupper : q ≤ n := by
    have := Nat.lt_of_mul_lt_mul_right (a := 2 * den) (b := q) (c := n + 1) (by nlinarith)
    omega
  rcases Nat.lt_trichotomy (2 * r) den with h | h | h
  · rw [if_pos h]
    have := Nat.lt_of_mul_lt_mul_right (a := 2 * den) (b := n) (c := q + 1) (by nlinarith)
    omega
  · rw [if_neg (by omega), if_pos h]
    rcases Nat.mod_two_eq_zero_or_one n with heven | hodd
    · omega
    · obtain ⟨hl, hh⟩ := htie hodd
      have h1 := Nat.lt_of_mul_lt_mul_right (a := 2 * den) (b := n) (c := q + 1) (by nlinarith)
      have h2 := Nat.lt_of_mul_lt_mul_right (a := 2 * den) (b := q) (c := n) (by nlinarith)
      omega
  · rw [if_neg (by omega), if_neg (by omega)]
    have := Nat.lt_of_mul_lt_mul_right (a := 2 * den) (b := q) (c := n) (by nlinarith)
    omega

/-! ### Words -/

section word
variable (w : Nat)

theorem place_mul_add_significand : place w * Nat.pow 2 52 + significand w = w := by
  have hdiv := Nat.div_add_mod w (Nat.pow 2 52)
  have hpos : 0 < Nat.pow 2 52 := by decide
  unfold place significand
  generalize Nat.pow 2 52 = p at hdiv hpos ⊢
  split
  · rename_i h
    rw [Nat.div_eq_of_lt h, Nat.zero_sub, Nat.zero_mul, Nat.zero_add]
  · rename_i h
    have hquot : 1 ≤ w / p := (Nat.le_div_iff_mul_le hpos).mpr (by omega)
    obtain ⟨q, hq⟩ := Nat.exists_eq_add_of_le hquot
    rw [hq] at hdiv ⊢
    rw [Nat.add_sub_cancel_left]
    linarith

theorem significand_lt : significand w < 2 * Nat.pow 2 52 := by
  have hmod := Nat.mod_lt w (show 0 < Nat.pow 2 52 by decide)
  unfold significand
  split <;> omega

/-- Only words of the lowest place have fewer digits. -/
theorem le_significand (h : place w ≠ 0) : Nat.pow 2 52 ≤ significand w := by
  unfold significand
  split
  · rename_i hw
    rw [place, Nat.div_eq_of_lt hw] at h
    exact absurd rfl h
  · exact Nat.le_add_right _ _

end word

/-! ### Rounding to words -/

/-- The distance to the next lower number, halved, in quarters of a word's last place. -/
def halfBelow (w : Nat) : Nat := if significand w = Nat.pow 2 52 ∧ place w ≠ 0 then 1 else 2

/-- The place of a quotient between two powers of two. -/
theorem log2_div_sub {units den k : Nat} (hlow : Nat.pow 2 (52 + k) * den ≤ units)
    (hhigh : units < Nat.pow 2 (53 + k) * den) : Nat.log2 (units / den) - 52 = k := by
  have hden : 0 < den := Nat.pos_of_mul_pos_left (Nat.zero_lt_of_lt hhigh)
  have h1 : 2 ^ (52 + k) ≤ units / den := (Nat.le_div_iff_mul_le hden).mpr hlow
  have h2 : units / den < 2 ^ (52 + k + 1) :=
    (Nat.div_lt_iff_lt_mul hden).mpr (by rw [Nat.add_right_comm]; exact hhigh)
  have hlog : Nat.log2 (units / den) = 52 + k :=
    (Nat.log2_eq_iff (Nat.ne_of_gt (Nat.lt_of_lt_of_le (by positivity) h1))).mpr ⟨h1, h2⟩
  omega

theorem log2_div_sub_zero {units den : Nat} (hden : 0 < den)
    (hhigh : units < Nat.pow 2 53 * den) : Nat.log2 (units / den) - 52 = 0 := by
  have h2 : units / den < 2 ^ 53 := (Nat.div_lt_iff_lt_mul hden).mpr hhigh
  rcases Nat.eq_zero_or_pos (units / den) with h | h
  · rw [h]
    decide
  · have := (Nat.log2_lt (Nat.ne_of_gt h)).mpr h2
    omega

/-- Just below a power of two the numbers lie twice as close, and what is nearer to the power than
to the number before it rounds up to it. -/
theorem nearest_below_power {units den j : Nat} (hden : 0 < den)
    (hlow : 8 * Nat.pow 2 52 * (den * Nat.pow 2 j) ≤ 4 * units + 2 * (den * Nat.pow 2 j))
    (hless : units < Nat.pow 2 (53 + j) * den) :
    (Nat.log2 (units / den) - 52) * Nat.pow 2 52 +
      roundHalfEven units (den * Nat.pow 2 (Nat.log2 (units / den) - 52)) =
        (j + 1) * Nat.pow 2 52 + Nat.pow 2 52 := by
  have hsplit : Nat.pow 2 (52 + j) * den = Nat.pow 2 52 * (den * Nat.pow 2 j) := by
    rw [show Nat.pow 2 (52 + j) = Nat.pow 2 52 * Nat.pow 2 j from Nat.pow_add 2 52 j]
    ring
  have hsplit' : Nat.pow 2 (53 + j) * den = 2 * Nat.pow 2 52 * (den * Nat.pow 2 j) := by
    rw [show Nat.pow 2 (53 + j) = Nat.pow 2 53 * Nat.pow 2 j from Nat.pow_add 2 53 j,
      show Nat.pow 2 53 = 2 * Nat.pow 2 52 from rfl]
    ring
  have hpos : 0 < den * Nat.pow 2 j := Nat.mul_pos hden (Nat.pow_pos (by decide))
  have hmost : Nat.pow 2 (52 + j) * den ≤ units := by
    have hp : 1 ≤ Nat.pow 2 52 := by decide
    rw [hsplit]
    nlinarith
  rw [log2_div_sub hmost hless]
  rw [hsplit'] at hless
  rw [roundHalfEven_eq (n := 2 * Nat.pow 2 52) hpos (by linarith) (by linarith)
    fun hodd => absurd hodd (by decide)]
  ring

/-- A quotient rounds to a word when it is no further from its number than half way to the next
ones, and half way only if the significand is even. -/
theorem nearest_of_bounds {w units den : Nat} (hden : 0 < den)
    (hlow : 4 * significand w * (den * Nat.pow 2 (place w)) ≤
      4 * units + halfBelow w * (den * Nat.pow 2 (place w)))
    (hhigh : 4 * units ≤ (4 * significand w + 2) * (den * Nat.pow 2 (place w)))
    (htie : significand w % 2 = 1 →
      4 * significand w * (den * Nat.pow 2 (place w)) <
          4 * units + halfBelow w * (den * Nat.pow 2 (place w)) ∧
        4 * units < (4 * significand w + 2) * (den * Nat.pow 2 (place w))) :
    (Nat.log2 (units / den) - 52) * Nat.pow 2 52 +
      roundHalfEven units (den * Nat.pow 2 (Nat.log2 (units / den) - 52)) = w := by
  have hword := place_mul_add_significand w
  have hlt := significand_lt w
  have hle := le_significand w
  have hpos : 0 < den * Nat.pow 2 (place w) := Nat.mul_pos hden (Nat.pow_pos (by decide))
  unfold halfBelow at hlow htie
  generalize place w = k at hlow hhigh htie hword hle hpos
  generalize significand w = m at hlow hhigh htie hword hle hlt
  have hsplit : ∀ i, Nat.pow 2 (i + k) * den = Nat.pow 2 i * (den * Nat.pow 2 k) := fun i => by
    rw [show Nat.pow 2 (i + k) = Nat.pow 2 i * Nat.pow 2 k from Nat.pow_add 2 i k]
    ring
  have h53 : Nat.pow 2 53 = 2 * Nat.pow 2 52 := rfl
  have hupper : units < Nat.pow 2 (53 + k) * den := by
    rw [hsplit, h53]
    nlinarith
  -- What is at most half a unit below rounds to the word if it has the place of the word.
  have hround : Nat.log2 (units / den) - 52 = k →
      4 * m * (den * Nat.pow 2 k) ≤ 4 * units + 2 * (den * Nat.pow 2 k) →
      (m % 2 = 1 → 4 * m * (den * Nat.pow 2 k) < 4 * units + 2 * (den * Nat.pow 2 k)) →
        (Nat.log2 (units / den) - 52) * Nat.pow 2 52 +
          roundHalfEven units (den * Nat.pow 2 (Nat.log2 (units / den) - 52)) = w := by
    intro hplace h hstrict
    rw [hplace, roundHalfEven_eq (n := m) hpos (by linarith) (by linarith) fun hodd =>
      ⟨by have := hstrict hodd; linarith, by have := (htie hodd).2; linarith⟩, hword]
  by_cases hpower : m = Nat.pow 2 52 ∧ k ≠ 0
  · obtain ⟨rfl, hk⟩ := hpower
    rcases Nat.lt_or_ge units (Nat.pow 2 (52 + k) * den) with hless | hmost
    · obtain ⟨j, rfl⟩ := Nat.exists_eq_succ_of_ne_zero hk
      have hdouble : den * Nat.pow 2 (j + 1) = 2 * (den * Nat.pow 2 j) := by
        rw [show Nat.pow 2 (j + 1) = Nat.pow 2 j * 2 from rfl]
        ring
      simp only [hk, ne_eq, not_false_eq_true, and_self, if_true, Nat.succ_eq_add_one,
        hdouble] at hlow
      rw [← hword]
      rw [Nat.succ_eq_add_one, Nat.add_comm j, ← Nat.add_assoc] at hless
      exact nearest_below_power hden (by linarith) hless
    · have hleast := hsplit 52 ▸ hmost
      refine hround (log2_div_sub hmost hupper) (by linarith) fun hodd => ?_
      exact absurd hodd (by decide)
  · simp only [hpower, if_false] at hlow htie
    refine hround ?_ hlow fun hodd => (htie hodd).1
    rcases Nat.eq_zero_or_pos k with rfl | hk
    · exact log2_div_sub_zero hden hupper
    · -- The next number below has the same place.
      have hmore : Nat.pow 2 52 + 1 ≤ m := by
        have hne : m ≠ Nat.pow 2 52 := fun h => hpower ⟨h, Nat.ne_of_gt hk⟩
        have := hle (Nat.ne_of_gt hk)
        omega
      refine log2_div_sub ?_ hupper
      rw [hsplit]
      nlinarith

/-! ### Neighbourhoods -/

namespace Neighbourhood
variable (b : Neighbourhood)

theorem holds_iff (point : Nat) : b.holds point = true ↔
    b.low ≤ point ∧ point ≤ b.high ∧ (b.closed = false → b.low < point ∧ point < b.high) := by
  unfold holds
  cases b.closed with
  | false =>
      simp only [Bool.false_eq_true, if_false, Bool.and_eq_true, decide_eq_true_eq, forall_const]
      omega
  | true => simp

/-- Of the points of a grid that are in the interval one is taken. -/
theorem holds_nearest {step : Nat} (h : b.meets step = true) :
    b.holds (b.nearest step * step) = true := by
  unfold meets at h
  unfold nearest
  dsimp only
  cases hupper : b.holds ((b.under step + 1) * step) with
  | false => simpa [hupper] using h
  | true =>
      cases hlower : b.holds (b.under step * step) with
      | false => simpa using hupper
      | true =>
          rw [if_neg (by decide), if_neg (by decide)]
          split
          · exact hlower
          split
          · exact hupper
          -- A tie goes to the even one of the two.
          rcases Nat.mod_two_eq_zero_or_one (b.under step) with heven | hodd
          · rwa [heven]
          · rwa [hodd]

/-- The finest grid has a point in the interval, and so has the grid that is taken. -/
theorem meets_coarsest (h : b.meets (4 * Nat.pow 10 0) = true) :
    ∀ i, b.meets (4 * Nat.pow 10 (b.coarsest i)) = true
  | 0 => h
  | i + 1 => by
      unfold coarsest
      split
      · assumption
      · exact meets_coarsest h i

end Neighbourhood

section neighbourhood
variable {x : Binary64}

/-- The last place of a number, in units of `10^-1074`. -/
def unit (x : Binary64) : Nat := Nat.pow 2 (place x.word) * Nat.pow 5 1074

theorem five_pow_pos (k : Nat) : 0 < Nat.pow 5 k := Nat.pow_pos (by decide)

theorem two_pow_mul_five_pow_pos (i k : Nat) : 0 < Nat.pow 2 i * Nat.pow 5 k :=
  Nat.mul_pos (Nat.pow_pos (by decide)) (five_pow_pos k)

theorem unit_pos (x : Binary64) : 0 < x.unit := by
  unfold unit
  apply two_pow_mul_five_pow_pos

theorem neighbourhood_eq (x : Binary64) : x.neighbourhood =
    ⟨(4 * significand x.word - halfBelow x.word) * x.unit, 4 * significand x.word * x.unit,
      (4 * significand x.word + 2) * x.unit, significand x.word % 2 = 0⟩ := rfl

theorem significand_pos (h : x.isZero = false) : 0 < significand x.word := by
  have hword : x.word.val ≠ 0 := by simpa [isZero] using h
  have hpos : 0 < Nat.pow 2 52 := by decide
  unfold significand
  split <;> omega

theorem halfBelow_pos (w : Nat) : 0 < halfBelow w := by
  unfold halfBelow
  split <;> decide

theorem halfBelow_le (w : Nat) : halfBelow w ≤ 2 := by
  unfold halfBelow
  split <;> decide

/-- A number that is not zero lies in its neighbourhood. -/
theorem holds_middle (h : x.isZero = false) :
    x.neighbourhood.holds x.neighbourhood.middle = true := by
  have hm := significand_pos h
  have hhalf := halfBelow_pos x.word
  have hlow : (4 * significand x.word - halfBelow x.word) * x.unit <
      4 * significand x.word * x.unit :=
    Nat.mul_lt_mul_of_pos_right (by omega) x.unit_pos
  have hhigh : 4 * significand x.word * x.unit < (4 * significand x.word + 2) * x.unit :=
    Nat.mul_lt_mul_of_pos_right (by omega) x.unit_pos
  rw [Neighbourhood.holds_iff, neighbourhood_eq]
  exact ⟨Nat.le_of_lt hlow, Nat.le_of_lt hhigh, fun _ => ⟨hlow, hhigh⟩⟩

/-- The neighbourhood of a number that is not zero lies above zero. -/
theorem pos_of_holds (h : x.isZero = false) {point : Nat}
    (hpoint : x.neighbourhood.holds point = true) : 0 < point := by
  have hm := significand_pos h
  have hhalf := halfBelow_le x.word
  have hlow : 0 < (4 * significand x.word - halfBelow x.word) * x.unit :=
    Nat.mul_pos (by omega) x.unit_pos
  rw [Neighbourhood.holds_iff, neighbourhood_eq] at hpoint
  exact Nat.lt_of_lt_of_le hlow hpoint.1

theorem meets_finest (h : x.isZero = false) :
    x.neighbourhood.meets (4 * Nat.pow 10 0) = true := by
  have hmiddle : x.neighbourhood.under 4 * 4 = x.neighbourhood.middle := by
    rw [Neighbourhood.under, neighbourhood_eq]
    exact Nat.div_mul_cancel ⟨significand x.word * x.unit, Nat.mul_assoc 4 _ _⟩
  show (x.neighbourhood.holds (x.neighbourhood.under 4 * 4) || _) = true
  rw [hmiddle, holds_middle h, Bool.true_or]

/-- The shortest decimal lies in the neighbourhood. Its exponent counts from the finest grid. -/
theorem exists_holds_shortest (h : x.isZero = false) : ∃ i : Nat,
    x.shortest.exponent = (i : Int) - 1074 ∧
      x.neighbourhood.holds (x.shortest.digits * (4 * Nat.pow 10 i)) = true :=
  ⟨_, rfl, Neighbourhood.holds_nearest _ (Neighbourhood.meets_coarsest _ (meets_finest h) _)⟩

/-- Points are compared in quarters of `10^-1074`, quotients in quarters of `2^-1074`. -/
theorem scaled_le_iff {five point units den : Nat} (hden : 0 < den) (hfive : 0 < five)
    (hpoint : point * den = 4 * units * five) (k p a q c : Nat) :
    p * point + a * (k * five) ≤ q * point + c * (k * five) ↔
      p * (4 * units) + a * (den * k) ≤ q * (4 * units) + c * (den * k) := by
  have hside : ∀ p a, (p * point + a * (k * five)) * den =
      (p * (4 * units) + a * (den * k)) * five := fun p a => calc
    (p * point + a * (k * five)) * den = p * (point * den) + a * (den * k) * five := by ring
    _ = (p * (4 * units) + a * (den * k)) * five := by rw [hpoint]; ring
  rw [← Nat.mul_le_mul_right_iff hden, hside, hside, Nat.mul_le_mul_right_iff hfive]

/-- What lies in the neighbourhood of a number rounds to the number. The exponent has a name so
that its power is not computed where the lemma is used. -/
theorem ofRatio_of_holds {num den point : Nat} (hden : 0 < den)
    (hpoint : ∀ k, k = 1074 → point * den = 4 * (num * Nat.pow 2 k) * Nat.pow 5 k)
    (h : x.neighbourhood.holds point = true) : ofRatio x.negative num den = some x := by
  have hword : nearestWord num den = x.word := by
    rw [Neighbourhood.holds_iff, neighbourhood_eq] at h
    obtain ⟨hlow, hhigh, htie⟩ := h
    dsimp only at hlow hhigh htie
    rw [Nat.sub_mul] at hlow htie
    have hscaled := scaled_le_iff hden (five_pow_pos _) (hpoint _ rfl) (Nat.pow 2 (place x.word))
    have hunit : Nat.pow 2 (place x.word) * Nat.pow 5 1074 = x.unit := rfl
    rw [hunit] at hscaled
    refine nearest_of_bounds hden ?_ ?_ fun hodd => ?_
    · have := (hscaled 0 (4 * significand x.word) 1 (halfBelow x.word)).mp (by omega)
      omega
    · have := (hscaled 1 0 0 (4 * significand x.word + 2)).mp (by omega)
      omega
    · have htie := htie (by simp [hodd])
      have h1 := mt (hscaled 1 (halfBelow x.word) 0 (4 * significand x.word)).mpr (by omega)
      have h2 := mt (hscaled 0 (4 * significand x.word + 2) 1 0).mpr (by omega)
      omega
  have hlt : nearestWord num den < wordLimit := hword ▸ x.word.isLt
  have hfin : (⟨nearestWord num den, hlt⟩ : Fin wordLimit) = x.word := Fin.ext hword
  rw [ofRatio, dif_pos hlt, hfin]

theorem roundHalfEven_zero (den : Nat) : roundHalfEven 0 den = 0 := by
  unfold roundHalfEven
  rw [Nat.zero_div, Nat.zero_mod]
  rcases Nat.eq_zero_or_pos den with rfl | h
  · rfl
  · exact if_pos h

theorem nearestWord_zero (den : Nat) : nearestWord 0 den = 0 := by
  unfold nearestWord
  generalize Nat.pow 2 1074 = units
  dsimp only
  rw [Nat.zero_mul, Nat.zero_div, Nat.log2_zero, Nat.zero_sub, Nat.zero_mul, roundHalfEven_zero]

/-- Zero rounds to the zero of its sign. -/
theorem ofRatio_zero (h : x.isZero = true) (den : Nat) : ofRatio x.negative 0 den = some x := by
  have hword : x.word.val = 0 := beq_iff_eq.mp h
  have hlt : nearestWord 0 den < wordLimit := by
    rw [nearestWord_zero]
    decide
  have hfin : (⟨nearestWord 0 den, hlt⟩ : Fin wordLimit) = x.word :=
    Fin.ext ((nearestWord_zero den).trans hword.symm)
  rw [ofRatio, dif_pos hlt, hfin]

end neighbourhood

end SchemaModels.Binary64
