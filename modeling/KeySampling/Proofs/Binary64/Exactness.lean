import KeySampling.Datum.Number
import KeySampling.Proofs.Binary64.Rounding

/-! Where arithmetic rounds nothing away. A number has one significand and one exponent only, so a
rational that some number equals is rounded to that number: integers below 2^53 are converted
exactly, and a division by one leaves every number as it was. -/
namespace KeySampling
namespace Binary64

theorem exponentLe {x y : Finite} (same : x.magnitude = y.magnitude) :
    y.exponent ≤ x.exponent := by
  by_contra less
  obtain ⟨_, _, _, full⟩ := y.canonical
  obtain ⟨bits, least, _, _⟩ := x.canonical
  have bits' : (x.significand : ℚ) < 9007199254740992 := by exact_mod_cast bits
  have full' : (4503599627370496 : ℚ) ≤ y.significand := by
    exact_mod_cast full.resolve_right (by omega)
  have next : (2 : ℚ) * 2 ^ x.exponent ≤ 2 ^ y.exponent := by
    have step := zpowMono (show x.exponent + 1 ≤ y.exponent by omega)
    rwa [zpowAdd, zpow_one, mul_comm] at step
  have above : x.magnitude < y.magnitude := by
    rw [magnitudePow, magnitudePow]
    calc (x.significand : ℚ) * 2 ^ x.exponent < 9007199254740992 * 2 ^ x.exponent :=
          mul_lt_mul_of_pos_right bits' (zpowPos _)
      _ = 4503599627370496 * (2 * 2 ^ x.exponent) := by ring
      _ ≤ y.significand * 2 ^ y.exponent :=
          mul_le_mul full' next (mul_nonneg zero_le_two (zpowPos _).le) (Nat.cast_nonneg _)
  exact absurd same above.ne

theorem finiteSame {x y : Finite} (sign : x.negative = y.negative)
    (same : x.magnitude = y.magnitude) : x = y := by
  have exponent : x.exponent = y.exponent := le_antisymm (exponentLe same.symm) (exponentLe same)
  have significand : x.significand = y.significand := by
    rw [magnitudePow, magnitudePow, exponent] at same
    exact_mod_cast mul_right_cancel₀ (zpowPos _).ne' same
  cases x
  cases y
  simp_all

theorem nearestOwn {x : Finite} (positive : 0 < x.magnitude) :
    nearest x.magnitude = x.magnitude := by
  rw [magnitudePow] at positive ⊢
  have nonzero : 0 < x.significand := by
    exact_mod_cast pos_of_mul_pos_left positive (zpowPos _).le
  exact nearestExact _ nonzero x.canonical.1 x.canonical.2.1

theorem roundOwn {x : Finite} (positive : 0 < x.magnitude) (bound : Int.log 2 x.magnitude ≤ 1022) :
    round x.negative x.magnitude = .finite x := by
  obtain ⟨y, rounded, sign, value⟩ := roundNearest x.negative positive bound
  rw [nearestOwn positive] at value
  rw [rounded, finiteSame sign value]

theorem powLeNearest {q : ℚ} {e : Int} (least : -1074 ≤ e) (low : 2 ^ e ≤ q) :
    2 ^ e ≤ nearest q := by
  rw [← nearestPow least]
  exact nearestMono (zpowPos e) low

theorem nearestLePow {q : ℚ} {e : Int} (least : -1074 ≤ e) (positive : 0 < q) (high : q ≤ 2 ^ e) :
    nearest q ≤ 2 ^ e := by
  rw [← nearestPow least]
  exact nearestMono positive high

theorem ofIntNearest {n : Nat} (nonzero : 0 < n) (fits : n < 9223372036854775808) :
    ∃ x : Finite, ofInt n = .finite x ∧ x.negative = false ∧ x.magnitude = nearest n := by
  have positive : (0 : ℚ) < n := by exact_mod_cast nonzero
  have bound : Int.log 2 (n : ℚ) < 63 := logBelow positive (by
    norm_num
    exact_mod_cast fits)
  obtain ⟨x, rounded, sign, value⟩ := roundNearest false positive (by omega)
  refine ⟨x, ?_, sign, value⟩
  have abs : Rat.abs (n : ℚ) = n := by rw [Rat.abs, if_pos positive.le]
  have unsigned : decide ((n : ℚ) < 0) = false := decide_eq_false (not_lt.mpr positive.le)
  rw [ofInt, ofRat, Int.cast_natCast, abs, unsigned, rounded]

theorem oneValue : one = .finite ⟨false, 4503599627370496, -52, by decide⟩ := by decide +kernel

theorem ofIntFits {n : Nat} (fits : n < 9223372036854775808) : ofInt? n = .ok (ofInt n) := by
  by_cases zero : n = 0
  · subst zero
    decide +kernel
  · obtain ⟨x, converted, _, _⟩ := ofIntNearest (Nat.pos_of_ne_zero zero) fits
    rw [ofInt?, converted]
    rfl

theorem countRange {n : Nat} (positive : 0 < n) (fits : n < 9223372036854775808) :
    0 < nearest n ∧ nearest n < 2 ^ (64 : Int) := by
  have whole : (2 : ℚ) ^ (0 : Int) ≤ n := by
    rw [zpow_zero]
    exact_mod_cast positive
  have most : (n : ℚ) ≤ 2 ^ (63 : Int) := by
    norm_num
    exact_mod_cast fits.le
  refine ⟨lt_of_lt_of_le (zpowPos 0) (powLeNearest (by decide) whole), ?_⟩
  refine lt_of_le_of_lt (nearestLePow (by decide) (by exact_mod_cast positive) most) ?_
  norm_num

theorem ofIntDivOne {n : Nat} (fits : n < 9223372036854775808) :
    (ofInt n).div one = ofInt n := by
  by_cases zero : n = 0
  · subst zero
    decide +kernel
  obtain ⟨x, converted, sign, value⟩ := ofIntNearest (Nat.pos_of_ne_zero zero) fits
  obtain ⟨low, high⟩ := countRange (Nat.pos_of_ne_zero zero) fits
  rw [← value] at low high
  have bound := logBelow low high
  have own := roundOwn low (by omega)
  have unit : (⟨false, 4503599627370496, -52, by decide⟩ : Finite).magnitude = 1 := by
    rw [magnitudePow]
    norm_num
  rw [sign] at own
  rw [converted, oneValue, div]
  simpa [isNegative, sign, unit] using own

theorem nearestWhole {n : Nat} (positive : 0 < n) (few : n ≤ 9007199254740992) :
    nearest n = n := by
  rcases few.lt_or_eq with less | same
  · simpa using nearestExact n (e := 0) positive less (by decide)
  · have top : (n : ℚ) = 2 ^ (53 : Int) := by
      rw [same]
      norm_num
    rw [top, nearestPow (by decide)]

theorem ofIntExact {n : Nat} (few : n ≤ 9007199254740992) :
    ∃ x : Finite, ofInt n = .finite x ∧ x.toRat = n := by
  by_cases zero : n = 0
  · subst zero
    refine ⟨⟨false, 0, -1074, by decide⟩, by decide +kernel, ?_⟩
    rw [positiveValue rfl, magnitudePow]
    simp
  have positive : 0 < n := Nat.pos_of_ne_zero zero
  obtain ⟨x, converted, sign, value⟩ := ofIntNearest positive (by omega)
  exact ⟨x, converted, by rw [positiveValue sign, value, nearestWhole positive few]⟩

theorem quotientSelf {n : Int} (nonzero : n ≠ 0) : quotient n n = .ok one := by
  have whole : ofQuotient n n = one := by
    rw [ofQuotient, div_self (by exact_mod_cast nonzero)]
    rfl
  rw [quotient, if_neg nonzero, whole, oneValue]
  rfl

end Binary64
end KeySampling
