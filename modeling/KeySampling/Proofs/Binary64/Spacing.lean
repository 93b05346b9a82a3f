import KeySampling.Binary64.Arithmetic
import KeySampling.Proofs.Binary64.Exactness

/-! How far the numbers lie apart. From a power of two on they are multiples of its last place, and
below it of half that place at least. So what exceeds the power by more than half a place is rounded
to more than the power, and a reciprocal that is rounded to no more than a power of two is one of a
number that is no less than the inverse of that power. -/
namespace KeySampling.Binary64

theorem multipleOf {place e : Int} (le : place ≤ e) (n : Nat) :
    (n : ℚ) * 2 ^ e = (n * 2 ^ (e - place).toNat : Nat) * 2 ^ place := by
  obtain ⟨shift, apart⟩ := Int.eq_ofNat_of_zero_le (Int.sub_nonneg.mpr le)
  have split : (2 : ℚ) ^ e = 2 ^ shift * 2 ^ place := by
    rw [← zpow_natCast, ← zpowAdd]
    congr 1
    omega
  rw [split, apart, Int.toNat_natCast]
  push_cast
  ring

def placeFrom (e : Int) : Int := max (-1074) (e - 52)

theorem gapAbove {x : Finite} {e : Int} (least : -1074 ≤ e) (above : 2 ^ e < x.magnitude) :
    2 ^ e + 2 ^ placeFrom e ≤ x.magnitude := by
  obtain ⟨bits, low, _, _⟩ := x.canonical
  rw [magnitudePow] at above ⊢
  have coarse : placeFrom e ≤ x.exponent := by
    by_contra fine
    have bits' : (x.significand : ℚ) ≤ 2 ^ (53 : Int) := by exact_mod_cast bits.le
    have below : (x.significand : ℚ) * 2 ^ x.exponent ≤ 2 ^ e :=
      calc (x.significand : ℚ) * 2 ^ x.exponent ≤ 2 ^ (53 : Int) * 2 ^ x.exponent :=
            mul_le_mul_of_nonneg_right bits' (zpowPos _).le
        _ = 2 ^ (53 + x.exponent) := (zpowAdd _ _).symm
        _ ≤ 2 ^ e := zpowMono (by simp only [placeFrom] at fine; omega)
    exact absurd above (not_lt.mpr below)
  have power : (2 : ℚ) ^ e = (1 * 2 ^ (e - placeFrom e).toNat : Nat) * 2 ^ placeFrom e := by
    rw [← multipleOf (by simp only [placeFrom]; omega), Nat.cast_one, one_mul]
  rw [power, multipleOf coarse] at above ⊢
  have place := zpowPos (placeFrom e)
  have step := Nat.succ_le_of_lt (Nat.cast_lt.mp (lt_of_mul_lt_mul_right above place.le))
  rw [← add_one_mul]
  refine mul_le_mul_of_nonneg_right ?_ place.le
  exact_mod_cast step

theorem gapBelow {x : Finite} {e : Int} (below : x.magnitude < 2 ^ e) :
    x.magnitude ≤ 2 ^ e - 2 ^ (e - 53) := by
  have scale : (2 : ℚ) ^ e = 2 ^ (53 : Int) * 2 ^ (e - 53) := by
    rw [← zpowAdd]
    congr 1
    omega
  have finer := zpowPos (e - 53)
  rw [magnitudePow] at below ⊢
  rcases le_or_gt x.exponent (e - 53) with small | large
  · have bits : (x.significand : ℚ) + 1 ≤ 2 ^ (53 : Int) := by exact_mod_cast x.canonical.1
    have whole := mul_le_mul_of_nonneg_left (zpowMono small) (Nat.cast_nonneg x.significand)
    rw [scale]
    linarith [mul_le_mul_of_nonneg_right bits finer.le]
  · rw [multipleOf large.le] at below ⊢
    rw [scale] at below ⊢
    have less := lt_of_mul_lt_mul_right below finer.le
    have step : ((x.significand * 2 ^ (x.exponent - (e - 53)).toNat : Nat) : ℚ) + 1 ≤
        2 ^ (53 : Int) := by exact_mod_cast less
    linarith [mul_le_mul_of_nonneg_right step finer.le]

theorem belowOne {x : Finite} (positive : 0 < x.toRat) (below : x.toRat < 1) :
    x.toRat ≤ 1 - 2 ^ (-53 : Int) := by
  obtain ⟨_, value⟩ := positiveMagnitude positive
  rw [value, ← zpow_zero (2 : ℚ)] at below ⊢
  exact gapBelow below

theorem powLtNearest {q : ℚ} {e : Int} (least : -1074 ≤ e)
    (above : 2 ^ e + 2 ^ placeFrom e / 2 < q) : 2 ^ e < nearest q := by
  have low : 2 ^ e < q := by linarith [zpowPos (placeFrom e)]
  have positive : 0 < q := (zpowPos e).trans low
  rcases lt_or_ge q (2 ^ (e + 1)) with high | far
  · have place : lastPlace q = placeFrom e := by
      rw [lastPlaceLog positive, logUnique low.le high, placeFrom]
    have error := (abs_le.mp (nearestError positive)).1
    rw [place] at error
    linarith
  · calc (2 : ℚ) ^ e < 2 ^ (e + 1) := zpow_lt_zpow_right₀ one_lt_two (by omega)
      _ ≤ nearest q := powLeNearest (by omega) far

theorem nearestVanishes {q : ℚ} (positive : 0 < q) : nearest q = 0 ↔ q ≤ 2 ^ (-1075 : Int) := by
  have place {r : ℚ} (positive : 0 < r) (small : r < 2 ^ (-1074 : Int)) :
      lastPlace r = -1074 := by
    have log := logBelow positive small
    rw [lastPlaceLog positive]
    omega
  have half : (2 : ℚ) ^ (-1074 : Int) / 2 = 2 ^ (-1075 : Int) := (zpow_sub_one₀ two_ne_zero _).symm
  constructor
  · intro vanishes
    by_contra above
    rcases lt_or_ge q (2 ^ (-1074 : Int)) with small | large
    · have error := (abs_le.mp (nearestError positive)).1
      rw [place positive small, half, vanishes] at error
      linarith
    · have low := powLeNearest (by decide) large
      linarith [zpowPos (-1074)]
  · intro small
    have least : (2 : ℚ) ^ (-1075 : Int) < 2 ^ (-1074 : Int) :=
      zpow_lt_zpow_right₀ one_lt_two (by decide)
    have tie : nearest (2 ^ (-1075 : Int)) = 0 := by
      have even : nearestEven (1 / 2) = 0 := by decide +kernel
      have scale : (2 : ℚ) ^ (-1075 : Int) * 2 ^ (1074 : Int) = 1 / 2 := by
        rw [← zpowAdd]
        norm_num
      rw [nearest, place (zpowPos _) least, neg_neg, scale, even, Nat.cast_zero, zero_mul]
    refine le_antisymm (tie ▸ nearestMono positive small) ?_
    exact mul_nonneg (Nat.cast_nonneg _) (zpowPos _).le

/-! Reciprocals. -/

theorem oneDivRound {x : Finite} (positive : 0 < x.toRat) :
    one.div (.finite x) = round false (1 / x.magnitude) := by
  obtain ⟨unsigned, value⟩ := positiveMagnitude positive
  have nonzero : x.significand ≠ 0 := by
    intro vanishes
    rw [value, magnitudePow, vanishes] at positive
    simp at positive
  have unit : (⟨false, 4503599627370496, -52, by decide⟩ : Finite).magnitude = 1 := by
    rw [magnitudePow]
    norm_num
  simp [oneValue, div, nonzero, isNegative, unsigned, unit]

theorem nearestReciprocal {x : Finite} (positive : 0 < x.magnitude) {e : Int} (least : -1022 ≤ e)
    (most : nearest (1 / x.magnitude) ≤ 2 ^ e) : 2 ^ (-e) ≤ x.magnitude := by
  by_contra less
  have short := gapBelow (not_le.mp less)
  refine absurd most (not_le.mpr (powLtNearest (by omega) ?_))
  have place : placeFrom e = e + -52 := by
    rw [placeFrom]
    omega
  have far : (2 : ℚ) ^ (-e - 53) = 2 ^ (-e) * 2 ^ (-53 : Int) := zpowAdd _ _
  have cancel := zpowCancel e
  have power := zpowPos e
  rw [lt_div_iff₀ positive, place, zpowAdd]
  rw [far] at short
  calc (2 ^ e + 2 ^ e * 2 ^ (-52 : Int) / 2) * x.magnitude
      ≤ (2 ^ e + 2 ^ e * 2 ^ (-52 : Int) / 2) * (2 ^ (-e) - 2 ^ (-e) * 2 ^ (-53 : Int)) :=
        mul_le_mul_of_nonneg_left short (by positivity)
    _ = 2 ^ (-e) * 2 ^ e * ((1 + 2 ^ (-52 : Int) / 2) * (1 - 2 ^ (-53 : Int))) := by ring
    _ < 1 := by
      rw [cancel]
      norm_num

end KeySampling.Binary64
