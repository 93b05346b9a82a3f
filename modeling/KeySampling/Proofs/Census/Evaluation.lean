import KeySampling.Census
import KeySampling.Proofs.Binary64.Operations

/-! What a census claims, in exact numbers. The share of the keys, the estimate, the deviation and
the bounds are each rounded from those before. None of it fails: a share that is not zero is at
least 2^-63, so that no quotient by it is too large. -/
namespace KeySampling

namespace Binary64

theorem belowHuge {q : ℚ} {e : Int} (nonneg : 0 ≤ q) (high : q ≤ 2 ^ e) (small : e < 1023) :
    |q| < huge := by
  rw [abs_of_nonneg nonneg]
  exact lt_of_le_of_lt high (zpow_lt_zpow_right₀ one_lt_two small)

theorem divLePow {p s : ℚ} {a e : Int} (high : p ≤ 2 ^ a) (least : 2 ^ (-63 : Int) ≤ s)
    (sum : e = a + 63) : p / s ≤ 2 ^ e := by
  rw [div_le_iff₀ (lt_of_lt_of_le (zpowPos _) least)]
  calc p ≤ 2 ^ a := high
    _ = 2 ^ e * 2 ^ (-63 : Int) := by rw [← zpowAdd]; congr 1; omega
    _ ≤ 2 ^ e * s := mul_le_mul_of_nonneg_left least (zpowPos _).le

theorem divisionValue {x p : Binary64} {q s : ℚ} {a : Int} (value : x.toRat? = some q)
    (share : p.toRat? = some s) (low : 0 ≤ q) (high : q ≤ 2 ^ a) (small : a < 960)
    (least : 2 ^ (-63 : Int) ≤ s) : (x.div p).toRat? = some (rounded (q / s)) := by
  have positive := lt_of_lt_of_le (zpowPos _) least
  refine divValue value share positive.ne' ?_
  exact belowHuge (div_nonneg low positive.le) (divLePow high least rfl) (by omega)

end Binary64

namespace Census
open Binary64

structure Possible (c : Census) (count : Nat) : Prop where
  low : 0 ≤ c.theta
  high : c.theta ≤ maxTheta
  counted : c.retained = count
  fits : count < 9223372036854775808

def share (c : Census) : ℚ := rounded (c.theta / maxTheta)

section Share
variable {c : Census} {count : Nat}

theorem maxThetaPos : (0 : ℚ) < maxTheta := by norm_num [maxTheta]

theorem shareRange (possible : c.Possible count) : 0 ≤ c.share ∧ c.share ≤ 1 := by
  have low : (0 : ℚ) ≤ c.theta := by exact_mod_cast possible.low
  have high : (c.theta : ℚ) ≤ maxTheta := by exact_mod_cast possible.high
  refine ⟨roundedNonneg (div_nonneg low maxThetaPos.le), ?_⟩
  rw [← roundedOne]
  exact roundedMono ((div_le_one₀ maxThetaPos).mpr high)

theorem shareLeast (positive : 0 < c.theta) : 2 ^ (-63 : Int) ≤ c.share := by
  have whole : (1 : ℚ) ≤ c.theta := by exact_mod_cast positive
  refine powLeRounded (by decide) ?_
  rw [le_div_iff₀ maxThetaPos]
  calc (2 : ℚ) ^ (-63 : Int) * maxTheta ≤ 1 := by norm_num [maxTheta]
    _ ≤ c.theta := whole

theorem shareNone (zero : c.theta = 0) : c.share = 0 := by
  rw [share, zero, Int.cast_zero, zero_div, roundedZero]

theorem shareFull (full : c.theta = maxTheta) : c.share = 1 := by
  rw [share, full, div_self maxThetaPos.ne', roundedOne]

theorem shareZero (possible : c.Possible count) : c.share = 0 ↔ c.theta = 0 := by
  refine ⟨fun zero => ?_, shareNone⟩
  by_contra nonzero
  have least := shareLeast (lt_of_le_of_ne possible.low (Ne.symm nonzero))
  rw [zero] at least
  exact absurd (zpowPos (-63)) (not_lt.mpr least)

theorem probabilityYields (possible : c.Possible count) : Yields c.probability c.share := by
  have low : (0 : ℚ) ≤ c.theta := by exact_mod_cast possible.low
  have high : (c.theta : ℚ) ≤ maxTheta := by exact_mod_cast possible.high
  refine quotientYields (by decide) ?_
  refine belowHuge (e := 0) (div_nonneg low maxThetaPos.le) ?_ (by decide)
  rw [zpow_zero]
  exact (div_le_one₀ maxThetaPos).mpr high

end Share

def estimateAt (c : Census) (count : ℚ) : ℚ :=
  if c.empty = true ∨ c.share = 0 then 0 else rounded (count / c.share)

def lowerAt (count estimate deviation : ℚ) (k : Int) : ℚ :=
  max count (rounded (estimate - rounded (k * deviation)))

def upperAt (estimate deviation : ℚ) (k : Int) : ℚ :=
  rounded (estimate + rounded (k * deviation))

section Evaluation
variable {c : Census} {count : Nat}

theorem retainedRange (possible : c.Possible count) :
    0 ≤ rounded count ∧ rounded count ≤ 2 ^ (63 : Int) := by
  refine ⟨roundedNonneg (Nat.cast_nonneg _), roundedLePow (by decide) ?_⟩
  norm_num
  exact_mod_cast possible.fits.le

theorem retainedYields (possible : c.Possible count) :
    Yields (ofInt? c.retained) (rounded count) := by
  rw [possible.counted]
  exact countYields possible.fits

theorem estimateRange (possible : c.Possible count) :
    0 ≤ c.estimateAt (rounded count) ∧ c.estimateAt (rounded count) ≤ 2 ^ (126 : Int) := by
  rw [estimateAt]
  split
  · exact ⟨le_refl 0, (zpowPos _).le⟩
  rename_i shown
  obtain ⟨low, high⟩ := retainedRange possible
  have positive : 0 < c.theta := lt_of_le_of_ne possible.low fun zero =>
    shown (.inr (shareNone zero.symm))
  exact ⟨roundedNonneg (div_nonneg low (shareRange possible).1),
    roundedLePow (by decide) (divLePow high (shareLeast positive) rfl)⟩

theorem estimateYields (possible : c.Possible count) :
    Yields c.estimate (c.estimateAt (rounded count)) := by
  obtain ⟨low, high⟩ := retainedRange possible
  obtain ⟨p, known, value⟩ := probabilityYields possible
  obtain ⟨n, converted, value'⟩ := retainedYields possible
  rw [estimate, estimateAt]
  by_cases empty : c.empty = true
  · simp only [empty, if_true, true_or]
    exact ⟨_, rfl, zeroValue false⟩
  simp only [empty, known, bind, Except.bind, false_or, Bool.false_eq_true, if_false]
  by_cases unshared : c.share = 0
  · rw [if_pos ((isZeroValue value).mpr unshared), if_pos unshared]
    exact ⟨_, rfl, zeroValue false⟩
  · rw [if_neg (mt (isZeroValue value).mp unshared), if_neg unshared, converted]
    have positive := lt_of_le_of_ne possible.low (Ne.symm (mt (shareZero possible).mpr unshared))
    exact ⟨_, rfl, divisionValue value' value low high (by decide) (shareLeast positive)⟩

theorem varianceValue {n p : Binary64} {m : Nat} {s : ℚ} (converted : n.toRat? = some (rounded m))
    (positive : 1 ≤ m) (fits : m < 9223372036854775808) (known : p.toRat? = some s) (low : 0 ≤ s)
    (high : s ≤ 1) : ∃ v, (n.mul (one.sub p)).toRat? = some v ∧ 0 ≤ v ∧ (s < 1 → 0 < v) := by
  have left : 0 ≤ 1 - s ∧ 1 - s ≤ 2 ^ (0 : Int) := by
    rw [zpow_zero]
    constructor <;> linarith
  have rest := subValue oneRational known (belowHuge left.1 left.2 (by decide))
  have restLow := roundedNonneg left.1
  have restHigh := roundedLePow (by decide) left.2
  have whole : (1 : ℚ) ≤ rounded m := by
    rw [← roundedOne]
    exact roundedMono (by exact_mod_cast positive)
  have most : rounded m ≤ 2 ^ (63 : Int) := by
    refine roundedLePow (by decide) ?_
    norm_num
    exact_mod_cast fits.le
  have product : rounded m * rounded (1 - s) ≤ 2 ^ (63 : Int) :=
    calc rounded m * rounded (1 - s) ≤ 2 ^ (63 : Int) * 2 ^ (0 : Int) :=
          mul_le_mul most restHigh restLow (zpowPos _).le
      _ = 2 ^ (63 : Int) := (zpowAdd _ _).symm
  have nonneg := mul_nonneg (zero_le_one.trans whole) restLow
  refine ⟨_, mulValue converted rest (belowHuge nonneg product (by decide)),
    roundedNonneg nonneg, fun below => ?_⟩
  have gap := powLeRounded (by decide) (gapBelowOne known below)
  refine lt_of_lt_of_le (zpowPos (-53)) (powLeRounded (by decide) ?_)
  exact gap.trans (le_mul_of_one_le_left restLow whole)

theorem deviationYields (possible : c.Possible count) : ∃ δ, Yields c.deviation δ ∧ 0 ≤ δ ∧
    δ ≤ 2 ^ (575 : Int) ∧ (0 < c.share → c.share < 1 → 0 < δ) := by
  obtain ⟨p, known, value⟩ := probabilityYields possible
  obtain ⟨low, high⟩ := shareRange possible
  have fits : max count 1 < 9223372036854775808 := max_lt possible.fits (by decide)
  obtain ⟨n, converted, value'⟩ := countYields fits
  have most : max c.retained 1 = (max count 1 : Nat) := by rw [possible.counted]; omega
  rw [deviation, known, most, converted]
  simp only [bind, Except.bind]
  by_cases unshared : c.share = 0
  · rw [if_pos ((isZeroValue value).mpr unshared)]
    exact ⟨0, ⟨_, rfl, zeroValue false⟩, le_refl 0, (zpowPos _).le,
      fun positive => absurd unshared positive.ne'⟩
  rw [if_neg (mt (isZeroValue value).mp unshared)]
  have positive := lt_of_le_of_ne possible.low (Ne.symm (mt (shareZero possible).mpr unshared))
  have least := shareLeast positive
  obtain ⟨v, varies, nonneg, varying⟩ :=
    varianceValue value' (le_max_right count 1) fits value low high
  obtain ⟨r, root, rootLow, rootHigh, rootPos⟩ := sqrtValue varies nonneg
  refine ⟨_, ⟨_, rfl, divisionValue root value rootLow rootHigh (by decide) least⟩,
    roundedNonneg (div_nonneg rootLow low),
    roundedLePow (by decide) (divLePow rootHigh least rfl), fun positive below => ?_⟩
  have larger : r ≤ r / c.share := (le_div_iff₀ positive).mpr (mul_le_of_le_one_right rootLow high)
  calc 0 < r := rootPos (varying below)
    _ = rounded r := (valueOwn root).symm
    _ ≤ rounded (r / c.share) := roundedMono larger

theorem deviationsYield {k : Int} (asked : k = 1 ∨ k = 2 ∨ k = 3) : Yields (deviations k) k := by
  rw [deviations, if_pos asked]
  refine ⟨_, rfl, ?_⟩
  rcases asked with rfl | rfl | rfl <;> decide +kernel

theorem spreadValue {x y : Binary64} {k : Int} {δ : ℚ} (asked : k = 1 ∨ k = 2 ∨ k = 3)
    (times : x.toRat? = some (k : ℚ)) (deviated : y.toRat? = some δ) (nonneg : 0 ≤ δ)
    (most : δ ≤ 2 ^ (575 : Int)) : (x.mul y).toRat? = some (rounded (k * δ)) ∧
      0 ≤ rounded (k * δ) ∧ rounded (k * δ) ≤ 2 ^ (577 : Int) := by
  have low : (0 : ℚ) ≤ k := by rcases asked with rfl | rfl | rfl <;> norm_num
  have high : (k : ℚ) ≤ 2 ^ (2 : Int) := by rcases asked with rfl | rfl | rfl <;> norm_num
  have product : k * δ ≤ 2 ^ (577 : Int) :=
    calc k * δ ≤ 2 ^ (2 : Int) * 2 ^ (575 : Int) := mul_le_mul high most nonneg (zpowPos _).le
      _ = 2 ^ (577 : Int) := (zpowAdd _ _).symm
  have nonneg' := mul_nonneg low nonneg
  exact ⟨mulValue times deviated (belowHuge nonneg' product (by decide)),
    roundedNonneg nonneg', roundedLePow (by decide) product⟩

theorem withinHuge {p q : ℚ} (low : 0 ≤ p) (high : p ≤ 2 ^ (126 : Int)) (low' : 0 ≤ q)
    (high' : q ≤ 2 ^ (577 : Int)) : |p + q| < huge ∧ |p - q| < huge := by
  have less : p < 2 ^ (1022 : Int) :=
    lt_of_le_of_lt high (zpow_lt_zpow_right₀ one_lt_two (by decide))
  have less' : q < 2 ^ (1022 : Int) :=
    lt_of_le_of_lt high' (zpow_lt_zpow_right₀ one_lt_two (by decide))
  have double : huge = 2 ^ (1022 : Int) + 2 ^ (1022 : Int) := by
    rw [← two_mul, huge, show (1023 : Int) = 1 + 1022 from rfl, zpowAdd, zpow_one]
  rw [double]
  generalize (2 : ℚ) ^ (1022 : Int) = half at less less'
  rw [abs_lt, abs_lt]
  refine ⟨⟨?_, ?_⟩, ⟨?_, ?_⟩⟩ <;> linarith

theorem boundsYield (possible : c.Possible count) : ∃ δ, Yields c.deviation δ ∧ 0 ≤ δ ∧
    (0 < c.share → c.share < 1 → 0 < δ) ∧ ∀ k : Int, k = 1 ∨ k = 2 ∨ k = 3 →
      Yields (c.lowerBound k) (if c.isSampled = true
        then lowerAt (rounded count) (c.estimateAt (rounded count)) δ k else rounded count) ∧
      Yields (c.upperBound k) (if c.isSampled = true
        then upperAt (c.estimateAt (rounded count)) δ k else rounded count) := by
  obtain ⟨δ, ⟨d, deviated, deviation⟩, nonneg, most, positive⟩ := deviationYields possible
  obtain ⟨low, high⟩ := estimateRange possible
  obtain ⟨e, estimated, estimate⟩ := estimateYields possible
  obtain ⟨n, converted, retained⟩ := retainedYields possible
  refine ⟨δ, ⟨d, deviated, deviation⟩, nonneg, positive, fun k asked => ?_⟩
  obtain ⟨x, known, times⟩ := deviationsYield asked
  obtain ⟨spread, spreadLow, spreadHigh⟩ := spreadValue asked times deviation nonneg most
  obtain ⟨sum, difference⟩ := withinHuge low high spreadLow spreadHigh
  simp only [lowerBound, upperBound, known, estimated, deviated, converted, bind, Except.bind]
  by_cases sampled : c.isSampled = true
  · simp only [sampled, if_true]
    exact ⟨⟨_, rfl, largerValue retained (subValue estimate spread difference)⟩,
      ⟨_, rfl, addValue estimate spread sum⟩⟩
  · simp only [sampled, Bool.false_eq_true, if_false]
    exact ⟨⟨n, rfl, retained⟩, ⟨n, rfl, retained⟩⟩

end Evaluation
end Census
end KeySampling
