import KeySampling.Datum.Equality
import KeySampling.Proofs.Binary64.Spacing
import KeySampling.Proofs.KeyTable.Sizing
import KeySampling.Proofs.Sketch.Retention

/-! The threshold a sketch starts with. A probability below one is a 53-bit number, so its product
with 2^63 is exact and falls short of the largest threshold. -/
namespace KeySampling

namespace Binary64

theorem maxThetaValue : ofInt maxTheta = .finite ⟨false, 4503599627370496, 11, by decide⟩ := by
  decide +kernel

theorem shareOfMaxTheta {x : Finite} (positive : 0 < x.toRat) (below : x.toRat < 1) :
    ∃ y : Finite, (Binary64.finite x).mul (ofInt maxTheta) = .finite y ∧
      y.toRat = x.toRat * 2 ^ (63 : Int) := by
  obtain ⟨unsigned, value⟩ := positiveMagnitude positive
  rw [value] at positive below ⊢
  have top : (⟨false, 4503599627370496, 11, by decide⟩ : Finite).magnitude = 2 ^ (63 : Int) := by
    rw [magnitudePow]
    norm_num
  have product : x.magnitude * 2 ^ (63 : Int) = x.significand * 2 ^ (x.exponent + 63) := by
    rw [magnitudePow, mul_assoc, ← zpowAdd]
  have bits : 0 < x.significand := by
    rw [magnitudePow] at positive
    exact_mod_cast pos_of_mul_pos_left positive (zpowPos _).le
  have exact' : nearest (x.magnitude * 2 ^ (63 : Int)) = x.magnitude * 2 ^ (63 : Int) := by
    rw [product]
    refine nearestExact _ bits x.canonical.1 ?_
    have := x.canonical.2.1
    omega
  have small : x.magnitude * 2 ^ (63 : Int) < 2 ^ (63 : Int) :=
    mul_lt_of_lt_one_left (zpowPos _) below
  have positive' : 0 < x.magnitude * 2 ^ (63 : Int) := mul_pos positive (zpowPos _)
  have bound := logBelow positive' small
  obtain ⟨y, rounded, sign, nearest⟩ := roundNearest false positive' (by omega)
  refine ⟨y, ?_, by rw [positiveValue sign, nearest, exact']⟩
  rw [maxThetaValue, mul]
  simpa [isNegative, unsigned, top] using rounded

end Binary64

theorem fractionRange {p : Binary64} (accepted : (Datum.float p).isFraction true = .ok true) :
    ∃ x : Binary64.Finite, p = .finite x ∧ 0 < x.toRat ∧
      (Binary64.one.le p = true ∧ x.toRat = 1 ∨ ¬ Binary64.one.le p = true ∧ x.toRat < 1) := by
  have zero : (⟨false, 0, -1074, by decide⟩ : Binary64.Finite).toRat = 0 := by
    rw [Binary64.positiveValue rfl, Binary64.magnitudePow]
    norm_num
  have whole : (⟨false, 4503599627370496, -52, by decide⟩ : Binary64.Finite).toRat = 1 := by
    rw [Binary64.positiveValue rfl, Binary64.magnitudePow]
    norm_num
  cases p with
  | nan => simp [Datum.isFraction, Binary64.lt, Binary64.zero] at accepted
  | infinite negative =>
    cases negative <;>
      simp [Binary64.lt, Binary64.eqv, Binary64.oneValue, Datum.isFraction, Binary64.zero]
        at accepted
  | finite x =>
    simp only [Datum.isFraction, Binary64.zero, Binary64.oneValue, Binary64.lt, Binary64.eqv, zero,
      whole, Bool.true_and, Except.ok.injEq, Bool.and_eq_true, Bool.or_eq_true,
      decide_eq_true_eq] at accepted
    obtain ⟨positive, most⟩ := accepted
    simp only [Binary64.oneValue, Binary64.le, Binary64.lt, Binary64.eqv, whole, Bool.or_eq_true,
      decide_eq_true_eq]
    rcases most with less | same
    · exact ⟨x, rfl, positive, .inr ⟨by rintro (more | same) <;> linarith, less⟩⟩
    · exact ⟨x, rfl, positive, .inl ⟨.inr same.symm, same⟩⟩

theorem sameAsOne (x : Binary64.Finite) :
    (Datum.float (.finite x)).same (.int 1) = decide (x.toRat = 1) := by
  simp [Datum.same, Datum.sameScalar, Datum.integer?, Datum.content?, Binary64.toRat?]

theorem thetaForShare {x : Binary64.Finite} (positive : 0 < x.toRat) (less : x.toRat < 1)
    (below : ¬ Binary64.one.le (.finite x) = true) :
    thetaFor (.float (.finite x)) = (x.toRat * 2 ^ (63 : Int)).floor := by
  obtain ⟨y, product, value⟩ := Binary64.shareOfMaxTheta positive less
  have nonneg : 0 ≤ x.toRat * 2 ^ (63 : Int) := mul_nonneg positive.le (Binary64.zpowPos _).le
  rw [thetaFor, if_neg below, product, Binary64.truncate?, Binary64.toRat?, Option.map_some,
    Option.getD_some, value, if_neg (not_lt.mpr nonneg)]

theorem shareBelowTop {x : Binary64.Finite} (positive : 0 < x.toRat) (less : x.toRat < 1) :
    x.toRat * 2 ^ (63 : Int) ≤ 9223372036854774784 := by
  have far := Binary64.belowOne positive less
  norm_num at far ⊢
  linarith

theorem thetaForNonneg {probability : Datum} (accepted : probability.isFraction true = .ok true) :
    0 ≤ thetaFor probability := by
  cases probability with
  | bool _ | int _ => exact (by decide : 0 ≤ maxTheta)
  | float p =>
    obtain ⟨x, rfl, positive, ⟨full, _⟩ | ⟨below, less⟩⟩ := fractionRange accepted
    · rw [thetaFor, if_pos full]
      decide
    · rw [thetaForShare positive less below, Rat.le_floor_iff, Int.cast_zero]
      exact (mul_pos positive (Binary64.zpowPos _)).le
  | _ => simp [Datum.isFraction] at accepted

theorem thetaForOne {probability : Datum} (accepted : probability.isFraction true = .ok true) :
    thetaFor probability ≤ maxTheta ∧
      (thetaFor probability = maxTheta ↔ probability.same (.int 1) = true) := by
  cases probability with
  | bool value =>
    cases value with
    | false => simp [Datum.isFraction] at accepted
    | true => exact ⟨le_refl _, by decide⟩
  | int value =>
    simp only [Datum.isFraction, Bool.and_true, Except.ok.injEq, decide_eq_true_eq] at accepted
    subst accepted
    exact ⟨le_refl _, by decide⟩
  | float p =>
    obtain ⟨x, rfl, positive, ⟨full, one⟩ | ⟨below, less⟩⟩ := fractionRange accepted
    · simp [thetaFor, full, sameAsOne, one]
    · have under : thetaFor (.float (.finite x)) < maxTheta := by
        rw [thetaForShare positive less below, Rat.floor_lt_iff, maxTheta]
        exact lt_of_le_of_lt (shareBelowTop positive less) (by norm_num)
      simp [under.le, under.ne, sameAsOne, less.ne]
  | _ => simp [Datum.isFraction] at accepted

namespace Config

theorem acceptedTheta {settings : Settings} {config : Config}
    (accepted : Config.ofSettings settings = .ok config) : config.initialTheta ≤ maxTheta := by
  obtain ⟨_, fraction, rfl⟩ := acceptedSettings accepted
  exact (thetaForOne fraction).1

theorem acceptedFloor {settings : Settings} {config : Config}
    (accepted : Config.ofSettings settings = .ok config) : 0 ≤ config.initialTheta := by
  obtain ⟨_, fraction, rfl⟩ := acceptedSettings accepted
  exact thetaForNonneg fraction

theorem acceptedWhole {settings : Settings} {config : Config}
    (accepted : Config.ofSettings settings = .ok config) :
    config.initialTheta = maxTheta ↔ settings.probability.same (.int 1) = true := by
  obtain ⟨_, fraction, rfl⟩ := acceptedSettings accepted
  exact (thetaForOne fraction).2

end Config
end KeySampling
