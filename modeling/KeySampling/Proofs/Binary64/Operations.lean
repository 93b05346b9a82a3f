import KeySampling.Binary64.Arithmetic
import KeySampling.Binary64.Order
import KeySampling.Datum.Number
import KeySampling.Proofs.Binary64.Spacing
import Mathlib.Algebra.Order.Group.Unbundled.Abs

/-! What the operations yield on finite numbers: the exact result, rounded once, as long as it is
not too large. Rounding keeps order and changes no number, and these two facts are all that bounds
on a computation need. Square roots are only enclosed: they are never too large or vanish. -/
namespace KeySampling.Binary64

/-- The number nearest to a rational, whatever its sign and size. -/
def rounded (q : ℚ) : ℚ := if q < 0 then -nearest (-q) else nearest q

theorem nearestZero : nearest 0 = 0 := by
  have even := nearestEvenNat 0
  rw [Nat.cast_zero] at even
  rw [nearest, zero_mul, even, Nat.cast_zero, zero_mul]

theorem nearestNonneg (q : ℚ) : 0 ≤ nearest q := mul_nonneg (Nat.cast_nonneg _) (zpowPos _).le

theorem roundedNearest {q : ℚ} (nonneg : 0 ≤ q) : rounded q = nearest q :=
  if_neg (not_lt.mpr nonneg)

theorem roundedZero : rounded 0 = 0 := by rw [roundedNearest (le_refl 0), nearestZero]

theorem roundedNeg (q : ℚ) : rounded (-q) = -rounded q := by
  rcases lt_trichotomy q 0 with negative | rfl | positive
  · rw [rounded, if_neg (by linarith), rounded, if_pos negative, neg_neg]
  · rw [neg_zero, roundedZero, neg_zero]
  · rw [rounded, if_pos (by linarith), rounded, if_neg (by linarith), neg_neg]

theorem roundedMono {p q : ℚ} (le : p ≤ q) : rounded p ≤ rounded q := by
  rcases lt_or_ge p 0 with negative | nonneg
  · rcases lt_or_ge q 0 with negative' | nonneg'
    · rw [rounded, rounded, if_pos negative, if_pos negative', neg_le_neg_iff]
      exact nearestMono (by linarith) (neg_le_neg le)
    · rw [rounded, if_pos negative, roundedNearest nonneg']
      linarith [nearestNonneg (-p), nearestNonneg q]
  · rw [roundedNearest nonneg, roundedNearest (nonneg.trans le)]
    rcases nonneg.eq_or_lt with rfl | positive
    · rw [nearestZero]
      exact nearestNonneg q
    · exact nearestMono positive le

theorem roundedNonneg {q : ℚ} (nonneg : 0 ≤ q) : 0 ≤ rounded q := by
  have mono := roundedMono nonneg
  rwa [roundedZero] at mono

theorem roundedPow {e : Int} (least : -1074 ≤ e) : rounded (2 ^ e) = 2 ^ e := by
  rw [roundedNearest (zpowPos e).le, nearestPow least]

theorem roundedLePow {q : ℚ} {e : Int} (least : -1074 ≤ e) (high : q ≤ 2 ^ e) :
    rounded q ≤ 2 ^ e := by
  rw [← roundedPow least]
  exact roundedMono high

theorem powLeRounded {q : ℚ} {e : Int} (least : -1074 ≤ e) (low : 2 ^ e ≤ q) :
    2 ^ e ≤ rounded q := by
  rw [← roundedPow least]
  exact roundedMono low

theorem roundedOne : rounded 1 = 1 := by simpa using roundedPow (e := 0) (by decide)

theorem roundedWhole {n : Nat} (few : n ≤ 9007199254740992) : rounded n = n := by
  rw [roundedNearest (Nat.cast_nonneg n)]
  rcases Nat.eq_zero_or_pos n with rfl | positive
  · rw [Nat.cast_zero, nearestZero]
  · exact nearestWhole positive few

theorem signedMagnitude (x : Finite) :
    x.toRat = if x.negative then -x.magnitude else x.magnitude := by
  split
  · rename_i negative
    exact negativeValue negative
  · rename_i positive
    exact positiveValue (Bool.eq_false_of_not_eq_true positive)

theorem roundedOwn (x : Finite) : rounded x.toRat = x.toRat := by
  have own : rounded x.magnitude = x.magnitude := by
    rw [roundedNearest (magnitudeNonneg x)]
    rcases (magnitudeNonneg x).eq_or_lt with zero | positive
    · rw [← zero, nearestZero]
    · exact nearestOwn positive
  rw [signedMagnitude]
  split
  · rw [roundedNeg, own]
  · exact own

theorem valueOwn {x : Binary64} {q : ℚ} (value : x.toRat? = some q) : rounded q = q := by
  cases x with
  | nan | infinite _ => simp [toRat?] at value
  | finite x =>
    simp only [toRat?, Option.some.injEq] at value
    rw [← value, roundedOwn]

/-! The operations. -/

theorem zeroValue (negative : Bool) : (zero negative).toRat? = some 0 := by
  simp [zero, toRat?, signedMagnitude, magnitudePow]

theorem oneRational : one.toRat? = some 1 := by
  rw [oneValue, toRat?, positiveValue rfl, magnitudePow]
  norm_num

def huge : ℚ := 2 ^ (1023 : Int)

theorem roundValue {negative : Bool} {m q : ℚ} (nonneg : 0 ≤ m)
    (signed : q = if negative then -m else m) (small : |q| < huge) :
    (round negative m).toRat? = some (rounded q) := by
  have size : |q| = m := by
    rw [signed]
    cases negative <;> simp [abs_of_nonneg nonneg]
  have value : rounded q = if negative then -nearest m else nearest m := by
    rw [signed]
    cases negative <;> simp [roundedNeg, roundedNearest nonneg]
  rw [size] at small
  rw [value]
  rcases nonneg.eq_or_lt with rfl | positive
  · simp [round, zeroValue, nearestZero]
  · have bound := logBelow positive small
    obtain ⟨x, made, sign, same⟩ := roundNearest negative positive (by omega)
    rw [made, toRat?, signedMagnitude, sign, same]

theorem ofRatValue {q : ℚ} (small : |q| < huge) : (ofRat q).toRat? = some (rounded q) := by
  by_cases negative : q < 0
  · have same : Rat.abs q = -q := if_neg (not_le.mpr negative)
    rw [ofRat, same, decide_eq_true negative]
    exact roundValue (by linarith) (by simp) small
  · have same : Rat.abs q = q := if_pos (not_lt.mp negative)
    rw [ofRat, same, decide_eq_false negative]
    exact roundValue (not_lt.mp negative) (by simp) small

section Operations
variable {x y : Binary64} {p q : ℚ}

theorem finiteOf (value : x.toRat? = some p) : ∃ a : Finite, x = .finite a ∧ a.toRat = p := by
  cases x with
  | nan | infinite _ => simp [toRat?] at value
  | finite a => exact ⟨a, rfl, Option.some.inj value⟩

theorem isZeroValue (left : x.toRat? = some p) : x.isZero = true ↔ p = 0 := by
  obtain ⟨a, rfl, rfl⟩ := finiteOf left
  have power := (zpowPos a.exponent).ne'
  rw [signedMagnitude, magnitudePow, isZero, beq_iff_eq]
  split <;> simp [power]

theorem negValue (left : x.toRat? = some p) : x.neg.toRat? = some (-p) := by
  obtain ⟨a, rfl, rfl⟩ := finiteOf left
  have same : ({ a with negative := !a.negative } : Finite).magnitude = a.magnitude := rfl
  rw [neg, toRat?, signedMagnitude, signedMagnitude, same]
  cases a.negative <;> simp

theorem addValue (left : x.toRat? = some p) (right : y.toRat? = some q)
    (small : |p + q| < huge) : (x.add y).toRat? = some (rounded (p + q)) := by
  obtain ⟨a, rfl, rfl⟩ := finiteOf left
  obtain ⟨b, rfl, rfl⟩ := finiteOf right
  rw [add]
  split
  · rename_i zero
    rw [zero, zeroValue, roundedZero]
  · exact ofRatValue small

theorem subValue (left : x.toRat? = some p) (right : y.toRat? = some q)
    (small : |p - q| < huge) : (x.sub y).toRat? = some (rounded (p - q)) := by
  rw [sub_eq_add_neg] at small ⊢
  exact addValue left (negValue right) small

theorem mulValue (left : x.toRat? = some p) (right : y.toRat? = some q)
    (small : |p * q| < huge) : (x.mul y).toRat? = some (rounded (p * q)) := by
  obtain ⟨a, rfl, rfl⟩ := finiteOf left
  obtain ⟨b, rfl, rfl⟩ := finiteOf right
  refine roundValue (mul_nonneg (magnitudeNonneg a) (magnitudeNonneg b)) ?_ small
  rw [signedMagnitude, signedMagnitude]
  cases left : a.negative <;> cases right : b.negative <;> simp [isNegative, left, right]

theorem divValue (left : x.toRat? = some p) (right : y.toRat? = some q) (nonzero : q ≠ 0)
    (small : |p / q| < huge) : (x.div y).toRat? = some (rounded (p / q)) := by
  have divisor := mt (isZeroValue right).mp nonzero
  obtain ⟨a, rfl, rfl⟩ := finiteOf left
  obtain ⟨b, rfl, rfl⟩ := finiteOf right
  have bits : b.significand ≠ 0 := by simpa [isZero] using divisor
  rw [div, if_neg bits]
  refine roundValue (div_nonneg (magnitudeNonneg a) (magnitudeNonneg b)) ?_ small
  rw [signedMagnitude, signedMagnitude]
  cases left : a.negative <;> cases right : b.negative <;>
    simp [isNegative, left, right, neg_div, div_neg]

theorem ltValue (left : x.toRat? = some p) (right : y.toRat? = some q) :
    x.lt y = decide (p < q) := by
  obtain ⟨a, rfl, rfl⟩ := finiteOf left
  obtain ⟨b, rfl, rfl⟩ := finiteOf right
  rfl

theorem largerValue (left : x.toRat? = some p) (right : y.toRat? = some q) :
    (x.larger y).toRat? = some (max p q) := by
  rw [larger, ltValue left right]
  by_cases below : p < q
  · rw [decide_eq_true below, if_pos rfl, max_eq_right below.le]
    exact right
  · rw [decide_eq_false below, if_neg Bool.false_ne_true, max_eq_left (not_lt.mp below)]
    exact left

end Operations

theorem gapBelowOne {x : Binary64} {q : ℚ} (value : x.toRat? = some q) (below : q < 1) :
    2 ^ (-53 : Int) ≤ 1 - q := by
  obtain ⟨a, rfl, rfl⟩ := finiteOf value
  rcases lt_or_ge 0 a.toRat with positive | nonpos
  · linarith [belowOne positive below]
  · have power : (2 : ℚ) ^ (-53 : Int) ≤ 2 ^ (0 : Int) := zpowMono (by decide)
    rw [zpow_zero] at power
    linarith

/-! Square roots. -/

theorem rootWitnessCut (significand : Nat) (exponent : Int) :
    let shift := 110 + (exponent % 2).toNat
    let root := (significand * pow2 shift).sqrt
    let half := (exponent - shift) / 2
    root * 2 ^ half ≤ rootWitness significand exponent ∧
      rootWitness significand exponent ≤ (root + 1) * 2 ^ half := by
  intro shift root half
  have power := zpowPos half
  have last : (2 : ℚ) ^ (half - 1) = 2 ^ half / 2 := by
    rw [zpow_sub_one₀ two_ne_zero]
    rfl
  rw [rootWitness]
  split
  · rw [scaledZpow, Int.cast_natCast]
    constructor <;> linarith
  · rw [scaledZpow, last]
    push_cast
    constructor <;> linarith

theorem rootWitnessRange {significand : Nat} {exponent : Int} (positive : 0 < significand)
    (bits : significand < 9007199254740992) (least : -1074 ≤ exponent) (most : exponent ≤ 971) :
    2 ^ (-593 : Int) ≤ rootWitness significand exponent ∧
      rootWitness significand exponent ≤ 2 ^ (512 : Int) := by
  obtain ⟨low, high⟩ := rootWitnessCut significand exponent
  generalize shifted : 110 + (exponent % 2).toNat = shift at low high
  have whole : 1 ≤ (significand * pow2 shift).sqrt :=
    Nat.sqrt_pos.mpr (Nat.mul_pos positive (pow2Pos shift))
  have few : (significand * pow2 shift).sqrt + 1 ≤ pow2 82 := by
    have radicand : significand * pow2 shift < pow2 53 * pow2 111 :=
      Nat.mul_lt_mul_of_lt_of_le bits (pow2Mono (by omega)) (pow2Pos _)
    exact Nat.sqrt_lt'.mpr radicand
  constructor
  · calc (2 : ℚ) ^ (-593 : Int) ≤ 2 ^ ((exponent - shift) / 2) := zpowMono (by omega)
      _ ≤ (significand * pow2 shift).sqrt * 2 ^ ((exponent - shift) / 2) :=
        le_mul_of_one_le_left (zpowPos _).le (by exact_mod_cast whole)
      _ ≤ rootWitness significand exponent := low
  · calc rootWitness significand exponent
        ≤ ((significand * pow2 shift).sqrt + 1) * 2 ^ ((exponent - shift) / 2) := high
      _ ≤ 2 ^ (82 : Int) * 2 ^ (430 : Int) := by
        refine mul_le_mul ?_ (zpowMono (by omega)) (zpowPos _).le (zpowPos _).le
        exact_mod_cast few
      _ = 2 ^ (512 : Int) := (zpowAdd _ _).symm

theorem sqrtValue {x : Binary64} {q : ℚ} (value : x.toRat? = some q) (nonneg : 0 ≤ q) :
    ∃ r, x.sqrt.toRat? = some r ∧ 0 ≤ r ∧ r ≤ 2 ^ (512 : Int) ∧ (0 < q → 0 < r) := by
  obtain ⟨a, rfl, rfl⟩ := finiteOf value
  obtain ⟨bits, least, most, _⟩ := a.canonical
  by_cases vanishes : a.significand = 0
  · have zero : a.toRat = 0 := by simp [signedMagnitude, magnitudePow, vanishes]
    rw [zero] at value ⊢
    rw [sqrt, if_pos vanishes]
    exact ⟨0, value, le_refl 0, (zpowPos _).le, id⟩
  have bitsPositive : 0 < a.significand := Nat.pos_of_ne_zero vanishes
  have unsigned : ¬ a.negative = true := by
    intro negative
    have magnitude := mul_pos (Nat.cast_pos.mpr bitsPositive) (zpowPos a.exponent)
    rw [negativeValue negative, magnitudePow] at nonneg
    linarith
  rw [sqrt, if_neg vanishes, if_neg unsigned]
  obtain ⟨low, high⟩ := rootWitnessRange bitsPositive bits least most
  have positive := lt_of_lt_of_le (zpowPos _) low
  have small : |rootWitness a.significand a.exponent| < huge := by
    rw [abs_of_pos positive]
    exact lt_of_le_of_lt high (zpow_lt_zpow_right₀ one_lt_two (by decide))
  have root := lt_of_lt_of_le (zpowPos (-593)) (powLeRounded (by decide) low)
  exact ⟨_, roundValue positive.le (by simp) small, root.le, roundedLePow (by decide) high,
    fun _ => root⟩

/-! Computations that may fail. -/

/-- A computation that comes to a finite number of a given exact value. -/
def Yields (r : Except Fault Binary64) (q : ℚ) : Prop := ∃ x, r = .ok x ∧ x.toRat? = some q

theorem yieldsOwn {r : Except Fault Binary64} {q : ℚ} (yields : Yields r q) : rounded q = q := by
  obtain ⟨_, _, value⟩ := yields
  exact valueOwn value

theorem countYields {n : Nat} (fits : n < 9223372036854775808) :
    Yields (ofInt? n) (rounded n) := by
  refine ⟨_, ofIntFits fits, ofRatValue ?_⟩
  have small : (n : ℚ) < 2 ^ (63 : Int) := by
    norm_num
    exact_mod_cast fits
  rw [Int.cast_natCast, abs_of_nonneg (Nat.cast_nonneg n)]
  exact lt_of_lt_of_le small (zpowMono (by decide))

theorem quotientYields {n d : Int} (nonzero : d ≠ 0) (small : |(n : ℚ) / d| < huge) :
    Yields (quotient n d) (rounded (n / d)) := by
  have value := ofRatValue small
  obtain ⟨a, made, _⟩ := finiteOf value
  refine ⟨_, ?_, value⟩
  rw [quotient, if_neg nonzero, ofQuotient, made]
  rfl

end KeySampling.Binary64
