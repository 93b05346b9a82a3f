import KeySampling.Binary64.Basic
import KeySampling.Proofs.PowersOfTwo
import Mathlib.Data.Int.Log
import Mathlib.Data.Rat.Floor
import Mathlib.Tactic.Linarith
import Mathlib.Tactic.FieldSimp
import Mathlib.Tactic.Positivity
import Mathlib.Tactic.NormNum

/-! Rounding of positive rationals to 53 significant bits. It keeps order and changes no number
of the grid, so whatever lies above a number of the grid is rounded to something above it. -/
namespace KeySampling

theorem scaledZpow (n e : Int) : scaled n e = (n : ℚ) * 2 ^ e := by
  cases e with
  | ofNat k => simp [scaled, pow2Pow]
  | negSucc k =>
    simp only [scaled, Rat.mkRat_eq_div, pow2Pow, zpow_negSucc]
    push_cast
    rw [div_eq_mul_inv]

namespace Binary64

theorem zpowPos (e : Int) : (0 : ℚ) < 2 ^ e := zpow_pos (by norm_num) e

theorem zpowMono {m n : Int} (le : m ≤ n) : (2 : ℚ) ^ m ≤ 2 ^ n :=
  zpow_le_zpow_right₀ (by norm_num) le

theorem zpowAdd (m n : Int) : (2 : ℚ) ^ (m + n) = 2 ^ m * 2 ^ n := zpow_add₀ (by norm_num) m n

theorem zpowCancel (e : Int) : (2 : ℚ) ^ (-e) * 2 ^ e = 1 := by
  rw [← zpowAdd, neg_add_cancel, zpow_zero]

theorem logLow {q : ℚ} (positive : 0 < q) : (2 : ℚ) ^ Int.log 2 q ≤ q := by
  exact_mod_cast Int.zpow_log_le_self (b := 2) (by norm_num) positive

theorem logHigh (q : ℚ) : q < (2 : ℚ) ^ (Int.log 2 q + 1) := by
  exact_mod_cast Int.lt_zpow_succ_log_self (b := 2) (by norm_num) q

theorem logBelow {q : ℚ} {e : Int} (positive : 0 < q) (below : q < 2 ^ e) : Int.log 2 q < e :=
  (Int.lt_zpow_iff_log_lt (b := 2) (by norm_num) positive).mp (by exact_mod_cast below)

theorem logUnique {q : ℚ} {e : Int} (low : (2 : ℚ) ^ e ≤ q) (high : q < 2 ^ (e + 1)) :
    Int.log 2 q = e := by
  have positive : 0 < q := lt_of_lt_of_le (zpowPos e) low
  refine le_antisymm (Int.lt_add_one_iff.mp ?_) ?_
  · exact logBelow positive high
  · exact (Int.zpow_le_iff_le_log (b := 2) (by norm_num) positive).mp (by exact_mod_cast low)

theorem quotientLog {n d : ℚ} {a b : Int} (lowTop : 2 ^ a ≤ n) (highTop : n < 2 ^ (a + 1))
    (lowBottom : 2 ^ b ≤ d) (highBottom : d < 2 ^ (b + 1)) :
    2 ^ (a - b - 1) ≤ n / d ∧ n / d < 2 ^ (a - b + 1) := by
  have bottom : 0 < d := lt_of_lt_of_le (zpowPos b) lowBottom
  constructor
  · rw [le_div_iff₀ bottom]
    calc (2 : ℚ) ^ (a - b - 1) * d ≤ 2 ^ (a - b - 1) * 2 ^ (b + 1) :=
          mul_le_mul_of_nonneg_left highBottom.le (zpowPos _).le
      _ = 2 ^ a := by rw [← zpowAdd]; congr 1; omega
      _ ≤ n := lowTop
  · rw [div_lt_iff₀ bottom]
    calc n < 2 ^ (a + 1) := highTop
      _ = 2 ^ (a - b + 1) * 2 ^ b := by rw [← zpowAdd]; congr 1; omega
      _ ≤ 2 ^ (a - b + 1) * d := mul_le_mul_of_nonneg_left lowBottom (zpowPos _).le

theorem log2Bounds {n : Nat} (nonzero : n ≠ 0) :
    (2 : ℚ) ^ (n.log2 : Int) ≤ n ∧ (n : ℚ) < 2 ^ ((n.log2 : Int) + 1) := by
  constructor
  · exact_mod_cast Nat.log2_self_le nonzero
  · exact_mod_cast Nat.lt_log2_self

theorem floorLog2Log {q : ℚ} (positive : 0 < q) : floorLog2 q = Int.log 2 q := by
  have top : 0 < q.num := Rat.num_pos.mpr positive
  have value : (q.num.natAbs : ℚ) / q.den = q := by
    rw [Nat.cast_natAbs, abs_of_pos top, Rat.num_div_den]
  obtain ⟨lowTop, highTop⟩ := log2Bounds (n := q.num.natAbs) (by omega)
  obtain ⟨lowBottom, highBottom⟩ := log2Bounds q.den_nz
  obtain ⟨low, high⟩ := quotientLog lowTop highTop lowBottom highBottom
  rw [value] at low high
  simp only [floorLog2, scaledZpow, Int.cast_one, one_mul]
  split
  · rename_i reached
    exact (logUnique reached high).symm
  · rename_i missed
    exact (logUnique low (by rw [sub_add_cancel]; exact not_le.mp missed)).symm

/-! Rounding to an integer. -/

theorem nearestEvenError {q : ℚ} (nonneg : 0 ≤ q) : |(nearestEven q : ℚ) - q| ≤ 1 / 2 := by
  have top : 0 ≤ q.num := Rat.num_nonneg.mpr nonneg
  have bottom : (0 : ℚ) < q.den := by exact_mod_cast q.den_pos
  have value : q * q.den = q.num.toNat := by
    have cast : ((q.num.toNat : ℤ) : ℚ) = q.num := by rw [Int.toNat_of_nonneg top]
    rw [Rat.mul_den_eq_num, ← cast, Int.cast_natCast]
  have parts : (q.num.toNat : ℚ) =
      q.den * (q.num.toNat / q.den : ℕ) + (q.num.toNat % q.den : ℕ) := by
    exact_mod_cast (Nat.div_add_mod q.num.toNat q.den).symm
  have proper : ((q.num.toNat % q.den : ℕ) : ℚ) < q.den := by
    exact_mod_cast Nat.mod_lt q.num.toNat q.den_pos
  simp only [nearestEven]
  generalize q.num.toNat / q.den = n at *
  generalize q.num.toNat % q.den = r at *
  have rest : (r : ℚ) = (q - n) * q.den := by rw [sub_mul, value, parts]; ring
  have below (bound : ℚ) : (r : ℚ) ≤ bound * q.den ↔ q - n ≤ bound := by
    rw [rest, mul_le_mul_iff_left₀ bottom]
  have above (bound : ℚ) : bound * q.den ≤ (r : ℚ) ↔ bound ≤ q - n := by
    rw [rest, mul_le_mul_iff_left₀ bottom]
  have low : 0 ≤ q - n := (above 0).mp (by simp)
  have high : q - n ≤ 1 := (below 1).mp (by linarith)
  split
  · rename_i small
    have small' : (2 * r : ℚ) < q.den := by exact_mod_cast small
    have half : q - n ≤ 1 / 2 := (below _).mp (by linarith)
    rw [abs_le]
    constructor <;> linarith
  · rename_i large
    have large' : (q.den : ℚ) ≤ 2 * r := by exact_mod_cast not_lt.mp large
    have half : 1 / 2 ≤ q - n := (above _).mp (by linarith)
    split
    · push_cast
      rw [abs_le]
      constructor <;> linarith
    · rename_i tie
      have tie' : (2 * r : ℚ) ≤ q.den := by exact_mod_cast not_lt.mp tie
      have half' : q - n ≤ 1 / 2 := (below _).mp (by linarith)
      have bit : ((n % 2 : ℕ) : ℚ) ≤ 1 := by
        exact_mod_cast Nat.lt_succ_iff.mp (Nat.mod_lt n two_pos)
      have bit' : (0 : ℚ) ≤ ((n % 2 : ℕ) : ℚ) := Nat.cast_nonneg _
      push_cast at bit bit' ⊢
      rw [abs_le]
      constructor <;> linarith

theorem nearestEvenNat (n : Nat) : nearestEven n = n := by
  have error := abs_le.mp (nearestEvenError (q := n) (Nat.cast_nonneg n))
  have low : (n : ℚ) < nearestEven n + 1 := by linarith
  have high : (nearestEven n : ℚ) < n + 1 := by linarith
  have low' : n < nearestEven n + 1 := by exact_mod_cast low
  have high' : nearestEven n < n + 1 := by exact_mod_cast high
  omega

theorem nearestEvenMono {p q : ℚ} (nonneg : 0 ≤ p) (le : p ≤ q) :
    nearestEven p ≤ nearestEven q := by
  by_contra less
  have left := abs_le.mp (nearestEvenError nonneg)
  have right := abs_le.mp (nearestEvenError (le_trans nonneg le))
  have apart : (nearestEven q : ℚ) + 1 ≤ nearestEven p := by exact_mod_cast not_le.mp less
  have same : p = q := by linarith
  exact less (same ▸ le_refl _)

/-! Rounding to the grid of a number. -/

def nearest (q : ℚ) : ℚ := nearestEven (q * 2 ^ (-lastPlace q)) * 2 ^ lastPlace q

theorem lastPlaceLog {q : ℚ} (positive : 0 < q) : lastPlace q = max (-1074) (Int.log 2 q - 52) := by
  rw [lastPlace, floorLog2Log positive]

theorem lastPlaceMono {p q : ℚ} (positive : 0 < p) (le : p ≤ q) : lastPlace p ≤ lastPlace q := by
  rw [lastPlaceLog positive, lastPlaceLog (lt_of_lt_of_le positive le)]
  exact max_le_max (le_refl _) (Int.sub_le_sub_right (Int.log_mono_right positive le) _)

theorem significandHigh {q : ℚ} (positive : 0 < q) :
    nearestEven (q * 2 ^ (-lastPlace q)) ≤ 9007199254740992 := by
  have high : q * 2 ^ (-lastPlace q) ≤ (9007199254740992 : ℕ) := by
    have place : Int.log 2 q + 1 + -lastPlace q ≤ 53 := by
      rw [lastPlaceLog positive]
      omega
    calc q * 2 ^ (-lastPlace q) ≤ 2 ^ (Int.log 2 q + 1) * 2 ^ (-lastPlace q) :=
          mul_le_mul_of_nonneg_right (logHigh q).le (zpowPos _).le
      _ = 2 ^ (Int.log 2 q + 1 + -lastPlace q) := (zpowAdd _ _).symm
      _ ≤ 2 ^ (53 : ℤ) := zpowMono place
      _ = (9007199254740992 : ℕ) := by norm_num
  have mono := nearestEvenMono (mul_nonneg positive.le (zpowPos _).le) high
  rwa [nearestEvenNat] at mono

theorem significandLow {q : ℚ} (positive : 0 < q) (normal : -1074 < lastPlace q) :
    4503599627370496 ≤ nearestEven (q * 2 ^ (-lastPlace q)) := by
  have low : ((4503599627370496 : ℕ) : ℚ) ≤ q * 2 ^ (-lastPlace q) := by
    have place : 52 = Int.log 2 q + -lastPlace q := by
      rw [lastPlaceLog positive] at normal ⊢
      omega
    calc ((4503599627370496 : ℕ) : ℚ) = 2 ^ (52 : ℤ) := by norm_num
      _ = 2 ^ Int.log 2 q * 2 ^ (-lastPlace q) := by rw [← zpowAdd, ← place]
      _ ≤ q * 2 ^ (-lastPlace q) := mul_le_mul_of_nonneg_right (logLow positive) (zpowPos _).le
  have mono := nearestEvenMono (Nat.cast_nonneg _) low
  rwa [nearestEvenNat] at mono

theorem nearestError {q : ℚ} (positive : 0 < q) : |nearest q - q| ≤ 2 ^ lastPlace q / 2 := by
  have error := nearestEvenError (mul_nonneg positive.le (zpowPos (-lastPlace q)).le)
  have back : q * 2 ^ (-lastPlace q) * 2 ^ lastPlace q = q := by
    rw [mul_assoc, zpowCancel, mul_one]
  have scaled : nearest q - q =
      (nearestEven (q * 2 ^ (-lastPlace q)) - q * 2 ^ (-lastPlace q)) * 2 ^ lastPlace q := by
    rw [sub_mul, back, nearest]
  rw [scaled, abs_mul, abs_of_pos (zpowPos _)]
  linarith [mul_le_mul_of_nonneg_right error (zpowPos (lastPlace q)).le]

theorem nearestExact (significand : Nat) {e : Int} (nonzero : 0 < significand)
    (bits : significand < 9007199254740992) (least : -1074 ≤ e) :
    nearest (significand * 2 ^ e) = significand * 2 ^ e := by
  have positive : (0 : ℚ) < significand * 2 ^ e :=
    mul_pos (by exact_mod_cast nonzero) (zpowPos e)
  have high : (significand : ℚ) * 2 ^ e < 2 ^ (53 + e) := by
    rw [zpowAdd]
    exact mul_lt_mul_of_pos_right (by exact_mod_cast bits) (zpowPos e)
  have log := logBelow positive high
  have place : lastPlace (significand * 2 ^ e) ≤ e := by
    rw [lastPlaceLog positive]
    omega
  obtain ⟨shift, apart⟩ := Int.eq_ofNat_of_zero_le (Int.sub_nonneg.mpr place)
  have whole : (significand : ℚ) * 2 ^ e * 2 ^ (-lastPlace (significand * 2 ^ e)) =
      (significand * 2 ^ shift : ℕ) := by
    rw [mul_assoc, ← zpowAdd, ← sub_eq_add_neg, apart]
    push_cast
    rfl
  rw [nearest, whole, nearestEvenNat, ← whole, mul_assoc, zpowCancel, mul_one]

theorem nearestPow {e : Int} (least : -1074 ≤ e) : nearest (2 ^ e) = 2 ^ e := by
  have whole := nearestExact 1 (by decide) (by decide) least
  rwa [Nat.cast_one, one_mul] at whole

theorem nearestMono {p q : ℚ} (positive : 0 < p) (le : p ≤ q) : nearest p ≤ nearest q := by
  have positive' : 0 < q := lt_of_lt_of_le positive le
  rcases (lastPlaceMono positive le).eq_or_lt with same | less
  · rw [nearest, nearest, same]
    refine mul_le_mul_of_nonneg_right ?_ (zpowPos _).le
    exact_mod_cast nearestEvenMono (mul_nonneg positive.le (zpowPos _).le)
      (mul_le_mul_of_nonneg_right le (zpowPos _).le)
  · -- Between two grids lies the power of two where the coarser one begins.
    have floor := lastPlaceLog positive
    have normal : -1074 < lastPlace q := by omega
    have top : (nearestEven (p * 2 ^ (-lastPlace p)) : ℚ) ≤ 2 ^ (53 : ℤ) := by
      exact_mod_cast significandHigh positive
    have bottom : (2 : ℚ) ^ (52 : ℤ) ≤ nearestEven (q * 2 ^ (-lastPlace q)) := by
      exact_mod_cast significandLow positive' normal
    calc nearest p ≤ 2 ^ (53 : ℤ) * 2 ^ lastPlace p :=
          mul_le_mul_of_nonneg_right top (zpowPos _).le
      _ = 2 ^ (53 + lastPlace p) := (zpowAdd _ _).symm
      _ ≤ 2 ^ (52 + lastPlace q) := zpowMono (by omega)
      _ = 2 ^ (52 : ℤ) * 2 ^ lastPlace q := zpowAdd _ _
      _ ≤ nearest q := mul_le_mul_of_nonneg_right bottom (zpowPos _).le

/-! Rounding to a number that exists. -/

theorem magnitudePow (x : Finite) : x.magnitude = x.significand * 2 ^ x.exponent := by
  rw [Finite.magnitude, scaledZpow, Int.cast_natCast]

theorem positiveValue {x : Finite} (positive : x.negative = false) : x.toRat = x.magnitude := by
  simp [Finite.toRat, Finite.magnitude, positive]

theorem magnitudeNonneg (x : Finite) : 0 ≤ x.magnitude := by
  rw [magnitudePow]
  exact mul_nonneg (Nat.cast_nonneg _) (zpowPos _).le

theorem negativeValue {x : Finite} (negative : x.negative = true) : x.toRat = -x.magnitude := by
  rw [magnitudePow, Finite.toRat, if_pos negative, scaledZpow]
  push_cast
  ring

theorem positiveMagnitude {x : Finite} (positive : 0 < x.toRat) :
    x.negative = false ∧ x.toRat = x.magnitude := by
  have unsigned : x.negative = false := by
    by_contra signed
    have value := negativeValue (Bool.eq_true_of_not_eq_false signed)
    have := magnitudeNonneg x
    linarith
  exact ⟨unsigned, positiveValue unsigned⟩

theorem ofPartsFinite (negative : Bool) {significand : Nat} {e : Int}
    (canonical : Canonical significand e) :
    ofParts negative significand e = .finite ⟨negative, significand, e, canonical⟩ :=
  dif_pos canonical

theorem roundFinite (negative : Bool) {q : ℚ} (positive : 0 < q)
    (bound : nearest q < 2 ^ (1024 : Int)) :
    ∃ x : Finite, round negative q = .finite x ∧ x.negative = negative ∧
      x.magnitude = nearest q := by
  have place := lastPlaceLog positive
  have high := significandHigh positive
  have one : scaled 1 (-lastPlace q) = 2 ^ (-lastPlace q) := by rw [scaledZpow]; simp
  have most {e : Int} (below : (2 : ℚ) ^ e ≤ nearest q) : e < 1024 :=
    (zpow_lt_zpow_iff_right₀ one_lt_two).mp (lt_of_le_of_lt below bound)
  simp only [round, if_neg positive.ne', one]
  by_cases full : nearestEven (q * 2 ^ (-lastPlace q)) = 9007199254740992
  · rw [if_pos full]
    have value : nearest q = 2 ^ (53 + lastPlace q) := by
      rw [nearest, full, zpowAdd]
      norm_num
    have inside := most value.ge
    have canonical : Canonical 4503599627370496 (lastPlace q + 1) := by
      refine ⟨by decide, ?_, ?_, Or.inl (le_refl _)⟩ <;> omega
    refine ⟨_, ofPartsFinite negative canonical, rfl, ?_⟩
    rw [magnitudePow, value, zpowAdd, zpowAdd]
    norm_num
    ring
  · rw [if_neg full]
    have canonical : Canonical (nearestEven (q * 2 ^ (-lastPlace q))) (lastPlace q) := by
      refine ⟨lt_of_le_of_ne high full, by omega, ?_, ?_⟩
      · by_contra large
        have low : (2 : ℚ) ^ (52 : Int) ≤ nearestEven (q * 2 ^ (-lastPlace q)) := by
          exact_mod_cast significandLow positive (by omega)
        have inside : 52 + lastPlace q < 1024 := most (by
          rw [zpowAdd]
          exact mul_le_mul_of_nonneg_right low (zpowPos _).le)
        omega
      · by_cases normal : -1074 < lastPlace q
        · exact Or.inl (significandLow positive normal)
        · exact Or.inr (by omega)
    exact ⟨_, ofPartsFinite negative canonical, rfl, magnitudePow _⟩

theorem roundInfinite (negative : Bool) {q : ℚ} (positive : 0 < q)
    (large : 2 ^ (1024 : Int) ≤ nearest q) : round negative q = .infinite negative := by
  have high := significandHigh positive
  have one : scaled 1 (-lastPlace q) = 2 ^ (-lastPlace q) := by rw [scaledZpow]; simp
  have beyond : 971 ≤ lastPlace q := by
    have top : nearest q ≤ 2 ^ (53 + lastPlace q) := by
      rw [zpowAdd]
      refine mul_le_mul_of_nonneg_right ?_ (zpowPos _).le
      exact_mod_cast high
    have := (zpow_le_zpow_iff_right₀ one_lt_two).mp (large.trans top)
    omega
  simp only [round, if_neg positive.ne', one]
  by_cases full : nearestEven (q * 2 ^ (-lastPlace q)) = 9007199254740992
  · rw [if_pos full]
    exact dif_neg fun canonical => absurd canonical.2.2.1 (by omega)
  · rw [if_neg full]
    refine dif_neg fun canonical => ?_
    -- The largest numbers have exponent 971 and fewer than 2^53 of its places.
    have place : lastPlace q = 971 := le_antisymm canonical.2.2.1 beyond
    have less : (nearestEven (q * 2 ^ (-lastPlace q)) : ℚ) < 2 ^ (53 : Int) := by
      exact_mod_cast lt_of_le_of_ne high full
    have below := mul_lt_mul_of_pos_right less (zpowPos (lastPlace q))
    rw [← zpowAdd, place] at below
    rw [nearest, place] at large
    exact absurd large (not_le.mpr below)

theorem roundNearest (negative : Bool) {q : ℚ} (positive : 0 < q) (bound : Int.log 2 q ≤ 1022) :
    ∃ x : Finite, round negative q = .finite x ∧ x.negative = negative ∧
      x.magnitude = nearest q := by
  have high : q ≤ 2 ^ (1023 : Int) := (logHigh q).le.trans (zpowMono (by omega))
  refine roundFinite negative positive (lt_of_le_of_lt (nearestMono positive high) ?_)
  rw [nearestPow (by decide)]
  exact zpow_lt_zpow_right₀ one_lt_two (by decide)

end Binary64
end KeySampling
