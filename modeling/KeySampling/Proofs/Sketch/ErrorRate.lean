import KeySampling.Proofs.Binary64.Operations
import KeySampling.Proofs.KeyTable.Sizing
import KeySampling.Proofs.Sketch.Retention

/-! The size that an error rate asks for. It goes through a square and a reciprocal, both rounded.
What the reciprocal is rounded to is no more than a power of two only if the square is rounded to
the inverse of that power at least, and so close to a power of two a square of a number lies only
once: where its rounding is coarsest, just above the rates whose reciprocal is too large. -/
namespace KeySampling

namespace Binary64

/-! Squares of 53-bit numbers near powers of two. -/

def rootBelow : Nat := 6369051672525772

theorem squareShort {m : Nat} (bits : m < 2 ^ 53) : m * m + 2 ^ 53 < 2 ^ 106 := by
  have most := Nat.mul_le_mul (Nat.le_sub_one_of_lt bits) (Nat.le_sub_one_of_lt bits)
  omega

theorem squareClose {m : Nat} (below : m * m < 2 ^ 105) (close : 2 ^ 105 ≤ m * m + 2 ^ 53) :
    m = rootBelow := by
  rcases Nat.lt_trichotomy m rootBelow with less | same | more
  · have most := Nat.mul_le_mul (Nat.le_sub_one_of_lt less) (Nat.le_sub_one_of_lt less)
    simp only [rootBelow] at most
    omega
  · exact same
  · have least := Nat.mul_le_mul (Nat.succ_le_of_lt more) (Nat.succ_le_of_lt more)
    simp only [rootBelow] at least
    omega

theorem squarePlaces (m : Nat) (e : Int) :
    (m : ℚ) * 2 ^ e * (m * 2 ^ e) = (m * m : Nat) * 2 ^ (2 * e) := by
  rw [two_mul, zpowAdd]
  push_cast
  ring

theorem powPlaces (n : Nat) (e : Int) : (2 : ℚ) ^ (e + n) = (2 ^ n : Nat) * 2 ^ e := by
  rw [zpowAdd, zpow_natCast, mul_comm]
  push_cast
  rfl

theorem squareNear {m t c : Nat} {e : Int}
    (near : (2 : ℚ) ^ (2 * e + t) ≤ (m * m : Nat) * 2 ^ (2 * e) + 2 ^ (2 * e + c)) :
    2 ^ t ≤ m * m + 2 ^ c := by
  rw [powPlaces, powPlaces, ← add_mul] at near
  exact_mod_cast le_of_mul_le_mul_right near (zpowPos (2 * e))

def leastRate : ℚ := 2 ^ (-512 : Int)

theorem leastPositive : 0 < leastRate := zpowPos _

theorem leastSquare : leastRate * leastRate = 2 ^ (-1024 : Int) := (zpowAdd _ _).symm

theorem squareLarge {e : ℚ} (large : leastRate < e) : 2 ^ (-1024 : Int) < e * e := by
  rw [← leastSquare]
  exact mul_lt_mul'' large large leastPositive.le leastPositive.le

section Square
variable {x : Finite} {j : Nat}

theorem rateExponent (large : leastRate < x.magnitude) :
    -564 ≤ x.exponent ∧ 2 ^ 52 ≤ x.significand := by
  obtain ⟨bits, _, _, full⟩ := x.canonical
  have high : x.magnitude ≤ 2 ^ (53 + x.exponent) := by
    rw [magnitudePow, zpowAdd]
    exact mul_le_mul_of_nonneg_right (by exact_mod_cast bits.le) (zpowPos _).le
  have inside := (zpow_lt_zpow_iff_right₀ one_lt_two).mp (large.trans_le high)
  exact ⟨by omega, full.resolve_right (by omega)⟩

/-- A square below a power of two, but rounded to no less. The power is 105 or 106 places above the
last one of the square, which falls short of it by no more than half of what it is rounded to. -/
theorem squareBits (large : leastRate < x.magnitude)
    (close : 2 ^ (-j : Int) ≤ nearest (x.magnitude * x.magnitude))
    (below : x.magnitude * x.magnitude < 2 ^ (-j : Int)) :
    j ≤ 1023 ∧ (-j = 2 * x.exponent + 105 ∨ -j = 2 * x.exponent + 106) ∧
      (2 : ℚ) ^ (-j : Int) ≤ (x.significand * x.significand : Nat) * 2 ^ (2 * x.exponent) +
        2 ^ max (-1075) (-j - 54 : Int) := by
  obtain ⟨low, full⟩ := rateExponent large
  have positive := (zpowPos _).trans (squareLarge large)
  have value : x.magnitude * x.magnitude =
      (x.significand * x.significand : Nat) * 2 ^ (2 * x.exponent) := by
    rw [magnitudePow, squarePlaces]
  have power := zpowPos (2 * x.exponent)
  have few : -1024 < (-j : Int) :=
    (zpow_lt_zpow_iff_right₀ one_lt_two).mp ((squareLarge large).trans below)
  have least : 2 * x.exponent + (104 : Nat) < (-j : Int) := by
    refine (zpow_lt_zpow_iff_right₀ (one_lt_two (α := ℚ))).mp (lt_of_le_of_lt ?_ below)
    have bits : 2 ^ 104 ≤ x.significand * x.significand := by
      have := Nat.mul_le_mul full full
      omega
    rw [value, powPlaces]
    exact mul_le_mul_of_nonneg_right (by exact_mod_cast bits) power.le
  have most : (-j : Int) ≤ 2 * x.exponent + (106 : Nat) := by
    refine (zpow_le_zpow_iff_right₀ (one_lt_two (α := ℚ))).mp (close.trans ?_)
    have bits : x.significand * x.significand ≤ 2 ^ 106 := by
      have := squareShort x.canonical.1
      omega
    refine nearestLePow (by omega) positive ?_
    rw [value, powPlaces]
    exact mul_le_mul_of_nonneg_right (by exact_mod_cast bits) power.le
  refine ⟨by omega, by omega, ?_⟩
  have place : lastPlace (x.magnitude * x.magnitude) - 1 ≤ max (-1075) (-j - 54 : Int) := by
    have log := logBelow positive below
    rw [lastPlaceLog positive]
    omega
  have half : (2 : ℚ) ^ lastPlace (x.magnitude * x.magnitude) / 2 ≤
      2 ^ max (-1075) (-j - 54 : Int) :=
    (zpow_sub_one₀ two_ne_zero _).symm.trans_le (zpowMono place)
  have error := (abs_le.mp (nearestError positive)).2
  rw [← value]
  linarith

def shortRate : ℚ := rootBelow * 2 ^ (-564 : Int)

theorem squareShares (large : leastRate < x.magnitude)
    (close : 2 ^ (-j : Int) ≤ nearest (x.magnitude * x.magnitude)) :
    2 ^ (-j : Int) ≤ x.magnitude * x.magnitude ∨ x.magnitude = shortRate := by
  by_contra other
  rw [not_or, not_le] at other
  obtain ⟨below, different⟩ := other
  obtain ⟨few, parity, near⟩ := squareBits large close below
  have within {t c : Nat} (places : (-j : Int) = 2 * x.exponent + t)
      (fine : max (-1075) (-j - 54 : Int) ≤ 2 * x.exponent + c) :
      2 ^ t ≤ x.significand * x.significand + 2 ^ c := by
    refine squareNear (e := x.exponent) ?_
    rw [← places]
    exact near.trans (by linarith [zpowMono fine])
  rcases parity with odd | even
  · have short : x.significand * x.significand < 2 ^ 105 := by
      rw [magnitudePow, squarePlaces, odd] at below
      have less := below.trans_eq (powPlaces 105 _)
      exact_mod_cast lt_of_mul_lt_mul_right less (zpowPos (2 * x.exponent)).le
    have root := squareClose short (within odd (by omega))
    rcases (show j = 1023 ∨ j < 1022 by omega) with rfl | normal
    · refine different ?_
      rw [magnitudePow, root, shortRate]
      congr 2
      omega
    · have finer : 2 ^ 105 ≤ _ := within (c := 51) odd (by omega)
      rw [root] at finer
      simp [rootBelow] at finer
  · exact absurd (squareShort x.canonical.1) (not_lt.mpr (within even (by omega)))

/-! The reciprocal of a rounded square. -/

theorem reciprocalLarge {e : ℚ} (positive : 0 < e) (small : e ≤ leastRate)
    (nonzero : nearest (e * e) ≠ 0) : 2 ^ (1024 : Int) ≤ nearest (1 / nearest (e * e)) := by
  have high : nearest (e * e) ≤ 2 ^ (-1024 : Int) := by
    refine nearestLePow (by decide) (mul_pos positive positive) ?_
    rw [← leastSquare]
    exact mul_self_le_mul_self positive.le small
  have low : 0 < nearest (e * e) := lt_of_le_of_ne (nearestNonneg _) nonzero.symm
  refine powLeNearest (by decide) ((le_div_iff₀ low).mpr ?_)
  calc 2 ^ (1024 : Int) * nearest (e * e) ≤ 2 ^ (1024 : Int) * 2 ^ (-1024 : Int) :=
        mul_le_mul_of_nonneg_left high (zpowPos _).le
    _ = 1 := by rw [mul_comm]; exact zpowCancel 1024

theorem reciprocalFits {y : Finite} (large : leastRate < x.magnitude)
    (square : y.magnitude = nearest (x.magnitude * x.magnitude)) :
    nearest (1 / y.magnitude) < 2 ^ (1024 : Int) := by
  -- The next rate is one last place larger, which moves the square by more than half of one.
  have next : leastRate * (1 + 2 ^ (-52 : Int)) ≤ x.magnitude := by
    rw [mul_one_add]
    exact (gapAbove (by decide) large).trans_eq' (by rw [leastRate, ← zpowAdd]; rfl)
  have above : 2 ^ (-1024 : Int) < y.magnitude := by
    rw [square]
    refine powLtNearest (by decide) ?_
    have half : (2 : ℚ) ^ placeFrom (-1024) / 2 = 2 ^ (-1024 : Int) * 2 ^ (-51 : Int) := by
      rw [← zpowAdd]
      exact (zpow_sub_one₀ (a := (2 : ℚ)) two_ne_zero (-1074)).symm
    rw [half, ← mul_one_add, ← leastSquare]
    calc leastRate * leastRate * (1 + 2 ^ (-51 : Int))
        < leastRate * (1 + 2 ^ (-52 : Int)) * (leastRate * (1 + 2 ^ (-52 : Int))) := by
          rw [mul_mul_mul_comm]
          exact mul_lt_mul_of_pos_left (by norm_num) (mul_pos leastPositive leastPositive)
      _ ≤ x.magnitude * x.magnitude :=
          mul_self_le_mul_self (mul_nonneg leastPositive.le (by positivity)) next
  have least : 2 ^ (-1024 : Int) * (1 + 2 ^ (-50 : Int)) ≤ y.magnitude := by
    rw [mul_one_add]
    exact (gapAbove (by decide) above).trans_eq' (by rw [← zpowAdd]; rfl)
  have positive : 0 < y.magnitude := (zpowPos _).trans above
  have most : 1 / y.magnitude ≤ (2251799813685247 : Nat) * 2 ^ (973 : Int) := by
    rw [div_le_iff₀ positive]
    have cancel : (2 : ℚ) ^ (973 : Int) * 2 ^ (-1024 : Int) = 2 ^ (-51 : Int) :=
      (zpowAdd _ _).symm
    calc (1 : ℚ) ≤ (2251799813685247 : Nat) * 2 ^ (-51 : Int) * (1 + 2 ^ (-50 : Int)) := by
          norm_num
      _ = (2251799813685247 : Nat) * 2 ^ (973 : Int) *
          (2 ^ (-1024 : Int) * (1 + 2 ^ (-50 : Int))) := by rw [← cancel]; ring
      _ ≤ (2251799813685247 : Nat) * 2 ^ (973 : Int) * y.magnitude :=
          mul_le_mul_of_nonneg_left least (mul_nonneg (Nat.cast_nonneg _) (zpowPos _).le)
  have mono := nearestMono (one_div_pos.mpr positive) most
  rw [nearestExact _ (by decide) (by decide) (by decide)] at mono
  refine lt_of_le_of_lt mono ?_
  calc ((2251799813685247 : Nat) : ℚ) * 2 ^ (973 : Int) < 2 ^ (51 : Int) * 2 ^ (973 : Int) :=
        mul_lt_mul_of_pos_right (by norm_num) (zpowPos _)
    _ = 2 ^ (1024 : Int) := (zpowAdd _ _).symm

end Square

section Rate
variable {rate : Binary64} {e : ℚ}

theorem rateAccepted (value : rate.toRat? = some e) (positive : 0 < e) (below : e < 1) :
    (Datum.float rate).isFraction false = .ok true := by
  simp [Datum.isFraction, ltValue (zeroValue false) value, ltValue value oneRational, positive,
    below]

theorem rateSquare (value : rate.toRat? = some e) (positive : 0 < e) (below : e < 1) :
    ∃ y : Finite, rate.mul rate = .finite y ∧ y.toRat = nearest (e * e) := by
  have square := mul_pos positive positive
  have small : |e * e| < huge := by
    rw [abs_of_pos square]
    calc e * e < 1 := mul_lt_one_of_nonneg_of_lt_one_left positive.le below below.le
      _ ≤ huge := one_le_zpow₀ one_le_two (by decide)
  have product := mulValue value value small
  rw [roundedNearest square.le] at product
  exact finiteOf product

theorem rateReciprocal {y : Finite} (positive : 0 < y.toRat) : (one.div (.finite y)).ceil? =
    if 2 ^ (1024 : Int) ≤ nearest (1 / y.toRat) then none
    else some (nearest (1 / y.toRat)).ceil := by
  rw [oneDivRound positive]
  obtain ⟨_, value⟩ := positiveMagnitude positive
  rw [value] at positive ⊢
  have inverse := one_div_pos.mpr positive
  split
  · rename_i large
    rw [roundInfinite false inverse large]
    rfl
  · rename_i fits
    obtain ⟨r, made, unsigned, same⟩ := roundFinite false inverse (not_le.mp fits)
    rw [made, ceil?, toRat?, positiveValue unsigned, same]
    rfl

end Rate
end Binary64

namespace Config
open Binary64
variable {settings : Settings} {rate : Binary64} {e : ℚ}

theorem settingsForRate (value : rate.toRat? = some e) (positive : 0 < e) (below : e < 1) :
    settingsForError settings (.float rate) =
      if nearest (e * e) = 0 then .error .divisionByZero
      else if 2 ^ (1024 : Int) ≤ nearest (1 / nearest (e * e)) then .error .tooLarge
      else .ok { settings with nominal :=
        (max (ceilingPow2 (nearest (1 / nearest (e * e))).ceil) leastNominal : Nat) } := by
  obtain ⟨y, made, same⟩ := rateSquare value positive below
  have vanishes : (Binary64.finite y).isZero = true ↔ y.toRat = 0 := isZeroValue rfl
  simp only [settingsForError, rateAccepted value positive below, Datum.toBinary64, made, vanishes,
    ← same]
  split
  · rfl
  · rename_i nonzero
    have low : 0 < y.toRat := lt_of_le_of_ne (same ▸ nearestNonneg _) (Ne.symm nonzero)
    rw [rateReciprocal low]
    by_cases large : 2 ^ (1024 : Int) ≤ nearest (1 / y.toRat)
    · simp only [if_pos large]
    · simp only [if_neg large]

theorem settingsForSmall (value : rate.toRat? = some e) (positive : 0 < e) (below : e < 1)
    (small : e ≤ leastRate) : settingsForError settings (.float rate) =
      .error (if e ^ 2 ≤ 2 ^ (-1075 : Int) then .divisionByZero else .tooLarge) := by
  have vanishes := nearestVanishes (mul_pos positive positive)
  rw [settingsForRate value positive below, sq]
  by_cases zero : nearest (e * e) = 0
  · rw [if_pos zero, if_pos (vanishes.mp zero)]
  · rw [if_neg zero, if_neg (mt vanishes.mpr zero), if_pos (reciprocalLarge positive small zero)]

theorem settingsForLarge (value : rate.toRat? = some e) (positive : 0 < e) (below : e < 1)
    (large : leastRate < e) : ∃ y : Finite, 0 < y.magnitude ∧ y.magnitude = nearest (e * e) ∧
      settingsForError settings (.float rate) = .ok { settings with
        nominal := (max (ceilingPow2 (nearest (1 / y.magnitude)).ceil) leastNominal : Nat) } := by
  obtain ⟨y, _, square⟩ := rateSquare value positive below
  have nonzero : ¬ nearest (e * e) = 0 := by
    have least : (2 : ℚ) ^ (-1075 : Int) < 2 ^ (-1024 : Int) :=
      zpow_lt_zpow_right₀ one_lt_two (by decide)
    exact mt (nearestVanishes (mul_pos positive positive)).mp
      (not_le.mpr (least.trans (squareLarge large)))
  have low : 0 < y.toRat := lt_of_le_of_ne (square ▸ nearestNonneg _) (square ▸ Ne.symm nonzero)
  obtain ⟨x, rfl, same⟩ := finiteOf value
  obtain ⟨_, rated⟩ := positiveMagnitude (same ▸ positive)
  obtain ⟨_, squared⟩ := positiveMagnitude low
  rw [squared] at square low
  rw [← same, rated] at large square
  have fits := reciprocalFits large square
  rw [square, ← rated, same] at fits
  refine ⟨y, low, by rw [square, ← rated, same], ?_⟩
  rw [settingsForRate value positive below, if_neg nonzero, if_neg (not_le.mpr fits), square,
    ← rated, same]

theorem settingsForShort {x : Finite} (short : x.toRat = shortRate) :
    settingsForError settings (.float (.finite x)) =
      .ok { settings with nominal := (pow2 1023 : Nat) } := by
  let own : Finite := ⟨false, 6369051672525772, -564, by decide⟩
  have same : x = own := by
    have positive : 0 < x.toRat := short ▸ mul_pos (by norm_num [rootBelow]) (zpowPos _)
    obtain ⟨unsigned, value⟩ := positiveMagnitude positive
    refine finiteSame unsigned ?_
    rw [← value, short, magnitudePow]
    rfl
  have accepted : (Datum.float (.finite own)).isFraction false = .ok true := by decide +kernel
  have nonzero : ((Binary64.finite own).mul (.finite own)).isZero = false := by decide +kernel
  have size : (one.div ((Binary64.finite own).mul (.finite own))).ceil? =
      some ((pow2 1023 : Nat) : Int) := by decide +kernel
  have whole : max (ceilingPow2 (pow2 1023 : Nat)) leastNominal = pow2 1023 := by decide +kernel
  simp only [settingsForError, same, accepted, Datum.toBinary64, nonzero, size, whole]
  rfl

end Config

namespace QuickSelect
open Binary64
variable {σ : Type}

theorem newSized {settings : Settings} {rate : Datum} {size : Nat}
    (fraction : settings.probability.isFraction true = .ok true) (enough : leastNominal ≤ size)
    (sized : Config.settingsForError settings rate = .ok { settings with nominal := size }) :
    ∃ (s : QuickSelect σ) (lg : Nat), newForError settings rate = .ok s ∧
      s.config.nominal = pow2 lg ∧ pow2 lg = ceilingPow2 size ∧ size ≤ pow2 lg := by
  let settings' : Settings := { settings with nominal := size }
  have least : 16 ≤ settings'.nominal := Int.ofNat_le.mpr enough
  obtain ⟨config, accepted, log⟩ : ∃ config, Config.ofSettings settings' = .ok config ∧
      config.lgNominal = (ceilingPow2 size).log2 :=
    ⟨_, Config.settingsAccepted least fraction, rfl⟩
  have power : pow2 config.lgNominal = ceilingPow2 size := by rw [log, ceilingPow2Log]
  refine ⟨ofConfig config, config.lgNominal, ?_, rfl, power, ?_⟩
  · have made : (new settings' : Except Fault (QuickSelect σ)) = .ok (ofConfig config) := by
      rw [new, accepted]
    rw [newForError, sized]
    exact made
  · rw [power]
    exact Int.ofNat_le.mp (ceilingPow2Least size)

theorem sizeMeets {x y : Binary64.Finite} {lg : Nat} (large : leastRate < x.magnitude)
    (low : 0 < y.magnitude) (square : y.magnitude = nearest (x.magnitude * x.magnitude))
    (room : (nearest (1 / y.magnitude)).ceil ≤ pow2 lg) (other : x.magnitude ≠ shortRate) :
    1 ≤ (pow2 lg : ℚ) * x.magnitude ^ 2 := by
  have most : nearest (1 / y.magnitude) ≤ 2 ^ (lg : Int) := by
    rw [Rat.ceil_le_iff, Int.cast_natCast, pow2Cast] at room
    exact room
  have close := nearestReciprocal low (by omega) most
  rw [square] at close
  have share := (squareShares large close).resolve_right other
  have power := zpowPos (lg : Int)
  rw [sq, pow2Cast, ← zpowCancel, mul_comm]
  exact mul_le_mul_of_nonneg_left share power.le

theorem shortSize : (pow2 1023 : ℚ) * shortRate ^ 2 < 1 := by
  have cancel : (2 : ℚ) ^ (1023 : Int) * (2 ^ (-564 : Int)) ^ 2 = 2 ^ (-105 : Int) := by
    rw [sq, ← zpowAdd, ← zpowAdd]
    rfl
  rw [pow2Cast, shortRate, mul_pow, mul_left_comm, Nat.cast_ofNat, cancel]
  norm_num [rootBelow]

/-- A rate above 2^-512 gets a sketch, and its size is a power of two that is enough for it, with
one exception. A rate that is no more than that gets none: its square vanishes, or the reciprocal
is too large. The square is assumed to be rounded correctly. -/
theorem errorRateServed {settings : Settings}
    (fraction : settings.probability.isFraction true = .ok true)
    {rate : Binary64} {e : ℚ} (value : rate.toRat? = some e) (positive : 0 < e) (below : e < 1) :
    (2 ^ (-512 : Int) < e → ∃ (s : QuickSelect σ) (lg : Nat),
      newForError settings (.float rate) = .ok s ∧
      s.config.nominal = pow2 lg ∧ 16 ≤ s.config.nominal ∧
      (1 ≤ s.config.nominal * e ^ 2 ↔ e ≠ 6369051672525772 * 2 ^ (-564 : Int))) ∧
    (e ≤ 2 ^ (-512 : Int) → (newForError settings (.float rate) : Except Fault (QuickSelect σ)) =
      .error (if e ^ 2 ≤ 2 ^ (-1075 : Int) then .divisionByZero else .tooLarge)) := by
  constructor
  · intro large
    rcases eq_or_ne e shortRate with short | other
    · obtain ⟨x, rfl, rfl⟩ := finiteOf value
      obtain ⟨s, lg, made, nominal, power, _⟩ :=
        newSized (σ := σ) fraction (by decide +kernel) (Config.settingsForShort short)
      have whole : ceilingPow2 (pow2 1023 : Nat) = pow2 1023 := by decide +kernel
      rw [power, whole] at nominal
      refine ⟨s, 1023, made, nominal, nominal ▸ by decide +kernel, ?_⟩
      rw [nominal, short]
      exact iff_of_false (not_le.mpr shortSize) (not_not.mpr rfl)
    · obtain ⟨y, low, square, sized⟩ := Config.settingsForLarge value positive below large
      obtain ⟨s, lg, made, nominal, _, room⟩ := newSized (σ := σ) fraction (le_max_right _ _) sized
      obtain ⟨least, enough⟩ := max_le_iff.mp room
      obtain ⟨x, rfl, rfl⟩ := finiteOf value
      obtain ⟨_, rated⟩ := positiveMagnitude positive
      refine ⟨s, lg, made, nominal, nominal ▸ enough, ?_⟩
      rw [rated] at large square other ⊢
      rw [nominal]
      refine iff_of_true (sizeMeets large low square ?_ other) other
      exact (ceilingPow2Least _).trans (Int.ofNat_le.mpr least)
  · intro small
    rw [newForError, Config.settingsForSmall value positive below small]

example : (newForError {} (.float (.finite ⟨false, 7205759403792794, -57, by decide⟩)) :
    Except Fault (QuickSelect Unit)).map (·.config.nominal) = .ok 512 := by decide +kernel

/-- The least rate that is served. -/
theorem errorRateServedLeast : ∃ (s : QuickSelect Unit) (lg : Nat),
    newForError {} (.float (.finite ⟨false, 4503599627370497, -564, by decide⟩)) = .ok s ∧
    s.config.nominal = pow2 lg ∧ 16 ≤ s.config.nominal ∧
    1 ≤ (s.config.nominal : ℚ) * (4503599627370497 * 2 ^ (-564 : Int)) ^ 2 := by
  have value : (Binary64.finite ⟨false, 4503599627370497, -564, by decide⟩).toRat? =
      some (4503599627370497 * 2 ^ (-564 : Int)) := by
    rw [toRat?, positiveValue rfl, magnitudePow]
    rfl
  have power := zpowPos (-564)
  have least : (2 : ℚ) ^ (-512 : Int) = 4503599627370496 * 2 ^ (-564 : Int) := by
    rw [show (-512 : Int) = -564 + (52 : Nat) by decide, powPlaces]
    norm_num only
  have small : (2 : ℚ) ^ (-564 : Int) ≤ 2 ^ (-53 : Int) := zpowMono (by decide)
  have unit : 4503599627370497 * (2 : ℚ) ^ (-53 : Int) < 1 := by norm_num
  have fraction : (Settings.probability {}).isFraction true = .ok true := by decide +kernel
  obtain ⟨s, lg, made, nominal, enough, met⟩ :=
    (errorRateServed fraction value (by linarith) (by linarith)).1 (by linarith)
  refine ⟨s, lg, made, nominal, enough, met.mpr fun same => ?_⟩
  have := mul_right_cancel₀ power.ne' same
  norm_num at this

theorem powersRefused {e : Int} (canonical : Canonical 4503599627370496 e) (small : e ≤ -564) :
    (newForError {} (.float (.finite ⟨false, 4503599627370496, e, canonical⟩)) :
      Except Fault (QuickSelect σ)) =
      .error (if e ≤ -590 then .divisionByZero else .tooLarge) := by
  have value : (Binary64.finite ⟨false, 4503599627370496, e, canonical⟩).toRat? =
      some (2 ^ (e + 52)) := by
    rw [toRat?, positiveValue rfl, magnitudePow]
    rw [show e + 52 = e + (52 : Nat) from rfl, powPlaces]
    rfl
  have square : ((2 : ℚ) ^ (e + 52)) ^ 2 ≤ 2 ^ (-1075 : Int) ↔ e ≤ -590 := by
    rw [sq, ← zpowAdd, zpow_le_zpow_iff_right₀ one_lt_two]
    omega
  have below : (2 : ℚ) ^ (e + 52) < 1 := zpow_lt_one_of_neg₀ one_lt_two (by omega)
  rw [newForError, Config.settingsForSmall value (zpowPos _) below (zpowMono (by omega))]
  simp only [square]

/-- Of three rates one is refused for its square, one for the reciprocal, and one is served with
less than it asks for. -/
theorem errorRateUnmet :
    (newForError {} (.float (.finite ⟨false, 4503599627370496, -590, by decide⟩)) :
      Except Fault (QuickSelect Unit)) = .error .divisionByZero ∧
    (newForError {} (.float (.finite ⟨false, 4503599627370496, -564, by decide⟩)) :
      Except Fault (QuickSelect Unit)) = .error .tooLarge ∧
    ∃ s : QuickSelect Unit,
      newForError {} (.float (.finite ⟨false, 6369051672525772, -564, by decide⟩)) = .ok s ∧
      (s.config.nominal : ℚ) * (6369051672525772 * 2 ^ (-564 : Int)) ^ 2 < 1 := by
  refine ⟨powersRefused _ (by decide), powersRefused _ (by decide), ?_⟩
  have short : (⟨false, 6369051672525772, -564, by decide⟩ : Binary64.Finite).toRat =
      shortRate := by
    rw [positiveValue rfl, magnitudePow]
    rfl
  have fraction : (Settings.probability {}).isFraction true = .ok true := by decide +kernel
  obtain ⟨s, lg, made, nominal, power, _⟩ :=
    newSized (σ := Unit) fraction (by decide +kernel) (Config.settingsForShort short)
  have whole : ceilingPow2 (pow2 1023 : Nat) = pow2 1023 := by decide +kernel
  refine ⟨s, made, ?_⟩
  rw [nominal, power, whole]
  exact shortSize

end QuickSelect
end KeySampling
