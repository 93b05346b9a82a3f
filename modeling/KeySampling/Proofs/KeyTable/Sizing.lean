import KeySampling.KeyTable.Sizing
import KeySampling.Proofs.Binary64.Exactness
import Mathlib.Data.Int.Interval
import Mathlib.Order.Bounds.Basic

/-! A table for a number of keys has a slot for each of them. Its size comes from a quotient that
is rounded twice, but the quotient exceeds the power of two below the number by a third, and a
quarter of it is left after the rounding. A number up to 2^53 is converted exactly, so that its
quotient is rounded once. Then the table is the smallest one that is at most three quarters full:
no rounding takes a quotient past a power of two. -/
namespace KeySampling

theorem ceilingPow2High {n : Int} {k : Nat} (above : (pow2 k : Int) < n) :
    pow2 (k + 1) ≤ ceilingPow2 n := by
  have pos := pow2Pos k
  rw [ceilingPow2, if_neg (by omega)]
  apply pow2Mono
  have rest : pow2 k ≤ (n - 1).toNat := by omega
  rw [pow2Pow] at rest
  have := (Nat.le_log2 (by omega)).mpr rest
  omega

theorem ceilingPow2Low {n : Int} {k : Nat} (below : n ≤ pow2 k) : (ceilingPow2 n).log2 ≤ k := by
  rw [ceilingPow2]
  split
  · exact Nat.zero_le k
  · rename_i large
    rw [pow2Log2, Nat.succ_le_iff, Nat.log2_lt (by omega), ← pow2Pow]
    omega

theorem ceilingPow2Log (n : Int) : pow2 (ceilingPow2 n).log2 = ceilingPow2 n := by
  rw [ceilingPow2]
  split
  · rfl
  · rw [pow2Log2]

theorem ceilingPow2Least (n : Int) : n ≤ ceilingPow2 n := by
  by_contra above
  rw [← ceilingPow2Log, not_le] at above
  have larger := ceilingPow2High above
  have pos := pow2Pos (ceilingPow2 n).log2
  rw [pow2Succ, ceilingPow2Log] at larger
  rw [ceilingPow2Log] at pos
  omega

theorem pow2Cast (k : Nat) : (pow2 k : ℚ) = 2 ^ (k : Int) := by
  rw [pow2Pow, zpow_natCast]
  norm_cast

namespace Binary64

theorem tableLoadValue :
    tableLoad.toBinary64 = .finite ⟨false, 6755399441055744, -53, by decide⟩ := by
  decide +kernel

theorem divTableLoad {x : Finite} (sign : x.negative = false) (positive : 0 < x.magnitude)
    (most : x.magnitude ≤ 2 ^ (63 : Int)) :
    ∃ y : Finite, (Binary64.finite x).div tableLoad.toBinary64 = .finite y ∧
      y.negative = false ∧ y.magnitude = nearest (x.magnitude / (3 / 4)) := by
  have positive' : (0 : ℚ) < x.magnitude / (3 / 4) := div_pos positive (by norm_num)
  have bound : Int.log 2 (x.magnitude / (3 / 4)) < 64 := logBelow positive' (by
    norm_num at most ⊢
    linarith)
  obtain ⟨y, rounded, sign', value⟩ := roundNearest false positive' (by omega)
  have load : (⟨false, 6755399441055744, -53, by decide⟩ : Finite).magnitude = 3 / 4 := by
    rw [magnitudePow]
    norm_num
  refine ⟨y, ?_, sign', value⟩
  rw [tableLoadValue, div]
  simpa [isNegative, sign, load] using rounded

theorem powLtQuotient {q : ℚ} {e : Int} (least : -1072 ≤ e) (low : 2 ^ e ≤ q) :
    2 ^ e < nearest (q / (3 / 4)) := by
  have split : (2 : ℚ) ^ (e - 2) = 2 ^ e / 4 := by
    rw [zpow_sub₀ (by norm_num)]
    norm_num
  have positive := zpowPos e
  -- Five quarters of the power are a number, so a quotient above them is rounded to no less.
  have quarters := nearestExact 5 (e := e - 2) (by decide) (by decide) (by omega)
  rw [Nat.cast_ofNat, split] at quarters
  calc (2 : ℚ) ^ e < 5 * (2 ^ e / 4) := by linarith
    _ = nearest (5 * (2 ^ e / 4)) := quarters.symm
    _ ≤ nearest (q / (3 / 4)) := nearestMono (by linarith) (by linarith)

theorem loadLtQuotient {count k : Nat} (most : count ≤ 9007199254740992)
    (above : 3 * pow2 k < 4 * count) : (2 : ℚ) ^ (k : Int) < nearest (count / (3 / 4)) := by
  by_cases small : k < 2
  · refine powLtQuotient (by omega) ?_
    have low : pow2 k ≤ count := by
      rcases Nat.le_one_iff_eq_zero_or_eq_one.mp (Nat.lt_succ_iff.mp small) with rfl | rfl <;>
        simp only [pow2Zero, pow2Succ] at above ⊢ <;> omega
    rw [← pow2Cast]
    exact_mod_cast low
  -- From four slots on the quotient exceeds them by 4/3, and no rounding takes more than 1.
  obtain ⟨n, rfl⟩ := Nat.exists_eq_add_of_le' (not_lt.mp small)
  have apart : (3 : ℚ) * 2 ^ ((n + 2 : Nat) : Int) + 4 ≤ 4 * count := by
    rw [← pow2Cast]
    norm_cast
    simp only [pow2Succ] at above ⊢
    omega
  have most' : (count : ℚ) ≤ 9007199254740992 := by exact_mod_cast most
  have power := zpowPos ((n + 2 : Nat) : Int)
  have positive : (0 : ℚ) < count / (3 / 4) := by linarith
  have below : (count : ℚ) / (3 / 4) < 2 ^ (54 : Int) := by
    norm_num
    linarith
  have place : lastPlace (count / (3 / 4)) ≤ 1 := by
    have log := logBelow positive below
    rw [lastPlaceLog positive]
    omega
  have unit := zpowMono place
  have error := (abs_le.mp (nearestError positive)).1
  rw [zpow_one] at unit
  linarith

end Binary64

theorem keysBound {keys : List Int} (nodup : keys.Nodup)
    (inRange : ∀ key ∈ keys, 0 < key ∧ key ≤ maxTheta) : keys.length < 9223372036854775808 := by
  have inside : keys.toFinset ⊆ Finset.Ioc 0 maxTheta := by
    intro key member
    rw [Finset.mem_Ioc]
    exact inRange key (List.mem_toFinset.mp member)
  have card := Finset.card_le_card inside
  rw [List.toFinset_card_of_nodup nodup, Int.card_Ioc] at card
  have top : (maxTheta - 0).toNat = 9223372036854775807 := by decide
  omega

namespace KeyTable

theorem slotsNearest {count : Nat} (present : 0 < count) (high : count < 9223372036854775808) :
    ∃ x, Binary64.ofInt? count = .ok x ∧ (x.div tableLoad.toBinary64).ceil? =
      some (Binary64.nearest (Binary64.nearest count / (3 / 4))).ceil := by
  have high' : (count : ℚ) ≤ 2 ^ (63 : Int) := by
    norm_num
    exact_mod_cast high.le
  obtain ⟨x, converted, sign, value⟩ := Binary64.ofIntNearest present high
  have positive := value ▸ (Binary64.countRange present high).1
  have most := value ▸ Binary64.nearestLePow (by decide) (by exact_mod_cast present) high'
  obtain ⟨y, quotient, sign', value'⟩ := Binary64.divTableLoad sign positive most
  refine ⟨.finite x, by rw [Binary64.ofInt?, converted]; rfl, ?_⟩
  rw [quotient, Binary64.ceil?, Binary64.toRat?, Option.map_some, Binary64.positiveValue sign',
    value', value]

theorem lgForSlots {count : Nat} (present : 0 < count) (high : count < 9223372036854775808)
    (least : Int) : lgFor count least = (exponent least).map fun least =>
      max (ceilingPow2 (Binary64.nearest (Binary64.nearest count / (3 / 4))).ceil).log2 least := by
  obtain ⟨x, converted, rounded⟩ := slotsNearest present high
  simp only [lgFor, converted, rounded]
  cases exponent least <;> rfl

theorem ceilingAbove {k : Nat} {q : ℚ} (above : (2 : ℚ) ^ (k : Int) < q) :
    pow2 (k + 1) ≤ pow2 (ceilingPow2 q.ceil).log2 := by
  rw [ceilingPow2Log]
  refine ceilingPow2High (Rat.lt_ceil_iff.mpr ?_)
  rw [Int.cast_natCast, pow2Cast]
  exact above

theorem slotsFew {count : Nat} (present : 0 < count) (few : count ≤ mostKeys) :
    max (ceilingPow2 (Binary64.nearest (Binary64.nearest count / (3 / 4))).ceil).log2
      leastLgTable ≤ largestLgTable := by
  have few' : (count : ℚ) ≤ 2 ^ (56 : Int) := by
    norm_num
    exact_mod_cast few
  have whole := Binary64.nearestLePow (by decide) (by exact_mod_cast present) few'
  have positive : (0 : ℚ) < Binary64.nearest count / (3 / 4) :=
    div_pos (Binary64.countRange present (by simp only [mostKeys] at few; omega)).1 (by norm_num)
  have slots : Binary64.nearest count / (3 / 4) ≤ (2 : ℚ) ^ (57 : Int) := by
    rw [div_le_iff₀ (by norm_num)]
    norm_num at whole ⊢
    linarith
  refine max_le (ceilingPow2Low (k := 57) (Rat.ceil_le_iff.mpr ?_) |>.trans (by decide)) (by decide)
  rw [Int.cast_natCast, pow2Cast]
  exact Binary64.nearestLePow (by decide) positive slots

theorem lgForRoom {count : Nat} (fits : count < 9223372036854775808) :
    ∃ lg, lgFor count leastLgTable = .ok lg ∧ count ≤ pow2 lg ∧
      (lg ≤ largestLgTable ∨ mostKeys < count) := by
  by_cases zero : count = 0
  · subst zero
    exact ⟨4, by decide +kernel, Nat.zero_le _, .inl (by decide)⟩
  have low := Nat.log2_self_le zero
  have high : count < 2 ^ (count.log2 + 1) := Nat.lt_log2_self
  rw [← pow2Pow] at low high
  have low' : (2 : ℚ) ^ (count.log2 : Int) ≤ count := by
    rw [← pow2Cast]
    exact_mod_cast low
  have above := Binary64.powLtQuotient (by omega) (Binary64.powLeNearest (by omega) low')
  refine ⟨_, lgForSlots (Nat.pos_of_ne_zero zero) fits leastLgTable, ?_, ?_⟩
  · exact high.le.trans ((ceilingAbove above).trans (pow2Mono (le_max_left _ _)))
  · by_contra refused
    rw [not_or, not_le, not_lt] at refused
    exact absurd (slotsFew (Nat.pos_of_ne_zero zero) refused.2) (not_le.mpr refused.1)

/-- What a count needs is told by its quotient, which lies above a power of two just when three
quarters of that power are too few. -/
theorem lgForNeed {count : Nat} (most : count ≤ 9007199254740992) (least : Int) :
    ∃ need, lgFor count least = (exponent least).map (fun least => max need least) ∧
      ∀ lg, need ≤ lg ↔ 4 * count ≤ 3 * pow2 lg := by
  by_cases zero : count = 0
  · subst zero
    have converted : Binary64.ofInt? 0 = .ok (.zero false) := by decide +kernel
    have rounded : ((Binary64.zero false).div tableLoad.toBinary64).ceil? = some 0 := by
      decide +kernel
    refine ⟨0, ?_, fun lg => by simp⟩
    simp only [lgFor, Nat.cast_zero, converted, rounded]
    cases exponent least <;> rfl
  have present : 0 < count := Nat.pos_of_ne_zero zero
  have whole : Binary64.nearest count = count := Binary64.nearestWhole present most
  refine ⟨_, lgForSlots present (by omega) least, fun lg => ?_⟩
  rw [whole]
  constructor
  · intro enough
    by_contra above
    have larger := ceilingAbove (Binary64.loadLtQuotient most (not_le.mp above))
    have inside := pow2Mono enough
    have pos := pow2Pos lg
    rw [pow2Succ] at larger
    omega
  · intro enough
    have slots : (count : ℚ) / (3 / 4) ≤ 2 ^ (lg : Int) := by
      rw [← pow2Cast, div_le_iff₀ (by norm_num)]
      have enough' : (4 : ℚ) * count ≤ 3 * pow2 lg := by exact_mod_cast enough
      linarith
    have positive : (0 : ℚ) < count / (3 / 4) :=
      div_pos (by exact_mod_cast present) (by norm_num)
    -- A power of two is a number itself, so nothing below it is rounded to more.
    refine ceilingPow2Low (Rat.ceil_le_iff.mpr ?_)
    rw [Int.cast_natCast, pow2Cast]
    exact Binary64.nearestLePow (by omega) positive slots

theorem lgForLoad {count lg : Nat} {least : Int} (most : count ≤ 9007199254740992)
    (sized : lgFor count least = .ok lg) : 4 * count ≤ 3 * pow2 lg := by
  obtain ⟨need, same, enough⟩ := lgForNeed most least
  rw [same] at sized
  cases known : exponent least with
  | error f => simp [known, Except.map] at sized
  | ok least' =>
    simp only [known, Except.map, Except.ok.injEq] at sized
    exact (enough lg).mp (sized ▸ le_max_left _ _)

/-- A table for up to 2^53 keys is the smallest one, from a given exponent on, that they leave at
most three quarters full. An exponent is refused whose power has more bits than can be counted. -/
theorem sizedTightly {count : Nat} (most : count ≤ 9007199254740992) (least : Nat) :
    (least ≤ largestExponent → ∃ lg, lgFor count least = .ok lg ∧
      IsLeast {lg | least ≤ lg ∧ 4 * count ≤ 3 * pow2 lg} lg ∧
      count < pow2 lg ∧ (least < lg → 3 * pow2 lg < 8 * count)) ∧
    (largestExponent < least → lgFor count least = .error .tooLarge) := by
  obtain ⟨need, sized, enough⟩ := lgForNeed most least
  rw [exponentNat] at sized
  constructor
  · intro fits
    rw [if_pos fits] at sized
    have loaded : 4 * count ≤ 3 * pow2 (max need least) := (enough _).mp (le_max_left _ _)
    have pos := pow2Pos (max need least)
    refine ⟨max need least, sized, ⟨⟨le_max_right _ _, loaded⟩, ?_⟩, by omega, ?_⟩
    · rintro lg ⟨floor, room⟩
      exact max_le ((enough lg).mpr room) floor
    · intro above
      obtain ⟨half, same⟩ := Nat.exists_eq_succ_of_ne_zero (Nat.ne_zero_of_lt above)
      rw [same, Nat.succ_eq_add_one, pow2Succ]
      have short := mt (enough half).mpr (by omega)
      omega
  · intro large
    rw [sized, if_neg (not_le.mpr large)]
    rfl

/-- One key more than three quarters of 2^53. -/
theorem sizedTightlyBeyond : ∃ lg, lgFor 6755399441055745 4 = .ok lg ∧
    IsLeast {lg | 4 ≤ lg ∧ 4 * 6755399441055745 ≤ 3 * pow2 lg} lg ∧
    6755399441055745 < pow2 lg ∧ (4 < lg → 3 * pow2 lg < 8 * 6755399441055745) :=
  have most : 6755399441055745 ≤ 9007199254740992 := by decide
  (sizedTightly most 4).1 (by decide)

theorem exponentRefused :
    lgFor 0 1180591620717411303424 = .error .tooLarge ∧
      IsLeast {lg : Nat | 1180591620717411303424 ≤ lg ∧ 4 * 0 ≤ 3 * pow2 lg}
        1180591620717411303424 :=
  ⟨by decide +kernel, ⟨le_refl _, Nat.zero_le _⟩, fun _ large => large.1⟩

end KeyTable
end KeySampling
