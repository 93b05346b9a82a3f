import KeySampling.Sketch.Stats
import KeySampling.Proofs.Census.Bracketing

/-! What a report comes to. A quotient by zero, or the root of a negative number, would show in it
as a number that is not finite. The one division that is refused is that by a limit of zero. -/
namespace KeySampling

namespace Binary64

def AllFinite (numbers : List Binary64) : Prop := ∀ x ∈ numbers, ∃ q, x.toRat? = some q

theorem roundedWithin {q : ℚ} {e : Int} (least : -1074 ≤ e) (within : |q| ≤ 2 ^ e) :
    |rounded q| ≤ 2 ^ e := by
  obtain ⟨low, high⟩ := abs_le.mp within
  refine abs_le.mpr ⟨?_, roundedLePow least high⟩
  rw [neg_le, ← roundedNeg]
  exact roundedLePow least (neg_le.mp low)

end Binary64

open Binary64

namespace Census
variable {c : Census} {count : Nat}

def Bounds.numbers (b : Bounds) : List Binary64 :=
  [b.estimate, b.one.lower, b.one.upper, b.two.lower, b.two.upper, b.three.lower, b.three.upper]

structure Answered (c : Census) : Prop where
  probability : ∃ p, Yields c.probability p ∧ 0 ≤ p ∧ p ≤ 1
  estimate : ∃ e, Yields c.estimate e ∧ 0 ≤ e
  deviation : ∃ δ, Yields c.deviation δ ∧ 0 ≤ δ
  bounds : ∃ b, c.bounds = .ok b ∧ AllFinite b.numbers

theorem possibleAnswered (possible : c.Possible count) : c.Answered := by
  obtain ⟨δ, deviates, nonneg, _, yields⟩ := boundsYield possible
  obtain ⟨b, found, estimate, one, two, three⟩ := boundsSpan (estimateYields possible) yields
  refine ⟨⟨_, probabilityYields possible, shareRange possible⟩,
    ⟨_, estimateYields possible, (estimateRange possible).1⟩, ⟨δ, deviates, nonneg⟩, b, found, ?_⟩
  simp only [AllFinite, Bounds.numbers, List.forall_mem_cons]
  exact ⟨⟨_, estimate⟩, ⟨_, one.1⟩, ⟨_, one.2⟩, ⟨_, two.1⟩, ⟨_, two.2⟩, ⟨_, three.1⟩,
    ⟨_, three.2⟩, by simp⟩

end Census

namespace Sizes
variable {σ : Type} {sizes : Sizes σ}

/-- The runtime tells a size as a number of 64 bits. -/
structure Bounded (sizes : Sizes σ) : Prop where
  object : sizes.object < 18446744073709551616
  attributes : sizes.attributes < 18446744073709551616
  keys : sizes.keys < 18446744073709551616
  references : sizes.references < 18446744073709551616
  summary : ∀ s, sizes.summary s < 18446744073709551616

theorem summariesBound (bounded : sizes.Bounded) (summaries : List σ) :
    summaries.foldr (fun s bytes => sizes.summary s + bytes) 0 ≤
      summaries.length * 18446744073709551616 := by
  induction summaries with
  | nil => exact Nat.zero_le _
  | cons s rest ih =>
    have here := bounded.summary s
    simp only [List.foldr_cons, List.length_cons]
    omega

theorem totalBound (bounded : sizes.Bounded) (summaries : List σ) :
    sizes.total summaries ≤ (4 + summaries.length) * 18446744073709551616 := by
  have each := summariesBound bounded summaries
  obtain ⟨object, attributes, keys, references, _⟩ := bounded
  simp only [total]
  omega

end Sizes

namespace Memory
variable {m : Memory}

theorem percentRefused (zero : m.limit = some 0) : m.percentUsed = .error .divisionByZero := by
  rw [percentUsed, zero]
  rfl

theorem percentYields (few : m.bytes ≤ 2 ^ 131) (usable : m.limit ≠ some 0) :
    ∃ share, m.percentUsed = .ok share ∧ AllFinite share.toList := by
  rw [percentUsed]
  cases limited : m.limit with
  | none => exact ⟨none, rfl, by simp [AllFinite]⟩
  | some limit =>
    have nonzero : limit ≠ 0 := fun zero => usable (by rw [limited, zero])
    have whole : (1 : ℚ) ≤ |(limit : ℚ)| := by
      rw [← Int.cast_abs]
      exact_mod_cast Int.one_le_abs nonzero
    have within : |((m.bytes : Int) : ℚ) / limit| ≤ 2 ^ (131 : Int) := by
      rw [abs_div, Int.cast_natCast, Nat.abs_cast]
      refine (div_le_self (Nat.cast_nonneg _) whole).trans ?_
      exact_mod_cast few
    have far {e : Int} (small : e < 1023) : (2 : ℚ) ^ e < huge :=
      zpow_lt_zpow_right₀ one_lt_two small
    obtain ⟨x, divided, value⟩ := quotientYields nonzero (within.trans_lt (far (by decide)))
    have hundred : (ofInt 100).toRat? = some 100 := by decide +kernel
    have small : |rounded (((m.bytes : Int) : ℚ) / limit) * 100| < huge :=
      calc |rounded (((m.bytes : Int) : ℚ) / limit) * 100|
          = |rounded (((m.bytes : Int) : ℚ) / limit)| * |100| := abs_mul _ _
        _ ≤ 2 ^ (131 : Int) * 2 ^ (7 : Int) :=
          mul_le_mul (roundedWithin (by decide) within) (by norm_num) (abs_nonneg _) (zpowPos _).le
        _ = 2 ^ (138 : Int) := (zpowAdd _ _).symm
        _ < huge := far (by decide)
    refine ⟨some (x.mul (ofInt 100)), by simp only [divided, Except.map], ?_⟩
    simp only [AllFinite, Option.toList_some, List.mem_singleton, forall_eq]
    exact ⟨_, mulValue value hundred small⟩

end Memory

def Stats.numbers (r : Stats) : List Binary64 :=
  r.probability :: r.percentUsed.toList ++ r.bounds.numbers

namespace Census
variable {c : Census} {count : Nat} {m : Memory}

theorem statsRefused (possible : c.Possible count) (kind : String) (zero : m.limit = some 0) :
    c.stats kind m = .error .divisionByZero := by
  obtain ⟨p, known, _⟩ := probabilityYields possible
  rw [stats, known, Memory.percentRefused zero]
  rfl

theorem statsYield (possible : c.Possible count) (kind : String) (few : m.bytes ≤ 2 ^ 131)
    (usable : m.limit ≠ some 0) : ∃ r, c.stats kind m = .ok r ∧ AllFinite r.numbers := by
  obtain ⟨p, known, value⟩ := probabilityYields possible
  obtain ⟨share, used, finite⟩ := Memory.percentYields few usable
  obtain ⟨b, bounded, finite'⟩ := (possibleAnswered possible).bounds
  refine ⟨⟨kind, c, p, m, share, b⟩, ?_, ?_⟩
  · rw [stats, known, used, bounded]
    rfl
  · rw [AllFinite, Stats.numbers, List.cons_append, List.forall_mem_cons, List.forall_mem_append]
    exact ⟨⟨_, value⟩, finite, finite'⟩

end Census
end KeySampling
