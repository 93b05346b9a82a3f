import KeySampling.KeyTable.Probe
import KeySampling.Proofs.PowersOfTwo
import Mathlib.Data.Nat.ModEq
import Mathlib.Data.Fintype.EquivFin
import Mathlib.Data.Nat.Prime.Basic

/-! The path of a probe, as a function of the number of steps taken. An odd step generates the
integers modulo a power of two, so a path meets every slot once before it is back at its first
slot. The loops of the table stop at that slot, hence never before they have seen all others. -/
namespace KeySampling

namespace Probe

def slotAt (p : Probe) (steps : Nat) : Nat := (p.first + steps * p.stride) % p.size

structure Cyclic (p : Probe) : Prop where
  first : p.first < p.size
  coprime : p.size.Coprime p.stride

theorem ofKeyCyclic (lg : Nat) (key : Int) : (ofKey lg key).Cyclic := by
  refine ⟨firstBound lg key, ?_⟩
  have odd := strideOdd lg key
  change (pow2 lg).Coprime _
  rw [pow2Pow]
  exact Nat.Coprime.pow_left _ (Nat.coprime_two_left.mpr (Nat.odd_iff.mpr odd))

section Path
variable {p : Probe}

theorem slotAtBound (cyclic : p.Cyclic) (steps : Nat) : p.slotAt steps < p.size :=
  Nat.mod_lt _ (Nat.zero_lt_of_lt cyclic.first)

theorem slotAtZero (cyclic : p.Cyclic) : p.slotAt 0 = p.first := by
  simp [slotAt, Nat.mod_eq_of_lt cyclic.first]

theorem slotAtSucc (p : Probe) (steps : Nat) : p.slotAt (steps + 1) = p.next (p.slotAt steps) := by
  simp only [slotAt, next, Nat.mod_add_mod]
  rw [Nat.succ_mul, Nat.add_assoc]

theorem slotAtInjective (cyclic : p.Cyclic) {m n : Nat} (hm : m < p.size) (hn : n < p.size)
    (same : p.slotAt m = p.slotAt n) : m = n := by
  have shifted : p.first + m * p.stride ≡ p.first + n * p.stride [MOD p.size] := same
  have scaled : m * p.stride ≡ n * p.stride [MOD p.size] := Nat.ModEq.add_left_cancel' _ shifted
  have equal : m ≡ n [MOD p.size] := Nat.ModEq.cancel_right_of_coprime cyclic.coprime scaled
  exact Nat.ModEq.eq_of_lt_of_lt equal hm hn

theorem slotAtSurjective (cyclic : p.Cyclic) {slot : Nat} (inside : slot < p.size) :
    ∃ steps < p.size, p.slotAt steps = slot := by
  let walk : Fin p.size → Fin p.size := fun n => ⟨p.slotAt n, slotAtBound cyclic n⟩
  have injective : Function.Injective walk := by
    intro m n same
    exact Fin.ext (slotAtInjective cyclic m.isLt n.isLt (congrArg Fin.val same))
  obtain ⟨n, reached⟩ := Finite.surjective_of_injective injective ⟨slot, inside⟩
  exact ⟨n, n.isLt, congrArg Fin.val reached⟩

theorem slotAtFirst (cyclic : p.Cyclic) {steps : Nat} (started : 0 < steps)
    (inside : steps < p.size) : p.slotAt steps ≠ p.first := by
  intro back
  have zero := slotAtInjective cyclic inside (by omega) (back.trans (slotAtZero cyclic).symm)
  omega

theorem slotAtSize (cyclic : p.Cyclic) : p.slotAt p.size = p.first := by
  simp [slotAt, Nat.mod_eq_of_lt cyclic.first]

end Path
end Probe
end KeySampling
