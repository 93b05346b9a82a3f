import KeySampling.Binary64.Order
import Mathlib.Order.WithBot
import Mathlib.Data.Rat.Defs
import Mathlib.Algebra.Order.Ring.Unbundled.Rat

/-! All numbers but the NaN lie on a line between the two infinities, with both zeros in one place.
There the smaller of two numbers is the minimum and the larger one the maximum. -/
namespace KeySampling.Binary64

/-- The place of a number on the line. The NaN has none; it is put with the least. -/
def rank : Binary64 → WithBot (WithTop ℚ)
  | .nan => ⊥
  | .infinite negative => if negative then ⊥ else ⊤
  | .finite x => ((x.toRat : WithTop ℚ) : WithBot (WithTop ℚ))

theorem finiteRank (x : Finite) : ⊥ < (finite x).rank ∧ (finite x).rank < ⊤ :=
  ⟨WithBot.bot_lt_coe _, WithBot.coe_lt_coe.mpr (WithTop.coe_lt_top _)⟩

variable {x y : Binary64}

theorem ltRank (left : x ≠ .nan) (right : y ≠ .nan) : x.lt y = true ↔ x.rank < y.rank := by
  cases x with
  | nan => contradiction
  | infinite a =>
    cases y with
    | nan => contradiction
    | infinite b => cases a <;> cases b <;> simp [lt, rank]
    | finite y => cases a <;> simp [lt, rank]
  | finite x =>
    cases y with
    | nan => contradiction
    | infinite b =>
      cases b
      · simpa [lt, rank] using (finiteRank x).2
      · simp [lt, rank]
    | finite y => simp [lt, rank]

theorem eqvRank (left : x ≠ .nan) (right : y ≠ .nan) : x.eqv y = true ↔ x.rank = y.rank := by
  cases x with
  | nan => contradiction
  | infinite a =>
    cases y with
    | nan => contradiction
    | infinite b => cases a <;> cases b <;> simp [eqv, rank]
    | finite y => cases a <;> simp [eqv, rank]
  | finite x =>
    cases y with
    | nan => contradiction
    | infinite b => cases b <;> simp [eqv, rank]
    | finite y => simp [eqv, rank]

theorem eqvNumbers (same : x.eqv y = true) : x ≠ .nan ∧ y ≠ .nan := by
  constructor
  · rintro rfl
    simp [eqv] at same
  · rintro rfl
    cases x <;> simp [eqv] at same

theorem chosenNumber (left : x ≠ .nan) (right : y ≠ .nan) (better : Bool) :
    (if better then y else x) ≠ .nan := by
  cases better
  · exact left
  · exact right

theorem smallerRank (left : x ≠ .nan) (right : y ≠ .nan) :
    (x.smaller y).rank = min x.rank y.rank := by
  unfold smaller
  split
  · rename_i below
    exact (min_eq_right ((ltRank right left).mp below).le).symm
  · rename_i below
    exact (min_eq_left (not_lt.mp (mt (ltRank right left).mpr below))).symm

theorem largerRank (left : x ≠ .nan) (right : y ≠ .nan) :
    (x.larger y).rank = max x.rank y.rank := by
  unfold larger
  split
  · rename_i above
    exact (max_eq_right ((ltRank left right).mp above).le).symm
  · rename_i above
    exact (max_eq_left (not_lt.mp (mt (ltRank left right).mpr above))).symm

end KeySampling.Binary64
