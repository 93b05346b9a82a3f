import KeySampling.Proofs.Binary64.Extremes
import KeySampling.Summary.Basic
import Mathlib.Data.List.Basic
import Mathlib.Order.BoundedOrder.Basic
import Mathlib.Order.OrderDual

/-! Summaries that keep the least or the largest of their values. Neither choice is commutative,
and with the NaN neither is associative; but a summary starts from a number, the NaN never takes
its place, and on numbers both choices are associative, even as to which of two zeros is kept.
So the order of the values does not show, and two summaries merge into that of all values. -/
namespace KeySampling

namespace Binary64

theorem leRank {x y : Binary64} (left : x ≠ .nan) (right : y ≠ .nan) :
    x.le y = true ↔ x.rank ≤ y.rank := by
  rw [le, Bool.or_eq_true, ltRank left right, eqvRank left right, le_iff_lt_or_eq]

structure Prefers {P : Type} [LinearOrder P] (place : Binary64 → P)
    (choose : Binary64 → Binary64 → Binary64) : Prop where
  nan : ∀ x, choose x .nan = x
  number : ∀ {x y}, x ≠ .nan → y ≠ .nan → choose x y = if place y < place x then y else x

theorem smallerPrefers : Prefers rank smaller where
  nan x := by cases x <;> rfl
  number left right := by simp only [smaller, ltRank right left]

theorem largerPrefers : Prefers (fun x => OrderDual.toDual x.rank) larger where
  nan x := by cases x <;> rfl
  number left right := by simp only [larger, ltRank left right, OrderDual.toDual_lt_toDual]

namespace Prefers
variable {P : Type} [LinearOrder P] {place : Binary64 → P}
  {choose : Binary64 → Binary64 → Binary64} {a b c : Binary64} {xs ys : List Binary64}

theorem stays (prefers : Prefers place choose) (left : a ≠ .nan) : choose a b ≠ .nan := by
  by_cases right : b = .nan
  · rwa [right, prefers.nan]
  · rw [prefers.number left right]
    split
    · exact right
    · exact left

theorem assoc (prefers : Prefers place choose) (left : a ≠ .nan) (mid : b ≠ .nan) (c : Binary64) :
    choose (choose a b) c = choose a (choose b c) := by
  by_cases right : c = .nan
  · rw [right, prefers.nan, prefers.nan]
  rw [prefers.number (prefers.stays left) right, prefers.number mid right,
    prefers.number left mid]
  by_cases second : place b < place a <;> by_cases third : place c < place b
  · have lower := lt_trans third second
    simp only [second, third, if_true]
    rw [prefers.number left right, if_pos lower]
  · simp only [second, third, if_true, if_false]
    rw [prefers.number left mid, if_pos second]
  · simp only [second, third, if_true, if_false]
    exact (prefers.number left right).symm
  · -- Neither b nor c is lower than what stands before it.
    have above : ¬ place c < place a := not_lt.mpr ((not_lt.mp second).trans (not_lt.mp third))
    simp only [second, third, above, if_false]
    rw [prefers.number left mid, if_neg second]

theorem foldStays (prefers : Prefers place choose) (left : a ≠ .nan) (xs : List Binary64) :
    xs.foldl choose a ≠ .nan := by
  induction xs generalizing a with
  | nil => exact left
  | cons x rest ih => exact ih (prefers.stays left)

theorem foldAssoc (prefers : Prefers place choose) (left : a ≠ .nan) (mid : b ≠ .nan) :
    xs.foldl choose (choose a b) = choose a (xs.foldl choose b) := by
  induction xs generalizing b with
  | nil => rfl
  | cons x rest ih =>
    rw [List.foldl_cons, List.foldl_cons, prefers.assoc left mid]
    exact ih (prefers.stays mid)

theorem foldAppend (prefers : Prefers place choose) (left : a ≠ .nan)
    (top : ∀ x, place x ≤ place a) :
    (xs ++ ys).foldl choose a = choose (xs.foldl choose a) (ys.foldl choose a) := by
  have number := prefers.foldStays left xs
  have absorbed : choose (xs.foldl choose a) a = xs.foldl choose a := by
    rw [prefers.number number left, if_neg (not_lt.mpr (top _))]
  rw [List.foldl_append, ← prefers.foldAssoc number left, absorbed]

theorem lower (prefers : Prefers place choose) (left : a ≠ .nan) :
    place (choose a b) ≤ place a ∧ (b ≠ .nan → place (choose a b) ≤ place b) ∧
      (choose a b = a ∨ choose a b = b) := by
  by_cases right : b = .nan
  · rw [right, prefers.nan]
    exact ⟨le_refl _, fun number => absurd rfl number, .inl rfl⟩
  rw [prefers.number left right]
  split
  · rename_i below
    exact ⟨below.le, fun _ => le_refl _, .inr rfl⟩
  · rename_i above
    exact ⟨le_refl _, fun _ => not_lt.mp above, .inl rfl⟩

/-- The invariant of a fold: it stands on what it began with or on one of the values, as low as
any number it has met. -/
theorem foldLower (prefers : Prefers place choose) (left : a ≠ .nan) (xs : List Binary64) :
    place (xs.foldl choose a) ≤ place a ∧
      (∀ x ∈ xs, x ≠ .nan → place (xs.foldl choose a) ≤ place x) ∧
      (xs.foldl choose a = a ∨ xs.foldl choose a ∈ xs) := by
  induction xs generalizing a with
  | nil => exact ⟨le_refl _, by simp, .inl rfl⟩
  | cons x rest ih =>
    obtain ⟨first, second, origin⟩ := prefers.lower (b := x) left
    obtain ⟨low, lowest, kept⟩ := ih (prefers.stays (b := x) left)
    rw [List.foldl_cons]
    refine ⟨low.trans first, ?_, ?_⟩
    · rw [List.forall_mem_cons]
      exact ⟨fun number => low.trans (second number), lowest⟩
    · rcases kept with same | member
      · rw [same]
        exact origin.imp_right fun new => List.mem_cons.mpr (.inl new)
      · exact .inr (List.mem_cons_of_mem _ member)

end Prefers

/-- A number that equals the foremost of a list in a given order, the NaN left out; without any
number in the list it is a given last one. -/
def Foremost (ahead : Binary64 → Binary64 → Bool) (last : Binary64) (xs : List Binary64)
    (v : Binary64) : Prop :=
  (∃ m ∈ xs, m ≠ .nan ∧ v.eqv m = true ∧ ∀ x ∈ xs, x ≠ .nan → ahead m x = true) ∨
    ((∀ x ∈ xs, x = .nan) ∧ v = last)

theorem foldForemost {P : Type} [LinearOrder P] {place : Binary64 → P}
    {choose : Binary64 → Binary64 → Binary64} {ahead : Binary64 → Binary64 → Bool}
    {last : Binary64} (prefers : Prefers place choose) (number : last ≠ .nan)
    (ordered : ∀ {x y}, x ≠ .nan → y ≠ .nan → (ahead x y = true ↔ place x ≤ place y))
    (highest : ∀ {x}, place last ≤ place x → x ≠ .nan → x = last) (xs : List Binary64) :
    Foremost ahead last xs (xs.foldl choose last) := by
  have stands := prefers.foldStays number xs
  obtain ⟨_, lowest, kept⟩ := prefers.foldLower number xs
  have first : ∀ x ∈ xs, x ≠ .nan → ahead (xs.foldl choose last) x = true := fun x member real =>
    (ordered stands real).mpr (lowest x member real)
  have itself : (xs.foldl choose last).eqv (xs.foldl choose last) = true :=
    (eqvRank stands stands).mpr rfl
  rcases kept with same | member
  · by_cases allNan : ∀ x ∈ xs, x = .nan
    · exact .inr ⟨allNan, same⟩
    -- The last number of all is only kept when every number of the list is that number.
    push Not at allNan
    obtain ⟨x, member, real⟩ := allNan
    have equal : x = last := highest (same ▸ lowest x member real) real
    rw [same] at first itself ⊢
    exact .inl ⟨last, equal ▸ member, number, itself, first⟩
  · exact .inl ⟨_, member, stands, itself, first⟩

theorem foremostPerm {ahead : Binary64 → Binary64 → Bool} {last v : Binary64}
    {xs ys : List Binary64} (perm : xs.Perm ys) (foremost : Foremost ahead last xs v) :
    Foremost ahead last ys v := by
  simpa only [Foremost, perm.mem_iff] using foremost

end Binary64

namespace Summary

def updateAll (s : Summary) (values : List Datum) : Except Fault Summary := values.foldlM update s

theorem updateAllFloats (s : Summary) (xs : List Binary64) :
    s.updateAll (xs.map .float) = .ok ⟨xs.foldl s.mode.fold s.value, s.mode⟩ := by
  induction xs generalizing s with
  | nil => rfl
  | cons x rest ih => exact ih ⟨s.mode.fold s.value x, s.mode⟩

/-- A mode whose summaries hold the foremost of their values, whatever their order, and merge into
the summary of all values of both. -/
structure KeepsForemost (mode : Mode) (ahead : Binary64 → Binary64 → Bool) (last : Binary64) :
    Prop where
  found : ∀ xs order : List Binary64, order.Perm xs →
    ∃ s, (fresh mode).updateAll (order.map .float) = .ok s ∧
      Binary64.Foremost ahead last xs s.value
  merged : ∀ xs ys : List Binary64, ∃ s t,
    (fresh mode).updateAll (xs.map .float) = .ok s ∧
    (fresh mode).updateAll (ys.map .float) = .ok t ∧
    (fresh mode).updateAll ((xs ++ ys).map .float) = .ok (combine mode s t)

theorem prefersKeeps {P : Type} [LinearOrder P] {place : Binary64 → P} {mode : Mode}
    {ahead : Binary64 → Binary64 → Bool} (prefers : Binary64.Prefers place mode.fold)
    (number : mode.neutral ≠ .nan)
    (ordered : ∀ {x y}, x ≠ .nan → y ≠ .nan → (ahead x y = true ↔ place x ≤ place y))
    (top : ∀ x, place x ≤ place mode.neutral)
    (highest : ∀ {x}, place mode.neutral ≤ place x → x ≠ .nan → x = mode.neutral) :
    KeepsForemost mode ahead mode.neutral := by
  refine ⟨fun xs order perm => ?_, fun xs ys => ?_⟩
  · have foremost := Binary64.foldForemost prefers number ordered highest order
    exact ⟨_, updateAllFloats (fresh mode) order, Binary64.foremostPerm perm foremost⟩
  · refine ⟨_, _, updateAllFloats (fresh mode) xs, updateAllFloats (fresh mode) ys, ?_⟩
    rw [updateAllFloats]
    simp only [fresh, combine, prefers.foldAppend number top]

theorem minKeeps : KeepsForemost .min Binary64.le (.infinite false) :=
  prefersKeeps Binary64.smallerPrefers (by decide) Binary64.leRank (fun _ => le_top)
    fun {x} high number => by
      cases x with
      | nan => contradiction
      | infinite negative => cases negative <;> simp_all [Binary64.rank, Mode.neutral]
      | finite x => exact absurd high (not_le.mpr (Binary64.finiteRank x).2)

theorem maxKeeps : KeepsForemost .max (fun x y => y.le x) (.infinite true) :=
  prefersKeeps Binary64.largerPrefers (by decide)
    (fun left right => (Binary64.leRank right left).trans OrderDual.toDual_le_toDual.symm)
    (fun _ => OrderDual.toDual_le_toDual.mpr bot_le)
    fun {x} high number => by
      cases x with
      | nan => contradiction
      | infinite negative => cases negative <;> simp_all [Binary64.rank, Mode.neutral]
      | finite x => exact absurd high (not_le.mpr (Binary64.finiteRank x).1)

/-- Whatever numbers a summary is given, and in whatever order, it holds the least of them or the
largest, by its mode; NaNs count for nothing. Two such summaries merge into the very summary that
the values of the first and then those of the second leave. -/
theorem extremesKept : KeepsForemost .min Binary64.le (.infinite false) ∧
    KeepsForemost .max (fun x y => y.le x) (.infinite true) := ⟨minKeeps, maxKeeps⟩

/-- Of equal numbers, as the two zeros are, the first is held. -/
example : (fresh .min).updateAll [.float .nan, .float (.zero false), .float (.zero true)] =
    .ok ⟨.zero false, .min⟩ := by decide +kernel

end Summary
end KeySampling
