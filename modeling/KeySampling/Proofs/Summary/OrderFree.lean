import KeySampling.Proofs.Binary64.Extremes
import KeySampling.Summary.Basic
import Mathlib.Data.List.Basic

/-! Joins whose order does not matter, up to an equality of contents. That equality need not hold
of a thing and itself, as a summary with a NaN shows: what is not equal to itself is left out. The
smaller and the larger value are such joins; the two zeros are why equality of contents is needed
and not identity. -/
namespace KeySampling
variable {τ : Type}

/-- A join that respects an equality and, up to that equality, is commutative and associative. -/
structure OrderFree (same : τ → τ → Prop) (join : τ → τ → τ) : Prop where
  symm : ∀ {a b}, same a b → same b a
  trans : ∀ {a b c}, same a b → same b c → same a c
  respects : ∀ {a a' b b'}, same a a' → same b b' → same (join a b) (join a' b')
  comm : ∀ {a b}, same a a → same b b → same (join a b) (join b a)
  assoc : ∀ {a b c}, same a a → same b b → same c c →
    same (join (join a b) c) (join a (join b c))

namespace OrderFree
variable {same : τ → τ → Prop} {join : τ → τ → τ} {a b x y : τ} {xs ys : List τ}

theorem selfLeft (free : OrderFree same join) (agree : same a b) : same a a :=
  free.trans agree (free.symm agree)

theorem swapLast (free : OrderFree same join) (agree : same a b) (left : same x x)
    (right : same y y) : same (join (join a x) y) (join (join b y) x) := by
  have mine := free.selfLeft agree
  have other := free.selfLeft (free.symm agree)
  have grouped : same (join (join a x) y) (join a (join x y)) := free.assoc mine left right
  have swapped : same (join a (join x y)) (join b (join y x)) :=
    free.respects agree (free.comm left right)
  exact free.trans grouped (free.trans swapped (free.symm (free.assoc other right left)))

theorem foldSame (free : OrderFree same join) (proper : ∀ x ∈ xs, same x x) (agree : same a b) :
    same (xs.foldl join a) (xs.foldl join b) := by
  induction xs generalizing a b with
  | nil => exact agree
  | cons x rest ih =>
    exact ih (fun x member => proper x (List.mem_cons_of_mem _ member))
      (free.respects agree (proper x List.mem_cons_self))

theorem foldPerm (free : OrderFree same join) (perm : xs.Perm ys) (proper : ∀ x ∈ xs, same x x)
    (agree : same a b) : same (xs.foldl join a) (ys.foldl join b) := by
  induction perm generalizing a b with
  | nil => exact agree
  | cons x _ ih =>
    exact ih (fun x member => proper x (List.mem_cons_of_mem _ member))
      (free.respects agree (proper x List.mem_cons_self))
  | swap x y rest =>
    exact free.foldSame (fun x member => proper x (by simp [member]))
      (free.swapLast agree (proper y (by simp)) (proper x (by simp)))
  | trans first _ ih ih' =>
    exact free.trans (ih proper agree)
      (ih' (fun x member => proper x (first.mem_iff.mpr member))
        (free.selfLeft (free.symm agree)))

theorem headPerm (free : OrderFree same join) (perm : (x :: xs).Perm (y :: ys))
    (proper : ∀ z ∈ x :: xs, same z z) : same (xs.foldl join x) (ys.foldl join y) := by
  have tail : ∀ z ∈ xs, same z z := fun z member => proper z (List.mem_cons_of_mem _ member)
  have head : same x x := proper x List.mem_cons_self
  rcases List.mem_cons.mp (perm.mem_iff.mpr List.mem_cons_self) with heads | inside
  · subst heads
    exact free.foldPerm perm.cons_inv tail head
  · obtain ⟨pre, post, rfl⟩ := List.append_of_mem inside
    have forward : (pre ++ y :: post).Perm (y :: (pre ++ post)) := List.perm_middle
    have others : (x :: (pre ++ post)).Perm ys :=
      ((List.Perm.swap x y _).trans ((forward.symm.cons x).trans perm)).cons_inv
    have between : ∀ z ∈ pre ++ post, same z z := fun z member =>
      tail z (forward.mem_iff.mpr (List.mem_cons_of_mem _ member))
    have first : same y y := tail y (by simp)
    have ahead : same ((pre ++ y :: post).foldl join x) ((y :: (pre ++ post)).foldl join x) :=
      free.foldPerm forward tail head
    have traded : same ((y :: (pre ++ post)).foldl join x) ((x :: (pre ++ post)).foldl join y) :=
      free.foldSame between (free.comm head first)
    have settled : same ((x :: (pre ++ post)).foldl join y) (ys.foldl join y) :=
      free.foldPerm others (List.forall_mem_cons.mpr ⟨head, between⟩) first
    exact free.trans ahead (free.trans traded settled)

end OrderFree

namespace Summary

theorem sameRank (a b : Summary) : a.same b = true ↔
    a.value ≠ .nan ∧ b.value ≠ .nan ∧ a.value.rank = b.value.rank ∧ a.mode = b.mode := by
  simp only [same, Bool.and_eq_true, decide_eq_true_eq]
  constructor
  · rintro ⟨values, modes⟩
    obtain ⟨left, right⟩ := Binary64.eqvNumbers values
    exact ⟨left, right, (Binary64.eqvRank left right).mp values, modes⟩
  · rintro ⟨left, right, ranks, modes⟩
    exact ⟨(Binary64.eqvRank left right).mpr ranks, modes⟩

theorem rankedOrderFree {mode : Mode} {op : WithBot (WithTop ℚ) → WithBot (WithTop ℚ) →
      WithBot (WithTop ℚ)} (comm : ∀ p q, op p q = op q p)
    (assoc : ∀ p q r, op (op p q) r = op p (op q r))
    (closed : ∀ {x y}, x ≠ .nan → y ≠ .nan → mode.fold x y ≠ .nan)
    (ranked : ∀ {x y}, x ≠ .nan → y ≠ .nan → (mode.fold x y).rank = op x.rank y.rank) :
    OrderFree (fun a b => same a b = true) (combine mode) where
  symm := by
    intro a b
    simp only [sameRank]
    exact fun ⟨left, right, ranks, modes⟩ => ⟨right, left, ranks.symm, modes.symm⟩
  trans := by
    intro a b c
    simp only [sameRank]
    exact fun ⟨left, _, ranks, modes⟩ ⟨_, right, ranks', modes'⟩ =>
      ⟨left, right, ranks.trans ranks', modes.trans modes'⟩
  respects := by
    intro a a' b b'
    simp only [sameRank, combine]
    rintro ⟨left, left', ranks, _⟩ ⟨right, right', ranks', _⟩
    exact ⟨closed left right, closed left' right', by
      rw [ranked left right, ranked left' right', ranks, ranks'], trivial⟩
  comm := by
    intro a b
    simp only [sameRank, combine]
    rintro ⟨left, _⟩ ⟨right, _⟩
    exact ⟨closed left right, closed right left, by
      rw [ranked left right, ranked right left, comm], trivial⟩
  assoc := by
    intro a b c
    simp only [sameRank, combine]
    rintro ⟨one, _⟩ ⟨two, _⟩ ⟨three, _⟩
    exact ⟨closed (closed one two) three, closed one (closed two three), by
      rw [ranked (closed one two) three, ranked one two, ranked one (closed two three),
        ranked two three, assoc], trivial⟩

theorem minOrderFree : OrderFree (fun a b => same a b = true) (combine .min) :=
  rankedOrderFree min_comm min_assoc (fun left right => Binary64.chosenNumber left right _)
    Binary64.smallerRank

/-- Up to equality only: of two zeros, the one that came first is kept. -/
example : combine .min ⟨.zero false, .min⟩ ⟨.zero true, .min⟩ ≠
    combine .min ⟨.zero true, .min⟩ ⟨.zero false, .min⟩ := by decide +kernel

theorem maxOrderFree : OrderFree (fun a b => same a b = true) (combine .max) :=
  rankedOrderFree max_comm max_assoc (fun left right => Binary64.chosenNumber left right _)
    Binary64.largerRank

end Summary
end KeySampling
