import KeySampling.Proofs.Summary.OrderFree
import KeySampling.Summary.Store
import KeySampling.Sketch.Compact
import Mathlib.Data.List.Forall2
import Mathlib.Data.List.Nodup
import Mathlib.Data.List.Sort

/-! Compact sketches compared. The comparison sorts the entries of both by key and goes through
them position by position. Keys that occur once have only one sorted arrangement, so what is
compared are the two maps from keys to summaries, and the storage order cannot be seen. -/
namespace KeySampling
namespace Compact
variable {σ : Type} {same : σ → σ → Bool} {a b c : Compact σ}

def keys (c : Compact σ) : List Int := c.entries.map Prod.fst

theorem sortedPerm (c : Compact σ) : c.sorted.Perm c.entries := List.mergeSort_perm _ _

theorem sortedMember {e : Int × σ} : e ∈ c.sorted ↔ e ∈ c.entries := c.sortedPerm.mem_iff

theorem sortedKeysPerm (c : Compact σ) : (c.sorted.map Prod.fst).Perm c.keys :=
  c.sortedPerm.map Prod.fst

theorem sortedAscending (c : Compact σ) : (c.sorted.map Prod.fst).Pairwise (· ≤ ·) := by
  have sorted : c.sorted.Pairwise fun x y => decide (x.1 ≤ y.1) = true :=
    List.pairwise_mergeSort (fun _ _ _ first second => by simp at *; omega)
      (fun _ _ => by simp; omega) c.entries
  exact List.pairwise_map.mpr (sorted.imp fun below => of_decide_eq_true below)

theorem sortedKeysSame (left : a.keys.Nodup) (right : b.keys.Nodup)
    (keys : ∀ key, key ∈ a.keys ↔ key ∈ b.keys) :
    a.sorted.map Prod.fst = b.sorted.map Prod.fst := by
  have between : a.keys.Perm b.keys := (List.perm_ext_iff_of_nodup left right).mpr keys
  have arranged : (a.sorted.map Prod.fst).Perm (b.sorted.map Prod.fst) :=
    a.sortedKeysPerm.trans (between.trans b.sortedKeysPerm.symm)
  exact arranged.eq_of_pairwise' a.sortedAscending b.sortedAscending

theorem entryUnique {entries : List (Int × σ)} {key : Int} {g h : σ}
    (distinct : (entries.map Prod.fst).Nodup) (one : (key, g) ∈ entries)
    (other : (key, h) ∈ entries) : g = h :=
  congrArg Prod.snd (List.inj_on_of_nodup_map distinct one other rfl)

theorem sameEntriesPaired {xs ys : List (Int × σ)} : sameEntries same xs ys = true ↔
    List.Forall₂ (fun x y => x.1 = y.1 ∧ same x.2 y.2 = true) xs ys := by
  induction xs generalizing ys with
  | nil => cases ys <;> simp [sameEntries]
  | cons x xs ih =>
    cases ys with
    | nil => simp [sameEntries]
    | cons y ys => simp [sameEntries, ih, and_assoc]

structure Agree (same : σ → σ → Bool) (a b : Compact σ) : Prop where
  keys : ∀ key, key ∈ a.keys ↔ key ∈ b.keys
  summaries : ∀ key g h, (key, g) ∈ a.entries → (key, h) ∈ b.entries → same g h = true

theorem partner {τ : Type} {related : τ → τ → Prop} {xs ys : List τ} {x : τ}
    (paired : List.Forall₂ related xs ys) (member : x ∈ xs) : ∃ y ∈ ys, related x y := by
  induction paired with
  | nil => cases member
  | cons pair _ ih =>
    rcases List.mem_cons.mp member with rfl | later
    · exact ⟨_, List.mem_cons_self, pair⟩
    · obtain ⟨y, inside, agree⟩ := ih later
      exact ⟨y, List.mem_cons_of_mem _ inside, agree⟩

theorem columnsSame {xs ys : List (Int × σ)} :
    xs.map Prod.fst = ys.map Prod.fst ↔ List.Forall₂ (fun x y => x.1 = y.1) xs ys := by
  rw [← List.forall₂_eq_eq_eq, List.forall₂_map_left_iff, List.forall₂_map_right_iff]

theorem pairedAgree (right : b.keys.Nodup)
    (paired : List.Forall₂ (fun x y => x.1 = y.1 ∧ same x.2 y.2 = true) a.sorted b.sorted) :
    Agree same a b where
  keys key := by
    have columns : a.sorted.map Prod.fst = b.sorted.map Prod.fst :=
      columnsSame.mpr (paired.imp fun _ _ both => both.1)
    rw [← a.sortedKeysPerm.mem_iff, columns, b.sortedKeysPerm.mem_iff]
  summaries key g h mine other := by
    obtain ⟨⟨key', h'⟩, inside, rfl, agree⟩ := partner paired (sortedMember.mpr mine)
    rwa [entryUnique right other (sortedMember.mp inside)]

theorem agreePaired (left : a.keys.Nodup) (right : b.keys.Nodup) (agree : Agree same a b) :
    List.Forall₂ (fun x y => x.1 = y.1 ∧ same x.2 y.2 = true) a.sorted b.sorted := by
  have lined : List.Forall₂ (fun x y => x.1 = y.1) a.sorted b.sorted :=
    columnsSame.mp (sortedKeysSame left right agree.keys)
  refine List.forall₂_iff_zip.mpr ⟨lined.length_eq, ?_⟩
  rintro ⟨key, g⟩ ⟨key', h⟩ together
  obtain rfl : key = key' := List.forall₂_zip lined together
  obtain ⟨mine, other⟩ := List.of_mem_zip together
  exact ⟨rfl, agree.summaries key g h (sortedMember.mp mine) (sortedMember.mp other)⟩

theorem sameAgree (left : a.keys.Nodup) (right : b.keys.Nodup) : Compact.same same a b = true ↔
    a.theta = b.theta ∧ a.empty = b.empty ∧ Agree same a b := by
  have entries : sameEntries same a.sorted b.sorted = true ↔ Agree same a b :=
    sameEntriesPaired.trans ⟨pairedAgree right, agreePaired left right⟩
  simp [Compact.same, entries, and_assoc]

end Compact

theorem Store.sameNumbers {store : Store} {g h : Handle} (number : (store.read g).value ≠ .nan) :
    store.same g h = (store.read g).same (store.read h) := by
  by_cases shared : g = h
  · subst shared
    have self : (store.read g).same (store.read g) = true :=
      (Summary.sameRank _ _).mpr ⟨number, number, rfl, rfl⟩
    simp [Store.same, self]
  · simp [Store.same, shared]

namespace Compact
variable {store : Store} {a b c : Compact Handle}

structure Definite (store : Store) (c : Compact Handle) : Prop where
  distinct : c.keys.Nodup
  numbers : ∀ e ∈ c.entries, (store.read e.2).value ≠ .nan

/-- The same number, the two zeros being one, and the same mode. -/
def SameNumber (store : Store) (g h : Handle) : Prop :=
  (store.read g).value.rank = (store.read h).value.rank ∧ (store.read g).mode = (store.read h).mode

structure SameContents (store : Store) (a b : Compact Handle) : Prop where
  theta : a.theta = b.theta
  empty : a.empty = b.empty
  keys : ∀ key, key ∈ a.keys ↔ key ∈ b.keys
  summaries : ∀ key g h, (key, g) ∈ a.entries → (key, h) ∈ b.entries → SameNumber store g h

theorem sameNumber {e f : Int × Handle} (left : a.Definite store) (right : b.Definite store)
    (mine : e ∈ a.entries) (other : f ∈ b.entries) :
    store.same e.2 f.2 = true ↔ SameNumber store e.2 f.2 := by
  have number := left.numbers e mine
  rw [Store.sameNumbers number, Summary.sameRank]
  simp [SameNumber, number, right.numbers f other]

theorem sameContents (left : a.Definite store) (right : b.Definite store) :
    Compact.same store.same a b = true ↔ SameContents store a b := by
  rw [sameAgree left.distinct right.distinct]
  constructor
  · rintro ⟨theta, empty, keys, agree⟩
    exact ⟨theta, empty, keys, fun key g h mine other =>
      (sameNumber left right mine other).mp (agree key g h mine other)⟩
  · rintro ⟨theta, empty, keys, agree⟩
    exact ⟨theta, empty, keys, fun key g h mine other =>
      (sameNumber left right mine other).mpr (agree key g h mine other)⟩

theorem contentsSymm (same : SameContents store a b) : SameContents store b a where
  theta := same.theta.symm
  empty := same.empty.symm
  keys key := (same.keys key).symm
  summaries key g h mine other :=
    have agree := same.summaries key h g other mine
    ⟨agree.1.symm, agree.2.symm⟩

theorem contentsTrans (first : SameContents store a b) (second : SameContents store b c) :
    SameContents store a c where
  theta := first.theta.trans second.theta
  empty := first.empty.trans second.empty
  keys key := (first.keys key).trans (second.keys key)
  summaries key g h mine other := by
    obtain ⟨⟨_, m⟩, between, rfl⟩ :=
      List.mem_map.mp ((first.keys key).mp (List.mem_map_of_mem mine))
    have one := first.summaries _ g m mine between
    have two := second.summaries _ m h between other
    exact ⟨one.1.trans two.1, one.2.trans two.2⟩

/-- The entries in another order; the limit on memory is not compared and may differ. -/
structure Rearranged (a b : Compact Handle) : Prop where
  entries : a.entries.Perm b.entries
  theta : a.theta = b.theta
  empty : a.empty = b.empty

theorem rearrangedDefinite (moved : Rearranged b a) (definite : a.Definite store) :
    b.Definite store where
  distinct := (moved.entries.map Prod.fst).nodup_iff.mpr definite.distinct
  numbers e member := definite.numbers e (moved.entries.mem_iff.mp member)

theorem rearrangedContents (moved : Rearranged b a) (definite : a.Definite store) :
    SameContents store b a where
  theta := moved.theta
  empty := moved.empty
  keys _ := (moved.entries.map Prod.fst).mem_iff
  summaries key g h mine other := by
    obtain rfl : g = h := entryUnique definite.distinct (moved.entries.mem_iff.mp mine) other
    exact ⟨rfl, rfl⟩

theorem contentsSelf (definite : a.Definite store) : SameContents store a a :=
  rearrangedContents ⟨.refl _, rfl, rfl⟩ definite

theorem sameEquivalence (store : Store) : Equivalence fun x y : {c : Compact Handle //
    c.Definite store} => Compact.same store.same x.1 y.1 = true where
  refl x := (sameContents x.2 x.2).mpr (contentsSelf x.2)
  symm {x y} same := (sameContents y.2 x.2).mpr (contentsSymm ((sameContents x.2 y.2).mp same))
  trans {x y z} first second := (sameContents x.2 z.2).mpr
    (contentsTrans ((sameContents x.2 y.2).mp first) ((sameContents y.2 z.2).mp second))

theorem sameRearranged {a' b' : Compact Handle} (left : a.Definite store) (right : b.Definite store)
    (mine : Rearranged a' a) (other : Rearranged b' b) :
    Compact.same store.same a' b' = Compact.same store.same a b := by
  rw [Bool.eq_iff_iff, sameContents left right,
    sameContents (rearrangedDefinite mine left) (rearrangedDefinite other right)]
  have ahead := rearrangedContents mine left
  have behind := rearrangedContents other right
  exact ⟨fun same => contentsTrans (contentsSymm ahead) (contentsTrans same behind),
    fun same => contentsTrans ahead (contentsTrans same (contentsSymm behind))⟩

/-- Equality of compact sketches is equality of contents, blind to the storage order. -/
theorem equalityOfContents (store : Store) {a b : Compact Handle} (left : a.Definite store)
    (right : b.Definite store) :
    (Compact.same store.same a b = true ↔ SameContents store a b) ∧
      (∀ a' b', Rearranged a' a → Rearranged b' b →
        Compact.same store.same a' b' = Compact.same store.same a b) ∧
      Equivalence fun x y : {c : Compact Handle // c.Definite store} =>
        Compact.same store.same x.1 y.1 = true :=
  ⟨sameContents left right, fun _ _ => sameRearranged left right, sameEquivalence store⟩

/-- Two zeros of different sign, met in opposite orders. -/
theorem equalityAcrossZeros :
    let store : Store := ⟨#[⟨.zero false, .sum⟩, ⟨.one, .max⟩, ⟨.zero true, .sum⟩]⟩
    let a : Compact Handle := ⟨[(7, ⟨0⟩), (3, ⟨1⟩)], 9, false, none⟩
    let b : Compact Handle := ⟨[(3, ⟨1⟩), (7, ⟨2⟩)], 9, false, some 64⟩
    a.Definite store ∧ b.Definite store ∧ Compact.same store.same a b = true := by
  intro store a b
  have left : a.Definite store := ⟨by decide, by decide +kernel⟩
  have right : b.Definite store := ⟨by decide, by decide +kernel⟩
  have alike : ∀ e ∈ a.entries, ∀ f ∈ b.entries, e.1 = f.1 → store.same e.2 f.2 = true := by
    decide +kernel
  have contents : SameContents store a b :=
    ⟨rfl, rfl, fun key => by simp [a, b, keys, or_comm],
      fun key g h mine other =>
        (sameNumber left right mine other).mp (alike (key, g) mine (key, h) other rfl)⟩
  exact ⟨left, right, (equalityOfContents store left right).1.mpr contents⟩

end Compact
end KeySampling
