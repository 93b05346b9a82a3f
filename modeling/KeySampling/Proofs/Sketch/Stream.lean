import KeySampling.Sketch.QuickSelect
import Mathlib.Data.Finset.Sort
import Mathlib.Data.List.Infix
import Mathlib.Order.ConditionallyCompleteLattice.Basic
import Mathlib.Data.Int.ConditionallyCompleteOrder

/-! What a stream of updates says, apart from any sketch: the sampling keys of its items, the
values that came with a key, and ranks among keys. A sketch is later compared with these. -/
namespace KeySampling

def keyOf (seed : Int) (item : Datum) : Option Int := (samplingKey item seed).toOption

def keysOf (seed : Int) (stream : List (Datum × Datum)) : List Int :=
  stream.filterMap fun u => keyOf seed u.1

def valuesFor (seed key : Int) (stream : List (Datum × Datum)) : List Datum :=
  (stream.filter fun u => decide (keyOf seed u.1 = some key)).map Prod.snd

/-- The distinct keys of a stream, less the one that marks an empty slot. -/
def distinctKeys (seed : Int) (stream : List (Datum × Datum)) : Finset Int :=
  (keysOf seed stream).toFinset.erase 0

theorem keyOfOk {seed key : Int} {item : Datum} (ok : samplingKey item seed = .ok key) :
    keyOf seed item = some key := by
  simp [keyOf, ok, Except.toOption]

theorem keyOfError {seed : Int} {item : Datum} {f : Fault}
    (refused : samplingKey item seed = .error f) : keyOf seed item = none := by
  simp [keyOf, refused, Except.toOption]

theorem keysOfSnoc {seed key : Int} {item : Datum} (ok : samplingKey item seed = .ok key)
    (past : List (Datum × Datum)) (value : Datum) :
    keysOf seed (past ++ [(item, value)]) = keysOf seed past ++ [key] := by
  simp [keysOf, keyOfOk ok]

theorem keysOfUnhashed {seed : Int} {item : Datum} {f : Fault}
    (refused : samplingKey item seed = .error f) (past : List (Datum × Datum)) (value : Datum) :
    keysOf seed (past ++ [(item, value)]) = keysOf seed past ++ [] := by
  simp [keysOf, keyOfError refused]

theorem valuesForSnoc {seed key : Int} {item : Datum} (ok : samplingKey item seed = .ok key)
    (past : List (Datum × Datum)) (value : Datum) (other : Int) :
    valuesFor seed other (past ++ [(item, value)]) =
      valuesFor seed other past ++ if key = other then [value] else [] := by
  by_cases same : key = other <;> simp [valuesFor, keyOfOk ok, same]

theorem valuesForUnseen {seed key : Int} {stream : List (Datum × Datum)}
    (unseen : key ∉ keysOf seed stream) : valuesFor seed key stream = [] := by
  rw [valuesFor, List.map_eq_nil_iff, List.filter_eq_nil_iff]
  intro u member hit
  exact unseen (List.mem_filterMap.mpr ⟨u, member, by simpa using hit⟩)

theorem keysOfPrefix {seed : Int} {pre stream : List (Datum × Datum)} (before : pre <+: stream) :
    keysOf seed pre ⊆ keysOf seed stream := by
  obtain ⟨post, rfl⟩ := before
  simp [keysOf]

theorem keyInRange {seed key : Int} {stream : List (Datum × Datum)}
    (member : key ∈ keysOf seed stream) : 0 ≤ key ∧ key ≤ maxTheta := by
  obtain ⟨u, _, found⟩ := List.mem_filterMap.mp member
  cases ok : samplingKey u.1 seed with
  | error f => simp [keyOf, ok, Except.toOption] at found
  | ok k =>
    simp only [keyOf, ok, Except.toOption, Option.some.injEq] at found
    exact found ▸ samplingKeyRange ok

/-- The key with exactly so many smaller ones in a set. -/
structure Ranks (keys : Finset Int) (smaller : Nat) (key : Int) : Prop where
  member : key ∈ keys
  below : (keys.filter (· < key)).card = smaller

theorem sortedBelow {l : List Int} (sorted : l.Pairwise (· < ·)) {n : Nat} {key : Int}
    (here : l[n]? = some key) : (l.filter fun k => decide (k < key)) = l.take n := by
  obtain ⟨inside, rfl⟩ := List.getElem?_eq_some_iff.mp here
  have split : l = l.take n ++ l[n] :: l.drop (n + 1) := by simp
  have low : ∀ k ∈ l.take n, k < l[n] := by
    intro k member
    obtain ⟨i, before, rfl⟩ := List.mem_take_iff_getElem.mp member
    exact List.pairwise_iff_getElem.mp sorted i n _ _ (by omega)
  have high : ∀ k ∈ l.drop (n + 1), ¬ k < l[n] := by
    intro k member
    obtain ⟨i, bound, rfl⟩ := List.mem_drop_iff_getElem.mp member
    have := List.pairwise_iff_getElem.mp sorted n (n + 1 + i) inside (by omega) (by omega)
    omega
  have kept : (l.take n).filter (fun k => decide (k < l[n])) = l.take n :=
    List.filter_eq_self.mpr (by simpa using low)
  have dropped : (l.drop (n + 1)).filter (fun k => decide (k < l[n])) = [] :=
    List.filter_eq_nil_iff.mpr (by simpa using high)
  generalize pivot : l[n] = x at *
  conv_lhs => rw [split]
  rw [List.filter_append, List.filter_cons_of_neg (by simp), kept, dropped, List.append_nil]

theorem sortedRank {l : List Int} (sorted : l.Pairwise (· < ·)) {n : Nat} {key : Int}
    (here : l[n]? = some key) : (l.filter fun k => decide (k < key)).length = n := by
  have inside := (List.getElem?_eq_some_iff.mp here).1
  rw [sortedBelow sorted here, List.length_take, min_eq_left inside.le]

theorem ranksOfSorted {l : List Int} (sorted : l.Pairwise (· < ·)) {n : Nat} {key : Int}
    (here : l[n]? = some key) : Ranks l.toFinset n key := by
  refine ⟨List.mem_toFinset.mpr (List.mem_of_getElem? here), ?_⟩
  have nodup : l.Nodup := sorted.imp fun less => ne_of_lt less
  rw [← sortedRank sorted here, ← List.toFinset_card_of_nodup (nodup.filter _),
    List.toFinset_filter]
  simp

theorem sortedGet {keys : Finset Int} {n : Nat} {key : Int} (ranks : Ranks keys n key) :
    (keys.sort (· ≤ ·))[n]? = some key := by
  obtain ⟨m, here⟩ := List.getElem?_of_mem ((keys.mem_sort (· ≤ ·)).mpr ranks.member)
  have same := (ranksOfSorted keys.sortedLT_sort.pairwise here).below
  rw [Finset.sort_toFinset, ranks.below] at same
  exact same ▸ here

theorem takeBelow {keys : Finset Int} {n : Nat} {pivot : Int} (ranks : Ranks keys n pivot)
    (key : Int) : key ∈ (keys.sort (· ≤ ·)).take n ↔ key ∈ keys ∧ key < pivot := by
  have sorted := keys.sortedLT_sort.pairwise
  rw [← sortedBelow sorted (sortedGet ranks), List.mem_filter, Finset.mem_sort, decide_eq_true_eq]

theorem ranksOfTake {keys : Finset Int} {n : Nat} {key : Int}
    (early : key ∈ (keys.sort (· ≤ ·)).take n) : ∃ m < n, Ranks keys m key := by
  obtain ⟨m, before, rfl⟩ := List.mem_take_iff_getElem.mp early
  have here := ranksOfSorted keys.sortedLT_sort.pairwise
    (List.getElem?_eq_getElem (show m < (keys.sort (· ≤ ·)).length by omega))
  rw [Finset.sort_toFinset] at here
  exact ⟨m, by omega, here⟩

namespace QuickSelect

theorem selectRanks {keys : List Int} (nodup : keys.Nodup) {smaller : Nat}
    (enough : smaller < keys.length) (default : Int) :
    Ranks keys.toFinset smaller (select keys smaller default) := by
  let sorted := keys.mergeSort fun a b => decide (a ≤ b)
  have perm : sorted.Perm keys := List.mergeSort_perm _ _
  have ascending : sorted.Pairwise (· < ·) := by
    have weak : sorted.Pairwise fun a b => decide (a ≤ b) = true :=
      List.pairwise_mergeSort (by simp; omega) (by simp; omega) keys
    refine (weak.and (perm.nodup_iff.mpr nodup)).imp ?_
    intro a b ordered
    have le : a ≤ b := by simpa using ordered.1
    have ne : a ≠ b := ordered.2
    omega
  have inside : smaller < sorted.length := by rw [perm.length_eq]; exact enough
  have chosen : select keys smaller default = sorted[smaller] := by
    change (sorted.take (smaller + 1)).getLastD default = _
    simp [List.getLast?_take, inside]
  rw [← List.toFinset_eq_of_perm _ _ perm, chosen]
  exact ranksOfSorted ascending (List.getElem?_eq_getElem inside)

theorem selectMem (keys : List Int) (smaller : Nat) (default : Int) :
    select keys smaller default = default ∨ select keys smaller default ∈ keys := by
  have last := List.getLastD_mem_cons
    (l := (keys.mergeSort fun a b => decide (a ≤ b)).take (smaller + 1)) (a := default)
  rcases List.mem_cons.mp last with same | member
  · exact .inl same
  · exact .inr (List.mem_mergeSort.mp (List.mem_of_mem_take member))

end QuickSelect
end KeySampling
