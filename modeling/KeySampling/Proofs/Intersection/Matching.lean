import KeySampling.Intersection
import KeySampling.Proofs.KeyTable.Sizing
import KeySampling.Proofs.KeyTable.Entries
import KeySampling.Proofs.Summary.Contents

/-! One pass of an intersection over an input: each key that is below theta and in the table is
matched once, and the matches fit into the table that is made for them. -/
namespace KeySampling

def Merges {ω σ ι τ υ : Type} (step : σ → ι → ω → σ × ω) (read : Reading ω σ τ)
    (value : Reading ω ι υ) (join : τ → υ → τ) : Prop :=
  ∀ w a i x y, read w a = some x → value w i = some y →
    read (step a i w).2 (step a i w).1 = some (join x y) ∧
      read.Keeps w (step a i w).2 ∧ value.Keeps w (step a i w).2

namespace EntryTable
variable {σ : Type} {t : EntryTable σ} {key : Int}

theorem searchEntry (wf : t.WellFormed) (present : key ∈ t.keySet) :
    ∃ slot mine, t.keys.search t.lg key = .ok (some slot) ∧ t.summaryAt? slot = some mine ∧
      (key, mine) ∈ t.entries := by
  obtain ⟨⟨other, mine⟩, member, same⟩ := List.mem_map.mp present
  cases same
  obtain ⟨nonzero, slot, stored, held⟩ := (entryIff wf other mine).mp member
  exact ⟨slot, mine, KeyTable.searchStored wf.keys stored nonzero, held, member⟩

theorem searchNothing (wf : t.WellFormed) (nonzero : key ≠ 0) (absent : key ∉ t.keySet) :
    t.keys.search t.lg key = .ok none :=
  KeyTable.searchAbsent wf.keys.size fun member => absent ((keyIff wf key).mpr ⟨nonzero, member⟩)

end EntryTable

namespace Intersection
variable {ω σ τ ι υ : Type}

theorem buildFilled {declared : Int} {entries : List (Int × σ)} {t : EntryTable σ}
    (built : build declared entries = .ok t) :
    ∃ lg, EntryTable.ofEntries lg entries = .ok t := by
  unfold build at built
  split at built
  · contradiction
  · exact ⟨_, built⟩

theorem buildSized {entries : List (Int × σ)} (separate : EntryTable.Separate entries)
    (fits : ∀ e ∈ entries, fitsSigned64 e.1 = true)
    (few : entries.length < 9223372036854775808) :
    ∃ t lg, build entries.length entries = .ok t ∧
      KeyTable.lgFor entries.length leastLgTable = .ok lg ∧ t.Holds lg entries := by
  obtain ⟨lg, sized, room, allowed⟩ := KeyTable.lgForRoom few
  obtain ⟨t, ok⟩ := EntryTable.ofEntriesRoom separate fits room allowed
  have built : build entries.length entries = .ok t := by
    rw [build, sized]
    exact ok
  exact ⟨t, lg, built, sized, EntryTable.ofEntriesHolds separate ok⟩

theorem buildHolds {entries : List (Int × σ)} (nodup : (entries.map Prod.fst).Nodup)
    (inRange : ∀ e ∈ entries, 0 < e.1 ∧ e.1 ≤ maxTheta) :
    ∃ t lg, build entries.length entries = .ok t ∧ t.Holds lg entries := by
  have bound := keysBound nodup fun key member => by
    obtain ⟨e, inside, rfl⟩ := List.mem_map.mp member
    exact inRange e inside
  rw [List.length_map] at bound
  have fits : ∀ e ∈ entries, fitsSigned64 e.1 = true := fun e member =>
    keyFits (inRange e member).1.le (inRange e member).2
  obtain ⟨t, lg, ok, _, holds⟩ :=
    buildSized ⟨nodup, fun e member => (inRange e member).1.ne'⟩ fits bound
  exact ⟨t, lg, ok, holds⟩

theorem joinAllMatches {step : σ → ι → ω → σ × ω} {read : Reading ω σ τ} {value : Reading ω ι υ}
    {join : τ → υ → τ} (merges : Merges step read value join) {t : EntryTable σ}
    (wf : t.WellFormed) (theta : Int) {old : Int → Option τ} {new : Int → Option υ}
    {entries : List (Int × ι)} {w : ω} (nonzero : ∀ e ∈ entries, e.1 ≠ 0)
    (mine : read.Finds w t.entries old) (incoming : value.Finds w entries new) :
    ∃ joined w', joinAll t theta step entries w = (.ok joined, w') ∧ read.Keeps w w' ∧
      joined.map Prod.fst =
        (entries.map Prod.fst).filter (fun key => decide (key < theta ∧ key ∈ t.keySet)) ∧
      read.Finds w' joined fun key => (old key).bind fun x => (new key).map (join x) := by
  induction entries generalizing w with
  | nil => exact ⟨[], w, rfl, keepsSelf read w, rfl, by simp [Reading.Finds]⟩
  | cons e rest ih =>
    obtain ⟨key, i⟩ := e
    have nonzero' : ∀ e ∈ rest, e.1 ≠ 0 := fun e member => nonzero e (List.mem_cons_of_mem _ member)
    have incoming' : value.Finds w rest new := fun e member =>
      incoming e (List.mem_cons_of_mem _ member)
    simp only [joinAll, List.map_cons, List.filter_cons]
    by_cases above : theta ≤ key
    · obtain ⟨joined, w', ok, keeps, keys, finds⟩ := ih nonzero' mine incoming'
      refine ⟨joined, w', by rw [if_pos above, ok], keeps, ?_, finds⟩
      rw [keys, if_neg (by simp [not_lt.mpr above])]
    rw [if_neg above]
    by_cases present : key ∈ t.keySet
    · obtain ⟨slot, s, found, held, member⟩ := EntryTable.searchEntry wf present
      obtain ⟨x, said, left⟩ := mine (key, s) member
      obtain ⟨y, given, right⟩ := incoming (key, i) (by simp)
      obtain ⟨merged, kept, kept'⟩ := merges w s i x y left right
      -- The rest is matched in the world that this match leaves, where all can still be read.
      obtain ⟨joined, w', ok, keeps, keys, finds⟩ :=
        ih nonzero' (findsKept mine kept) (findsKept incoming' kept')
      refine ⟨(key, (step s i w).1) :: joined, w', ?_, keepsTrans kept keeps, ?_, ?_⟩
      · simp only [found, held, ok]
      · rw [if_pos (by simp [not_le.mp above, present]), List.map_cons, keys]
      · intro e inside
        rcases List.mem_cons.mp inside with same | later
        · subst e
          refine ⟨join x y, ?_, keeps _ _ merged⟩
          simp only at said given
          simp [said, given]
        · exact finds e later
    · obtain ⟨joined, w', ok, keeps, keys, finds⟩ := ih nonzero' mine incoming'
      refine ⟨joined, w', ?_, keeps, ?_, finds⟩
      · rw [EntryTable.searchNothing wf (nonzero (key, i) (by simp)) present, ok]
      · rw [keys, if_neg (by simp [present])]

end Intersection
end KeySampling
