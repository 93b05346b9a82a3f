import KeySampling.Proofs.KeyTable.Layout
import Mathlib.Data.Finset.Card

/-! Entries that move to a table of another size. A table in which keys and summaries lie side by
side can be moved even if no search finds its keys: each one below the bound lies in the new table
with its own summary, and there a search finds it. -/
namespace KeySampling
namespace EntryTable
variable {σ : Type} {t next : EntryTable σ} {lg : Nat} {keepBelow : Int}

/-- No key lies in two slots, and the taken slots are those with a summary. Where a key lies, and
what is counted, is left open. -/
structure Parallel (t : EntryTable σ) : Prop where
  keys : t.keys.size = pow2 t.lg
  summaries : t.summaries.size = pow2 t.lg
  fits : ∀ key ∈ t.keys, fitsSigned64 key = true
  distinct : (t.keys.toList.filter fun key => decide (key ≠ 0)).Nodup
  paired : ∀ e ∈ t.slots, e.1 = 0 ↔ e.2 = none

def held (t : EntryTable σ) : Finset Int := t.keys.toList.toFinset.erase 0

def summaryOf (t : EntryTable σ) (key : Int) : Option σ := (t.slots.lookup key).join

theorem heldIff (t : EntryTable σ) (key : Int) : key ∈ t.held ↔ key ≠ 0 ∧ key ∈ t.keys := by
  simp [held]

theorem shownLookup {slots : List (Int × Option σ)} (paired : ∀ e ∈ slots, e.1 = 0 ↔ e.2 = none)
    {key : Int} (nonzero : key ≠ 0) :
    (slots.filterMap shown).lookup key = (slots.lookup key).join := by
  induction slots with
  | nil => rfl
  | cons e rest ih =>
    obtain ⟨other, summary⟩ := e
    obtain ⟨here, later⟩ := List.forall_mem_cons.mp paired
    cases summary with
    | none =>
      have vacant : other = 0 := here.mpr rfl
      simp [shown, vacant, ih later, List.lookup_cons, beq_false_of_ne nonzero]
    | some s =>
      have taken : other ≠ 0 := fun vacant => by simpa using here.mp vacant
      by_cases same : key = other
      · subst same
        simp [shown, taken]
      · simp [shown, taken, ih later, List.lookup_cons, beq_false_of_ne same]

section Parallel

theorem parallelKeys (parallel : t.Parallel) :
    t.keySet = t.keys.toList.filter fun key => decide (key ≠ 0) :=
  keySetTaken (parallel.keys.trans parallel.summaries.symm).le parallel.paired

theorem parallelHeld (parallel : t.Parallel) (key : Int) : key ∈ t.held ↔ key ∈ t.keySet := by
  rw [heldIff, parallelKeys parallel]
  simp [and_comm]

theorem parallelSeparate (parallel : t.Parallel) : Separate t.entries := by
  refine ⟨?_, fun e member => ?_⟩
  · change t.keySet.Nodup
    rw [parallelKeys parallel]
    exact parallel.distinct
  · have here := (parallelHeld parallel e.1).mpr (List.mem_map_of_mem member)
    exact ((heldIff t e.1).mp here).1

theorem parallelFits (parallel : t.Parallel) : ∀ e ∈ t.entries, fitsSigned64 e.1 = true := by
  intro e member
  have here := (parallelHeld parallel e.1).mpr (List.mem_map_of_mem member)
  exact parallel.fits e.1 ((heldIff t e.1).mp here).2

theorem parallelSummary (parallel : t.Parallel) (key : Int) :
    t.summaryOf key = t.entries.lookup key := by
  by_cases zero : key = 0
  · subst zero
    have unshown : t.entries.lookup 0 = none := by
      rw [← Option.not_isSome_iff_eq_none, Option.isSome_iff_exists]
      rintro ⟨s, found⟩
      exact (parallelSeparate parallel).nonzero _ (lookupMember found) rfl
    rw [unshown, summaryOf, Option.join_eq_none_iff]
    cases beside : t.slots.lookup 0 with
    | none => exact .inl rfl
    | some summary =>
      have vacant : summary = none := (parallel.paired _ (lookupMember beside)).mp rfl
      exact .inr (by rw [vacant])
  · exact (shownLookup parallel.paired zero).symm

theorem parallelCard (parallel : t.Parallel) (keep : Int → Prop) [DecidablePred keep] :
    (t.held.filter keep).card = (t.entries.filter fun e => decide (keep e.1)).length := by
  have same : t.held.filter keep =
      ((t.entries.filter fun e => decide (keep e.1)).map Prod.fst).toFinset := by
    ext key
    rw [Finset.mem_filter, parallelHeld parallel, List.mem_toFinset, filterKeys, keySet]
  have nodup := (parallelSeparate parallel).nodup
  rw [same, List.toFinset_card_of_nodup (nodup.sublist (List.filter_sublist.map Prod.fst)),
    List.length_map]

theorem heldSummary (parallel : t.Parallel) (key : Int) :
    key ∈ t.held ↔ ∃ s, t.summaryOf key = some s := by
  simp only [parallelHeld parallel, parallelSummary parallel, lookupKey, keySet]

theorem absentSummary (parallel : t.Parallel) {key : Int} (absent : key ∉ t.held) :
    t.summaryOf key = none := by
  refine Option.eq_none_iff_forall_ne_some.mpr fun s beside => absent ?_
  exact (heldSummary parallel key).mpr ⟨s, beside⟩

theorem heldBound (parallel : t.Parallel) : t.held.card ≤ pow2 t.lg := by
  rw [← parallel.keys, ← Array.length_toList]
  exact (Finset.card_le_card (Finset.erase_subset _ _)).trans (List.toFinset_card_le _)

theorem wellFormedParallel (wf : t.WellFormed)
    (fits : ∀ key ∈ t.keySet, fitsSigned64 key = true) : t.Parallel := by
  have paired := slotPaired wf
  have taken := keySetTaken (wf.keys.size.trans wf.size.symm).le paired
  refine ⟨wf.keys.size, wf.size, fun key member => ?_, taken ▸ keysNodup wf, paired⟩
  by_cases zero : key = 0
  · subst zero
    decide
  · exact fits key ((keyIff wf key).mpr ⟨zero, member⟩)

end Parallel

/-- A table with what another holds of the keys below a bound. -/
structure Moved (t : EntryTable σ) (lg : Nat) (keepBelow : Int) (next : EntryTable σ) :
    Prop where
  lg : next.lg = lg
  parallel : next.Parallel
  found : ∀ key ∈ next.held, ∃ slot, next.keys.search next.lg key = .ok (some slot) ∧
    next.keys[slot]? = some key ∧ next.summaryAt? slot = t.summaryOf key
  held : next.held = t.held.filter (· < keepBelow)
  summaries : ∀ key, next.summaryOf key = if key < keepBelow then t.summaryOf key else none
  counted : next.count = next.held.card

theorem rehashMoves (parallel : t.Parallel) (ok : t.rehash lg keepBelow = .ok next) :
    t.Moved lg keepBelow next := by
  have separate := separateFilter (parallelSeparate parallel) fun e => decide (e.1 < keepBelow)
  have holds := ofEntriesHolds separate ok
  have wf := holds.wellFormed
  have parallel' : next.Parallel := wellFormedParallel wf fun key member => by
    obtain ⟨e, shown, rfl⟩ := List.mem_map.mp member
    exact parallelFits parallel e (List.mem_of_mem_filter (holds.entries.mem_iff.mp shown))
  have summaries (key : Int) :
      next.summaryOf key = if key < keepBelow then t.summaryOf key else none := by
    rw [parallelSummary parallel', parallelSummary parallel,
      lookupPerm (keysNodup wf) holds.entries, lookupFilter (fun key => decide (key < keepBelow))]
    simp only [decide_eq_true_eq]
  refine ⟨holds.lg, parallel', fun key member => ?_, ?_, summaries, ?_⟩
  · obtain ⟨e, shown, rfl⟩ := List.mem_map.mp ((parallelHeld parallel' key).mp member)
    obtain ⟨nonzero, slot, stored, beside⟩ := (entryIff wf e.1 e.2).mp shown
    refine ⟨slot, KeyTable.searchStored wf.keys stored nonzero, stored, ?_⟩
    -- The bound lets the key through, so the summary beside it is the one it had.
    have below := List.mem_filter.mp (holds.entries.mem_iff.mp shown)
    have kept := summaries e.1
    rw [if_pos (by simpa using below.2), parallelSummary parallel',
      lookupEntry (keysNodup wf) shown] at kept
    exact beside.trans kept
  · ext key
    rw [parallelHeld parallel', Finset.mem_filter, parallelHeld parallel, keySet,
      (holds.entries.map Prod.fst).mem_iff, filterKeys (· < keepBelow), keySet]
  · have all := parallelCard parallel' fun _ => True
    rw [wf.counted]
    simpa using all.symm

theorem rehashMoved (parallel : t.Parallel) (small : lg ≤ largestLgTable)
    (room : (t.held.filter (· < keepBelow)).card ≤ pow2 lg) :
    ∃ next, t.rehash lg keepBelow = .ok next ∧ t.Moved lg keepBelow next := by
  rw [parallelCard parallel] at room
  obtain ⟨next, ok⟩ := ofEntriesRoom (separateFilter (parallelSeparate parallel) _)
    (fun e member => parallelFits parallel e (List.mem_of_mem_filter member)) room (.inl small)
  exact ⟨next, ok, rehashMoves parallel ok⟩

theorem rehashRefused (parallel : t.Parallel) (large : largestLgTable < lg)
    (few : (t.held.filter (· < keepBelow)).card ≤ mostKeys) :
    t.rehash lg keepBelow = .error .tooLarge := by
  rw [parallelCard parallel] at few
  exact ofEntriesRefused large few

theorem movedWhole (parallel : t.Parallel) (moved : t.Moved lg keepBelow next) :
    (∀ key, next.summaryOf key = t.summaryOf key) ↔ ∀ key ∈ t.held, key < keepBelow := by
  constructor
  · intro same key member
    by_contra above
    obtain ⟨s, beside⟩ := (heldSummary parallel key).mp member
    have lost := moved.summaries key
    rw [if_neg above, same, beside] at lost
    contradiction
  · intro below key
    rw [moved.summaries]
    split
    · rfl
    · rename_i above
      exact (absentSummary parallel fun member => above (below key member)).symm

end EntryTable
end KeySampling
