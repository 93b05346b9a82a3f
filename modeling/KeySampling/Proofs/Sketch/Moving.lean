import KeySampling.Proofs.KeyTable.Moving
import KeySampling.Proofs.Sketch.Reached

/-! How a sketch makes room. It grows by moving the keys below theta, which are all that it holds
as long as only updates have changed it, and it is rebuilt from the smallest of its keys. -/
namespace KeySampling
namespace EntryTable
variable {σ : Type} {t next : EntryTable σ} {lg : Nat} {keepBelow : Int}

structure Thinned (t : EntryTable σ) (count : Nat) (next : EntryTable σ) : Prop where
  held : next.held = ((t.held.sort (· ≤ ·)).take count).toFinset
  summaries : ∀ key, next.summaryOf key = if key ∈ next.held then t.summaryOf key else none
  counted : next.count = count

theorem movedThinned (parallel : t.Parallel) {count : Nat} (ranks : Ranks t.held count keepBelow)
    (moved : t.Moved lg keepBelow next) : t.Thinned count next := by
  refine ⟨?_, fun key => ?_, ?_⟩
  · ext key
    rw [moved.held, List.mem_toFinset, takeBelow ranks, Finset.mem_filter]
  · rw [moved.summaries, moved.held]
    by_cases member : key ∈ t.held
    · simp [member]
    · simp [member, absentSummary parallel member]
  · rw [moved.counted, moved.held, ranks.below]

end EntryTable

namespace QuickSelect
variable {σ : Type} {s : QuickSelect σ}

def grownLg (s : QuickSelect σ) : Nat := min (s.table.lg + growthLg) s.config.lgLargest

theorem rehashOk {next : EntryTable σ} {lg : Nat} (ok : s.table.rehash lg s.theta = .ok next) :
    s.rehash lg = (.ok (), { s with table := next }) := by
  rw [rehash, ok]

theorem rehashError {lg : Nat} {f : Fault} (refused : s.table.rehash lg s.theta = .error f) :
    s.rehash lg = (.error f, s) := by
  rw [rehash, refused]

theorem growMoves (parallel : s.table.Parallel) (small : s.grownLg ≤ largestLgTable)
    (room : (s.table.held.filter (· < s.theta)).card ≤ pow2 s.grownLg) :
    ∃ next, s.grow = (.ok (), { s with table := next }) ∧
      s.table.Moved s.grownLg s.theta next := by
  obtain ⟨next, ok, moved⟩ := EntryTable.rehashMoved parallel small room
  exact ⟨next, rehashOk ok, moved⟩

theorem heldPivot (parallel : s.table.Parallel)
    (enough : s.config.nominal < s.table.held.card) :
    Ranks s.table.held s.config.nominal s.pivot := by
  have nodup : s.table.keySet.Nodup := (EntryTable.parallelSeparate parallel).nodup
  have same : s.table.held = s.table.keySet.toFinset := by
    ext key
    rw [EntryTable.parallelHeld parallel, List.mem_toFinset]
  rw [same, List.toFinset_card_of_nodup nodup] at enough
  exact same ▸ selectRanks nodup enough s.theta

theorem rebuildMoves (parallel : s.table.Parallel) (small : s.table.lg ≤ largestLgTable)
    (enough : s.config.nominal < s.table.held.card) :
    ∃ next, s.rebuild = (.ok (), { s with theta := s.pivot, table := next }) ∧
      s.table.Moved s.table.lg s.pivot next := by
  have room : (s.table.held.filter (· < s.pivot)).card ≤ pow2 s.table.lg := by
    rw [(heldPivot parallel enough).below]
    exact enough.le.trans (EntryTable.heldBound parallel)
  obtain ⟨next, ok, moved⟩ := EntryTable.rehashMoved parallel small room
  exact ⟨next, rehashOk (s := { s with theta := s.pivot }) ok, moved⟩

theorem intactParallel (intact : s.Intact) : s.table.Parallel :=
  EntryTable.wellFormedParallel intact.table fun key member =>
    keyFits (intactRange intact key member).1 (intactRange intact key member).2

theorem intactGrows (intact : s.Intact) :
    (∀ key ∈ s.table.held, key < s.theta) ∧
      (s.table.held.filter (· < s.theta)).card ≤ pow2 s.grownLg := by
  have parallel := intactParallel intact
  refine ⟨fun key member => ?_, ?_⟩
  · exact (intact.inRange key ((EntryTable.parallelHeld parallel key).mp member)).2
  · have larger : s.table.lg ≤ s.grownLg := le_min (Nat.le_add_right _ _) intact.largest
    calc (s.table.held.filter (· < s.theta)).card
        ≤ s.table.held.card := Finset.card_filter_le _ _
      _ ≤ pow2 s.table.lg := EntryTable.heldBound parallel
      _ ≤ pow2 s.grownLg := pow2Mono larger

/-- Moving entries to a table of up to 2^59 slots loses none below the bound and gives none
another's summary, if only there are as many slots as entries. No larger table is to be had, and
then nothing changes. A sketch that grows keeps all of its entries just when all lie below theta,
as they do after any updates; one that is rebuilt keeps as many of the smallest as it was asked
for. -/
theorem entriesMoved (parallel : s.table.Parallel) :
    (∀ lg keepBelow,
      (lg ≤ largestLgTable → (s.table.held.filter (· < keepBelow)).card ≤ pow2 lg →
        ∃ next, s.table.rehash lg keepBelow = .ok next ∧ s.table.Moved lg keepBelow next) ∧
      (largestLgTable < lg → s.table.held.card ≤ mostKeys →
        s.table.rehash lg keepBelow = .error .tooLarge ∧ s.rehash lg = (.error .tooLarge, s))) ∧
    (s.grownLg ≤ largestLgTable →
      (s.table.held.filter (· < s.theta)).card ≤ pow2 s.grownLg →
        ∃ next, s.grow = (.ok (), { s with table := next }) ∧
          s.table.Moved s.grownLg s.theta next ∧
          ((∀ key, next.summaryOf key = s.table.summaryOf key) ↔
            ∀ key ∈ s.table.held, key < s.theta)) ∧
    (s.table.lg ≤ largestLgTable → s.config.nominal < s.table.held.card →
      ∃ theta next, s.rebuild = (.ok (), { s with theta, table := next }) ∧
        Ranks s.table.held s.config.nominal theta ∧ s.table.Moved s.table.lg theta next ∧
        s.table.Thinned s.config.nominal next) ∧
    ∀ {ω : Type} {ops : SummaryOps ω σ} {settings : Settings} {past : List (Datum × Datum)},
      Reached ops settings past s → (∀ key ∈ s.table.held, key < s.theta) ∧
        (s.grownLg ≤ largestLgTable →
          ∃ next, s.grow = (.ok (), { s with table := next }) ∧ next.Parallel ∧
            ∀ key, next.summaryOf key = s.table.summaryOf key) := by
  refine ⟨fun lg keepBelow => ⟨fun small room => EntryTable.rehashMoved parallel small room,
    fun large few => ?_⟩, fun small room => ?_, fun small enough => ?_, fun reached => ?_⟩
  · have fewer (bound : Int) : (s.table.held.filter (· < bound)).card ≤ mostKeys :=
      (Finset.card_filter_le _ _).trans few
    exact ⟨EntryTable.rehashRefused parallel large (fewer keepBelow),
      rehashError (EntryTable.rehashRefused parallel large (fewer s.theta))⟩
  · obtain ⟨next, ok, moved⟩ := growMoves parallel small room
    exact ⟨next, ok, moved, EntryTable.movedWhole parallel moved⟩
  · have ranks := heldPivot parallel enough
    obtain ⟨next, ok, moved⟩ := rebuildMoves parallel small enough
    exact ⟨s.pivot, next, ok, ranks, moved, EntryTable.movedThinned parallel ranks moved⟩
  · obtain ⟨below, room⟩ := intactGrows (reachedTracks reached).intact
    refine ⟨below, fun small => ?_⟩
    obtain ⟨next, ok, moved⟩ := growMoves parallel small room
    exact ⟨next, ok, moved.parallel, (EntryTable.movedWhole parallel moved).mpr below⟩

def mislaid : QuickSelect Nat :=
  ⟨⟨1, .float .one, 20, 0, none⟩, 20, ⟨2, #[5, 0, 9, 2], #[some 50, none, some 90, some 20], 0⟩,
    false, 3⟩

theorem mislaidParallel : mislaid.table.Parallel := ⟨rfl, rfl, by decide, by decide, by decide⟩

theorem entriesMovedMislaid :
    mislaid.table.keys.search 2 5 = .ok none ∧
    (∃ next, mislaid.table.rehash 3 9 = .ok next ∧ mislaid.table.Moved 3 9 next) ∧
    (∃ next, mislaid.grow = (.ok (), { mislaid with table := next }) ∧
      ∀ key, next.summaryOf key = mislaid.table.summaryOf key) ∧
    (∃ theta next, mislaid.rebuild = (.ok (), { mislaid with theta, table := next }) ∧
      mislaid.table.Thinned 2 next) ∧
    mislaid.rehash 60 = (.error .tooLarge, mislaid) ∧
    ∃ s next : QuickSelect Unit, 0 < s.table.count ∧ s.grow = (.ok (), next) ∧
      ∀ key, next.table.summaryOf key = s.table.summaryOf key := by
  obtain ⟨moves, grows, rebuilds, -⟩ := entriesMoved mislaidParallel
  obtain ⟨next, grown, -, whole⟩ := grows (by decide) (by decide)
  obtain ⟨theta, thinned, rebuilt, -, -, smallest⟩ := rebuilds (by decide) (by decide)
  refine ⟨by decide, (moves 3 9).1 (by decide) (by decide), ⟨next, grown, whole.mpr (by decide)⟩,
    ⟨theta, thinned, rebuilt, smallest⟩, ((moves 60 0).2 (by decide) (by decide)).2, ?_⟩
  let config : Config := ⟨4, .float .one, maxTheta, defaultSeed, none⟩
  have begins : Begins { nominal := 16 } (ofConfig config : QuickSelect Unit) :=
    beginsDefaults (by decide)
  have reached : Reached .keysOnly { nominal := 16 } [(.int 1, .none)]
      ((ofConfig config).attemptAll .keysOnly [(.int 1, .none)] ()).1 :=
    attemptAllReached (.begun begins) [(.int 1, .none)] ()
  have parallel := intactParallel (reachedTracks reached).intact
  obtain ⟨-, grows⟩ := (entriesMoved parallel).2.2.2 reached
  obtain ⟨next, ok, -, same⟩ := grows (by decide +kernel)
  exact ⟨_, _, by decide +kernel, ok, same⟩

/-- A fresh sketch gets no table of 2^60 slots, and a key that is not below theta is lost in a
table that grows. -/
theorem movesForgone :
    (∃ s : QuickSelect Unit, Begins { nominal := 16 } s ∧ s.table.Parallel ∧
      (s.table.held.filter (· < maxTheta)).card < pow2 60 ∧
      s.table.rehash 60 maxTheta = .error .tooLarge ∧ s.rehash 60 = (.error .tooLarge, s)) ∧
    ∃ s : QuickSelect Nat, s.table.Parallel ∧
      (s.table.held.filter (· < s.theta)).card < pow2 s.grownLg ∧
      s.table.summaryOf 9 = some 90 ∧
      ∃ next, s.grow = (.ok (), { s with table := next }) ∧ next.summaryOf 9 = none := by
  constructor
  · let config : Config := ⟨4, .float .one, maxTheta, defaultSeed, none⟩
    let s : QuickSelect Unit := ofConfig config
    have begins : Begins { nominal := 16 } s := beginsDefaults (by decide)
    have reached : Reached (ω := Unit) .keysOnly { nominal := 16 } [] s := .begun begins
    have parallel := intactParallel (reachedTracks reached).intact
    have few : (s.table.held.filter (· < maxTheta)).card ≤ mostKeys := by decide
    have refused : s.table.rehash 60 maxTheta = .error .tooLarge :=
      EntryTable.rehashRefused parallel (by decide) few
    exact ⟨s, begins, parallel, few.trans_lt (by decide), refused, rehashError refused⟩
  · let s : QuickSelect Nat := { mislaid with theta := 8 }
    obtain ⟨next, grown, moved⟩ := growMoves (s := s) mislaidParallel (by decide) (by decide)
    refine ⟨s, mislaidParallel, by decide, by decide, next, grown, ?_⟩
    rw [moved.summaries, if_neg (by decide)]

end QuickSelect
end KeySampling
