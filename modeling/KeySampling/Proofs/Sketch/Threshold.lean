import KeySampling.Proofs.Sketch.Retention

/-! Where theta stands. A table is never left crowded, so theta moves only when a table of the
largest size holds more than 15/16 of its slots. It then moves to the key with the nominal number
of smaller ones among the retained keys. Since these are all keys of the stream below the old
theta, that is also its rank in the whole stream: selecting among what is left agrees with
selecting over the history. -/
namespace KeySampling
namespace QuickSelect
variable {ω σ : Type}

structure Roomy (s : QuickSelect σ) : Prop where
  start : startLgTable ≤ s.table.lg
  largest : s.table.lg ≤ s.config.lgLargest
  calm : s.crowded = false

theorem withinLoad (load : Load) (count capacity : Nat) :
    load.exceededBy count capacity = false ↔ load.whole * count ≤ load.part * capacity := by
  rw [Load.exceededBy, decide_eq_false_iff_not, not_lt]

theorem growingLoad {s : QuickSelect σ} (small : s.table.lg < s.config.lgLargest) :
    s.crowded = false ↔ 2 * s.table.count ≤ pow2 s.table.lg := by
  rw [crowded, if_pos small, withinLoad]
  simp [growLoad]

theorem largestLoad {s : QuickSelect σ} (large : ¬ s.table.lg < s.config.lgLargest) :
    s.crowded = false ↔ 16 * s.table.count ≤ 15 * pow2 s.table.lg := by
  rw [crowded, if_neg large, withinLoad]
  rfl

theorem largestSlots (config : Config) : pow2 config.lgLargest = 2 * config.nominal :=
  pow2Succ config.lgNominal

theorem roomyLoad {s : QuickSelect σ} (roomy : s.Roomy) :
    16 * s.table.count ≤ 15 * pow2 s.table.lg := by
  by_cases small : s.table.lg < s.config.lgLargest
  · have load := (growingLoad small).mp roomy.calm
    omega
  · exact (largestLoad small).mp roomy.calm

theorem roomyCount {s : QuickSelect σ} (roomy : s.Roomy) :
    8 * s.table.count ≤ 15 * s.config.nominal := by
  have load := roomyLoad roomy
  have most := pow2Mono roomy.largest
  rw [largestSlots] at most
  omega

theorem startSlots {lg : Nat} (start : startLgTable ≤ lg) : 32 ≤ pow2 lg :=
  pow2Mono start

theorem ofConfigRoomy {config : Config} (nominal : 4 ≤ config.lgNominal) :
    (ofConfig config : QuickSelect σ).Roomy := by
  have large : startLgTable ≤ config.lgLargest := Nat.succ_le_succ nominal
  have lg : (ofConfig config : QuickSelect σ).table.lg = startLgTable := min_eq_left large
  refine ⟨le_of_eq lg.symm, lg ▸ large, ?_⟩
  simp [crowded, ofConfig, EntryTable.blank, Load.exceededBy]

theorem pivotRanks {s : QuickSelect σ} (wf : s.table.WellFormed)
    (enough : s.config.nominal < s.table.count) :
    Ranks s.table.keySet.toFinset s.config.nominal s.pivot := by
  refine selectRanks (EntryTable.keysNodup wf) ?_ s.theta
  rw [EntryTable.keySetLength wf]
  exact enough

theorem crowdedEnough {s : QuickSelect σ} (full : s.crowded = true)
    (large : ¬ s.table.lg < s.config.lgLargest) (largest : s.table.lg ≤ s.config.lgLargest) :
    15 * s.config.nominal < 8 * s.table.count := by
  have slots := largestSlots s.config
  have load := mt (largestLoad large).mpr (by simp [full])
  rw [le_antisymm largest (not_lt.mp large)] at load
  omega

theorem keySetCard {t : EntryTable σ} (wf : t.WellFormed) : t.keySet.toFinset.card = t.count := by
  rw [List.toFinset_card_of_nodup (EntryTable.keysNodup wf), EntryTable.keySetLength wf]

theorem belowPivot {s : QuickSelect σ} (wf : s.table.WellFormed)
    (enough : s.config.nominal < s.table.count) :
    (s.table.entries.filter fun e => decide (e.1 < s.pivot)).length = s.config.nominal := by
  have same : s.table.keySet.toFinset.filter (· < s.pivot) =
      (s.table.keySet.filter fun key => decide (key < s.pivot)).toFinset := by
    ext key
    simp
  rw [← (pivotRanks wf enough).below, same,
    List.toFinset_card_of_nodup ((EntryTable.keysNodup wf).filter _), EntryTable.keySet,
    List.filter_map, List.length_map]
  rfl

theorem rebuiltCount {s : QuickSelect σ} {next : EntryTable σ} (wf : s.table.WellFormed)
    (enough : s.config.nominal < s.table.count)
    (holds : next.Holds s.table.lg (s.table.entries.filter fun e => decide (e.1 < s.pivot))) :
    next.count = s.config.nominal :=
  (EntryTable.holdsCount holds).trans (belowPivot wf enough)

theorem settlesRoomy {s s' : QuickSelect σ} (wf : s.table.WellFormed)
    (start : startLgTable ≤ s.table.lg) (largest : s.table.lg ≤ s.config.lgLargest)
    (settles : Settles s s') : s'.Roomy := by
  cases settles with
  | kept roomy => exact ⟨start, largest, roomy⟩
  | @grown table _ small holds =>
    -- Even a full table of this size fills at most half of the next.
    have bound := EntryTable.countBound wf
    have fewer : table.count ≤ s.table.count := by
      rw [EntryTable.holdsCount holds, wf.counted]
      exact List.length_filter_le _ _
    have larger : s.table.lg + 1 ≤ table.lg := by
      rw [holds.lg]
      exact le_min (Nat.add_le_add_left (by decide) _) small
    have double := pow2Mono larger
    rw [pow2Succ] at double
    refine ⟨by dsimp only; omega, holds.lg ▸ min_le_right _ _, ?_⟩
    by_cases small' : table.lg < s.config.lgLargest
    · exact (growingLoad small').mpr (by dsimp only; omega)
    · exact (largestLoad small').mpr (by dsimp only; omega)
  | @rebuilt table full large holds =>
    have enough := crowdedEnough full large largest
    have count := rebuiltCount wf (by omega) holds
    have slots := largestSlots s.config
    rw [← le_antisymm largest (not_lt.mp large), ← holds.lg] at slots
    have large' : ¬ table.lg < s.config.lgLargest := holds.lg ▸ large
    refine ⟨holds.lg ▸ start, holds.lg ▸ largest, (largestLoad large').mpr ?_⟩
    dsimp only
    omega

theorem absorbsLg {ops : SummaryOps ω σ} {key : Int} {value : Datum} {t next : EntryTable σ}
    {w w' : ω} (absorbs : Absorbs ops key value t w next w') : next.lg = t.lg := by
  cases absorbs with
  | known replaces _ => exact replaces.lg
  | fresh _ gains _ => exact gains.lg

theorem stepsRoomy {ops : SummaryOps ω σ} {s s' : QuickSelect σ} {key : Int} {value : Datum}
    {w w' : ω} (roomy : s.Roomy) (steps : Steps ops s key value w s' w') : s'.Roomy := by
  cases steps with
  | dropped _ => exact ⟨roomy.start, roomy.largest, roomy.calm⟩
  | @taken table _ _ _ _ absorbs settles =>
    have lg := absorbsLg absorbs
    exact settlesRoomy (absorbsWellFormed absorbs) (lg ▸ roomy.start) (lg ▸ roomy.largest) settles

/-- Theta is where it started, or it is a key of some prefix with the nominal number of smaller
ones in that prefix, and more than 15/8 of that number have been seen. -/
inductive Placed (initial : Int) (s : QuickSelect σ) (past : List (Datum × Datum)) : Prop
  | untouched (same : s.theta = initial)
  | lowered (pre : List (Datum × Datum)) (before : pre <+: past) (below : s.theta < initial)
      (ranks : Ranks (distinctKeys s.config.seed pre) s.config.nominal s.theta)
      (many : 15 * s.config.nominal <
        8 * ((distinctKeys s.config.seed past).filter (· < initial)).card)

theorem distinctKeysPrefix (seed : Int) {pre past : List (Datum × Datum)} (before : pre <+: past) :
    distinctKeys seed pre ⊆ distinctKeys seed past := by
  refine Finset.erase_subset_erase 0 fun key member => ?_
  exact List.mem_toFinset.mpr (keysOfPrefix before (List.mem_toFinset.mp member))

theorem placedLonger {initial : Int} {s s' : QuickSelect σ} {past longer : List (Datum × Datum)}
    (placed : s.Placed initial past) (config : s'.config = s.config) (theta : s'.theta = s.theta)
    (before : past <+: longer) : s'.Placed initial longer := by
  cases placed with
  | untouched same => exact .untouched (theta.trans same)
  | lowered pre earlier below ranks many =>
    rw [← theta, ← config] at ranks
    refine .lowered pre (earlier.trans before) (theta ▸ below) ranks ?_
    rw [config]
    have more := Finset.card_le_card (Finset.filter_subset_filter (· < initial)
      (distinctKeysPrefix s.config.seed before))
    omega

theorem ranksBelow {all part : Finset Int} {bound key : Int} {smaller : Nat}
    (part_ : ∀ k, k ∈ part ↔ k ∈ all ∧ k < bound) (ranks : Ranks part smaller key) :
    Ranks all smaller key := by
  have inside := (part_ key).mp ranks.member
  refine ⟨inside.1, ?_⟩
  rw [← ranks.below]
  congr 1
  ext k
  simp only [Finset.mem_filter, part_]
  exact ⟨fun h => ⟨⟨h.1, lt_trans h.2 inside.2⟩, h.2⟩, fun h => ⟨h.1.1, h.2⟩⟩

theorem memDistinct {seed key : Int} {stream : List (Datum × Datum)} :
    key ∈ distinctKeys seed stream ↔ key ≠ 0 ∧ key ∈ keysOf seed stream := by
  simp [distinctKeys]

theorem keySetBelow {s : QuickSelect σ} {past : List (Datum × Datum)} (retains : s.Retains past)
    (key : Int) : key ∈ s.table.keySet.toFinset ↔
      key ∈ distinctKeys s.config.seed past ∧ key < s.theta := by
  rw [List.mem_toFinset, retains.keys, memDistinct, and_assoc]

theorem rebuiltPlaced {s : QuickSelect σ} {initial : Int} {past : List (Datum × Datum)}
    {table : EntryTable σ} (retains : s.Retains past) (theta : s.theta ≤ initial)
    (many : 15 * s.config.nominal < 8 * s.table.count) :
    QuickSelect.Placed initial { s with theta := s.pivot, table } past := by
  have ranks := pivotRanks retains.table (by omega)
  have below := ((keySetBelow retains _).mp ranks.member).2
  have history := ranksBelow (keySetBelow retains) ranks
  refine .lowered past (List.prefix_refl _) (lt_of_lt_of_le below theta) history ?_
  have fewer : s.table.count ≤ ((distinctKeys s.config.seed past).filter (· < initial)).card := by
    rw [← keySetCard retains.table]
    refine Finset.card_le_card fun key member => ?_
    have := (keySetBelow retains key).mp member
    exact Finset.mem_filter.mpr ⟨this.1, lt_of_lt_of_le this.2 theta⟩
  dsimp only
  omega

theorem settlesPlaced {s s' : QuickSelect σ} {initial : Int} {past : List (Datum × Datum)}
    (retains : s.Retains past) (theta : s.theta ≤ initial)
    (largest : s.table.lg ≤ s.config.lgLargest) (placed : s.Placed initial past)
    (settles : Settles s s') : s'.Placed initial past := by
  cases settles with
  | kept _ => exact placed
  | grown _ _ _ => exact placedLonger placed rfl rfl (List.prefix_refl _)
  | rebuilt full large _ => exact rebuiltPlaced retains theta (crowdedEnough full large largest)

structure Sampling (initial : Int) (s : QuickSelect σ) (past : List (Datum × Datum)) : Prop where
  retains : s.Retains past
  theta : s.theta ≤ initial
  roomy : s.Roomy
  placed : s.Placed initial past

theorem updateSampling {ops : SummaryOps ω σ} {s s' : QuickSelect σ} {item value : Datum}
    {w w' : ω} {initial : Int} {past : List (Datum × Datum)} (sampling : s.Sampling initial past)
    (ok : s.update ops item value w = (.ok (), s', w')) :
    s'.Sampling initial (past ++ [(item, value)]) := by
  have wf := sampling.retains.table
  have after := updateRetains sampling.retains ok
  obtain ⟨key, hashed, steps⟩ := updateSteps wf ok
  refine ⟨after.1, le_trans after.2.2 sampling.theta, stepsRoomy sampling.roomy steps, ?_⟩
  have longer : past <+: past ++ [(item, value)] := List.prefix_append _ _
  cases steps with
  | dropped _ => exact placedLonger sampling.placed rfl rfl longer
  | taken nonzero below absorbs settles =>
    refine settlesPlaced (absorbsRetains sampling.retains hashed nonzero below absorbs)
      sampling.theta ?_ (placedLonger sampling.placed rfl rfl longer) settles
    exact absorbsLg absorbs ▸ sampling.roomy.largest

theorem runSampling {ops : SummaryOps ω σ} {settings : Settings} {start s : QuickSelect σ}
    {w w' : ω} {updates : List (Datum × Datum)} (begins : Begins settings start)
    (ok : start.updateAll ops updates w = (.ok (), s, w')) :
    s.Sampling start.theta updates := by
  obtain ⟨config, accepted, rfl⟩ := beginsOfConfig begins
  have first : (ofConfig config : QuickSelect σ).Sampling config.initialTheta [] :=
    ⟨ofConfigRetains config, le_refl _, ofConfigRoomy (Config.acceptedNominal accepted),
      .untouched rfl⟩
  exact updateAllKeeps (fun s _ past => s.Sampling config.initialTheta past)
    updateSampling first ok

section Selection
variable {s : QuickSelect σ} {initial : Int} {past : List (Datum × Datum)}

theorem untouchedCount (sampling : s.Sampling initial past) (same : s.theta = initial) :
    s.table.count = ((distinctKeys s.config.seed past).filter (· < initial)).card := by
  rw [← keySetCard sampling.retains.table]
  congr 1
  ext key
  rw [keySetBelow sampling.retains, Finset.mem_filter, same]

theorem untouchedIff (sampling : s.Sampling initial past) : s.theta = initial ↔
    8 * ((distinctKeys s.config.seed past).filter (· < initial)).card ≤ 15 * s.config.nominal := by
  constructor
  · intro same
    rw [← untouchedCount sampling same]
    exact roomyCount sampling.roomy
  · intro few
    cases sampling.placed with
    | untouched same => exact same
    | lowered _ _ _ _ many => exact absurd few (not_le.mpr many)

theorem prefixCount (sampling : s.Sampling initial past) {pre : List (Datum × Datum)}
    (before : pre <+: past) :
    ((distinctKeys s.config.seed pre).filter (· < s.theta)).card ≤ s.table.count := by
  rw [← keySetCard sampling.retains.table]
  refine Finset.card_le_card fun key member => ?_
  obtain ⟨seen, below⟩ := Finset.mem_filter.mp member
  exact (keySetBelow sampling.retains key).mpr ⟨distinctKeysPrefix _ before seen, below⟩

theorem smallRetained (sampling : s.Sampling initial past) {smaller : Nat} {key : Int}
    (few : smaller < s.config.nominal)
    (ranks : Ranks ((distinctKeys s.config.seed past).filter (· < initial)) smaller key) :
    key ∈ s.table.keySet := by
  obtain ⟨seen, under⟩ := Finset.mem_filter.mp ranks.member
  refine List.mem_toFinset.mp ((keySetBelow sampling.retains key).mpr ⟨seen, ?_⟩)
  cases sampling.placed with
  | untouched same => exact same ▸ under
  | lowered pre before below ranks' _ =>
    by_contra above
    have enough : s.config.nominal ≤ smaller := by
      rw [← ranks'.below, ← ranks.below]
      refine Finset.card_le_card fun other member => ?_
      obtain ⟨old, low⟩ := Finset.mem_filter.mp member
      rw [Finset.mem_filter, Finset.mem_filter]
      exact ⟨⟨distinctKeysPrefix _ before old, lt_trans low below⟩,
        lt_of_lt_of_le low (not_lt.mp above)⟩
    omega

theorem loweredLoad (sampling : s.Sampling initial past) (moved : s.theta ≠ initial) :
    s.config.nominal ≤ s.table.count ∧ 8 * s.table.count ≤ 15 * s.config.nominal := by
  refine ⟨?_, roomyCount sampling.roomy⟩
  cases sampling.placed with
  | untouched same => exact absurd same moved
  | lowered pre before _ ranks _ => exact ranks.below ▸ prefixCount sampling before

end Selection

theorem nominalPow2 {settings : Settings} {start s : QuickSelect σ} {ops : SummaryOps ω σ}
    {w w' : ω} {updates : List (Datum × Datum)} (begins : Begins settings start)
    (ok : start.updateAll ops updates w = (.ok (), s, w')) :
    ∃ lg ≥ 4, s.config.nominal = 2 ^ lg :=
  ⟨s.config.lgNominal, Config.acceptedNominal (runRetains begins ok).2.1, pow2Pow _⟩

end QuickSelect
end KeySampling
