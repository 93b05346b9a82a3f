import KeySampling.Proofs.Sketch.Failure
import KeySampling.Proofs.Sketch.InitialTheta
import KeySampling.Proofs.Sketch.Threshold

/-! Sketches after any updates, those that failed among them. A failure may take a slot without
making room, so a table can be left crowded; everything else that a sketch relies on still holds. -/
namespace KeySampling
namespace QuickSelect
variable {ω σ : Type}

/-- A sketch that was given these pairs of an item and its value since its beginning, each in
whatever world it then found, and whether or not it failed. -/
inductive Reached (ops : SummaryOps ω σ) (settings : Settings) :
    List (Datum × Datum) → QuickSelect σ → Prop
  | begun {s : QuickSelect σ} (begins : Begins settings s) : Reached ops settings [] s
  | updated {past : List (Datum × Datum)} {s s' : QuickSelect σ} {item value : Datum}
      {r : Except Fault Unit} {w w' : ω} (reached : Reached ops settings past s)
      (next : s.update ops item value w = (r, s', w')) :
      Reached ops settings (past ++ [(item, value)]) s'

def attemptAll (ops : SummaryOps ω σ) (s : QuickSelect σ) :
    List (Datum × Datum) → ω → QuickSelect σ × ω
  | [], w => (s, w)
  | (item, value) :: rest, w =>
      let (_, s, w) := s.update ops item value w
      s.attemptAll ops rest w

theorem attemptAllReached {ops : SummaryOps ω σ} {settings : Settings} {s : QuickSelect σ}
    {past : List (Datum × Datum)} (reached : Reached ops settings past s)
    (updates : List (Datum × Datum)) (w : ω) :
    Reached ops settings (past ++ updates) (s.attemptAll ops updates w).1 := by
  induction updates generalizing s past w with
  | nil => simpa [attemptAll] using reached
  | cons u rest ih =>
    obtain ⟨item, value⟩ := u
    cases next : s.update ops item value w with
    | mk r after => simpa [attemptAll, next] using ih (reached.updated next) after.2

theorem updateAllReached {ops : SummaryOps ω σ} {settings : Settings} {start s : QuickSelect σ}
    {updates : List (Datum × Datum)} {w w' : ω} (begins : Begins settings start)
    (ok : start.updateAll ops updates w = (.ok (), s, w')) : Reached ops settings updates s :=
  updateAllKeeps (fun s _ past => Reached ops settings past s)
    (fun reached next => reached.updated next) (.begun begins) ok

theorem ofConfigIntact {settings : Settings} {config : Config}
    (accepted : Config.ofSettings settings = .ok config) :
    (ofConfig config : QuickSelect σ).Intact := by
  have roomy := ofConfigRoomy (σ := σ) (Config.acceptedNominal accepted)
  refine ⟨EntryTable.blankWellFormed _, ?_, le_refl _, Config.acceptedTheta accepted, roomy.start,
    roomy.largest⟩
  simp [EntryTable.keySet, ofConfigEntries]

theorem settlesIntact {s s' : QuickSelect σ} (intact : s.Intact) (settles : Settles s s') :
    s'.Intact := by
  cases settles with
  | kept _ => exact intact
  | grown _ small holds =>
    refine ⟨holds.wellFormed, fun key member => ?_, intact.theta, intact.bounded, ?_, ?_⟩
    · exact intact.inRange key ((holdsKeys holds key).mp member).1
    · rw [holds.lg]
      exact le_min (intact.start.trans (Nat.le_add_right _ _)) (intact.start.trans small.le)
    · rw [holds.lg]
      exact min_le_right _ _
  | rebuilt _ _ holds =>
    have lower := pivotLe fun key member => (intact.inRange key member).2
    refine ⟨holds.wellFormed, fun key member => ?_, lower.trans intact.theta, intact.bounded,
      holds.lg ▸ intact.start, holds.lg ▸ intact.largest⟩
    obtain ⟨old, below⟩ := (holdsKeys holds key).mp member
    exact ⟨(intact.inRange key old).1, below⟩

section Update
variable {ops : SummaryOps ω σ} {s s' : QuickSelect σ} {item value : Datum} {w w' : ω}

theorem updateIntact {r : Except Fault Unit} (intact : s.Intact)
    (next : s.update ops item value w = (r, s', w')) : s'.Intact := by
  have noted : s.noted.Intact := { intact with }
  cases r with
  | ok _ =>
    obtain ⟨key, hashed, steps⟩ := updateSteps intact.table next
    cases steps with
    | dropped _ => exact noted
    | taken nonzero below absorbs settles =>
      exact settlesIntact (absorbsIntact intact hashed nonzero below absorbs) settles
  | error f =>
    cases updateFails intact next with
    | unhashed _ | crammed _ _ _ _ _ _ | known _ _ _ => exact noted
    | stranded hashed nonzero below _ gains _ =>
      exact joinedIntact intact gains.wellFormed gains.lg (EntryTable.gainsKeys gains)
        (positiveKey hashed nonzero) below

theorem updateCounted {r : Except Fault Unit} (intact : s.Intact)
    (next : s.update ops item value w = (r, s', w')) :
    s'.config = s.config ∧ s'.processed = s.processed + 1 ∧ s'.empty = false := by
  cases r with
  | ok _ =>
    obtain ⟨key, _, steps⟩ := updateSteps intact.table next
    cases steps with
    | dropped _ => exact ⟨rfl, rfl, rfl⟩
    | taken _ _ _ settles => cases settles <;> exact ⟨rfl, rfl, rfl⟩
  | error f => cases updateFails intact next <;> exact ⟨rfl, rfl, rfl⟩

end Update

/-! How full a table can be. Only a value that is refused strands a key, and making room leaves a
sixteenth of the slots free. -/

/-- How many pairs had a key, but a value that does not fit. -/
def misfits (fits : Datum → Bool) (seed : Int) (past : List (Datum × Datum)) : Nat :=
  past.countP fun u => (keyOf seed u.1).isSome && !fits u.2

def Accepts (ops : SummaryOps ω σ) (fits : Datum → Bool) : Prop :=
  ∀ s value w f w', ops.fold s value w = (.error f, w') → fits value = false

theorem misfitsSnoc (fits : Datum → Bool) (seed : Int) (past : List (Datum × Datum))
    (item value : Datum) : misfits fits seed (past ++ [(item, value)]) = misfits fits seed past +
      if (keyOf seed item).isSome && !fits value then 1 else 0 := by
  simp [misfits, List.countP_append, List.countP_cons]

theorem updateLoad {ops : SummaryOps ω σ} {fits : Datum → Bool} {s s' : QuickSelect σ}
    {past : List (Datum × Datum)} {item value : Datum} {r : Except Fault Unit} {w w' : ω}
    (intact : s.Intact) (accepts : Accepts ops fits)
    (load : 16 * s.table.count ≤ 15 * pow2 s.table.lg + 16 * misfits fits s.config.seed past)
    (next : s.update ops item value w = (r, s', w')) :
    16 * s'.table.count ≤
      15 * pow2 s'.table.lg + 16 * misfits fits s.config.seed (past ++ [(item, value)]) := by
  have more := misfitsSnoc fits s.config.seed past item value
  have noted : 16 * s.noted.table.count ≤ 15 * pow2 s.noted.table.lg +
      16 * misfits fits s.config.seed (past ++ [(item, value)]) := by
    change 16 * s.table.count ≤ 15 * pow2 s.table.lg + _
    omega
  cases r with
  | ok _ =>
    obtain ⟨key, hashed, steps⟩ := updateSteps intact.table next
    cases steps with
    | dropped _ => exact noted
    | taken nonzero below absorbs settles =>
      -- However full the table was, room was made after the key was taken.
      have absorbed := absorbsIntact intact hashed nonzero below absorbs
      have room := roomyLoad (settlesRoomy absorbed.table absorbed.start absorbed.largest settles)
      omega
  | error f =>
    cases updateFails intact next with
    | unhashed _ | crammed _ _ _ _ _ _ | known _ _ _ => exact noted
    | stranded hashed _ _ _ gains rejected =>
      rw [keyOfOk hashed, accepts _ _ _ _ _ rejected] at more
      have count := EntryTable.gainsCount intact.table gains
      have lg := gains.lg
      dsimp only at *
      rw [count, lg, more]
      simp only [Option.isSome_some, Bool.not_false, Bool.and_self, if_true]
      omega

/-! When a table can be empty. A key that gets a slot leaves an entry below every later theta. -/

structure Bare (s : QuickSelect σ) (past : List (Datum × Datum)) : Prop where
  nothing : s.table.count = 0 ↔
    ∀ key ∈ keysOf s.config.seed past, key = 0 ∨ s.config.initialTheta ≤ key
  untouched : s.table.count = 0 → s.theta = s.config.initialTheta

section Bare
variable {ops : SummaryOps ω σ} {s s' : QuickSelect σ} {past : List (Datum × Datum)}
  {item value : Datum} {key : Int}

theorem ofConfigBare (config : Config) : (ofConfig config : QuickSelect σ).Bare [] := by
  refine ⟨?_, fun _ => rfl⟩
  simp [ofConfig, EntryTable.blank, keysOf]

theorem sampledBare (hashed : samplingKey item s.config.seed = .ok key) (nonzero : key ≠ 0)
    (below : key < s.config.initialTheta) (occupied : 0 < s.table.count) :
    s.Bare (past ++ [(item, value)]) := by
  refine ⟨⟨fun vacant => absurd vacant occupied.ne', fun every => ?_⟩,
    fun vacant => absurd vacant occupied.ne'⟩
  rw [keysOfSnoc hashed] at every
  rcases every key (by simp) with zero | above
  · exact absurd zero nonzero
  · exact absurd below (not_lt.mpr above)

theorem notedBare (bare : s.Bare past) {more : List Int}
    (keys : keysOf s.config.seed (past ++ [(item, value)]) = keysOf s.config.seed past ++ more)
    (outside : ∀ key ∈ more, key = 0 ∨ s.theta ≤ key) :
    s.noted.Bare (past ++ [(item, value)]) := by
  have nothing : s.table.count = 0 ↔ ∀ key ∈ keysOf s.config.seed (past ++ [(item, value)]),
      key = 0 ∨ s.config.initialTheta ≤ key := by
    rw [keys, List.forall_mem_append, ← bare.nothing]
    exact ⟨fun vacant => ⟨vacant, bare.untouched vacant ▸ outside⟩, fun both => both.1⟩
  exact ⟨nothing, bare.untouched⟩

theorem settlesOccupied (intact : s.Intact) (member : key ∈ s.table.keySet)
    (settles : Settles s s') : 0 < s'.table.count := by
  cases settles with
  | kept _ => exact EntryTable.countPositive intact.table member
  | grown _ _ holds =>
    refine EntryTable.countPositive holds.wellFormed ((holdsKeys holds key).mpr ⟨member, ?_⟩)
    exact (intact.inRange key member).2
  | rebuilt full large holds =>
    -- The key itself may be gone, but as many as the nominal number are left.
    have nominal : 0 < s.config.nominal := pow2Pos _
    have enough := crowdedEnough full large intact.largest
    rw [rebuiltCount intact.table (by omega) holds]
    exact nominal

theorem updateBare {r : Except Fault Unit} {w w' : ω} (intact : s.Intact) (bare : s.Bare past)
    (next : s.update ops item value w = (r, s', w')) : s'.Bare (past ++ [(item, value)]) := by
  have config := (updateCounted intact next).1
  cases r with
  | ok _ =>
    obtain ⟨key, hashed, steps⟩ := updateSteps intact.table next
    cases steps with
    | dropped outside =>
      exact notedBare bare (keysOfSnoc hashed past value) (List.forall_mem_singleton.mpr outside)
    | taken nonzero below absorbs settles =>
      have absorbed := absorbsIntact intact hashed nonzero below absorbs
      have member := (absorbsKeys absorbs key).mpr (.inl rfl)
      refine sampledBare (config ▸ hashed) nonzero ?_ (settlesOccupied absorbed member settles)
      exact config ▸ lt_of_lt_of_le below intact.theta
  | error f =>
    cases updateFails intact next with
    | unhashed refused => exact notedBare bare (keysOfUnhashed refused past value) (by simp)
    | crammed hashed nonzero below _ full _ =>
      refine sampledBare hashed nonzero (lt_of_lt_of_le below intact.theta) ?_
      exact lt_of_lt_of_eq (pow2Pos _) full.symm
    | known hashed retained _ =>
      have member := List.mem_map_of_mem (f := Prod.fst) retained
      have range := intact.inRange _ member
      exact sampledBare hashed range.1.ne' (lt_of_lt_of_le range.2 intact.theta)
        (EntryTable.countPositive intact.table member)
    | stranded hashed nonzero below _ gains _ =>
      have member := (EntryTable.gainsKeys gains _).mpr (.inl rfl)
      exact sampledBare hashed nonzero (lt_of_lt_of_le below intact.theta)
        (EntryTable.countPositive gains.wellFormed member)

end Bare

structure Tracks (settings : Settings) (s : QuickSelect σ) (past : List (Datum × Datum)) :
    Prop where
  accepted : Config.ofSettings settings = .ok s.config
  intact : s.Intact
  bare : s.Bare past
  processed : s.processed = past.length
  empty : s.empty = true ↔ past = []

theorem reachedTracks {ops : SummaryOps ω σ} {settings : Settings} {s : QuickSelect σ}
    {past : List (Datum × Datum)} (reached : Reached ops settings past s) :
    s.Tracks settings past := by
  induction reached with
  | begun begins =>
    obtain ⟨config, accepted, rfl⟩ := beginsOfConfig begins
    exact ⟨accepted, ofConfigIntact accepted, ofConfigBare config, rfl, by simp [ofConfig]⟩
  | updated _ next ih =>
    obtain ⟨config, processed, empty⟩ := updateCounted ih.intact next
    refine ⟨config ▸ ih.accepted, updateIntact ih.intact next, updateBare ih.intact ih.bare next,
      ?_, by simp [empty]⟩
    rw [processed, ih.processed, List.length_append, List.length_singleton]

theorem reachedLoad {ops : SummaryOps ω σ} {fits : Datum → Bool} {settings : Settings}
    {s : QuickSelect σ} {past : List (Datum × Datum)} (accepts : Accepts ops fits)
    (reached : Reached ops settings past s) :
    16 * s.table.count ≤ 15 * pow2 s.table.lg + 16 * misfits fits settings.seed past := by
  induction reached with
  | begun begins =>
    obtain ⟨config, _, rfl⟩ := beginsOfConfig begins
    simp [ofConfig, EntryTable.blank]
  | updated reached next ih =>
    have tracks := reachedTracks reached
    rw [← Config.acceptedSeed tracks.accepted] at ih ⊢
    exact updateLoad tracks.intact accepts ih next

end QuickSelect
end KeySampling
