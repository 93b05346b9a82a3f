import KeySampling.Proofs.Sketch.Step

/-! Which keys a sketch retains. Theta never rises, so a key below today's theta was below every
earlier one and was never turned away; growing and rebuilding move entries and lose none below
theta. Hence a sketch retains exactly the keys of its stream that lie below theta. -/
namespace KeySampling

namespace Config

theorem acceptedSettings {settings : Settings} {config : Config}
    (accepted : ofSettings settings = .ok config) :
    16 ≤ settings.nominal ∧ settings.probability.isFraction true = .ok true ∧
      config = ⟨(ceilingPow2 settings.nominal).log2, settings.probability,
        thetaFor settings.probability, settings.seed, settings.memoryLimit⟩ := by
  unfold ofSettings at accepted
  split at accepted
  · simp at accepted
  rename_i enough
  split at accepted <;> simp only [reduceCtorEq, Except.ok.injEq] at accepted
  rename_i fraction
  exact ⟨not_lt.mp enough, fraction, accepted.symm⟩

theorem acceptedNominal {settings : Settings} {config : Config}
    (accepted : ofSettings settings = .ok config) : 4 ≤ config.lgNominal := by
  obtain ⟨enough, _, rfl⟩ := acceptedSettings accepted
  simp only
  rw [ceilingPow2, if_neg (by omega), pow2Pow, Nat.log2_two_pow]
  exact Nat.succ_le_succ ((Nat.le_log2 (by omega)).mpr (by omega))

theorem acceptedSeed {settings : Settings} {config : Config}
    (accepted : ofSettings settings = .ok config) : config.seed = settings.seed := by
  obtain ⟨_, _, rfl⟩ := acceptedSettings accepted
  rfl

theorem settingsAccepted {settings : Settings} (enough : 16 ≤ settings.nominal)
    (fraction : settings.probability.isFraction true = .ok true) : ofSettings settings =
      .ok ⟨(ceilingPow2 settings.nominal).log2, settings.probability,
        thetaFor settings.probability, settings.seed, settings.memoryLimit⟩ := by
  simp [ofSettings, fraction, leastNominal, not_lt.mpr enough]

theorem defaultsAccepted {nominal : Int} (enough : 16 ≤ nominal) :
    ofSettings { nominal } =
      .ok ⟨(ceilingPow2 nominal).log2, .float .one, maxTheta, defaultSeed, none⟩ := by
  have whole : (Datum.float .one).isFraction true = .ok true := by decide +kernel
  have theta : thetaFor (.float .one) = maxTheta := by decide +kernel
  rw [settingsAccepted enough whole, theta]

end Config

namespace QuickSelect
variable {ω σ : Type}

/-- A sketch that was just built from its settings, or just reset, whatever it held before. -/
inductive Begins (settings : Settings) : QuickSelect σ → Prop
  | new {s : QuickSelect σ} (ok : new settings = .ok s) : Begins settings s
  | reset {s : QuickSelect σ} (accepted : Config.ofSettings settings = .ok s.config) :
      Begins settings s.reset

theorem beginsOfConfig {settings : Settings} {s : QuickSelect σ} (begins : Begins settings s) :
    ∃ config, Config.ofSettings settings = .ok config ∧ s = ofConfig config := by
  cases begins with
  | new ok =>
    unfold new at ok
    split at ok
    · rename_i config accepted
      exact ⟨config, accepted, (Except.ok.inj ok).symm⟩
    · simp at ok
  | reset accepted => exact ⟨_, accepted, rfl⟩

theorem beginsAccepted {settings : Settings} {config : Config}
    (accepted : Config.ofSettings settings = .ok config) :
    Begins settings (ofConfig config : QuickSelect σ) :=
  .new (by rw [new, accepted])

theorem beginsDefaults {nominal : Int} (enough : 16 ≤ nominal) :
    Begins { nominal } (ofConfig ⟨(ceilingPow2 nominal).log2, .float .one, maxTheta, defaultSeed,
      none⟩ : QuickSelect σ) :=
  beginsAccepted (Config.defaultsAccepted enough)

theorem ofConfigEntries (config : Config) :
    (ofConfig config : QuickSelect σ).table.entries = [] := EntryTable.blankEntries _

theorem updateAllKeeps {ops : SummaryOps ω σ}
    (kept : QuickSelect σ → ω → List (Datum × Datum) → Prop)
    (step : ∀ {s w past item value s' w'}, kept s w past →
      s.update ops item value w = (.ok (), s', w') → kept s' w' (past ++ [(item, value)]))
    {s s' : QuickSelect σ} {w w' : ω} {past updates : List (Datum × Datum)}
    (before : kept s w past) (ok : s.updateAll ops updates w = (.ok (), s', w')) :
    kept s' w' (past ++ updates) := by
  induction updates generalizing s w past with
  | nil =>
    simp only [updateAll, Prod.mk.injEq, true_and] at ok
    obtain ⟨rfl, rfl⟩ := ok
    simpa using before
  | cons u rest ih =>
    obtain ⟨item, value⟩ := u
    simp only [updateAll] at ok
    split at ok
    · simp at ok
    rename_i _ mid w₁ first
    simpa using ih (step before first) ok

theorem updateAllAppend {ops : SummaryOps ω σ} {s s' : QuickSelect σ} {w w' : ω}
    {pre post : List (Datum × Datum)} (ok : s.updateAll ops (pre ++ post) w = (.ok (), s', w')) :
    ∃ mid w₁, s.updateAll ops pre w = (.ok (), mid, w₁) ∧
      mid.updateAll ops post w₁ = (.ok (), s', w') := by
  induction pre generalizing s w with
  | nil => exact ⟨s, w, rfl, ok⟩
  | cons u rest ih =>
    obtain ⟨item, value⟩ := u
    simp only [List.cons_append, updateAll] at ok ⊢
    cases first : s.update ops item value w with
    | mk r next =>
      obtain ⟨mid, w₁⟩ := next
      cases r with
      | error f => simp [first] at ok
      | ok _ => exact ih (by simpa [first] using ok)

structure Retains (s : QuickSelect σ) (past : List (Datum × Datum)) : Prop where
  table : s.table.WellFormed
  keys : ∀ key, key ∈ s.table.keySet ↔
    key ≠ 0 ∧ key ∈ keysOf s.config.seed past ∧ key < s.theta

theorem ofConfigRetains (config : Config) : (ofConfig config : QuickSelect σ).Retains [] := by
  refine ⟨EntryTable.blankWellFormed _, fun key => ?_⟩
  simp [EntryTable.keySet, ofConfigEntries, keysOf]

theorem absorbsKeys {ops : SummaryOps ω σ} {key : Int} {value : Datum} {t next : EntryTable σ}
    {w w' : ω} (absorbs : Absorbs ops key value t w next w') (other : Int) :
    other ∈ next.keySet ↔ other = key ∨ other ∈ t.keySet := by
  cases absorbs with
  | known replaces _ =>
    obtain ⟨pre, post, before, after⟩ := replaces.entries
    simp only [EntryTable.keySet, before, after, List.map_append, List.map_cons, List.mem_append,
      List.mem_cons]
    tauto
  | fresh _ gains _ => exact EntryTable.gainsKeys gains other

theorem holdsKeys {t next : EntryTable σ} {lg : Nat} {bound : Int}
    (holds : next.Holds lg (t.entries.filter fun e => decide (e.1 < bound))) (key : Int) :
    key ∈ next.keySet ↔ key ∈ t.keySet ∧ key < bound := by
  rw [EntryTable.keySet, (holds.entries.map Prod.fst).mem_iff, filterKeys (· < bound),
    EntryTable.keySet]

theorem pivotLe {s : QuickSelect σ} (below : ∀ key ∈ s.table.keySet, key < s.theta) :
    s.pivot ≤ s.theta := by
  rcases selectMem s.table.keySet s.config.nominal s.theta with same | member
  · exact le_of_eq same
  · exact le_of_lt (below _ member)

theorem droppedRetains {s : QuickSelect σ} {past : List (Datum × Datum)} {key : Int}
    {item : Datum} (retains : s.Retains past) (hashed : samplingKey item s.config.seed = .ok key)
    (outside : key = 0 ∨ s.theta ≤ key) (value : Datum) :
    s.noted.Retains (past ++ [(item, value)]) := by
  refine ⟨retains.table, fun other => ?_⟩
  change _ ↔ _ ∧ other ∈ keysOf s.config.seed _ ∧ other < s.theta
  rw [keysOfSnoc hashed, List.mem_append, List.mem_singleton]
  constructor
  · intro member
    obtain ⟨nonzero, seen, below⟩ := (retains.keys other).mp member
    exact ⟨nonzero, .inl seen, below⟩
  · rintro ⟨nonzero, seen | rfl, below⟩
    · exact (retains.keys other).mpr ⟨nonzero, seen, below⟩
    · rcases outside with zero | above
      · exact absurd zero nonzero
      · exact absurd below (not_lt.mpr above)

theorem absorbsRetains {ops : SummaryOps ω σ} {s : QuickSelect σ} {table : EntryTable σ}
    {past : List (Datum × Datum)} {key : Int} {item value : Datum} {w w' : ω}
    (retains : s.Retains past) (hashed : samplingKey item s.config.seed = .ok key)
    (nonzero : key ≠ 0) (below : key < s.theta)
    (absorbs : Absorbs ops key value s.table w table w') :
    QuickSelect.Retains { s.noted with table } (past ++ [(item, value)]) := by
  refine ⟨absorbsWellFormed absorbs, fun other => ?_⟩
  change _ ↔ _ ∧ other ∈ keysOf s.config.seed _ ∧ other < s.theta
  rw [absorbsKeys absorbs, keysOfSnoc hashed, List.mem_append, List.mem_singleton, retains.keys]
  constructor
  · rintro (rfl | ⟨nonzero', seen, below'⟩)
    · exact ⟨nonzero, .inr rfl, below⟩
    · exact ⟨nonzero', .inl seen, below'⟩
  · rintro ⟨nonzero', seen | rfl, below'⟩
    · exact .inr ⟨nonzero', seen, below'⟩
    · exact .inl rfl

theorem settlesRetains {s s' : QuickSelect σ} {past : List (Datum × Datum)}
    (retains : s.Retains past) (settles : Settles s s') :
    s'.Retains past ∧ s'.config = s.config ∧ s'.theta ≤ s.theta := by
  have lowered {next : EntryTable σ} {lg : Nat} {theta : Int} (le : theta ≤ s.theta)
      (holds : next.Holds lg (s.table.entries.filter fun e => decide (e.1 < theta))) (key : Int) :
      key ∈ next.keySet ↔ key ≠ 0 ∧ key ∈ keysOf s.config.seed past ∧ key < theta := by
    rw [holdsKeys holds, retains.keys]
    exact ⟨fun h => ⟨h.1.1, h.1.2.1, h.2⟩, fun h => ⟨⟨h.1, h.2.1, lt_of_lt_of_le h.2.2 le⟩, h.2.2⟩⟩
  cases settles with
  | kept _ => exact ⟨retains, rfl, le_refl _⟩
  | grown _ _ holds =>
    exact ⟨⟨holds.wellFormed, lowered (le_refl _) holds⟩, rfl, le_refl _⟩
  | rebuilt _ _ holds =>
    have le := pivotLe fun key member => ((retains.keys key).mp member).2.2
    exact ⟨⟨holds.wellFormed, lowered le holds⟩, rfl, le⟩

theorem updateRetains {ops : SummaryOps ω σ} {s s' : QuickSelect σ} {item value : Datum}
    {w w' : ω} {past : List (Datum × Datum)} (retains : s.Retains past)
    (ok : s.update ops item value w = (.ok (), s', w')) :
    s'.Retains (past ++ [(item, value)]) ∧ s'.config = s.config ∧ s'.theta ≤ s.theta := by
  obtain ⟨key, hashed, steps⟩ := updateSteps retains.table ok
  cases steps with
  | dropped outside => exact ⟨droppedRetains retains hashed outside value, rfl, le_refl _⟩
  | taken nonzero below absorbs settles =>
    have absorbed := absorbsRetains retains hashed nonzero below absorbs
    have settled := settlesRetains absorbed settles
    exact settled

theorem updateAllRetains {ops : SummaryOps ω σ} {s s' : QuickSelect σ} {w w' : ω}
    {past updates : List (Datum × Datum)} (retains : s.Retains past)
    (ok : s.updateAll ops updates w = (.ok (), s', w')) :
    s'.Retains (past ++ updates) ∧ s'.config = s.config ∧ s'.theta ≤ s.theta := by
  have run := updateAllKeeps
    (fun next _ past => next.Retains past ∧ next.config = s.config ∧ next.theta ≤ s.theta)
    (fun before first => by
      have after := updateRetains before.1 first
      exact ⟨after.1, after.2.1.trans before.2.1, le_trans after.2.2 before.2.2⟩)
    ⟨retains, rfl, le_refl _⟩ ok
  exact run

theorem runRetains {ops : SummaryOps ω σ} {settings : Settings} {s s' : QuickSelect σ} {w w' : ω}
    {updates : List (Datum × Datum)} (begins : Begins settings s)
    (ok : s.updateAll ops updates w = (.ok (), s', w')) :
    s'.Retains updates ∧ Config.ofSettings settings = .ok s'.config ∧ s'.theta ≤ s.theta := by
  obtain ⟨config, accepted, rfl⟩ := beginsOfConfig begins
  obtain ⟨retains, same, theta⟩ := updateAllRetains (ofConfigRetains config) ok
  exact ⟨retains, same ▸ accepted, theta⟩

end QuickSelect
end KeySampling
