import KeySampling.Proofs.Sketch.Reached

/-! What a sketch selects. As long as no update has failed its table is never full, so the next one
fails only for an item that cannot be hashed or for a value that is refused. Such runs are the ones
of which is told what is kept of a stream: the smallest keys. -/
namespace KeySampling

def SummaryOps.Takes {ω σ : Type} (ops : SummaryOps ω σ) (value : Datum) : Prop :=
  ∀ s w, ∃ s', (ops.fold s value w).1 = .ok s'

theorem keysOnlyTakes {ω : Type} (value : Datum) :
    (SummaryOps.keysOnly : SummaryOps ω Unit).Takes value := fun _ _ => ⟨(), rfl⟩

theorem acceptsTakes {ω σ : Type} {ops : SummaryOps ω σ} {fits : Datum → Bool} {value : Datum}
    (accepts : QuickSelect.Accepts ops fits) (fit : fits value = true) : ops.Takes value := by
  intro s w
  cases folded : ops.fold s value w with
  | mk r w' =>
    cases r with
    | ok s' => exact ⟨s', rfl⟩
    | error f => simp [accepts s value w f w' folded] at fit

namespace QuickSelect
variable {ω σ : Type} {ops : SummaryOps ω σ} {settings : Settings} {s : QuickSelect σ}
  {past : List (Datum × Datum)} {initial : Int}

theorem updateSucceeds (reached : Reached ops settings past s) (roomy : s.Roomy)
    {item value : Datum} {key : Int} (hashed : samplingKey item settings.seed = .ok key)
    (takes : ops.Takes value) (w : ω) : (s.update ops item value w).1 = .ok () := by
  have tracks := reachedTracks reached
  rw [← Config.acceptedSeed tracks.accepted] at hashed
  have taken {old : σ} {w₁ w₂ : ω} {f : Fault} (refused : ops.fold old value w₁ = (.error f, w₂)) :
      False := by
    obtain ⟨_, ok⟩ := takes old w₁
    rw [refused] at ok
    contradiction
  cases next : s.update ops item value w with
  | mk r after =>
    obtain ⟨s', w'⟩ := after
    cases r with
    | ok _ => rfl
    | error f =>
      cases updateFails tracks.intact next with
      | unhashed refused =>
        rw [hashed] at refused
        contradiction
      | crammed _ _ _ _ full _ =>
        have load := roomyLoad roomy
        have slots := pow2Pos s.table.lg
        omega
      | known _ _ refused => exact (taken refused).elim
      | stranded _ _ _ _ _ refused => exact (taken refused).elim

theorem updatesSucceed (reached : Reached ops settings past s) (sampling : s.Sampling initial past)
    {updates : List (Datum × Datum)}
    (hashed : ∀ u ∈ updates, ∃ key, samplingKey u.1 settings.seed = .ok key)
    (takes : ∀ u ∈ updates, ops.Takes u.2) (w : ω) :
    ∃ s' w', s.updateAll ops updates w = (.ok (), s', w') := by
  induction updates generalizing s past w with
  | nil => exact ⟨s, w, rfl⟩
  | cons u rest ih =>
    obtain ⟨item, value⟩ := u
    rw [List.forall_mem_cons] at hashed takes
    obtain ⟨key, here⟩ := hashed.1
    have ok := updateSucceeds reached sampling.roomy here takes.1 w
    cases next : s.update ops item value w with
    | mk r after =>
      rw [next] at ok
      cases ok
      simpa only [updateAll, next] using ih (reached.updated next) (updateSampling sampling next)
        hashed.2 takes.2 after.2

theorem runSucceeds (begins : Begins settings s) {updates : List (Datum × Datum)}
    (hashed : ∀ u ∈ updates, ∃ key, samplingKey u.1 settings.seed = .ok key)
    (takes : ∀ u ∈ updates, ops.Takes u.2) (w : ω) :
    ∃ s' w', s.updateAll ops updates w = (.ok (), s', w') := by
  have idle : s.updateAll ops [] w = (.ok (), s, w) := rfl
  exact updatesSucceed (.begun begins) (runSampling begins idle) hashed takes w

/-- Quick select keeps the smallest keys. With k nominal entries, theta stays where it started
until more than 15/8 k distinct keys below it have come. From then on it is the (k+1)-th smallest
key of some part of the stream, and between k and 15/8 k keys are retained. It never rises, and
the k smallest keys, or all when there are fewer, are retained at any time. -/
theorem smallestRetained (ops : SummaryOps ω σ) {settings : Settings} {start s : QuickSelect σ}
    (begins : Begins settings start) {updates : List (Datum × Datum)} {w w' : ω}
    (ok : start.updateAll ops updates w = (.ok (), s, w')) :
    let seen := (distinctKeys settings.seed updates).filter (· < start.theta)
    let k := s.config.nominal
    (∃ lg ≥ 4, k = 2 ^ lg) ∧
    (s.theta = start.theta ↔ 8 * seen.card ≤ 15 * k) ∧
    (s.theta ≠ start.theta →
      (∃ pre, pre <+: updates ∧
        ((distinctKeys settings.seed pre).sort (· ≤ ·))[k]? = some s.theta) ∧
      k ≤ s.census.retained ∧ 8 * s.census.retained ≤ 15 * k) ∧
    (∀ pre post, updates = pre ++ post → ∃ mid w₁,
      start.updateAll ops pre w = (.ok (), mid, w₁) ∧ s.theta ≤ mid.theta) ∧
    ∀ key ∈ (seen.sort (· ≤ ·)).take k, key ∈ s.keySample.entries := by
  intro seen k
  have sampling := runSampling begins ok
  have seed := Config.acceptedSeed (runRetains begins ok).2.1
  refine ⟨nominalPow2 begins ok, ?_, ?_, ?_, ?_⟩
  · have untouched := untouchedIff sampling
    rw [seed] at untouched
    exact untouched
  · intro moved
    obtain ⟨least, most⟩ := loweredLoad sampling moved
    refine ⟨?_, Int.ofNat_le.mpr least, by simp only [census, k]; omega⟩
    cases sampling.placed with
    | untouched same => exact absurd same moved
    | lowered pre before _ ranks _ =>
      rw [seed] at ranks
      exact ⟨pre, before, sortedGet ranks⟩
  · rintro pre post rfl
    obtain ⟨mid, w₁, first, rest⟩ := updateAllAppend ok
    have after := updateAllRetains (runRetains begins first).1 rest
    exact ⟨mid, w₁, first, after.2.2⟩
  · intro key early
    obtain ⟨smaller, few, ranks⟩ := ranksOfTake early
    refine smallRetained sampling few ?_
    rw [seed]
    exact ranks

theorem sixteenBegin (limit : Option Int) : ∃ s : QuickSelect σ,
    Begins { nominal := 16, memoryLimit := limit } s ∧ s.theta = maxTheta := by
  have enough : (16 : Int) ≤ 16 := le_refl 16
  have whole : (Datum.float .one).isFraction true = .ok true := by decide +kernel
  have theta : thetaFor (.float .one) = maxTheta := by decide +kernel
  exact ⟨_, beginsAccepted (Config.settingsAccepted enough whole), theta⟩

/-- One item more than a table of 32 slots can hold without being rebuilt. -/
def crowd : List (Datum × Datum) := (List.range 31).map fun n : Nat => (.int n, .int 1)

theorem crowdHashed : ∀ u ∈ crowd, ∃ key, samplingKey u.1 defaultSeed = .ok key := by
  have keyed : ∀ u ∈ crowd, samplingKey u.1 defaultSeed =
      .ok ((keyOf defaultSeed u.1).getD 0) := by decide +kernel
  exact fun u member => ⟨_, keyed u member⟩

theorem crowdKeys : ((distinctKeys defaultSeed crowd).filter (· < maxTheta)).card = 31 := by
  decide +kernel

theorem crowdMoves (accepted : Config.ofSettings { nominal := 16 } = .ok s.config)
    (sampling : s.Sampling maxTheta past)
    (many : ((distinctKeys defaultSeed past).filter (· < maxTheta)).card = 31) :
    s.theta ≠ maxTheta := by
  have same := Except.ok.inj (accepted.symm.trans (Config.defaultsAccepted (by decide)))
  have sixteen : s.config.nominal = 16 := by
    rw [same]
    decide
  have seed : s.config.seed = defaultSeed := congrArg Config.seed same
  intro still
  have few := (untouchedIff sampling).mp still
  rw [seed, many, sixteen] at few
  contradiction

/-- The last item of the crowd lowers theta. -/
theorem smallestRetainedCrowd :
    ∃ start s : QuickSelect Unit, Begins { nominal := 16 } start ∧
      start.updateAll .keysOnly crowd () = (.ok (), s, ()) ∧ s.theta ≠ start.theta ∧
      (∃ pre, pre <+: crowd ∧
        ((distinctKeys defaultSeed pre).sort (· ≤ ·))[s.config.nominal]? = some s.theta) ∧
      s.config.nominal ≤ s.census.retained := by
  obtain ⟨start, begins, whole⟩ := sixteenBegin none
  obtain ⟨s, _, ok⟩ := runSucceeds begins crowdHashed (fun u _ => keysOnlyTakes u.2) ()
  have sampling := runSampling begins ok
  rw [whole] at sampling
  have moved := crowdMoves (runRetains begins ok).2.1 sampling crowdKeys
  rw [← whole] at moved
  obtain ⟨_, _, moves, _, _⟩ := smallestRetained .keysOnly begins ok
  obtain ⟨ranks, least, _⟩ := moves moved
  exact ⟨start, s, begins, ok, moved, ranks, least⟩

end QuickSelect
end KeySampling
