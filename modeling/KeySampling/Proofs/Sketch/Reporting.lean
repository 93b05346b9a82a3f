import KeySampling.Proofs.Census.Reporting
import KeySampling.Proofs.Sketch.OpenBound
import KeySampling.Proofs.Sketch.Representation

/-! What an updatable sketch says of itself after any updates and resets, whichever of them fail.
A table grows only while its keys are many for it, and there are less than 2^63 keys, so the size
of a sketch is a number like any other. -/
namespace KeySampling
namespace QuickSelect
open Binary64
variable {ω σ : Type}

def useAll (ops : SummaryOps ω σ) (s : QuickSelect σ) (uses : List (Use × ω)) : QuickSelect σ :=
  uses.foldl (fun s u => (s.use ops u.1 u.2).2.1) s

section Run
variable {ops : SummaryOps ω σ} {settings : Settings} {s s' : QuickSelect σ}
  {past : List (Datum × Datum)}

theorem reachedUses (reached : Reached ops settings past s) (uses : List (Use × ω)) :
    ∃ past', Reached ops settings past' (s.useAll ops uses) := by
  induction uses generalizing s past with
  | nil => exact ⟨past, reached⟩
  | cons u rest ih =>
    obtain ⟨use, w⟩ := u
    cases use with
    | update item value => exact ih (reached.updated rfl)
    | reset => exact ih (.begun (.reset (reachedTracks reached).accepted))

theorem settlesSmall (intact : s.Intact) (small : s.table.lg ≤ 66) (settles : Settles s s') :
    s'.table.lg ≤ 66 := by
  cases settles with
  | kept _ => exact small
  | rebuilt _ _ holds => exact holds.lg.trans_le small
  | grown full growing holds =>
    have many := mt (growingLoad growing).mpr (by simp [full])
    have few := countFits intact
    have below : s.table.lg < 64 := by
      by_contra large
      have most := pow2Mono (not_lt.mp large)
      rw [pow2Pow 64] at most
      omega
    rw [holds.lg]
    exact (min_le_left _ _).trans (Nat.add_le_add_right (Nat.le_of_lt_succ below) growthLg)

theorem updateSmall {item value : Datum} {r : Except Fault Unit} {w w' : ω} (intact : s.Intact)
    (small : s.table.lg ≤ 66) (next : s.update ops item value w = (r, s', w')) :
    s'.table.lg ≤ 66 := by
  cases r with
  | ok _ =>
    obtain ⟨key, hashed, steps⟩ := updateSteps intact.table next
    cases steps with
    | dropped _ => exact small
    | taken nonzero below absorbs settles =>
      exact settlesSmall (absorbsIntact intact hashed nonzero below absorbs)
        ((absorbsLg absorbs).trans_le small) settles
  | error f =>
    cases updateFails intact next with
    | unhashed _ | crammed _ _ _ _ _ _ | known _ _ _ => exact small
    | stranded _ _ _ _ gains _ => exact gains.lg.trans_le small

theorem reachedSmall (reached : Reached ops settings past s) : s.table.lg ≤ 66 := by
  induction reached with
  | begun begins =>
    obtain ⟨config, _, rfl⟩ := beginsOfConfig begins
    exact (min_le_left startLgTable config.lgLargest).trans (by decide)
  | updated reached next ih => exact updateSmall (reachedTracks reached).intact ih next

theorem memoryFits (wf : s.table.WellFormed) (small : s.table.lg ≤ 66) {sizes : Sizes σ}
    (bounded : sizes.Bounded) : (s.memory sizes).bytes ≤ 2 ^ 131 := by
  have slots := pow2Mono small
  rw [pow2Pow 66] at slots
  have kept : (s.table.summaries.toList.filterMap id).length ≤ pow2 s.table.lg :=
    (List.length_filterMap_le _ _).trans_eq ((Array.length_toList).trans wf.size)
  calc (s.memory sizes).bytes
      ≤ (4 + (s.table.summaries.toList.filterMap id).length) * 18446744073709551616 :=
        Sizes.totalBound bounded _
    _ ≤ 2 ^ 131 := by omega

theorem loadYields (wf : s.table.WellFormed) :
    ∃ q, Yields (quotient s.table.count (pow2 s.table.lg)) q := by
  have slots := pow2Pos s.table.lg
  have most : (s.table.count : ℚ) ≤ pow2 s.table.lg := by
    exact_mod_cast EntryTable.countBound wf
  have share : (s.table.count : ℚ) / pow2 s.table.lg ≤ 2 ^ (0 : Int) := by
    rw [zpow_zero, div_le_one₀ (by exact_mod_cast slots)]
    exact most
  refine ⟨_, quotientYields (by omega) ?_⟩
  push_cast
  exact belowHuge (div_nonneg (Nat.cast_nonneg _) (Nat.cast_nonneg _)) share (by decide)

theorem reachedLimit (reached : Reached ops settings past s) (sizes : Sizes σ) :
    (s.memory sizes).limit = settings.memoryLimit := by
  obtain ⟨_, _, same⟩ := Config.acceptedSettings (reachedTracks reached).accepted
  exact congrArg Config.memoryLimit same

theorem reachedRefused (reached : Reached ops settings past s) (kind : String) (sizes : Sizes σ)
    (zero : settings.memoryLimit = some 0) : s.stats kind sizes = .error .divisionByZero := by
  have limit := (reachedLimit reached sizes).trans zero
  rw [stats, Census.statsRefused (reachedPossible reached) kind limit]
  rfl

theorem reachedReports (reached : Reached ops settings past s) (kind : String) {sizes : Sizes σ}
    (bounded : sizes.Bounded) (usable : settings.memoryLimit ≠ some 0) :
    ∃ r, s.stats kind sizes = .ok r ∧ AllFinite (r.load :: r.sketch.numbers) := by
  have wf := (reachedTracks reached).intact.table
  obtain ⟨report, reported, finite⟩ := Census.statsYield (reachedPossible reached) kind
    (memoryFits wf (reachedSmall reached) bounded) (reachedLimit reached sizes ▸ usable)
  obtain ⟨q, load, loaded, value⟩ := loadYields wf
  refine ⟨_, by rw [stats, reported, loaded]; rfl, ?_⟩
  exact List.forall_mem_cons.mpr ⟨⟨q, value⟩, finite⟩

end Run
end QuickSelect
end KeySampling
