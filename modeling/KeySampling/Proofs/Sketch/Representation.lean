import KeySampling.Proofs.KeyTable.Layout
import KeySampling.Proofs.Sketch.Stranding

/-! The arrays of an updatable sketch. Whatever updates succeed and however often it is reset, its
keys lie where a search finds them, and its table is never fuller than its size allows. So a probe
always ends at the key or at an empty slot, and an update fails for its item or its value alone. -/
namespace KeySampling

def Fault.ofTable : Fault → Bool
  | .fullTable | .keyNeitherFoundNorPlaced | .endlessProbe | .outOfRange | .missingSummary => true
  | _ => false

theorem samplingKeyFault {item : Datum} {seed : Int} {f : Fault}
    (refused : samplingKey item seed = .error f) : f = .loneSurrogate := by
  unfold samplingKey hashItem at refused
  cases encoded : item.encode with
  | ok bytes => simp [encoded] at refused
  | error g =>
    simp only [encoded, Except.error.injEq] at refused
    subst refused
    unfold Datum.encode at encoded
    split at encoded <;> try contradiction
    -- Only a text may have no encoding; an integer is written if it does not fit.
    all_goals split at encoded <;> cases encoded
    rfl

theorem conversionFault {value : Datum} {f : Fault} (refused : value.toBinary64 = .error f) :
    f.ofTable = false := by
  unfold Datum.toBinary64 at refused
  dsimp only at refused
  split at refused <;> try contradiction
  · unfold Binary64.ofInt? at refused
    dsimp only at refused
    split at refused <;> cases refused
    rfl
  · split at refused <;> cases refused
    rfl
  · split at refused <;> cases refused
    rfl
  · split at refused <;> cases refused
    rfl
  · cases refused
    rfl

/-- Values are refused for reasons that have nothing to do with tables. -/
def SummaryOps.FoldsApart {ω σ : Type} (ops : SummaryOps ω σ) : Prop :=
  ∀ s value w f w', ops.fold s value w = (.error f, w') → f.ofTable = false

theorem storedFoldsApart (mode : Mode) : (SummaryOps.stored mode).FoldsApart :=
  fun _ _ _ _ _ refused => conversionFault (Store.foldRefused refused).1

theorem keysOnlyFoldsApart {ω : Type} : (SummaryOps.keysOnly : SummaryOps ω Unit).FoldsApart := by
  intro s value w f w' refused
  simp [SummaryOps.keysOnly] at refused

namespace QuickSelect
variable {ω σ : Type}

inductive Use where
  | update (item value : Datum)
  | reset

def use (ops : SummaryOps ω σ) (s : QuickSelect σ) :
    Use → ω → Except Fault Unit × QuickSelect σ × ω
  | .update item value, w => s.update ops item value w
  | .reset, w => (.ok (), s.reset, w)

def useEach (ops : SummaryOps ω σ) (s : QuickSelect σ) :
    List (Use × ω) → Except Fault Unit × QuickSelect σ
  | [] => (.ok (), s)
  | (use, w) :: rest =>
      match s.use ops use w with
      | (.error f, s, _) => (.error f, s)
      | (.ok (), s, _) => s.useEach ops rest

/-- How the keys, the summaries, the count and theta of a sketch fit together. -/
structure Arrayed (s : QuickSelect σ) : Prop where
  layout : s.table.Layout
  least : 5 ≤ s.table.lg
  most : s.table.lg ≤ s.config.nominal.log2 + 1
  retained : s.census.retained = s.table.keys.taken
  inRange : ∀ key ∈ s.table.keys, key ≠ 0 → 1 ≤ key ∧ key < s.theta
  halfFull : s.table.lg < s.config.nominal.log2 + 1 → s.table.count ≤ pow2 (s.table.lg - 1)
  mostlyFull : s.table.lg = s.config.nominal.log2 + 1 →
    16 * s.table.count ≤ 15 * pow2 s.table.lg

structure Orderly (settings : Settings) (s : QuickSelect σ) : Prop where
  accepted : Config.ofSettings settings = .ok s.config
  intact : s.Intact
  roomy : s.Roomy

inductive Refuses (ops : SummaryOps ω σ) (s : QuickSelect σ) (item value : Datum) (w : ω)
    (f : Fault) : Prop
  | unhashed (refused : samplingKey item s.config.seed = .error f) : Refuses ops s item value w f
  | known {key : Int} {old : σ} {w' : ω} (hashed : samplingKey item s.config.seed = .ok key)
      (retained : (key, old) ∈ s.sample.entries)
      (rejected : ops.fold old value w = (.error f, w')) : Refuses ops s item value w f
  | fresh {w' : ω} (rejected : ops.fold (ops.fresh w).1 value (ops.fresh w).2 = (.error f, w')) :
      Refuses ops s item value w f

theorem refusesApart {ops : SummaryOps ω σ} {s : QuickSelect σ} {item value : Datum} {w : ω}
    {f : Fault} (apart : ops.FoldsApart) (refuses : Refuses ops s item value w f) :
    f.ofTable = false := by
  cases refuses with
  | unhashed refused => exact samplingKeyFault refused ▸ rfl
  | known _ _ rejected => exact apart _ _ _ _ _ rejected
  | fresh rejected => exact apart _ _ _ _ _ rejected

theorem ofConfigOrderly {settings : Settings} {config : Config}
    (accepted : Config.ofSettings settings = .ok config) :
    (ofConfig config : QuickSelect σ).Orderly settings :=
  ⟨accepted, ofConfigIntact accepted, ofConfigRoomy (Config.acceptedNominal accepted)⟩

section Run
variable {ops : SummaryOps ω σ} {settings : Settings} {s s' : QuickSelect σ} {f : Fault}

theorem useOrderly {use : Use} {w w' : ω} (orderly : s.Orderly settings)
    (ok : s.use ops use w = (.ok (), s', w')) : s'.Orderly settings := by
  cases use with
  | update item value =>
    obtain ⟨key, _, steps⟩ := updateSteps orderly.intact.table ok
    have config := (updateCounted orderly.intact ok).1
    exact ⟨config ▸ orderly.accepted, updateIntact orderly.intact ok,
      stepsRoomy orderly.roomy steps⟩
  | reset =>
    simp only [QuickSelect.use, Prod.mk.injEq, true_and] at ok
    exact ok.1 ▸ ofConfigOrderly orderly.accepted

theorem updateRefuses {item value : Datum} {w w' : ω} (orderly : s.Orderly settings)
    (failed : s.update ops item value w = (.error f, s', w')) : Refuses ops s item value w f := by
  cases updateFails orderly.intact failed with
  | unhashed refused => exact .unhashed refused
  | crammed _ _ _ _ full _ =>
    -- A slot is always free.
    have load := roomyLoad orderly.roomy
    have slots := pow2Pos s.table.lg
    omega
  | known hashed retained rejected => exact .known hashed retained rejected
  | stranded _ _ _ _ _ rejected => exact .fresh rejected

theorem useEachOrderly {uses : List (Use × ω)} (orderly : s.Orderly settings)
    (ok : s.useEach ops uses = (.ok (), s')) : s'.Orderly settings := by
  induction uses generalizing s with
  | nil => exact (Prod.mk.inj ok).2 ▸ orderly
  | cons u rest ih =>
    obtain ⟨use, w⟩ := u
    simp only [useEach] at ok
    split at ok
    · simp at ok
    · rename_i mid w' first
      exact ih (useOrderly orderly first) ok

theorem useEachRefuses {uses : List (Use × ω)} (orderly : s.Orderly settings)
    (failed : s.useEach ops uses = (.error f, s')) :
    ∃ pre item value w post mid, uses = pre ++ (.update item value, w) :: post ∧
      s.useEach ops pre = (.ok (), mid) ∧ Refuses ops mid item value w f := by
  induction uses generalizing s with
  | nil => simp [useEach] at failed
  | cons u rest ih =>
    obtain ⟨use, w⟩ := u
    simp only [useEach] at failed
    split at failed
    · rename_i fault after w' first
      cases Except.error.inj (Prod.mk.inj failed).1
      cases use with
      | update item value =>
        exact ⟨[], item, value, w, rest, s, rfl, rfl, updateRefuses orderly first⟩
      | reset => simp [QuickSelect.use] at first
    · rename_i mid w' first
      obtain ⟨pre, item, value, v, post, last, rfl, ok, refuses⟩ :=
        ih (useOrderly orderly first) failed
      refine ⟨(use, w) :: pre, item, value, v, post, last, rfl, ?_, refuses⟩
      simp only [useEach, first, ok]

end Run

theorem orderlyArrayed {settings : Settings} {s : QuickSelect σ} (orderly : s.Orderly settings) :
    s.Arrayed := by
  obtain ⟨_, intact, roomy⟩ := orderly
  have nominal : s.config.nominal.log2 + 1 = s.config.lgLargest :=
    congrArg Nat.succ (pow2Log2 s.config.lgNominal)
  have layout := EntryTable.wellFormedLayout intact.table
  refine ⟨layout, roomy.start, nominal ▸ roomy.largest, congrArg Int.ofNat layout.counted, ?_, ?_,
    ?_⟩
  · intro key stored nonzero
    exact intact.inRange key ((EntryTable.keyIff intact.table key).mpr ⟨nonzero, stored⟩)
  · intro small
    have load := (growingLoad (nominal ▸ small)).mp roomy.calm
    have start : 5 ≤ s.table.lg := roomy.start
    have double : pow2 s.table.lg = 2 * pow2 (s.table.lg - 1) := by
      rw [← pow2Succ]
      congr 1
      omega
    omega
  · exact fun _ => roomyLoad roomy

/-- After any run of updates and resets that does not fail, the table of a sketch is laid out as
its searches need it. A run that fails does so at an update that is refused for its item or its
value, and never for what a probe met. -/
theorem arraysKept (ops : SummaryOps ω σ) {settings : Settings} {start : QuickSelect σ}
    (begins : Begins settings start) (uses : List (Use × ω)) :
    (∀ s, start.useEach ops uses = (.ok (), s) →
      Config.ofSettings settings = .ok s.config ∧ s.Arrayed) ∧
    ∀ f s, start.useEach ops uses = (.error f, s) →
      (∃ pre item value w post mid, uses = pre ++ (.update item value, w) :: post ∧
        start.useEach ops pre = (.ok (), mid) ∧ Refuses ops mid item value w f) ∧
      (ops.FoldsApart → f.ofTable = false) := by
  obtain ⟨config, accepted, rfl⟩ := beginsOfConfig begins
  have first := ofConfigOrderly (σ := σ) accepted
  constructor
  · intro s ok
    have orderly := useEachOrderly first ok
    exact ⟨orderly.accepted, orderlyArrayed orderly⟩
  · intro f s failed
    obtain ⟨pre, item, value, w, post, mid, split, ok, refuses⟩ := useEachRefuses first failed
    exact ⟨⟨pre, item, value, w, post, mid, split, ok, refuses⟩,
      fun apart => refusesApart apart refuses⟩

def restartedUses : List (Use × Store) :=
  (.update (.int 99) (.int 1), .empty) :: (.reset, .empty) ::
    (List.range 20).map fun n : Nat => (.update (.int n) (.int 1), .empty)

theorem arraysKeptRestarted : ∃ start s : QuickSelect Handle,
    Begins { nominal := 17 } start ∧
    start.useEach (.stored .sum) restartedUses = (.ok (), s) ∧
    s.table.lg = 6 ∧ s.census.retained = 20 ∧ s.Arrayed := by
  let config : Config := ⟨5, .float .one, maxTheta, defaultSeed, none⟩
  have begins : Begins { nominal := 17 } (ofConfig config : QuickSelect Handle) :=
    beginsDefaults (by decide)
  have ok : (ofConfig config).useEach (.stored .sum) restartedUses =
      (.ok (), ((ofConfig config).useEach (.stored .sum) restartedUses).2) :=
    Prod.ext (by decide +kernel) rfl
  exact ⟨_, _, begins, ok, by decide +kernel, by decide +kernel,
    ((arraysKept (.stored .sum) begins restartedUses).1 _ ok).2⟩

end QuickSelect
end KeySampling
