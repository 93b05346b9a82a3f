import KeySampling.Proofs.Sketch.Reached
import KeySampling.Proofs.Summary.Sharing

/-! What failed updates cost. A key whose value is refused keeps its slot, and since room is made
only after a value is folded, enough of them take every slot that is left. From then on a new key
is refused whatever its value. -/
namespace KeySampling

def Datum.converts (value : Datum) : Bool := value.toBinary64.isOk

theorem Store.foldRefused {mode : Mode} {store store' : Store} {h : Handle} {value : Datum}
    {f : Fault} (refused : (SummaryOps.stored mode).fold h value store = (.error f, store')) :
    value.toBinary64 = .error f ∧ store' = store := by
  simp only [SummaryOps.stored, update, Summary.update] at refused
  cases read : value.toBinary64 with
  | error g =>
    simp only [read, Except.map, Prod.mk.injEq, Except.error.injEq] at refused
    exact ⟨congrArg _ refused.1, refused.2.symm⟩
  | ok x => simp [read, Except.map] at refused

namespace QuickSelect
variable {ω σ : Type}

theorem storedAccepts (mode : Mode) : Accepts (.stored mode) Datum.converts := by
  intro h value store f store' refused
  simp [Datum.converts, (Store.foldRefused refused).1, Except.isOk, Except.toBool]

theorem keysOnlyAccepts : Accepts (.keysOnly : SummaryOps ω Unit) fun _ => true := by
  intro s value w f w' refused
  simp [SummaryOps.keysOnly] at refused

theorem misfitsNone (seed : Int) (past : List (Datum × Datum)) :
    misfits (fun _ => true) seed past = 0 := by
  simp [misfits]

section Failed
variable {ops : SummaryOps ω σ} {s s' : QuickSelect σ} {item value : Datum} {f : Fault} {w w' : ω}

theorem failsTheta (fails : Fails ops s item value w f s' w') : s'.theta = s.theta := by
  cases fails <;> rfl

theorem failsSpared (intact : s.Intact) (fails : Fails ops s item value w f s' w')
    (spared : ∀ key, keyOf s.config.seed item = some key →
      key ∈ s.table.keySet ∨ s.table.count = pow2 s.table.lg) : s'.table = s.table := by
  cases fails with
  | unhashed _ | crammed _ _ _ _ _ _ | known _ _ _ => rfl
  | stranded hashed _ _ absent gains _ =>
    have full := (spared _ (keyOfOk hashed)).resolve_left absent
    exact absurd full (EntryTable.gainsRoom intact.table gains).ne

theorem failsStrands {key : Int} (fails : Fails ops s item value w f s' w')
    (hashed : keyOf s.config.seed item = some key) (absent : key ∉ s.table.keySet)
    (room : s.table.count < pow2 s.table.lg) : s.table.Gains key (ops.fresh w).1 s'.table := by
  have only {other : Int} (same : samplingKey item s.config.seed = .ok other) : other = key :=
    Option.some.inj ((keyOfOk same).symm.trans hashed)
  cases fails with
  | unhashed refused => simp [keyOfError refused] at hashed
  | crammed _ _ _ _ full _ => omega
  | known same retained _ =>
    cases only same
    exact absurd (List.mem_map_of_mem (f := Prod.fst) retained) absent
  | stranded same _ _ _ gains _ =>
    cases only same
    exact gains

end Failed

theorem failsStored {mode : Mode} {s s' : QuickSelect Handle} {item value : Datum} {f : Fault}
    {store store' : Store} (fails : Fails (.stored mode) s item value store f s' store') :
    (∀ h x, store.read? h = some x → store'.read? h = some x) ∧
      ∀ key h, (key, h) ∈ s'.table.entries →
        (key, h) ∈ s.table.entries ∨ store'.read? h = some (.fresh mode) := by
  cases fails with
  | unhashed _ | crammed _ _ _ _ _ _ =>
    exact ⟨fun _ _ read => read, fun _ _ member => .inl member⟩
  | known _ _ rejected =>
    rw [(Store.foldRefused rejected).2]
    exact ⟨fun _ _ read => read, fun _ _ member => .inl member⟩
  | stranded _ _ _ _ gains rejected =>
    rw [(Store.foldRefused rejected).2]
    refine ⟨fun h x read => Store.readOld read _, fun key h member => ?_⟩
    rcases List.mem_cons.mp ((EntryTable.gainsPerm gains).mem_iff.mp member) with same | old
    · cases same
      exact .inr (Store.readNew store _)
    · exact .inl old

theorem keysOnlyFails {settings : Settings} {past : List (Datum × Datum)} {s s' : QuickSelect Unit}
    {item value : Datum} {f : Fault} {w w' : ω}
    (reached : Reached (.keysOnly : SummaryOps ω Unit) settings past s)
    (fails : Fails .keysOnly s item value w f s' w') :
    samplingKey item s.config.seed = .error f ∧ s' = s.noted := by
  cases fails with
  | unhashed refused => exact ⟨refused, rfl⟩
  | crammed _ _ _ _ full _ =>
    have load := reachedLoad keysOnlyAccepts reached
    have slots := pow2Pos s.table.lg
    rw [misfitsNone, full] at load
    omega
  | known _ _ rejected => simp [SummaryOps.keysOnly] at rejected
  | stranded _ _ _ _ _ rejected => simp [SummaryOps.keysOnly] at rejected

/-- A failed update is never undone. It counts its item, ends the emptiness of the sketch and
leaves theta alone. The entries stay as they are if the item has no key, its key is retained or no
slot is left; else its key is retained from then on, with a fresh summary. In a tuple sketch no
summary changes, and a theta sketch fails for items without a key only. -/
theorem failureCommits (settings : Settings) (past : List (Datum × Datum)) :
    (∀ {ω σ : Type} (ops : SummaryOps ω σ) {s s' : QuickSelect σ} {item value : Datum} {f : Fault}
        {w w' : ω}, Reached ops settings past s →
        s.update ops item value w = (.error f, s', w') →
      s'.processed = s.processed + 1 ∧ s'.census.empty = false ∧
      s'.census.theta = s.census.theta ∧
      ((∀ key, keyOf settings.seed item = some key →
          key ∈ s.keySample.entries ∨ s.census.retained = pow2 s.table.lg) →
        s'.sample.entries = s.sample.entries ∧ s'.census.retained = s.census.retained) ∧
      ∀ key, keyOf settings.seed item = some key → key ∉ s.keySample.entries →
        s.census.retained < pow2 s.table.lg →
        s'.census.retained = s.census.retained + 1 ∧
        ∃ pre post, s.sample.entries = pre ++ post ∧
          s'.sample.entries = pre ++ (key, (ops.fresh w).1) :: post) ∧
    (∀ (mode : Mode) {s s' : QuickSelect Handle} {item value : Datum} {f : Fault}
        {store store' : Store}, Reached (.stored mode) settings past s →
        s.update (.stored mode) item value store = (.error f, s', store') →
      (∀ h x, store.read? h = some x → store'.read? h = some x) ∧
      ∀ key h, (key, h) ∈ s'.sample.entries →
        (key, h) ∈ s.sample.entries ∨ store'.read? h = some (.fresh mode)) ∧
    ∀ {ω : Type} {s s' : QuickSelect Unit} {item value : Datum} {f : Fault} {w w' : ω},
      Reached (.keysOnly : SummaryOps ω Unit) settings past s →
        s.update .keysOnly item value w = (.error f, s', w') →
      keyOf settings.seed item = none ∧ s'.keySample.entries = s.keySample.entries := by
  refine ⟨?_, ?_, ?_⟩
  · intro ω σ ops s s' item value f w w' reached failed
    obtain ⟨accepted, intact, _⟩ := reachedTracks reached
    obtain ⟨_, processed, empty⟩ := updateCounted intact failed
    have fails := updateFails intact failed
    rw [← Config.acceptedSeed accepted]
    refine ⟨processed, empty, failsTheta fails, fun spared => ?_, fun key hashed absent room => ?_⟩
    · have same := failsSpared intact fails fun key hashed =>
        (spared key hashed).imp_right Int.ofNat.inj
      exact ⟨congrArg EntryTable.entries same, congrArg (fun t => (t.count : Int)) same⟩
    · have gains := failsStrands fails hashed absent (Int.ofNat_lt.mp room)
      exact ⟨congrArg Int.ofNat (EntryTable.gainsCount intact.table gains), gains.entries⟩
  · intro mode s s' item value f store store' reached failed
    have intact := (reachedTracks reached).intact
    exact failsStored (updateFails intact failed)
  · intro ω s s' item value f w w' reached failed
    obtain ⟨accepted, intact, _⟩ := reachedTracks reached
    obtain ⟨refused, rfl⟩ := keysOnlyFails reached (updateFails intact failed)
    rw [Config.acceptedSeed accepted] at refused
    exact ⟨keyOfError refused, rfl⟩

def smallest : QuickSelect Handle := ofConfig ⟨4, .float .one, maxTheta, defaultSeed, none⟩

theorem smallestReached (mode : Mode) : Reached (.stored mode) { nominal := 16 } [] smallest :=
  .begun (beginsDefaults (by decide))

/-- One item without a value, and an empty sketch is empty no more. -/
theorem failureRetains : ∃ s store, Reached (.stored .sum) { nominal := 16 } [] smallest ∧
    smallest.update (.stored .sum) (.int 1) .none .empty =
      (.error (.notNumeric "NoneType"), s, store) ∧
    smallest.census = ⟨maxTheta, 0, true⟩ ∧ s.census = ⟨maxTheta, 1, false⟩ ∧
    smallest.processed = 0 ∧ s.processed = 1 ∧ s.sample.entries ≠ smallest.sample.entries := by
  refine ⟨_, _, smallestReached .sum, Prod.ext (by decide +kernel) rfl, ?_⟩
  decide +kernel

theorem failureCommitsPriceless : ∃ s store key h,
    smallest.update (.stored .sum) (.int 1) .none .empty =
      (.error (.notNumeric "NoneType"), s, store) ∧
    keyOf defaultSeed (.int 1) = some key ∧ s.census.retained = 1 ∧
    (key, h) ∈ s.sample.entries ∧ store.read? h = some (.fresh .sum) := by
  let final := smallest.update (.stored .sum) (.int 1) .none .empty
  have failed : smallest.update (.stored .sum) (.int 1) .none .empty =
      (.error (.notNumeric "NoneType"), final.2.1, final.2.2) := Prod.ext (by decide +kernel) rfl
  obtain ⟨key, hashed⟩ : ∃ key, keyOf defaultSeed (.int 1) = some key :=
    ⟨(keyOf defaultSeed (.int 1)).getD 0, by decide +kernel⟩
  obtain ⟨commits, stored, _⟩ := failureCommits { nominal := 16 } []
  obtain ⟨_, _, _, _, strands⟩ := commits _ (smallestReached .sum) failed
  have empty : smallest.keySample.entries = [] := by decide +kernel
  obtain ⟨more, pre, post, _, entries⟩ := strands key hashed (by simp [empty]) (by decide +kernel)
  have member : (key, (⟨0⟩ : Handle)) ∈ final.2.1.sample.entries := by
    rw [entries]
    exact List.mem_append_right pre List.mem_cons_self
  refine ⟨_, _, key, _, failed, hashed, more, member, ?_⟩
  rcases (stored .sum (smallestReached .sum) failed).2 _ _ member with old | fresh
  · have bare : smallest.sample.entries = [] := by decide +kernel
    simp [bare] at old
  · exact fresh

section Refused
variable {s s' : QuickSelect σ} {item value : Datum} {key : Int}

theorem takenRoom {ops : SummaryOps ω σ} {w w' : ω} (intact : s.Intact)
    (hashed : samplingKey item s.config.seed = .ok key) (nonzero : key ≠ 0) (below : key < s.theta)
    (absent : key ∉ s.table.keySet) (ok : s.update ops item value w = (.ok (), s', w')) :
    s.table.count < pow2 s.table.lg := by
  obtain ⟨other, same, steps⟩ := updateSteps intact.table ok
  cases Except.ok.inj (hashed.symm.trans same)
  cases steps with
  | dropped outside => exact absurd outside (by simp [nonzero, below])
  | taken _ _ absorbs _ =>
    cases absorbs with
    | known replaces _ =>
      obtain ⟨pre, post, before, _⟩ := replaces.entries
      exact absurd (by simp [EntryTable.keySet, before]) absent
    | fresh _ gains _ => exact EntryTable.gainsRoom intact.table gains

theorem failsCrammed {mode : Mode} {s s' : QuickSelect Handle} {f : Fault} {x : Binary64}
    {store store' : Store} (hashed : samplingKey item s.config.seed = .ok key)
    (converted : value.toBinary64 = .ok x)
    (fails : Fails (.stored mode) s item value store f s' store') :
    f = .keyNeitherFoundNorPlaced ∧ key ≠ 0 ∧ key < s.theta ∧ key ∉ s.table.keySet ∧
      s.table.count = pow2 s.table.lg := by
  have convertible {g : Fault} : value.toBinary64 ≠ .error g := by simp [converted]
  cases fails with
  | unhashed refused => simp [hashed] at refused
  | crammed same nonzero below absent full refusal =>
    cases Except.ok.inj (hashed.symm.trans same)
    exact ⟨refusal, nonzero, below, absent, full⟩
  | known _ _ rejected => exact absurd (Store.foldRefused rejected).1 convertible
  | stranded _ _ _ _ _ rejected => exact absurd (Store.foldRefused rejected).1 convertible

end Refused

/-- An update of a tuple sketch with a key and a number is refused only for want of a slot. A
rebuilt table keeps a sixteenth of its slots free, so that takes as many values that are no
numbers; one of them is too few. -/
theorem refusedWhenFull (mode : Mode) {settings : Settings} {past : List (Datum × Datum)}
    {s : QuickSelect Handle} (reached : Reached (.stored mode) settings past s)
    {item value : Datum} {key : Int} {x : Binary64}
    (hashed : samplingKey item settings.seed = .ok key) (converted : value.toBinary64 = .ok x)
    (store : Store) :
    (∀ f, (s.update (.stored mode) item value store).1 = .error f ↔
      f = .keyNeitherFoundNorPlaced ∧ key ≠ 0 ∧ key < s.theta ∧ key ∉ s.keySample.entries ∧
        s.census.retained = pow2 s.table.lg) ∧
    (s.census.retained = pow2 s.table.lg →
      pow2 s.table.lg ≤ 16 * misfits Datum.converts settings.seed past) ∧
    (misfits Datum.converts settings.seed past ≤ 1 →
      (s.update (.stored mode) item value store).1 = .ok ()) := by
  obtain ⟨accepted, intact, _⟩ := reachedTracks reached
  rw [← Config.acceptedSeed accepted] at hashed
  have load := reachedLoad (storedAccepts mode) reached
  have filled : s.census.retained = pow2 s.table.lg →
      pow2 s.table.lg ≤ 16 * misfits Datum.converts settings.seed past := by
    intro full
    have full' : s.table.count = pow2 s.table.lg := Int.ofNat.inj full
    omega
  cases next : s.update (.stored mode) item value store with
  | mk r after =>
    cases r with
    | ok _ =>
      refine ⟨fun f => ⟨fun impossible => by simp at impossible, ?_⟩, filled, fun _ => rfl⟩
      rintro ⟨_, nonzero, below, absent, full⟩
      have room := takenRoom intact hashed nonzero below absent next
      exact absurd (Int.ofNat.inj full) room.ne
    | error g =>
      have fails := updateFails intact next
      obtain ⟨rfl, nonzero, below, absent, full⟩ := failsCrammed hashed converted fails
      refine ⟨fun f => ⟨fun same => ?_, fun crammed => crammed.1 ▸ rfl⟩, filled, fun few => ?_⟩
      · cases same
        exact ⟨rfl, nonzero, below, absent, congrArg Int.ofNat full⟩
      · have slots := startSlots intact.start
        omega

def crammingStream : List (Datum × Datum) :=
  ((List.range 30).map fun n : Nat => (.int n, .int 1)) ++ [(.int 30, .none), (.int 31, .none)]

theorem refusedAfterTwo :
    let s := (smallest.attemptAll (.stored .sum) crammingStream .empty).1
    let store := (smallest.attemptAll (.stored .sum) crammingStream .empty).2
    Reached (.stored .sum) { nominal := 16 } crammingStream s ∧
    (s.update (.stored .sum) (.int 32) (.int 1) store).1 = .error .keyNeitherFoundNorPlaced := by
  refine ⟨attemptAllReached (smallestReached .sum) crammingStream .empty, ?_⟩
  decide +kernel

theorem refusedWhenFullCrammed : ∃ s key,
    Reached (.stored .sum) { nominal := 16 } crammingStream s ∧
    samplingKey (.int 32) defaultSeed = .ok key ∧ (Datum.int 1).toBinary64 = .ok .one ∧
    ∀ store, (s.update (.stored .sum) (.int 32) (.int 1) store).1 =
      .error .keyNeitherFoundNorPlaced := by
  let s := (smallest.attemptAll (.stored .sum) crammingStream .empty).1
  have reached : Reached (.stored .sum) { nominal := 16 } crammingStream s :=
    attemptAllReached (smallestReached .sum) crammingStream .empty
  have hashed : samplingKey (.int 32) defaultSeed =
      .ok ((keyOf defaultSeed (.int 32)).getD 0) := by decide +kernel
  have converted : (Datum.int 1).toBinary64 = .ok .one := by decide +kernel
  refine ⟨s, _, reached, hashed, converted, fun store => ?_⟩
  refine ((refusedWhenFull .sum reached hashed converted store).1 _).mpr ⟨rfl, ?_⟩
  decide +kernel

end QuickSelect
end KeySampling
