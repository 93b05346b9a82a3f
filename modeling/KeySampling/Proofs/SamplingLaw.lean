import KeySampling.Proofs.Sketch.Interleaving
import KeySampling.Proofs.Intersection.Result

/-! From streams to the intersection of their sketches. Whatever each sketch did to make room, the
intersection holds the keys that all streams have below the least theta, each with the values that
every stream gave to it. -/
namespace KeySampling
namespace QuickSelect

theorem faithfulProper {store : Store} {mode : Mode} {seed : Int} {s : QuickSelect Handle}
    {past : List (Datum × Datum)} (faithful : Faithful store mode seed s past) :
    Call.Proper Store.read? store (.update (.tuples tupleKind s.sample)) := by
  have wf := faithful.retains.table
  refine .tuples ⟨?_, EntryTable.keysNodup wf, ?_, faithful.theta⟩ ?_
  · rw [List.length_map]
    exact congrArg Int.ofNat wf.counted
  · intro key member
    obtain ⟨nonzero, seen, below⟩ := (faithful.retains.keys key).mp member
    have range := keyInRange seen
    exact ⟨lt_of_le_of_ne range.1 nonzero.symm, below⟩
  · intro e member
    obtain ⟨x, read, _⟩ := faithful.owns.contents e.1 e.2 member
    exact ⟨x, read⟩

theorem faithfulSummary {store : Store} {mode : Mode} {seed key : Int} {s : QuickSelect Handle}
    {past : List (Datum × Datum)} (faithful : Faithful store mode seed s past)
    (member : key ∈ s.table.keySet) :
    ∃ x, Summary.Folds mode (valuesFor seed key past) x ∧
      (s.sample.entries.lookup key).bind store.read? = some x := by
  obtain ⟨h, found⟩ := (lookupKey s.sample.entries).mpr member
  obtain ⟨x, read, folds⟩ := faithful.owns.contents key h (lookupMember found)
  exact ⟨x, folds, by simp [found, read]⟩

section Family
variable {n : Nat} {modes : Fin (n + 1) → Mode} {seed : Int} {store : Store}
  {sketches : Fin (n + 1) → QuickSelect Handle} {turns : List (Fin (n + 1) × Datum × Datum)}

def offered (sketches : Fin (n + 1) → QuickSelect Handle) : List (Call Handle) :=
  List.ofFn fun i => .update (.tuples tupleKind (sketches i).sample)

theorem offeredMember (i : Fin (n + 1)) :
    Call.update (.tuples tupleKind (sketches i).sample) ∈ offered sketches :=
  List.mem_ofFn.mpr ⟨i, rfl⟩

theorem offeredKeys (key : Int) :
    (∀ c ∈ offered sketches, key ∈ c.keys) ↔ ∀ i, key ∈ (sketches i).table.keySet := by
  constructor
  · exact fun every i => every _ (offeredMember i)
  · intro every c member
    obtain ⟨i, rfl⟩ := List.mem_ofFn.mp member
    exact every i

theorem offeredTheta (bounded : ∀ i, (sketches i).theta ≤ maxTheta) :
    (∀ i, Call.thetaSince (offered sketches) ≤ (sketches i).theta) ∧
      ∃ i, Call.thetaSince (offered sketches) = (sketches i).theta := by
  have present : ∀ c ∈ offered sketches, c.absent = false := by
    intro c member
    obtain ⟨i, rfl⟩ := List.mem_ofFn.mp member
    rfl
  have least (i : Fin (n + 1)) : Call.thetaSince (offered sketches) ≤ (sketches i).theta :=
    Call.thetaSinceLe present _ (offeredMember i)
  refine ⟨least, ?_⟩
  rcases Call.thetaSinceReached present with top | reached
  · exact ⟨0, le_antisymm (least 0) (top ▸ bounded 0)⟩
  · obtain ⟨c, member, same⟩ := reached
    obtain ⟨i, rfl⟩ := List.mem_ofFn.mp member
    exact ⟨i, same⟩

theorem offeredProper (all : AllFaithful store modes seed sketches turns) :
    ∀ c ∈ offered sketches, c.Proper Store.read? store := by
  intro c member
  obtain ⟨i, rfl⟩ := List.mem_ofFn.mp member
  exact faithfulProper (all.each i)

theorem offeredOutcome (all : AllFaithful store modes seed sketches turns) {key : Int}
    (every : ∀ i, key ∈ (sketches i).table.keySet) (join : Summary → Summary → Summary) :
    ∃ xs : Fin (n + 1) → Summary,
      (∀ i, Summary.Folds (modes i) (valuesFor seed key (streamOf i turns)) (xs i)) ∧
      Call.outcome join Store.read? store key (offered sketches) =
        some ((List.ofFn fun i : Fin n => xs i.succ).foldl join (xs 0)) := by
  choose xs folds held using fun i => faithfulSummary (all.each i) (every i)
  exact ⟨xs, folds, Call.outcomeFold held⟩

theorem retainedEverywhere (all : AllFaithful store modes seed sketches turns) {theta : Int}
    (least : ∀ i, theta ≤ (sketches i).theta) (key : Int) :
    (key < theta ∧ ∀ i, key ∈ (sketches i).table.keySet) ↔
      key ≠ 0 ∧ (∀ i, key ∈ keysOf seed (streamOf i turns)) ∧ key < theta := by
  have each (i : Fin (n + 1)) := (all.each i).retains.keys key
  simp only [(all.each _).seeded] at each
  constructor
  · intro inside
    exact ⟨((each 0).mp (inside.2 0)).1, fun i => ((each i).mp (inside.2 i)).2.1, inside.1⟩
  · intro inside
    exact ⟨inside.2.2, fun i =>
      (each i).mpr ⟨inside.1, inside.2.1 i, lt_of_lt_of_le inside.2.2 (least i)⟩⟩

end Family

/-- Sketches of any sizes, probabilities and modes that hash with one seed, each after its own
stream, have an intersection. Its theta is the least of theirs, its keys are those below it that
every stream has, and the summary of a key is joined from what each stream gave to it. -/
theorem samplingLaw {n : Nat} {settings : Fin (n + 1) → Settings} {modes : Fin (n + 1) → Mode}
    {seed : Int} {start sketches : Fin (n + 1) → QuickSelect Handle} {store store' : Store}
    {turns : List (Fin (n + 1) × Datum × Datum)} {policy : Policy Store Handle}
    {join : Summary → Summary → Summary} (begins : ∀ i, Begins (settings i) (start i))
    (shared : ∀ i, (settings i).seed = seed)
    (fed : feedAll modes start turns store = (.ok (), sketches, store'))
    (joins : policy.Joins Store.read? join) (mode : Mode) :
    ∃ c final, intersect (.stored mode) policy
        (List.ofFn fun i => .tuples tupleKind (sketches i).sample) store' = (.ok c, final) ∧
      (∀ i, c.theta ≤ (sketches i).theta) ∧ (∃ i, c.theta = (sketches i).theta) ∧
      (c.entries.map Prod.fst).Nodup ∧
      (∀ key, key ∈ c.entries.map Prod.fst ↔
        key ≠ 0 ∧ (∀ i, key ∈ keysOf seed (streamOf i turns)) ∧ key < c.theta) ∧
      ∀ key h, (key, h) ∈ c.entries → ∃ xs : Fin (n + 1) → Summary,
        (∀ i, Summary.Folds (modes i) (valuesFor seed key (streamOf i turns)) (xs i)) ∧
        final.read? h = some ((List.ofFn fun i : Fin n => xs i.succ).foldl join (xs 0)) := by
  have all := feedAllFaithful (beginAllFaithful begins shared store) fed
  rw [List.nil_append] at all
  obtain ⟨x, w, run, computes⟩ := Intersection.giveAllComputes (storedCopies mode) joins
    (Intersection.universalComputes Store.read? join store') (offeredProper all)
  rw [List.nil_append] at computes
  obtain ⟨c, ok, reports⟩ := Intersection.resultReports (storedCopies mode) computes
    (List.ne_nil_of_mem (offeredMember 0))
  obtain ⟨least, reached⟩ := offeredTheta fun i => (all.each i).theta
  rw [← reports.theta] at least reached
  have keys (key : Int) : key ∈ c.entries.map Prod.fst ↔
      key < c.theta ∧ ∀ i, key ∈ (sketches i).table.keySet := by
    rw [reports.keys, offeredKeys]
  have ended : intersect (.stored mode) policy
      (List.ofFn fun i => .tuples tupleKind (sketches i).sample) store' =
        (.ok c, (x.result (.stored mode) w).2) := by
    have same : (List.ofFn fun i => Operand.tuples tupleKind (sketches i).sample).map Call.update =
        offered sketches := by
      rw [List.map_ofFn]
      rfl
    simp only [intersect, Intersection.updateAllGiven, same, run]
    exact Prod.ext ok rfl
  refine ⟨c, _, ended, least, reached, reports.nodup, fun key => ?_, fun key h member => ?_⟩
  · rw [keys, retainedEverywhere all least]
  · have every := ((keys key).mp (List.mem_map_of_mem (f := Prod.fst) member)).2
    obtain ⟨xs, folds, outcome⟩ := offeredOutcome all every join
    obtain ⟨y, said, read⟩ := reports.contents (key, h) member
    dsimp only at said
    rw [outcome] at said
    exact ⟨xs, folds, read.trans said.symm⟩

def commonTurns : List (Fin 2 × Datum × Datum) :=
  [(0, .int 1, .int 5), (1, .int 1, .int 7), (0, .int 2, .int 6), (0, .int 1, .int 8),
    (1, .int 3, .int 9)]

theorem samplingLawCommon : ∃ (start sketches : Fin 2 → QuickSelect Handle) (store : Store),
    (∀ i, Begins { nominal := 16 } (start i)) ∧
    feedAll (fun i => if i = 0 then .sum else .max) start commonTurns .empty =
      (.ok (), sketches, store) ∧
    ∃ c final, intersect (.stored .sum) (.stored (Summary.combine .min))
        (List.ofFn fun i => .tuples tupleKind (sketches i).sample) store = (.ok c, final) ∧
      c.theta = maxTheta ∧
      ∃ key h, (key, h) ∈ c.entries ∧ ∃ xs : Fin 2 → Summary,
        (∀ i, Summary.Folds (if i = 0 then .sum else .max)
          (valuesFor defaultSeed key (streamOf i commonTurns)) (xs i)) ∧
        final.read? h = some (Summary.combine .min (xs 0) (xs 1)) := by
  let config : Config := ⟨4, .float .one, maxTheta, defaultSeed, none⟩
  let modes : Fin 2 → Mode := fun i => if i = 0 then .sum else .max
  have begins (i : Fin 2) : Begins { nominal := 16 } (ofConfig config : QuickSelect Handle) :=
    beginsDefaults (by decide)
  let final := feedAll modes (fun _ => ofConfig config) commonTurns .empty
  have fed : feedAll modes (fun _ => ofConfig config) commonTurns .empty =
      (.ok (), final.2.1, final.2.2) := Prod.ext (by decide +kernel) rfl
  obtain ⟨c, store, ok, _, ⟨i, reached⟩, _, keys, contents⟩ := samplingLaw begins (fun _ => rfl)
    fed (storedJoins (Summary.combine .min)) .sum
  have top : ∀ i, (final.2.1 i).theta = maxTheta := by decide +kernel
  have common : ∃ key, key ≠ 0 ∧ (∀ i, key ∈ keysOf defaultSeed (streamOf i commonTurns)) ∧
      key < maxTheta := ⟨(keyOf defaultSeed (.int 1)).getD 0, by decide +kernel⟩
  obtain ⟨key, nonzero, seen, below⟩ := common
  have theta : c.theta = maxTheta := reached.trans (top i)
  obtain ⟨⟨_, h⟩, member, rfl⟩ := List.mem_map.mp ((keys key).mpr ⟨nonzero, seen, theta ▸ below⟩)
  exact ⟨_, _, _, begins, fed, c, store, ok, theta, _, h, member, contents _ h member⟩

end QuickSelect
end KeySampling
