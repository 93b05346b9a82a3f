import KeySampling.Proofs.KeyTable.Filling

/-! A key table and the uses that filled it, up to the last free slot. Keys weave through each
other's paths, but each stays where it was first put: a search tells where that was, and nothing
else. Stored keys and taken slots are equally many. -/
namespace KeySampling
namespace KeyTable

inductive Use where
  | insert (key : Int)
  | findOrInsert (key : Int)

def Use.key : Use → Int
  | .insert key => key
  | .findOrInsert key => key

def use (table : KeyTable) (lg : Nat) : Use → Except Fault Placement × KeyTable
  | .insert key =>
      match table.insert lg key with
      | (.error f, table) => (.error f, table)
      | (.ok slot, table) => (.ok (.placed slot), table)
  | .findOrInsert key => table.findOrInsert lg key

def useEach (table : KeyTable) (lg : Nat) : List Use → Except Fault (List Placement) × KeyTable
  | [] => (.ok [], table)
  | u :: rest =>
      match table.use lg u with
      | (.error f, table) => (.error f, table)
      | (.ok place, table) =>
          match table.useEach lg rest with
          | (.error f, table) => (.error f, table)
          | (.ok places, table) => (.ok (place :: places), table)

structure Records (table : KeyTable) (lg : Nat) (log : List (Int × Placement)) : Prop where
  reachable : table.Reachable lg
  stored : ∀ key ≠ 0, ∀ slot : Nat,
    table[slot]? = some key ↔ (log.lookup key).map Placement.slot = some slot
  taken : table.taken = (log.map Prod.fst).toFinset.card

section Log
variable {table next : KeyTable} {lg slot : Nat} {key : Int} {log : List (Int × Placement)}

theorem blankRecords (lg : Nat) : (blank lg).Records lg [] := by
  refine ⟨blankReachable lg, fun key nonzero slot => ?_, by simp [blankTaken]⟩
  simp only [blank, Array.getElem?_replicate, List.lookup_nil, Option.map_none, reduceCtorEq,
    iff_false]
  split
  · exact fun zero => nonzero (Option.some.inj zero).symm
  · simp

theorem loggedSnoc (place : Placement) (other : Int) :
    (log ++ [(key, place)]).lookup other =
      (log.lookup other).or (if other = key then some place else none) := by
  rw [List.lookup_append, List.lookup_cons]
  by_cases same : other = key
  · simp [same]
  · simp [same, beq_false_of_ne same]

theorem loggedIff (records : table.Records lg log) (nonzero : key ≠ 0) :
    key ∈ log.map Prod.fst ↔ key ∈ table := by
  constructor
  · intro logged
    obtain ⟨place, found⟩ : ∃ place, log.lookup key = some place := by
      rw [← Option.isSome_iff_exists, List.lookup_isSome_iff]
      simpa using logged
    have here := (records.stored key nonzero place.slot).mpr (by rw [found, Option.map_some])
    exact Array.mem_of_getElem? here
  · intro member
    obtain ⟨slot, here⟩ := Array.getElem?_of_mem member
    obtain ⟨place, found, _⟩ :=
      Option.map_eq_some_iff.mp ((records.stored key nonzero slot).mp here)
    obtain ⟨pre, post, rfl, _⟩ := List.lookup_eq_some_iff.mp found
    simp

theorem unlogged (records : table.Records lg log) (nonzero : key ≠ 0) (absent : key ∉ table) :
    log.lookup key = none := by
  have unseen := mt (loggedIff records nonzero).mp absent
  rw [← Option.not_isSome_iff_eq_none, List.lookup_isSome_iff]
  simpa using unseen

theorem searchLogged (records : table.Records lg log) (nonzero : key ≠ 0) :
    table.search lg key = .ok ((log.lookup key).map Placement.slot) := by
  by_cases present : key ∈ table
  · obtain ⟨slot, here⟩ := Array.getElem?_of_mem present
    rw [searchStored records.reachable here nonzero, (records.stored key nonzero slot).mp here]
  · rw [searchAbsent records.reachable.size present, unlogged records nonzero present]
    rfl

theorem foundRecords (records : table.Records lg log) (nonzero : key ≠ 0)
    (here : table[slot]? = some key) (place : Placement) :
    table.Records lg (log ++ [(key, place)]) := by
  obtain ⟨old, found, _⟩ :=
    Option.map_eq_some_iff.mp ((records.stored key nonzero slot).mp here)
  refine ⟨records.reachable, fun other nonzero' spot => ?_, ?_⟩
  · rw [records.stored other nonzero' spot, loggedSnoc]
    by_cases same : other = key
    · rw [same, found, Option.some_or]
    · rw [if_neg same, Option.or_none]
  · have logged := (loggedIff records nonzero).mpr (Array.mem_of_getElem? here)
    rw [records.taken, List.map_append, List.toFinset_append, Finset.union_eq_left.mpr]
    simpa using logged

theorem placedTaken (nonzero : key ≠ 0) (places : Places table lg key slot next) :
    next.taken = table.taken + 1 := by
  obtain ⟨inside, vacant⟩ := Array.getElem?_eq_some_iff.mp places.vacant
  rw [places.placed, taken, taken, ← Array.countP_toList, ← Array.countP_toList,
    Array.toList_setIfInBounds, List.countP_set (by simpa using inside)]
  simp [Probe.isVacant, vacant, nonzero]

theorem placedRecords (records : table.Records lg log) (nonzero : key ≠ 0)
    (places : Places table lg key slot next) :
    next.Records lg (log ++ [(key, .placed slot)]) := by
  obtain ⟨inside, _⟩ := Array.getElem?_eq_some_iff.mp places.vacant
  refine ⟨places.reachable, fun other nonzero' spot => ?_, ?_⟩
  · rw [loggedSnoc, places.placed, Array.getElem?_setIfInBounds]
    by_cases same : other = key
    · -- The new key lies in its slot and, since it was absent, in no other.
      rw [same, unlogged records nonzero places.absent, Option.none_or, if_pos rfl]
      have elsewhere : table[spot]? ≠ some key := fun here =>
        places.absent (Array.mem_of_getElem? here)
      by_cases spotted : slot = spot
      · simp [← spotted, inside, Placement.slot]
      · simp [spotted, elsewhere, Placement.slot]
    · rw [if_neg same, Option.or_none, ← records.stored other nonzero' spot]
      by_cases spotted : slot = spot
      · rw [if_pos spotted, ← spotted, if_pos inside, places.vacant]
        simp [Ne.symm same, nonzero'.symm]
      · rw [if_neg spotted]
  · have unseen := mt (loggedIff records nonzero).mp places.absent
    rw [placedTaken nonzero places, records.taken, List.map_append, List.toFinset_append,
      Finset.card_union_of_disjoint (by simpa using unseen)]
    rfl

theorem useRecords {u : Use} {place : Placement} (records : table.Records lg log)
    (nonzero : u.key ≠ 0) (new : ∀ key, u = .insert key → key ∉ log.map Prod.fst)
    (ok : table.use lg u = (.ok place, next)) :
    next.Records lg (log ++ [(u.key, place)]) ∧
      ((∃ slot, place = .found slot) ↔ u.key ∈ log.map Prod.fst) := by
  cases u with
  | insert key =>
    have unseen := new key rfl
    simp only [use] at ok
    split at ok
    · simp at ok
    · rename_i slot after placed
      simp only [Prod.mk.injEq, Except.ok.injEq] at ok
      obtain ⟨rfl, rfl⟩ := ok
      have absent := mt (loggedIff records nonzero).mpr unseen
      have places := insertPlaces records.reachable absent placed
      exact ⟨placedRecords records nonzero places, by simpa [Use.key] using unseen⟩
  | findOrInsert key =>
    rcases findOrInsertPlaces records.reachable nonzero ok with
      ⟨slot, rfl, here, rfl⟩ | ⟨slot, rfl, places⟩
    · have logged := (loggedIff records nonzero).mpr (Array.mem_of_getElem? here)
      exact ⟨foundRecords records nonzero here _, by simpa [Use.key] using logged⟩
    · have unseen := mt (loggedIff records nonzero).mp places.absent
      exact ⟨placedRecords records nonzero places, by simpa [Use.key] using unseen⟩

end Log

theorem useEachRecords {table next : KeyTable} {lg : Nat} {log : List (Int × Placement)}
    {uses : List Use} {places : List Placement} (records : table.Records lg log)
    (nonzero : ∀ u ∈ uses, u.key ≠ 0)
    (new : ∀ pre key post, uses = pre ++ .insert key :: post →
      key ∉ log.map Prod.fst ++ pre.map Use.key)
    (ok : table.useEach lg uses = (.ok places, next)) :
    places.length = uses.length ∧ next.Records lg (log ++ (uses.map Use.key).zip places) ∧
      ∀ pre u post, uses = pre ++ u :: post →
        ((∃ slot, places[pre.length]? = some (.found slot)) ↔
          u.key ∈ log.map Prod.fst ++ pre.map Use.key) := by
  induction uses generalizing table log places with
  | nil =>
    simp only [useEach, Prod.mk.injEq, Except.ok.injEq] at ok
    obtain ⟨rfl, rfl⟩ := ok
    exact ⟨rfl, by simpa using records, by simp⟩
  | cons first rest ih =>
    simp only [useEach] at ok
    split at ok
    · simp at ok
    rename_i place mid used
    split at ok
    · simp at ok
    rename_i others after run
    simp only [Prod.mk.injEq, Except.ok.injEq] at ok
    obtain ⟨rfl, rfl⟩ := ok
    obtain ⟨recorded, here⟩ := useRecords records (nonzero first (by simp))
      (fun key same => by simpa using new [] key rest (by rw [same]; rfl)) used
    obtain ⟨length, recorded', later⟩ := ih recorded (fun u member => nonzero u (by simp [member]))
      (fun pre key post same => by simpa using new (first :: pre) key post (by rw [same]; rfl)) run
    refine ⟨congrArg Nat.succ length, by simpa using recorded', fun pre u post same => ?_⟩
    cases pre with
    | nil =>
      obtain ⟨rfl, rfl⟩ := List.cons.inj same
      simpa using here
    | cons head pre =>
      obtain ⟨rfl, rfl⟩ := List.cons.inj same
      simpa using later pre u post rfl

/-- After any uses of a fresh table of 2^lg slots that succeed, the inserted keys being new each
time, a search finds a key in the slot where it was first put, and finds no other key. A use has
found its key just when the key was there before it, and as many slots are taken as there are
keys. -/
theorem firstPlaceKept (lg : Nat) {uses : List Use} {places : List Placement} {table : KeyTable}
    (nonzero : ∀ u ∈ uses, u.key ≠ 0)
    (new : ∀ pre key post, uses = pre ++ .insert key :: post → key ∉ pre.map Use.key)
    (ok : (blank lg).useEach lg uses = (.ok places, table)) :
    (∀ key ≠ 0, table.search lg key =
      .ok ((((uses.map Use.key).zip places).lookup key).map Placement.slot)) ∧
    (∀ pre u post, uses = pre ++ u :: post →
      ((∃ slot, places[pre.length]? = some (.found slot)) ↔ u.key ∈ pre.map Use.key)) ∧
    table.taken = (uses.map Use.key).toFinset.card := by
  obtain ⟨length, records, found⟩ :=
    useEachRecords (blankRecords lg) nonzero (by simpa using new) ok
  rw [List.nil_append] at records
  refine ⟨fun key nonzero => searchLogged records nonzero, by simpa using found, ?_⟩
  rw [records.taken, List.map_fst_zip (by rw [List.length_map, length])]

def fullUses : List Use := [.insert 5, .findOrInsert (-3), .findOrInsert 5]

theorem firstPlaceKeptFull : ∃ table,
    (blank 1).useEach 1 fullUses = (.ok [.placed 1, .placed 0, .found 1], table) ∧
      table.taken = 2 ∧ table.search 1 (-3) = .ok (some 0) ∧ table.search 1 5 = .ok (some 1) ∧
      table.search 1 7 = .ok none := by
  have ok : (blank 1).useEach 1 fullUses =
      (.ok [.placed 1, .placed 0, .found 1], ((blank 1).useEach 1 fullUses).2) :=
    Prod.ext (by decide +kernel) rfl
  have new : ∀ pre key post, fullUses = pre ++ .insert key :: post → key ∉ pre.map Use.key := by
    intro pre key post same
    match pre with
    | [] => simp
    | [_] | [_, _] | [_, _, _] | _ :: _ :: _ :: _ :: _ => simp [fullUses] at same
  obtain ⟨found, _, taken⟩ := firstPlaceKept 1 (by decide) new ok
  exact ⟨_, ok, taken, found _ (by decide), found _ (by decide), found _ (by decide)⟩

end KeyTable
end KeySampling
