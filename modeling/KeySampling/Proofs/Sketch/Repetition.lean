import KeySampling.Proofs.Sketch.Outline

/-! What repeated items change. If the key of an item came before, it is retained, or theta has come
down to it since, or it was never below theta. In each case the table stays as it is, and since it
was not crowded before, no room is made. -/
namespace KeySampling

/-- A stream, and the same stream with more items put in whose keys had come before them. -/
inductive Repeats (seed : Int) : List Datum → List Datum → Prop
  | nil : Repeats seed [] []
  | item {few many : List Datum} (repeats : Repeats seed few many) (item : Datum) :
      Repeats seed (few ++ [item]) (many ++ [item])
  | again {few many : List Datum} {earlier item : Datum} {key : Int}
      (repeats : Repeats seed few many) (member : earlier ∈ many)
      (seen : samplingKey earlier seed = .ok key) (hashed : samplingKey item seed = .ok key) :
      Repeats seed few (many ++ [item])

section Repeats
variable {seed : Int} {few many : List Datum}

theorem repeatsAppend (repeats : Repeats seed few many) (rest : List Datum) :
    Repeats seed (few ++ rest) (many ++ rest) := by
  induction rest using List.reverseRecOn with
  | nil => simpa using repeats
  | append_singleton rest item ih => simpa using ih.item item

theorem repeatsSelf (stream : List Datum) : Repeats seed stream stream :=
  repeatsAppend .nil stream

theorem repeatsMore (repeats : Repeats seed few many) {more : List Datum}
    (seen : ∀ item ∈ more, ∃ earlier ∈ many, ∃ key,
      samplingKey earlier seed = .ok key ∧ samplingKey item seed = .ok key) :
    Repeats seed few (many ++ more) := by
  induction more using List.reverseRecOn with
  | nil => simpa using repeats
  | append_singleton more item ih =>
    obtain ⟨earlier, member, key, first, hashed⟩ := seen item (by simp)
    rw [← List.append_assoc]
    exact (ih fun other inside => seen other (by simp [inside])).again
      (List.mem_append_left _ member) first hashed

theorem hashesOk {item : Datum} {key : Int} (hashed : samplingKey item seed = .ok key) :
    hashes seed item = .ok () := by
  rw [hashes, hashed]
  rfl

theorem repeatsHashed (repeats : Repeats seed few many)
    (hashed : ∀ item ∈ few, hashes seed item = .ok ()) :
    ∀ item ∈ many, hashes seed item = .ok () := by
  induction repeats with
  | nil => simp
  | item _ item ih =>
    rw [List.forall_mem_append] at hashed ⊢
    exact ⟨ih hashed.1, hashed.2⟩
  | again _ _ _ same ih =>
    rw [List.forall_mem_append, List.forall_mem_singleton]
    exact ⟨ih hashed, hashesOk same⟩

theorem repeatsNil (repeats : Repeats seed few many) : few = [] ↔ many = [] := by
  induction repeats with
  | nil => exact Iff.rfl
  | item _ _ _ => simp
  | again _ member _ _ ih => simp [ih, List.ne_nil_of_mem member]

end Repeats

namespace QuickSelect
variable {ω σ : Type}

theorem slotForKnown (ops : SummaryOps ω σ) {t : EntryTable σ} {key : Int} (wf : t.WellFormed)
    (fits : fitsSigned64 key = true) (member : key ∈ t.keySet) (w : ω) :
    ∃ slot, slotFor ops key w t = (.ok slot, t, w) ∧ t.keys[slot]? = some key := by
  have nonzero := EntryTable.keyNonzero wf member
  cases found : slotFor ops key w t with
  | mk r after =>
    obtain ⟨mid, w'⟩ := after
    cases r with
    | error f => exact absurd member (slotForFails wf fits found).2.2.2.1
    | ok slot =>
      cases slotForLocated wf nonzero found with
      | known stored => exact ⟨slot, rfl, stored⟩
      | fresh absent _ _ _ => exact absurd member absent

theorem foldAtKnown {t : EntryTable Unit} {key : Int} {slot : Nat} (wf : t.WellFormed)
    (nonzero : key ≠ 0) (stored : t.keys[slot]? = some key) (value : Datum) (w : ω) :
    foldAt .keysOnly slot value t w = (.ok (), t, w) := by
  have occupied := mt (wf.paired slot key stored).mpr nonzero
  obtain ⟨_, held⟩ := Option.ne_none_iff_exists'.mp occupied
  have bound := EntryTable.slotBound wf stored
  have here : t.summaries[slot] = some () := by simpa [EntryTable.summaryAt?, bound] using held
  have same : t.summaries.setIfInBounds slot (some ()) = t.summaries := by
    rw [← here, Array.setIfInBounds, dif_pos bound, Array.set_getElem_self]
  simp [foldAt, held, SummaryOps.keysOnly, EntryTable.setSummary, same]

theorem settleCalm {s : QuickSelect σ} (calm : s.crowded = false) : s.settle = (.ok (), s) := by
  unfold crowded at calm
  unfold settle
  split at calm <;> simp_all

theorem receiveKnown {s : QuickSelect Unit} {key : Int} (wf : s.table.WellFormed)
    (calm : s.crowded = false) (fits : fitsSigned64 key = true) (member : key ∈ s.table.keySet)
    (value : Datum) (w : ω) : s.receive .keysOnly key value w = (.ok (), s, w) := by
  obtain ⟨slot, found, stored⟩ := slotForKnown .keysOnly wf fits member w
  have folded := foldAtKnown wf (EntryTable.keyNonzero wf member) stored value w
  have settled := settleCalm calm
  obtain ⟨config, theta, table, empty, processed⟩ := s
  simp only [receive, found, folded, settled]

theorem updateAgain {s : QuickSelect Unit} {initial key : Int} {past : List (Datum × Datum)}
    {item : Datum} (sampling : s.Sampling initial past)
    (hashed : samplingKey item s.config.seed = .ok key) (seen : key ∈ keysOf s.config.seed past)
    (value : Datum) (w : ω) : s.update .keysOnly item value w = (.ok (), s.noted, w) := by
  simp only [updateNoted, hashed]
  split
  · rfl
  · rename_i inside
    rw [not_or, not_le] at inside
    -- What came before and is still below theta is retained.
    have member := (sampling.retains.keys key).mpr ⟨inside.1, seen, inside.2⟩
    have bounds := samplingKeyRange hashed
    exact receiveKnown (s := s.noted) sampling.retains.table sampling.roomy.calm
      (keyFits bounds.1 bounds.2) member value w

def bareItems (items : List Datum) : List (Datum × Datum × Unit) :=
  items.map fun item => (item, .none, ())

section Run
variable {settings : Settings} {s : QuickSelect Unit}

theorem bareSnoc (s : QuickSelect Unit) (items : List Datum) (item : Datum) :
    (s.attemptEach .keysOnly (bareItems (items ++ [item]))).2 =
      ((s.attemptEach .keysOnly (bareItems items)).2.update .keysOnly item .none ()).2.1 := by
  rw [bareItems, List.map_append, List.map_singleton, attemptEachSnoc]
  rfl

theorem bareReached (begins : Begins settings s) (items : List Datum) :
    Reached (.keysOnly : SummaryOps Unit Unit) settings (pairsOf (bareItems items))
      (s.attemptEach .keysOnly (bareItems items)).2 :=
  attemptEachReached .keysOnly begins (bareItems items)

theorem bareHashed {seed : Int} {items : List Datum}
    (hashed : ∀ item ∈ items, hashes seed item = .ok ()) :
    ∀ u ∈ bareItems items, hashes seed u.1 = .ok () :=
  List.forall_mem_map.mpr hashed

theorem bareSeen {seed key : Int} {items : List Datum} {earlier : Datum}
    (member : earlier ∈ items) (seen : samplingKey earlier seed = .ok key) :
    key ∈ keysOf seed (pairsOf (bareItems items)) := by
  refine List.mem_filterMap.mpr ⟨(earlier, .none), ?_, keyOfOk seen⟩
  simpa [pairsOf, bareItems] using member

theorem repeatsAlike (begins : Begins settings s) {few many : List Datum}
    (repeats : Repeats settings.seed few many)
    (hashed : ∀ item ∈ few, hashes settings.seed item = .ok ()) :
    (s.attemptEach .keysOnly (bareItems many)).2.outline =
      (s.attemptEach .keysOnly (bareItems few)).2.outline := by
  induction repeats with
  | nil => rfl
  | item _ item ih =>
    rw [List.forall_mem_append] at hashed
    rw [bareSnoc, bareSnoc]
    exact (updateAlike (ih hashed.1) (keysOnlyTakes _) (keysOnlyTakes _) item () ()).2
  | @again few many earlier item key repeats member seen same ih =>
    have sampling := keysOnlySampling begins (bareHashed (repeatsHashed repeats hashed))
    have seed := Config.acceptedSeed (reachedTracks (bareReached begins many)).accepted
    rw [← seed] at same seen
    rw [bareSnoc, updateAgain sampling same (bareSeen member seen)]
    exact ih hashed

end Run

theorem attemptEachBare (ops : SummaryOps ω σ) {settings : Settings} {config : Config}
    (accepted : Config.ofSettings settings = .ok config) {given : List (Datum × Datum × ω)}
    (takes : ∀ u ∈ given, ops.Takes u.2.1) :
    ((ofConfig config : QuickSelect σ).attemptEach ops given).1 =
        given.map (fun u => hashes settings.seed u.1) ∧
      ((ofConfig config : QuickSelect σ).attemptEach ops given).2.outline =
        ((ofConfig config).attemptEach .keysOnly (bareItems (given.map Prod.fst))).2.outline := by
  have alike : (ofConfig config : QuickSelect σ).outline =
      (ofConfig config : QuickSelect Unit).outline :=
    beginsAlike (beginsAccepted accepted) (beginsAccepted accepted)
  have items : given.map Prod.fst = (bareItems (given.map Prod.fst)).map Prod.fst := by
    simp [bareItems]
  have bareTakes : ∀ u ∈ bareItems (given.map Prod.fst),
      (SummaryOps.keysOnly : SummaryOps Unit Unit).Takes u.2.1 := fun u _ => keysOnlyTakes u.2.1
  obtain ⟨outcomes, outlines⟩ := attemptEachAlike alike items takes bareTakes
  refine ⟨?_, outlines⟩
  rw [outcomes, keysOnlyOutcomes (beginsAccepted accepted)]
  simp [bareItems]

theorem repeatsFootprint (ops : SummaryOps ω σ) {settings : Settings} {s : QuickSelect σ}
    (begins : Begins settings s) {few many : List (Datum × Datum × ω)}
    (repeats : Repeats settings.seed (few.map Prod.fst) (many.map Prod.fst))
    (hashed : ∀ u ∈ few, hashes settings.seed u.1 = .ok ())
    (takes : ∀ u ∈ few ++ many, ops.Takes u.2.1) :
    (∀ r ∈ (s.attemptEach ops few).1 ++ (s.attemptEach ops many).1, r = .ok ()) ∧
      (s.attemptEach ops many).2.footprint =
        { (s.attemptEach ops few).2.footprint with processed := many.length } := by
  rw [List.forall_mem_append] at takes
  have items : ∀ item ∈ few.map Prod.fst, hashes settings.seed item = .ok () := by
    simpa using hashed
  have more := repeatsHashed repeats items
  have reached := attemptEachReached ops begins few
  have reached' := attemptEachReached ops begins many
  have empty := reachedEmpty reached' reached (by
    simpa [pairsOf] using (repeatsNil repeats).symm)
  have processed := (reachedTracks reached').processed
  obtain ⟨config, accepted, rfl⟩ := beginsOfConfig begins
  obtain ⟨outcomes, outline⟩ := attemptEachBare ops accepted takes.1
  obtain ⟨outcomes', outline'⟩ := attemptEachBare ops accepted takes.2
  have alike := repeatsAlike (beginsAccepted accepted) repeats items
  rw [← outline, ← outline'] at alike
  refine ⟨?_, ?_⟩
  · rw [outcomes, outcomes', List.forall_mem_append, List.forall_mem_map, List.forall_mem_map]
    exact ⟨hashed, by simpa using more⟩
  · rw [footprintAlike alike empty, processed, pairsOf, List.length_map]

/-- Repeated items change nothing but the number of processed items. In a theta sketch, and in a
tuple sketch whose values convert, each key has the slot that it has without them, and theta, the
size of the table and the number of retained keys are the same. -/
theorem repeatsIgnored {settings : Settings} {few many : List Datum}
    (repeats : Repeats settings.seed few many)
    (hashed : ∀ item ∈ few, ∃ key, samplingKey item settings.seed = .ok key) :
    (∀ s : QuickSelect Unit, Begins settings s →
      let short := s.attemptEach .keysOnly (bareItems few)
      let long := s.attemptEach .keysOnly (bareItems many)
      (∀ r ∈ short.1 ++ long.1, r = .ok ()) ∧
        long.2.footprint = { short.2.footprint with processed := many.length }) ∧
    ∀ (mode : Mode) (s : QuickSelect Handle), Begins settings s →
      ∀ given given' : List (Datum × Datum × Store), given.map Prod.fst = few →
        given'.map Prod.fst = many → (∀ u ∈ given ++ given', u.2.1.converts = true) →
      let short := s.attemptEach (.stored mode) given
      let long := s.attemptEach (.stored mode) given'
      (∀ r ∈ short.1 ++ long.1, r = .ok ()) ∧
        long.2.footprint = { short.2.footprint with processed := many.length } := by
  have outcomes : ∀ item ∈ few, hashes settings.seed item = .ok () := fun item member =>
    have ⟨_, key⟩ := hashed item member
    hashesOk key
  constructor
  · intro s begins
    have items (stream : List Datum) : (bareItems stream).map Prod.fst = stream := by
      simp [bareItems, Function.comp_def]
    rw [← items few, ← items many] at repeats
    rw [← items few, List.forall_mem_map] at outcomes
    have print := repeatsFootprint .keysOnly begins repeats outcomes fun u _ => keysOnlyTakes u.2.1
    simpa only [bareItems, List.length_map] using print
  · rintro mode s begins given given' rfl rfl converts
    rw [List.forall_mem_map] at outcomes
    have print := repeatsFootprint (.stored mode) begins repeats outcomes fun u member =>
      acceptsTakes (storedAccepts mode) (converts u member)
    simpa only [List.length_map] using print

def repeatedItems : List Datum :=
  (List.range 4).map fun n : Nat => .bytes [UInt8.ofNat n, 0, 0, 0, 0, 0, 0, 0]

theorem repeatedAgain : Repeats defaultSeed (crowd.map Prod.fst ++ [.int 31])
    (crowd.map Prod.fst ++ repeatedItems ++ [.int 31]) := by
  have again : ∀ n ∈ List.range 4,
      samplingKey (.int n) defaultSeed = .ok ((keyOf defaultSeed (.int n)).getD 0) ∧
      samplingKey (.bytes [UInt8.ofNat n, 0, 0, 0, 0, 0, 0, 0]) defaultSeed =
        .ok ((keyOf defaultSeed (.int n)).getD 0) := by decide +kernel
  refine repeatsAppend (repeatsMore (repeatsSelf _) fun item member => ?_) [.int 31]
  obtain ⟨n, small, rfl⟩ := List.mem_map.mp member
  have earlier : Datum.int n ∈ crowd.map Prod.fst := by
    rw [crowd, List.map_map]
    exact List.mem_map.mpr ⟨n, List.range_subset.mpr (by decide : 4 ≤ 31) small, rfl⟩
  exact ⟨.int n, earlier, _, again n small⟩

/-- The repetitions come when theta has been lowered. -/
theorem repeatsIgnoredCrowd : ∃ s : QuickSelect Unit, Begins { nominal := 16 } s ∧
    (s.attemptEach .keysOnly (bareItems (crowd.map Prod.fst))).2.theta ≠ s.theta ∧
    (s.attemptEach .keysOnly
      (bareItems (crowd.map Prod.fst ++ repeatedItems ++ [.int 31]))).2.footprint =
      { (s.attemptEach .keysOnly (bareItems (crowd.map Prod.fst ++ [.int 31]))).2.footprint with
        processed := 36 } := by
  obtain ⟨s, begins, whole⟩ := sixteenBegin none
  have hashed : ∀ item ∈ crowd.map Prod.fst, ∃ key, samplingKey item defaultSeed = .ok key :=
    List.forall_mem_map.mpr crowdHashed
  have sampling := keysOnlySampling begins (bareHashed fun item member =>
    have ⟨_, key⟩ := hashed item member
    hashesOk key)
  rw [whole] at sampling
  have accepted := (reachedTracks (bareReached begins (crowd.map Prod.fst))).accepted
  have moved := crowdMoves accepted sampling (by decide +kernel)
  rw [← whole] at moved
  have keyed : ∀ item ∈ crowd.map Prod.fst ++ [.int 31],
      ∃ key, samplingKey item defaultSeed = .ok key := by
    rw [List.forall_mem_append, List.forall_mem_singleton]
    exact ⟨hashed, _, (by decide +kernel :
      samplingKey (.int 31) defaultSeed = .ok ((keyOf defaultSeed (.int 31)).getD 0))⟩
  have repeats : Repeats ({ nominal := 16 } : Settings).seed (crowd.map Prod.fst ++ [.int 31])
      (crowd.map Prod.fst ++ repeatedItems ++ [.int 31]) := repeatedAgain
  have print := ((repeatsIgnored repeats keyed).1 s begins).2
  have counted : (crowd.map Prod.fst ++ repeatedItems ++ [Datum.int 31]).length = 36 := by
    decide +kernel
  rw [counted] at print
  exact ⟨s, begins, moved, print⟩

end QuickSelect
end KeySampling
