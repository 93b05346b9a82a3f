import KeySampling.Proofs.KeyTable.Mapping
import KeySampling.Proofs.Sketch.Selection
import KeySampling.Proofs.Sketch.Stranding

/-! What an update goes by. It looks at its item, at theta and at the keys of the table; a value
only ever goes into a summary, and no summary is looked at. So sketches that differ in their
summaries alone stay alike while they are given the same items, whether a summary counts, adds up
or is no summary at all. -/
namespace KeySampling
namespace QuickSelect
variable {ω σ τ υ : Type}

/-- A sketch less its summaries, its counts and the settings that no update looks at. -/
def outline (s : QuickSelect σ) : QuickSelect Unit :=
  ⟨⟨s.config.lgNominal, .none, 0, s.config.seed, none⟩, s.theta, s.table.map fun _ => (), false, 0⟩

section Outline
variable (s : QuickSelect σ)

theorem rehashOutline (lg : Nat) :
    s.outline.rehash lg = ((s.rehash lg).1, (s.rehash lg).2.outline) := by
  simp only [rehash, outline, EntryTable.mapRehash]
  cases s.table.rehash lg s.theta <;> rfl

theorem rebuildOutline : s.outline.rebuild = (s.rebuild.1, s.rebuild.2.outline) := by
  have keys : (s.table.map fun _ => ()).entries.map Prod.fst = s.table.entries.map Prod.fst :=
    EntryTable.mapKeySet (fun _ => ()) s.table
  rw [rebuild, rebuild, ← rehashOutline]
  simp only [outline, keys]
  rfl

theorem settleOutline : s.outline.settle = (s.settle.1, s.settle.2.outline) := by
  have grown : s.outline.grow = (s.grow.1, s.grow.2.outline) := rehashOutline s _
  have rebuilt := rebuildOutline s
  unfold settle
  -- An outline keeps size and count, so it makes room just when the sketch does.
  change (if s.table.lg < s.config.lgLargest then
      if growLoad.exceededBy s.table.count (pow2 s.table.lg) then s.outline.grow
      else (.ok (), s.outline)
    else if rebuildLoad.exceededBy s.table.count (pow2 s.table.lg) then s.outline.rebuild
    else (.ok (), s.outline)) = _
  split <;> split
  · exact grown
  · rfl
  · exact rebuilt
  · rfl

end Outline

theorem slotForOutline (ops : SummaryOps ω σ) (t : EntryTable σ) (key : Int) (w : ω) :
    slotFor .keysOnly key () (t.map fun _ => ()) =
      ((slotFor ops key w t).1, (slotFor ops key w t).2.1.map fun _ => (), ()) := by
  obtain ⟨lg, keys, summaries, count⟩ := t
  simp only [slotFor, EntryTable.map]
  split <;> simp [SummaryOps.keysOnly]

end QuickSelect

def hashes (seed : Int) (item : Datum) : Except Fault Unit :=
  (samplingKey item seed).map fun _ => ()

namespace QuickSelect
variable {ω σ τ υ : Type}

section Lockstep
variable {ops : SummaryOps ω σ} {ops' : SummaryOps υ τ} {value value' : Datum}

theorem foldAtOutline (takes : ops.Takes value) (other : Datum) (slot : Nat) (t : EntryTable σ)
    (w : ω) : foldAt .keysOnly slot other (t.map fun _ => ()) () =
      ((foldAt ops slot value t w).1, (foldAt ops slot value t w).2.1.map fun _ => (), ()) := by
  simp only [foldAt, EntryTable.mapSummaryAt]
  cases t.summaryAt? slot with
  | none => rfl
  | some held =>
    obtain ⟨new, taken⟩ := takes held w
    cases folded : ops.fold held value w with
    | mk r w' =>
      rw [folded] at taken
      cases taken
      simp [SummaryOps.keysOnly, EntryTable.mapSetSummary, folded]

theorem receiveOutline (takes : ops.Takes value) (other : Datum) (s : QuickSelect σ) (key : Int)
    (w : ω) : s.outline.receive .keysOnly key other () =
      ((s.receive ops key value w).1, (s.receive ops key value w).2.1.outline, ()) := by
  obtain ⟨config, theta, table, empty, processed⟩ := s
  simp only [receive, outline, slotForOutline ops table key w]
  cases found : slotFor ops key w table with
  | mk r after =>
    obtain ⟨mid, w₁⟩ := after
    cases r with
    | error f => rfl
    | ok slot =>
      simp only [foldAtOutline takes other slot mid w₁]
      cases folded : foldAt ops slot value mid w₁ with
      | mk r after =>
        obtain ⟨next, w₂⟩ := after
        cases r with
        | error f => rfl
        | ok _ =>
          have settled := settleOutline ⟨config, theta, next, empty, processed⟩
          simp only [outline] at settled
          simp only [settled]

theorem updateNoted (ops : SummaryOps ω σ) (s : QuickSelect σ) (item value : Datum) (w : ω) :
    s.update ops item value w =
      match samplingKey item s.config.seed with
      | .error f => (.error f, s.noted, w)
      | .ok key =>
          if key = 0 ∨ s.theta ≤ key then (.ok (), s.noted, w)
          else s.noted.receive ops key value w := rfl

theorem receiveAlike {s : QuickSelect σ} {t : QuickSelect τ} (alike : s.outline = t.outline)
    (takes : ops.Takes value) (takes' : ops'.Takes value') (key : Int) (w : ω) (v : υ) :
    (s.receive ops key value w).1 = (t.receive ops' key value' v).1 ∧
      (s.receive ops key value w).2.1.outline = (t.receive ops' key value' v).2.1.outline := by
  have same := receiveOutline takes .none s key w
  rw [alike, receiveOutline takes' .none t key v] at same
  simp only [Prod.mk.injEq, and_true] at same
  exact ⟨same.1.symm, same.2.symm⟩

theorem updateAlike {s : QuickSelect σ} {t : QuickSelect τ} (alike : s.outline = t.outline)
    (takes : ops.Takes value) (takes' : ops'.Takes value') (item : Datum) (w : ω) (v : υ) :
    (s.update ops item value w).1 = (t.update ops' item value' v).1 ∧
      (s.update ops item value w).2.1.outline = (t.update ops' item value' v).2.1.outline := by
  have seed : s.config.seed = t.config.seed := congrArg (fun o => o.config.seed) alike
  have theta : s.theta = t.theta := congrArg QuickSelect.theta alike
  rw [updateNoted, updateNoted, ← seed, ← theta]
  cases samplingKey item s.config.seed with
  | error f => exact ⟨rfl, alike⟩
  | ok key =>
    by_cases outside : key = 0 ∨ s.theta ≤ key
    · simpa only [if_pos outside] using ⟨trivial, alike⟩
    · simpa only [if_neg outside] using receiveAlike (s := s.noted) (t := t.noted) alike
        takes takes' key w v

end Lockstep

def attemptEach (ops : SummaryOps ω σ) (s : QuickSelect σ) :
    List (Datum × Datum × ω) → List (Except Fault Unit) × QuickSelect σ
  | [] => ([], s)
  | (item, value, w) :: rest =>
      let (r, s, _) := s.update ops item value w
      let (outcomes, s) := s.attemptEach ops rest
      (r :: outcomes, s)

def pairsOf (given : List (Datum × Datum × ω)) : List (Datum × Datum) :=
  given.map fun u => (u.1, u.2.1)

theorem attemptEachSnoc (ops : SummaryOps ω σ) (s : QuickSelect σ)
    (given : List (Datum × Datum × ω)) (item value : Datum) (w : ω) :
    let before := s.attemptEach ops given
    let next := before.2.update ops item value w
    s.attemptEach ops (given ++ [(item, value, w)]) = (before.1 ++ [next.1], next.2.1) := by
  induction given generalizing s with
  | nil => rfl
  | cons u rest ih => simp only [List.cons_append, attemptEach, ih]

theorem attemptAllEach (ops : SummaryOps ω σ) (s : QuickSelect σ) (updates : List (Datum × Datum))
    (w : ω) : ∃ given, pairsOf given = updates ∧
      (s.attemptEach ops given).2 = (s.attemptAll ops updates w).1 := by
  induction updates generalizing s w with
  | nil => exact ⟨[], rfl, rfl⟩
  | cons u rest ih =>
    obtain ⟨item, value⟩ := u
    let next := s.update ops item value w
    obtain ⟨given, pairs, same⟩ := ih next.2.1 next.2.2
    exact ⟨(item, value, w) :: given, congrArg (List.cons (item, value)) pairs, same⟩

theorem attemptEachReached (ops : SummaryOps ω σ) {settings : Settings} {s : QuickSelect σ}
    (begins : Begins settings s) (given : List (Datum × Datum × ω)) :
    Reached ops settings (pairsOf given) (s.attemptEach ops given).2 := by
  induction given using List.reverseRecOn with
  | nil => exact .begun begins
  | append_singleton given u ih =>
    obtain ⟨item, value, w⟩ := u
    rw [attemptEachSnoc, pairsOf, List.map_append]
    exact ih.updated rfl

theorem keysOnlyOutcome {settings : Settings} {past : List (Datum × Datum)} {s : QuickSelect Unit}
    (reached : Reached (.keysOnly : SummaryOps ω Unit) settings past s) (item value : Datum)
    (w : ω) : (s.update .keysOnly item value w).1 = hashes settings.seed item := by
  obtain ⟨accepted, intact, _⟩ := reachedTracks reached
  rw [← Config.acceptedSeed accepted]
  cases next : s.update .keysOnly item value w with
  | mk r after =>
    cases r with
    | ok _ =>
      obtain ⟨key, hashed, _⟩ := updateSteps intact.table next
      simp [hashes, hashed, Except.map]
    | error f =>
      have refused := (keysOnlyFails reached (updateFails intact next)).1
      simp [hashes, refused, Except.map]

theorem keysOnlyOutcomes {settings : Settings} {s : QuickSelect Unit} (begins : Begins settings s)
    (given : List (Datum × Datum × ω)) : (s.attemptEach .keysOnly given).1 =
      given.map fun u => hashes settings.seed u.1 := by
  induction given using List.reverseRecOn with
  | nil => rfl
  | append_singleton given u ih =>
    obtain ⟨item, value, w⟩ := u
    have last := keysOnlyOutcome (attemptEachReached .keysOnly begins given) item value w
    rw [attemptEachSnoc, List.map_append, ih, last]
    rfl

theorem keysOnlySampling {settings : Settings} {s : QuickSelect Unit} (begins : Begins settings s)
    {given : List (Datum × Datum × ω)} (hashed : ∀ u ∈ given, hashes settings.seed u.1 = .ok ()) :
    (s.attemptEach .keysOnly given).2.Sampling s.theta (pairsOf given) := by
  induction given using List.reverseRecOn with
  | nil =>
    have idle : s.updateAll .keysOnly [] () = (.ok (), s, ()) := rfl
    exact runSampling begins idle
  | append_singleton given u ih =>
    obtain ⟨item, value, w⟩ := u
    rw [List.forall_mem_append, List.forall_mem_singleton] at hashed
    have outcome := keysOnlyOutcome (attemptEachReached .keysOnly begins given) item value w
    rw [hashed.2] at outcome
    rw [attemptEachSnoc, pairsOf, List.map_append]
    cases next : (s.attemptEach .keysOnly given).2.update .keysOnly item value w with
    | mk r after =>
      rw [next] at outcome
      cases outcome
      exact updateSampling (ih hashed.1) next

theorem attemptEachAlike {ops : SummaryOps ω σ} {ops' : SummaryOps υ τ} {s : QuickSelect σ}
    {t : QuickSelect τ} (alike : s.outline = t.outline) {given : List (Datum × Datum × ω)}
    {given' : List (Datum × Datum × υ)} (items : given.map Prod.fst = given'.map Prod.fst)
    (takes : ∀ u ∈ given, ops.Takes u.2.1) (takes' : ∀ u ∈ given', ops'.Takes u.2.1) :
    (s.attemptEach ops given).1 = (t.attemptEach ops' given').1 ∧
      (s.attemptEach ops given).2.outline = (t.attemptEach ops' given').2.outline := by
  induction given generalizing s t given' with
  | nil =>
    cases List.map_eq_nil_iff.mp items.symm
    exact ⟨rfl, alike⟩
  | cons u rest ih =>
    obtain ⟨u', rest', rfl, same, more⟩ := List.map_eq_cons_iff.mp items.symm
    obtain ⟨item, value, w⟩ := u
    obtain ⟨item', value', v⟩ := u'
    cases (same : item' = item)
    rw [List.forall_mem_cons] at takes takes'
    have step := updateAlike alike takes.1 takes'.1 item w v
    have run := ih step.2 more.symm takes.2 takes'.2
    exact ⟨congrArg₂ List.cons step.1 run.1, run.2⟩

/-- What can be seen of a sketch without its summaries: the slots of its keys, and what it reports
of itself. -/
structure Footprint where
  keys : KeyTable
  lg : Nat
  theta : Int
  retained : Nat
  empty : Bool
  processed : Nat
  deriving DecidableEq

def footprint (s : QuickSelect σ) : Footprint :=
  ⟨s.table.keys, s.table.lg, s.theta, s.table.count, s.empty, s.processed⟩

theorem footprintAlike {s : QuickSelect σ} {t : QuickSelect τ} (alike : s.outline = t.outline)
    (empty : s.empty = t.empty) : s.footprint = { t.footprint with processed := s.processed } := by
  have table : (s.table.map fun _ => ()) = t.table.map fun _ => () := congrArg (·.table) alike
  have keys : s.table.keys = t.table.keys := congrArg (·.keys) table
  have lg : s.table.lg = t.table.lg := congrArg (·.lg) table
  have theta : s.theta = t.theta := congrArg (·.theta) alike
  have count : s.table.count = t.table.count := congrArg (·.count) table
  simp only [footprint, keys, lg, theta, count, empty]

theorem beginsAlike {settings : Settings} {limit : Option Int} {s : QuickSelect σ}
    {t : QuickSelect τ} (begins : Begins settings s)
    (begins' : Begins { settings with memoryLimit := limit } t) : s.outline = t.outline := by
  obtain ⟨config, accepted, rfl⟩ := beginsOfConfig begins
  obtain ⟨config', accepted', rfl⟩ := beginsOfConfig begins'
  obtain ⟨_, _, rfl⟩ := Config.acceptedSettings accepted
  obtain ⟨_, _, rfl⟩ := Config.acceptedSettings accepted'
  simp only [outline, ofConfig, Config.lgLargest, EntryTable.mapBlank]

theorem reachedEmpty {ops : SummaryOps ω σ} {ops' : SummaryOps υ τ} {settings settings' : Settings}
    {s : QuickSelect σ} {t : QuickSelect τ} {past past' : List (Datum × Datum)}
    (reached : Reached ops settings past s) (reached' : Reached ops' settings' past' t)
    (same : past = [] ↔ past' = []) : s.empty = t.empty :=
  Bool.eq_iff_iff.mpr ((reachedTracks reached).empty.trans
    (same.trans (reachedTracks reached').empty.symm))

theorem attemptEachFootprint {ops : SummaryOps ω σ} {ops' : SummaryOps υ τ} {settings : Settings}
    {limit : Option Int} {s : QuickSelect σ} {t : QuickSelect τ} (begins : Begins settings s)
    (begins' : Begins { settings with memoryLimit := limit } t)
    {given : List (Datum × Datum × ω)} {given' : List (Datum × Datum × υ)}
    (items : given.map Prod.fst = given'.map Prod.fst) (takes : ∀ u ∈ given, ops.Takes u.2.1)
    (takes' : ∀ u ∈ given', ops'.Takes u.2.1) :
    (s.attemptEach ops given).1 = (t.attemptEach ops' given').1 ∧
      (s.attemptEach ops given).2.footprint = (t.attemptEach ops' given').2.footprint := by
  obtain ⟨outcomes, alike⟩ := attemptEachAlike (beginsAlike begins begins') items takes takes'
  have length : given.length = given'.length := by simpa using congrArg List.length items
  have reached := attemptEachReached ops begins given
  have reached' := attemptEachReached ops' begins' given'
  have empty := reachedEmpty reached reached' (by
    rw [← List.length_eq_zero_iff, ← List.length_eq_zero_iff]
    simp only [pairsOf, List.length_map, length])
  have processed : (s.attemptEach ops given).2.processed =
      (t.attemptEach ops' given').2.processed := by
    rw [(reachedTracks reached).processed, (reachedTracks reached').processed]
    simp only [pairsOf, List.length_map, length]
  refine ⟨outcomes, ?_⟩
  rw [footprintAlike alike empty, processed]
  rfl

/-- Values never influence sampling. Two tuple sketches that take the same items end alike in every
slot, in theta and in their counts, whatever their modes and their numbers, and so does a theta
sketch that takes the items alone. In each of them an update fails only for an item without a
key. -/
theorem valuesUnseen (mode mode' : Mode) {settings : Settings} {limit limit' : Option Int}
    {s t : QuickSelect Handle} {bare : QuickSelect Unit} (begins : Begins settings s)
    (begins' : Begins { settings with memoryLimit := limit } t)
    (bareBegins : Begins { settings with memoryLimit := limit' } bare)
    {given given' : List (Datum × Datum × Store)} {items : List (Datum × Datum × ω)}
    (same : given.map Prod.fst = items.map Prod.fst)
    (same' : given'.map Prod.fst = items.map Prod.fst)
    (converts : ∀ u ∈ given, u.2.1.converts = true)
    (converts' : ∀ u ∈ given', u.2.1.converts = true) :
    let final := s.attemptEach (.stored mode) given
    let final' := t.attemptEach (.stored mode') given'
    let keysOnly := bare.attemptEach .keysOnly items
    final.2.footprint = final'.2.footprint ∧ final.2.footprint = keysOnly.2.footprint ∧
      final.1 = final'.1 ∧ final.1 = keysOnly.1 ∧
      keysOnly.1 = items.map fun u => hashes settings.seed u.1 := by
  have takes : ∀ u ∈ given, (SummaryOps.stored mode).Takes u.2.1 :=
    fun u member => acceptsTakes (storedAccepts mode) (converts u member)
  have takes' : ∀ u ∈ given', (SummaryOps.stored mode').Takes u.2.1 :=
    fun u member => acceptsTakes (storedAccepts mode') (converts' u member)
  obtain ⟨outcomes, prints⟩ := attemptEachFootprint begins begins' (same.trans same'.symm) takes
    takes'
  obtain ⟨bareOutcomes, barePrints⟩ := attemptEachFootprint begins bareBegins same takes
    fun u _ => keysOnlyTakes u.2.1
  exact ⟨prints, barePrints, outcomes, bareOutcomes, keysOnlyOutcomes bareBegins items⟩

theorem attemptUnhashed {ops : SummaryOps ω σ} {s : QuickSelect σ}
    {given : List (Datum × Datum × ω)} {item : Datum} {f : Fault}
    (refused : samplingKey item (s.attemptEach ops given).2.config.seed = .error f)
    (value : Datum) (w : ω) :
    (s.attemptEach ops (given ++ [(item, value, w)])).2 = (s.attemptEach ops given).2.noted := by
  rw [attemptEachSnoc]
  simp only [updateNoted, refused]

theorem keysOnlyMoves {s : QuickSelect Unit} (begins : Begins { nominal := 16 } s)
    (whole : s.theta = maxTheta) {given : List (Datum × Datum × ω)}
    (hashed : ∀ u ∈ given, hashes defaultSeed u.1 = .ok ())
    (many : ((distinctKeys defaultSeed (pairsOf given)).filter (· < maxTheta)).card = 31)
    {item : Datum} {f : Fault} (refused : samplingKey item defaultSeed = .error f) (value : Datum)
    (w : ω) : (s.attemptEach .keysOnly (given ++ [(item, value, w)])).2.theta ≠ maxTheta := by
  have accepted := (reachedTracks (attemptEachReached .keysOnly begins given)).accepted
  have seed : (s.attemptEach .keysOnly given).2.config.seed = defaultSeed :=
    Config.acceptedSeed accepted
  rw [← seed] at refused
  have sampling := keysOnlySampling begins hashed
  rw [whole] at sampling
  have moved := crowdMoves accepted sampling many
  rw [attemptUnhashed refused]
  exact moved

def alikeStream (value : Datum) : List (Datum × Datum × Store) :=
  crowd.map (fun u => (u.1, value, Store.empty)) ++ [(.text [0xd800], value, .empty)]

theorem alikeMoves {s : QuickSelect Unit} (begins : Begins { nominal := 16 } s)
    (whole : s.theta = maxTheta) :
    (s.attemptEach .keysOnly (alikeStream .none)).2.theta ≠ maxTheta := by
  have refused : samplingKey (.text [0xd800]) defaultSeed = .error .loneSurrogate := by
    decide +kernel
  refine keysOnlyMoves begins whole (List.forall_mem_map.mpr fun u member => ?_)
    (by decide +kernel) refused .none Store.empty
  obtain ⟨key, here⟩ := crowdHashed u member
  simp only [hashes, here, Except.map]

theorem valuesUnseenNaN : ∃ s t : QuickSelect Handle, ∃ bare : QuickSelect Unit,
    Begins { nominal := 16 } s ∧ Begins { nominal := 16, memoryLimit := some 1 } t ∧
    Begins { nominal := 16, memoryLimit := none } bare ∧
    (s.attemptEach (.stored .sum) (alikeStream (.float .nan))).2.footprint =
      (t.attemptEach (.stored .max) (alikeStream (.float (.infinite true)))).2.footprint ∧
    (s.attemptEach (.stored .sum) (alikeStream (.float .nan))).2.footprint =
      (bare.attemptEach .keysOnly (alikeStream .none)).2.footprint ∧
    (bare.attemptEach .keysOnly (alikeStream .none)).2.theta ≠ bare.theta := by
  obtain ⟨s, begins, _⟩ := sixteenBegin none
  obtain ⟨t, begins', _⟩ := sixteenBegin (some 1)
  obtain ⟨bare, bareBegins, theta⟩ := sixteenBegin none
  have same (value : Datum) :
      (alikeStream value).map Prod.fst = (alikeStream .none).map Prod.fst := by
    simp only [alikeStream, List.map_append, List.map_map, Function.comp_def, List.map_cons,
      List.map_nil]
  have moved := alikeMoves bareBegins theta
  rw [← theta] at moved
  obtain ⟨prints, barePrints, _⟩ := valuesUnseen .sum .max begins begins' bareBegins
    (same (.float .nan)) (same (.float (.infinite true))) (by decide +kernel) (by decide +kernel)
  exact ⟨s, t, bare, begins, begins', bareBegins, prints, barePrints, moved⟩

end QuickSelect
end KeySampling
