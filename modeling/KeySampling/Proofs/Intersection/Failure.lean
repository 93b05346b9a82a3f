import KeySampling.Proofs.Intersection.Absence

/-! What a failed use leaves of itself. An input of the wrong kind is turned away before anything
is written. All else is written down before the table is made, and only the table of a first input
can fail to be made: a later one takes no more keys than it finds, and those have a slot already. -/
namespace KeySampling
namespace Intersection
variable {ω σ ι : Type} {x x' : Intersection σ} {c : Call σ} {w w' : ω}

theorem buildSound {declared : Int} {entries : List (Int × σ)} {t : EntryTable σ}
    (built : build declared entries = .ok t) : t.Sound := by
  obtain ⟨lg, filled⟩ := buildFilled built
  exact EntryTable.insertAllSound (EntryTable.blankSound lg) (EntryTable.ofEntriesFills filled)

theorem buildFits {entries : List (Int × σ)} (fits : ∀ e ∈ entries, fitsSigned64 e.1 = true)
    (few : entries.length < 9223372036854775808) :
    ∃ t, build entries.length entries = .ok t := by
  obtain ⟨lg, sized, room, allowed⟩ := KeyTable.lgForRoom few
  have all : (EntryTable.blank lg : EntryTable σ).count + entries.length ≤ pow2 lg := by
    simpa [EntryTable.blank] using room
  obtain ⟨t, filled⟩ := EntryTable.insertAllFits (EntryTable.blankSound lg) fits all
  refine ⟨t, ?_⟩
  rw [build, sized]
  exact (EntryTable.ofEntriesAllotted allowed).trans filled

theorem joinAllEnds {t : EntryTable σ} (sound : t.Sound) (theta : Int)
    (step : σ → ι → ω → σ × ω) (entries : List (Int × ι)) (w : ω) :
    ∃ joined w', joinAll t theta step entries w = (.ok joined, w') ∧
      joined.length ≤ entries.length ∧ ∀ e ∈ joined, fitsSigned64 e.1 = true := by
  induction entries generalizing w with
  | nil => exact ⟨[], w, rfl, le_refl _, by simp⟩
  | cons e rest ih =>
    obtain ⟨key, incoming⟩ := e
    obtain ⟨found, searched, stored⟩ := KeyTable.searchEnds sound.keys key
    have skipped : ∃ joined w', joinAll t theta step rest w = (.ok joined, w') ∧
        joined.length ≤ rest.length + 1 ∧ ∀ e ∈ joined, fitsSigned64 e.1 = true := by
      obtain ⟨joined, w', ok, fewer, fits⟩ := ih w
      exact ⟨joined, w', ok, fewer.trans (Nat.le_succ _), fits⟩
    simp only [joinAll, List.length_cons]
    split
    · exact skipped
    rw [searched]
    cases found with
    | none => exact skipped
    | some slot =>
      obtain ⟨nonzero, read⟩ := stored slot rfl
      obtain ⟨mine, held⟩ := sound.held slot key read nonzero
      obtain ⟨joined, w', ok, fewer, fits⟩ := ih (step mine incoming w).2
      refine ⟨(key, (step mine incoming w).1) :: joined, w', by simp only [held, ok],
        Nat.succ_le_succ fewer, ?_⟩
      exact List.forall_mem_cons.mpr ⟨sound.fits slot key read, fits⟩

def Sounds (x : Intersection σ) : Prop := ∀ t, x.table = some t → t.Sound

theorem storeSounds (sounds : x.Sounds) {declared : Int} {entries : List (Int × σ)} :
    (x.store (build declared entries)).2.Sounds := by
  cases built : build declared entries with
  | error f => exact sounds
  | ok t =>
    intro other same
    cases Option.some.inj same
    exact buildSound built

theorem restrictSounds (sounds : x.Sounds) (census : Census) :
    (x.accept.restrict census).Sounds := by
  intro t held
  simp only [restrict, accept] at held
  split at held
  · contradiction
  · exact sounds t held

theorem refineSounds (sounds : x.Sounds) (step : σ → ι → ω → σ × ω) (entries : List (Int × ι))
    (w : ω) : (x.refine step entries w).2.1.Sounds := by
  unfold refine
  split
  · exact sounds
  split
  · exact sounds
  split
  · exact sounds
  · exact storeSounds sounds

theorem refineEnds (sounds : x.Sounds) (step : σ → ι → ω → σ × ω) {entries : List (Int × ι)}
    (few : entries.length < 9223372036854775808) (w : ω) :
    (x.refine step entries w).1 = .ok () := by
  unfold refine
  split
  · rfl
  rename_i t held
  split
  · rfl
  obtain ⟨joined, w', ok, fewer, fits⟩ := joinAllEnds (sounds t held) x.theta step entries w
  obtain ⟨next, built⟩ := buildFits fits (fewer.trans_lt few)
  simp only [ok, built, store]

section Run
variable {ops : SummaryOps ω σ} {policy : Policy ω σ}

theorem giveSounds (sounds : x.Sounds) (c : Call σ) (w : ω) :
    (x.give ops policy c w).2.1.Sounds := by
  generalize came : x.give ops policy c w = out
  cases came ▸ giveComes ops policy x c w with
  | refused _ _ => exact sounds
  | collapsed _ => exact fun t impossible => by contradiction
  | @cleared census _ _ => exact restrictSounds sounds census
  | @seeded census entries _ _ _ _ _ => exact storeSounds (restrictSounds sounds census)
  | @refined census _ step entries _ _ _ _ =>
    exact refineSounds (restrictSounds sounds census) step entries w

theorem attemptEachSounds (calls : List (Call σ × ω)) :
    (universal.attemptEach ops policy calls).Sounds :=
  attemptEachKeeps (P := fun _ x => x.Sounds) (fun _ _ c w sounds => giveSounds sounds c w) []
    (fun _ impossible => by contradiction) calls

theorem giveFails {f : Fault} (sounds : x.Sounds) (few : c.keys.length < 9223372036854775808)
    (failed : x.give ops policy c w = (.error f, x', w')) :
    (c.absent = false ∧ c.census = none ∧ x' = x ∧ w' = w) ∨
      ∃ census, c.census = some census ∧ census.retained ≠ 0 ∧ x.started = false ∧
        (census.retained ≠ c.keys.length ∨ ∃ key ∈ c.keys, fitsSigned64 key = false) ∧
        x' = x.accept.restrict census := by
  generalize came : x.give ops policy c w = out at failed
  cases came ▸ giveComes ops policy x c w with
  | refused present unfit =>
    cases failed
    exact .inl ⟨present, unfit, rfl, rfl⟩
  | collapsed _ => simp at failed
  | cleared _ _ => simp at failed
  | @seeded census entries _ offers retains first keys =>
    cases built : build census.retained entries with
    | ok t => simp [built, store] at failed
    | error g =>
      simp only [built, store, Prod.mk.injEq] at failed
      refine .inr ⟨census, offers, retains, first, ?_, failed.2.1.symm⟩
      have length : entries.length = c.keys.length := by rw [← keys, List.length_map]
      by_contra sane
      simp only [not_or, not_exists, not_and, ne_eq, not_not, Bool.not_eq_false] at sane
      obtain ⟨counted, fits⟩ := sane
      rw [counted, ← length] at built
      obtain ⟨t, ok⟩ := buildFits (fun e member => fits e.1 (keys ▸ List.mem_map_of_mem member))
        (length ▸ few)
      rw [ok] at built
      contradiction
  | @refined census _ step entries _ _ _ keys =>
    have length : entries.length = c.keys.length := by rw [← keys, List.length_map]
    have ends := refineEnds (restrictSounds sounds census) step (length ▸ few) w
    simp [failed] at ends

end Run

/-- A use fails for the kind of its input, and then changes nothing; or as the first that is let in,
by an input that misstates its count or has a key that no slot takes. Then its threshold is kept,
no later input is the first any more, and no key is ever retained. -/
theorem failureConsumes (ops : SummaryOps ω σ) (policy : Policy ω σ) {past : List (Call σ × ω)}
    {f : Fault} (few : c.keys.length < 9223372036854775808)
    (failed : (universal.attemptEach ops policy past).give ops policy c w = (.error f, x', w')) :
    (c.census = none ∧ x' = universal.attemptEach ops policy past ∧ w' = w) ∨
    ∃ census, c.census = some census ∧
      (census.retained ≠ c.keys.length ∨ ∃ key ∈ c.keys, fitsSigned64 key = false) ∧
      universal.attemptEach ops policy past = universal ∧
      x' = { universal with theta := min maxTheta census.theta, started := true, updates := 1 } ∧
      ∀ (later : List (Call σ × ω)) (v : ω), ∃ result,
        (x'.attemptEach ops policy later).result ops v = (.ok result, v) ∧ result.entries = [] := by
  rcases giveFails (attemptEachSounds past) few failed with refused | consumed
  · exact .inl refused.2
  obtain ⟨census, offers, retains, first, misfit, rfl⟩ := consumed
  have fresh := attemptEachFresh past first
  have left : (universal.attemptEach ops policy past).accept.restrict census =
      { universal with theta := min maxTheta census.theta, started := true, updates := 1 } := by
    rw [fresh]
    simp [universal, accept, restrict, retains]
  refine .inr ⟨census, offers, misfit, fresh, left, fun later v => ?_⟩
  rw [left]
  exact ⟨_, barrenResult (attemptEachBarren ⟨rfl, rfl⟩ later) v, rfl⟩

def understated : Call Summary :=
  .updateKeys
    (.keys "ThetaSketch" ⟨⟨500, 1, false⟩, (List.range 17).map fun n : Nat => (n : Int) + 1⟩)
    (.fresh .sum)

def single : Call Summary := .update (honestSketch maxTheta [(5, .fresh .sum)])

def found (x : Intersection Summary) : Option (List (Int × Summary) × Int × Bool) :=
  (x.result (.values .sum) ()).1.toOption.map fun c => (c.entries, c.theta, c.empty)

/-- One key is the result of a sketch, but not after an input that was refused. -/
theorem failureForgets :
    ((universal : Intersection Summary).give (.values .sum) (.ofFunction (Summary.combine .sum))
      understated ()).1 = .error .fullTable ∧
    (tried []).census = ⟨maxTheta, 0, false⟩ ∧ (tried [understated]).census = ⟨500, 0, false⟩ ∧
    (tried []).started = false ∧ (tried [understated]).started = true ∧
    (tried []).updates = 0 ∧ (tried [understated]).updates = 1 ∧
    found (tried [single]) = some ([(5, .fresh .sum)], maxTheta, false) ∧
    found (tried [understated, single]) = some ([], 500, false) := by
  decide +kernel

theorem failureConsumesUnderstated : ∃ result,
    (tried [understated, single]).result (.values .sum) () = (.ok result, ()) ∧
    result.entries = [] := by
  let out := (tried []).give (.values .sum) (.ofFunction (Summary.combine .sum)) understated ()
  have failed : out = (.error .fullTable, out.2.1, out.2.2) := Prod.ext (by decide +kernel) rfl
  have few : understated.keys.length < 9223372036854775808 := by decide +kernel
  rcases failureConsumes (.values .sum) (.ofFunction (Summary.combine .sum)) few failed with
    refused | ⟨_, _, _, _, _, lost⟩
  · simp [understated, Call.census] at refused
  · exact lost [(single, ())] ()

end Intersection
end KeySampling
