import KeySampling.Proofs.Intersection.Run
import KeySampling.Proofs.Sketch.Reached

/-! What an intersection makes of the emptiness of its inputs. It never reads their flags: an input
without entries under the largest threshold is taken for the empty set. A sketch says of itself
whether it was ever updated. The two agree unless a sketch starts below the largest threshold, or
was only given items that have no place in it. -/
namespace KeySampling

theorem QuickSelect.intactHonest {σ : Type} {s : QuickSelect σ} (intact : s.Intact) :
    s.census.Honest s.table.keySet :=
  ⟨congrArg Int.ofNat (EntryTable.keySetLength intact.table).symm,
    EntryTable.keysNodup intact.table, intact.inRange, intact.theta.trans intact.bounded⟩

def blind {ω σ : Type} : Reading ω σ Unit := fun _ _ => some ()

theorem blindCopies {ω σ : Type} (ops : SummaryOps ω σ) : ops.Copies blind :=
  fun _ _ _ _ => ⟨rfl, fun _ _ _ => rfl⟩

theorem blindJoins {ω σ : Type} (policy : Policy ω σ) : policy.Joins blind fun _ _ => () :=
  fun _ _ _ _ _ _ _ => ⟨rfl, fun _ _ _ => rfl⟩

theorem Intersection.blindMoved {ω σ : Type} {x : Intersection σ} {calls : List (Call σ)}
    {origin w : ω} (computes : Computes blind (fun _ _ => ()) origin w x calls) (v : ω) :
    Computes blind (fun _ _ => ()) origin v x calls :=
  ⟨fun _ _ _ => rfl, computes.started, computes.theta, computes.empty, computes.table,
    computes.keys, findsKept computes.contents fun _ _ _ => rfl⟩

theorem Call.properBlind {ω ω' σ τ : Type} {read : Reading ω σ τ} {w : ω} {c : Call σ}
    (proper : c.Proper read w) (v : ω') : c.Proper blind v := by
  cases proper with
  | absent => exact .absent
  | absentKeys summary => exact .absentKeys summary
  | tuples honest _ => exact .tuples honest fun _ _ => ⟨(), rfl⟩
  | keys honest _ => exact .keys (x := ()) honest rfl

theorem QuickSelect.compactSame {ω σ : Type} {s : QuickSelect σ} (intact : s.Intact)
    (ops : SummaryOps ω σ) (w : ω) :
    (s.compact ops w).1.census = s.census ∧
      (s.compact ops w).1.entries.map Prod.fst = s.table.keySet := by
  by_cases vacant : s.table.count = 0
  · have nothing : s.table.keySet = [] := by
      rw [← List.length_eq_zero_iff, EntryTable.keySetLength intact.table, vacant]
    simp [compact, vacant, Compact.census, census, nothing]
  · have finds : blind.Finds w s.table.entries fun _ => some () := fun _ _ => ⟨(), rfl, rfl⟩
    have keys : (ops.copyAll s.table.entries w).1.map Prod.fst = s.table.keySet :=
      (copyAllFinds (blindCopies ops) finds).1
    have length : (ops.copyAll s.table.entries w).1.length = s.table.count := by
      rw [← List.length_map (f := Prod.fst), keys, EntryTable.keySetLength intact.table]
    simp [compact, vacant, Compact.census, census, keys, length]

namespace Intersection
variable {ω σ : Type}

/-- What may be handed to an intersection: nothing, a sketch as its updates left it, or a compact
copy of one. -/
inductive Drawn : Call σ → Prop
  | absent : Drawn (.update .absent)
  | absentKeys (summary : σ) : Drawn (.updateKeys .absent summary)
  | tuples {ω' : Type} {own : SummaryOps ω' σ} {settings : Settings}
      {past : List (Datum × Datum)} {s : QuickSelect σ}
      (reached : QuickSelect.Reached own settings past s) :
      Drawn (.update (.tuples QuickSelect.tupleKind s.sample))
  | compacted {ω' : Type} {own : SummaryOps ω' σ} {settings : Settings}
      {past : List (Datum × Datum)} {s : QuickSelect σ} {w : ω'}
      (reached : QuickSelect.Reached own settings past s) :
      Drawn (.update (.tuples Compact.kind (s.compact own w).1.sample))
  | keys {ω' : Type} {settings : Settings} {past : List (Datum × Datum)} {s : QuickSelect Unit}
      {summary : σ}
      (reached : QuickSelect.Reached (.keysOnly : SummaryOps ω' Unit) settings past s) :
      Drawn (.updateKeys (.keys QuickSelect.thetaKind s.keySample) summary)

theorem drawnProper {call : Call σ} (drawn : Drawn call) (w : ω) : call.Proper blind w := by
  cases drawn with
  | absent => exact .absent
  | absentKeys summary => exact .absentKeys summary
  | tuples reached =>
    have intact := (QuickSelect.reachedTracks reached).intact
    exact .tuples (QuickSelect.intactHonest intact) fun _ _ => ⟨(), rfl⟩
  | @compacted _ own _ _ s v reached =>
    have intact := (QuickSelect.reachedTracks reached).intact
    obtain ⟨census, keys⟩ := QuickSelect.compactSame intact own v
    refine .tuples ?_ fun _ _ => ⟨(), rfl⟩
    have honest := QuickSelect.intactHonest intact
    rw [← census, ← keys] at honest
    exact honest
  | keys reached =>
    have intact := (QuickSelect.reachedTracks reached).intact
    exact .keys (x := ()) (QuickSelect.intactHonest intact) rfl

def giveEach (ops : SummaryOps ω σ) (policy : Policy ω σ) (x : Intersection σ) :
    List (Call σ × ω) → Except Fault Unit × Intersection σ
  | [] => (.ok (), x)
  | (call, w) :: rest =>
      match x.give ops policy call w with
      | (.error f, x, _) => (.error f, x)
      | (.ok (), x, _) => x.giveEach ops policy rest

theorem giveEachComputes (ops : SummaryOps ω σ) (policy : Policy ω σ) {x : Intersection σ}
    {before : List (Call σ)} {next : List (Call σ × ω)} {origin w : ω}
    (computes : Computes blind (fun _ _ => ()) origin w x before)
    (drawn : ∀ c ∈ next, Drawn c.1) :
    ∃ x' w', x.giveEach ops policy next = (.ok (), x') ∧
      Computes blind (fun _ _ => ()) origin w' x' (before ++ next.map Prod.fst) := by
  induction next generalizing x w before with
  | nil => exact ⟨x, w, rfl, by simpa using computes⟩
  | cons c rest ih =>
    obtain ⟨call, v⟩ := c
    have here := blindMoved computes v
    obtain ⟨x₁, w₁, given, after⟩ := giveComputes (blindCopies ops) (blindJoins policy) here
      (drawnProper (drawn (call, v) (by simp)) origin)
    obtain ⟨x', w', run, computed⟩ := ih after fun c member =>
      drawn c (List.mem_cons_of_mem _ member)
    exact ⟨x', w', by simp only [giveEach, given, run], by simpa using computed⟩

theorem hollowIff {ω' : Type} {own : SummaryOps ω' σ} {settings : Settings}
    {past : List (Datum × Datum)} {s : QuickSelect σ}
    (reached : QuickSelect.Reached own settings past s) :
    s.keySample.entries = [] ∧ s.census.theta = maxTheta ↔
      settings.probability.same (.int 1) = true ∧
        ∀ key ∈ keysOf settings.seed past, key = 0 ∨ key = maxTheta := by
  obtain ⟨accepted, intact, bare, _, _⟩ := QuickSelect.reachedTracks reached
  have nothing : s.keySample.entries = [] ↔ s.table.count = 0 := by
    rw [intact.table.counted, List.length_eq_zero_iff]
    exact List.map_eq_nil_iff
  have seed := Config.acceptedSeed accepted
  rw [nothing, ← Config.acceptedWhole accepted, ← seed]
  constructor
  · rintro ⟨vacant, full⟩
    have whole : s.config.initialTheta = maxTheta := (bare.untouched vacant).symm.trans full
    refine ⟨whole, fun key member => ?_⟩
    rcases bare.nothing.mp vacant key member with zero | above
    · exact .inl zero
    · exact .inr (le_antisymm (keyInRange member).2 (whole ▸ above))
  · rintro ⟨whole, outside⟩
    have vacant : s.table.count = 0 := bare.nothing.mpr fun key member =>
      (outside key member).imp_right fun top => (whole.trans top.symm).le
    exact ⟨vacant, (bare.untouched vacant).trans whole⟩

/-- However often absent inputs, sketches and compact copies are given to an intersection, it is
empty just when one was absent, or had no entries under the largest threshold when it was given.
Whichever of its updates failed, a sketch and its compact copy are such inputs if the sketch
samples with probability one and each item that could be hashed has one of the two keys that are
never retained. Their own flag says that there was no update. -/
theorem emptinessInferred (ops : SummaryOps ω σ) (policy : Policy ω σ)
    {calls : List (Call σ × ω)} (drawn : ∀ c ∈ calls, Drawn c.1) :
    (∃ x, (universal : Intersection σ).giveEach ops policy calls = (.ok (), x) ∧
      (x.census.empty = true ↔
        ∃ c ∈ calls, c.1.absent = true ∨ c.1.keys = [] ∧ c.1.theta = maxTheta)) ∧
    ∀ {ω' σ' : Type} {own : SummaryOps ω' σ'} {settings : Settings}
      {past : List (Datum × Datum)} {s : QuickSelect σ'},
      QuickSelect.Reached own settings past s →
        (s.census.empty = true ↔ past = []) ∧
        (s.keySample.entries = [] ∧ s.census.theta = maxTheta ↔
          settings.probability.same (.int 1) = true ∧
            ∀ key ∈ keysOf settings.seed past, key = 0 ∨ key = maxTheta) ∧
        ∀ w, (s.compact own w).1.census = s.census ∧
          (s.compact own w).1.entries.map Prod.fst = s.keySample.entries := by
  constructor
  · cases calls with
    | nil => exact ⟨universal, rfl, by simp [universal, census]⟩
    | cons c rest =>
      obtain ⟨x, w, run, computes⟩ := giveEachComputes ops policy
        (universalComputes blind (fun _ _ => ()) c.2) drawn
      refine ⟨x, run, computes.empty.trans ?_⟩
      simp only [List.nil_append, List.mem_map, exists_exists_and_eq_and]
  · intro ω' σ' own settings past s reached
    have tracks := QuickSelect.reachedTracks reached
    exact ⟨tracks.empty, hollowIff reached, QuickSelect.compactSame tracks.intact own⟩

def halved : QuickSelect Summary :=
  let half : Datum := .float (.ofQuotient 1 2)
  .ofConfig ⟨4, half, thetaFor half, defaultSeed, none⟩

def zeroItem : Datum :=
  .bytes [0xb6, 0x25, 0xca, 0xd3, 0x3d, 0x94, 0xee, 0x5b, 0x6f, 0xd0, 0x1d, 0x10, 0x28, 0xfc, 0x81,
    0x56]

def whole : QuickSelect Summary := .ofConfig ⟨4, .float .one, maxTheta, defaultSeed, none⟩

def hollow : QuickSelect Summary := (whole.updateAll (.values .sum) [(zeroItem, .int 1)] ()).2.1

def unhashed : QuickSelect Summary := (whole.update (.values .sum) (.text [0xd800]) (.int 1) ()).2.1

theorem halvedBegins :
    QuickSelect.Begins { nominal := 16, probability := .float (.ofQuotient 1 2) } halved := by
  have fraction : (Datum.float (.ofQuotient 1 2)).isFraction true = .ok true := by decide +kernel
  exact QuickSelect.beginsAccepted (Config.settingsAccepted (by decide) fraction)

theorem wholeBegins : QuickSelect.Begins { nominal := 16 } whole :=
  QuickSelect.beginsDefaults (by decide)

theorem hollowUpdated :
    whole.updateAll (.values .sum) [(zeroItem, .int 1)] () = (.ok (), hollow, ()) :=
  Prod.ext (by decide +kernel) rfl

theorem unhashedUpdated : whole.update (.values .sum) (.text [0xd800]) (.int 1) () =
    (.error .loneSurrogate, unhashed, ()) :=
  Prod.ext (by decide +kernel) rfl

/-- A single update, by a sketch that is empty or by one that is not, gets the opposite flag. -/
theorem emptinessMisjudged :
    let after (s : QuickSelect Summary) : Intersection Summary :=
      (universal.update (.values .sum) (.ofFunction (Summary.combine .sum))
        (.tuples QuickSelect.tupleKind s.sample) ()).2.1
    (QuickSelect.Begins { nominal := 16, probability := .float (.ofQuotient 1 2) } halved ∧
      halved.census.empty = true ∧ (after halved).census.empty = false) ∧
    QuickSelect.Begins { nominal := 16 } whole ∧
      (whole.updateAll (.values .sum) [(zeroItem, .int 1)] () = (.ok (), hollow, ()) ∧
        hollow.census.empty = false ∧ (after hollow).census.empty = true) ∧
      whole.update (.values .sum) (.text [0xd800]) (.int 1) () =
        (.error .loneSurrogate, unhashed, ()) ∧
        unhashed.census.empty = false ∧ (after unhashed).census.empty = true := by
  refine ⟨⟨halvedBegins, ?_⟩, wholeBegins, ⟨hollowUpdated, ?_⟩, unhashedUpdated, ?_⟩ <;>
    decide +kernel

def misleading : List (Call Summary × Unit) :=
  [halved, hollow, unhashed].map fun s => (.update (.tuples QuickSelect.tupleKind s.sample), ())

theorem emptinessInferredHollow : ∃ x,
    (universal : Intersection Summary).giveEach (.values .sum)
      (.ofFunction (Summary.combine .sum)) misleading = (.ok (), x) ∧
    x.census.empty = true ∧ hollow.census.empty = false ∧ unhashed.census.empty = false := by
  let ops : SummaryOps Unit Summary := .values .sum
  have fed : QuickSelect.Reached ops { nominal := 16 } [(zeroItem, .int 1)] hollow :=
    QuickSelect.updateAllReached wholeBegins hollowUpdated
  have begun : QuickSelect.Reached ops { nominal := 16 } [] whole := .begun wholeBegins
  have failed : QuickSelect.Reached ops { nominal := 16 } [(.text [0xd800], .int 1)] unhashed :=
    begun.updated unhashedUpdated
  have drawn : ∀ c ∈ misleading, Drawn c.1 := by
    intro c member
    obtain ⟨s, given, rfl⟩ := List.mem_map.mp member
    simp only [List.mem_cons, List.not_mem_nil, or_false] at given
    rcases given with rfl | rfl | rfl
    · have reached : QuickSelect.Reached ops _ [] halved := .begun halvedBegins
      exact .tuples reached
    · exact .tuples fed
    · exact .tuples failed
  obtain ⟨⟨x, run, flag⟩, own⟩ := emptinessInferred ops
    (.ofFunction (Summary.combine .sum)) drawn
  have nothing := (own failed).2.1.mpr ⟨by decide +kernel, by decide +kernel⟩
  have given : (.update (.tuples QuickSelect.tupleKind unhashed.sample), ()) ∈ misleading := by
    simp [misleading]
  refine ⟨x, run, flag.mpr ⟨_, given, .inr nothing⟩, ?_, ?_⟩
  · exact Bool.eq_false_iff.mpr fun empty => List.cons_ne_nil _ _ ((own fed).1.mp empty)
  · exact Bool.eq_false_iff.mpr fun empty => List.cons_ne_nil _ _ ((own failed).1.mp empty)

end Intersection
end KeySampling
