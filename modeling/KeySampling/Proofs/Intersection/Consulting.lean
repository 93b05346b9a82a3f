import KeySampling.Proofs.Intersection.Attempts
import KeySampling.Proofs.Intersection.Emptiness
import KeySampling.Proofs.Intersection.Lifetime
import KeySampling.Proofs.Intersection.Result

/-! The calls that an intersection makes of its policy. A pass goes through the entries of an input
in their order and meets those that are below theta and retained; each meeting is one call, the
retained summary first, and what the calls return is the new table. -/
namespace KeySampling
variable {ω σ ι τ υ : Type}

def Reading.beside (read : Reading ω σ τ) : Reading (ω × υ) σ τ := fun w => read w.1

theorem copiesBeside {ops : SummaryOps ω σ} {read : Reading ω σ τ} (copies : ops.Copies read) :
    (ops.beside (τ := υ)).Copies read.beside := by
  intro w s x held
  obtain ⟨copied, keeps⟩ := copies w.1 s x held
  exact ⟨copied, keeps⟩

abbrev Consultation (ω σ : Type) := (σ × ω) × (σ × ω)

namespace Consultation

def mine (c : Consultation ω σ) : σ := c.1.1

def incoming (c : Consultation ω σ) : σ := c.2.1

def world (c : Consultation ω σ) : ω := c.1.2

def returned (policy : Policy ω σ) (c : Consultation ω σ) : σ :=
  (policy c.mine c.incoming c.world).1

end Consultation

def Policy.noted (policy : Policy ω σ) : Policy (ω × Array (Consultation ω σ)) σ :=
  policy.recorded fun s w => (s, w)

theorem joinsNoted {policy : Policy ω σ} {read : Reading ω σ τ} {join : τ → τ → τ}
    (joins : policy.Joins read join) : policy.noted.Joins read.beside join := by
  intro w a b x y left right
  obtain ⟨joined, keeps⟩ := joins w.1 a b x y left right
  exact ⟨joined, keeps⟩

namespace Intersection

/-- The entries of an input that are below theta and retained, in their order: each key with the
summary that is retained for it and with what the input brings. -/
def meetings (retained : List (Int × σ)) (theta : Int) (input : List (Int × ι)) :
    List (Int × σ × ι) :=
  input.filterMap fun e =>
    if e.1 < theta then (retained.lookup e.1).map fun mine => (e.1, mine, e.2) else none

def meetAll (step : σ → ι → ω → σ × ω) : List (Int × σ × ι) → ω → List (Int × σ) × ω
  | [], w => ([], w)
  | (key, mine, incoming) :: rest, w =>
      let (s, w) := step mine incoming w
      let (joined, w) := meetAll step rest w
      ((key, s) :: joined, w)

theorem joinAllMeets {t : EntryTable σ} (wf : t.WellFormed) (theta : Int)
    (step : σ → ι → ω → σ × ω) {input : List (Int × ι)} (nonzero : ∀ e ∈ input, e.1 ≠ 0) (w : ω) :
    joinAll t theta step input w =
      (.ok (meetAll step (meetings t.entries theta input) w).1,
        (meetAll step (meetings t.entries theta input) w).2) := by
  induction input generalizing w with
  | nil => rfl
  | cons e rest ih =>
    obtain ⟨key, incoming⟩ := e
    have nonzero' : ∀ e ∈ rest, e.1 ≠ 0 := fun e member => nonzero e (List.mem_cons_of_mem _ member)
    by_cases above : theta ≤ key
    · simp only [joinAll, if_pos above, ih nonzero', meetings, List.filterMap_cons,
        if_neg (not_lt.mpr above)]
    by_cases present : key ∈ t.keySet
    · obtain ⟨slot, mine, found, held, member⟩ := EntryTable.searchEntry wf present
      have kept : t.entries.lookup key = some mine :=
        lookupEntry (EntryTable.keysNodup wf) member
      simp only [joinAll, if_neg above, found, held, ih nonzero', meetings, List.filterMap_cons,
        if_pos (not_le.mp above), kept, Option.map_some, meetAll]
    · have lost : t.entries.lookup key = none := by
        rw [← Option.not_isSome_iff_eq_none, Option.isSome_iff_exists, lookupKey]
        exact present
      have nowhere := EntryTable.searchNothing wf (nonzero (key, incoming) (by simp)) present
      simp only [joinAll, if_neg above, nowhere, ih nonzero', meetings, List.filterMap_cons,
        if_pos (not_le.mp above), lost, Option.map_none]

theorem meetAllKeys (step : σ → ι → ω → σ × ω) (ms : List (Int × σ × ι)) (w : ω) :
    (meetAll step ms w).1.map Prod.fst = ms.map Prod.fst := by
  induction ms generalizing w with
  | nil => rfl
  | cons m rest ih => simp [meetAll, ih]

section Meetings
variable {retained : List (Int × σ)} {theta : Int} {input : List (Int × ι)}

theorem meetingsNothing : meetings ([] : List (Int × σ)) theta input = [] := by
  simp [meetings]

theorem meetingsKeys : (meetings retained theta input).map Prod.fst =
    (input.map Prod.fst).filter fun key => decide (key < theta ∧ key ∈ retained.map Prod.fst) := by
  induction input with
  | nil => rfl
  | cons e rest ih =>
    have met : (∃ s, retained.lookup e.1 = some s) ↔ e.1 ∈ retained.map Prod.fst :=
      lookupKey retained
    simp only [meetings, List.filterMap_cons, List.map_cons, List.filter_cons] at ih ⊢
    by_cases below : e.1 < theta
    · cases found : retained.lookup e.1 with
      | none =>
        have lost : e.1 ∉ retained.map Prod.fst := fun member => by
          simpa [found] using met.mpr member
        simp [below, lost, ih]
      | some mine =>
        have kept : e.1 ∈ retained.map Prod.fst := met.mp ⟨mine, found⟩
        simp only [below, kept, ih, if_true, Option.map_some, List.map_cons, and_self, decide_true]
    · simp [below, ih]

theorem meetingsMember {m : Int × σ × ι} (member : m ∈ meetings retained theta input) :
    (m.1, m.2.1) ∈ retained ∧ (m.1, m.2.2) ∈ input := by
  obtain ⟨e, inside, shows⟩ := List.mem_filterMap.mp member
  obtain ⟨_, shows⟩ := Option.ite_none_right_eq_some.mp shows
  obtain ⟨mine, found, rfl⟩ := Option.map_eq_some_iff.mp shows
  exact ⟨lookupMember found, inside⟩

end Meetings

theorem refineMeets {x : Intersection σ} (wf : ∀ t, x.table = some t → t.WellFormed)
    (step : σ → ι → ω → σ × ω) {input : List (Int × ι)} (nodup : (input.map Prod.fst).Nodup)
    (inRange : ∀ e ∈ input, 0 < e.1 ∧ e.1 ≤ maxTheta) (w : ω) :
    ∃ x', x.refine step input w =
        (.ok (), x', (meetAll step (meetings x.entries x.theta input) w).2) ∧
      x'.theta = x.theta ∧
      x'.entries.Perm (meetAll step (meetings x.entries x.theta input) w).1 := by
  have idle (nothing : x.entries = []) :
      (.ok (), x, w) = (Except.ok (ε := Fault) (), x,
        (meetAll step (meetings x.entries x.theta input) w).2) ∧
      x.theta = x.theta ∧ x.entries.Perm (meetAll step (meetings x.entries x.theta input) w).1 := by
    simp [nothing, meetingsNothing, meetAll]
  unfold refine
  cases held : x.table with
  | none => exact ⟨x, idle (by simp [entries, held])⟩
  | some t =>
    have good := wf t held
    have shown : x.entries = t.entries := by simp [entries, held]
    by_cases vacant : t.count = 0
    · simp only [if_pos vacant]
      rw [good.counted, List.length_eq_zero_iff, ← shown] at vacant
      exact ⟨x, idle vacant⟩
    have nonzero : ∀ e ∈ input, e.1 ≠ 0 := fun e member => (inRange e member).1.ne'
    simp only [if_neg vacant, joinAllMeets good x.theta step nonzero, ← shown]
    generalize met : meetAll step (meetings x.entries x.theta input) w = out
    have keys : out.1.map Prod.fst = (input.map Prod.fst).filter
        fun key => decide (key < x.theta ∧ key ∈ x.entries.map Prod.fst) := by
      rw [← met, meetAllKeys, meetingsKeys]
    obtain ⟨next, lg, built, holds⟩ := buildHolds (keys ▸ nodup.filter _) fun e member => by
      have inside := List.mem_of_mem_filter (keys ▸ List.mem_map_of_mem member)
      obtain ⟨e', offered, same⟩ := List.mem_map.mp inside
      exact same ▸ inRange e' offered
    exact ⟨{ x with table := some next }, by simp only [built, store], rfl, holds.entries⟩

def consult (policy : Policy ω σ) (prepare : σ → ι → ω → σ × ω) (mine : σ) (i : ι)
    (w : ω × Array (Consultation ω σ)) : σ × ω × Array (Consultation ω σ) :=
  policy.noted mine (prepare mine i w.1).1 ((prepare mine i w.1).2, w.2)

def Noted (read : Reading ω σ τ) (prepare : σ → ι → ω → σ × ω) (m : Int × σ × ι)
    (call : Consultation ω σ) : Prop :=
  call.mine = m.2.1 ∧
    ∃ u x, read u m.2.1 = some x ∧ prepare m.2.1 m.2.2 u = (call.incoming, call.world)

theorem meetAllNotes {policy : Policy ω σ} {prepare : σ → ι → ω → σ × ω} {read : Reading ω σ τ}
    {value : Reading (ω × Array (Consultation ω σ)) ι υ} {join : Unit → υ → Unit}
    (merges : Merges (consult policy prepare) read.alive.beside value join)
    (ms : List (Int × σ × ι)) {w : ω × Array (Consultation ω σ)}
    (mine : ∀ m ∈ ms, ∃ u, read.alive.beside w m.2.1 = some u)
    (incoming : ∀ m ∈ ms, ∃ y, value w m.2.2 = some y) :
    ∃ calls, (meetAll (consult policy prepare) ms w).2.2.toList = w.2.toList ++ calls ∧
      List.Forall₂ (Noted read prepare) ms calls ∧
      (meetAll (consult policy prepare) ms w).1 =
        (ms.map Prod.fst).zip (calls.map (Consultation.returned policy)) := by
  induction ms generalizing w with
  | nil => exact ⟨[], by simp [meetAll], .nil, rfl⟩
  | cons m rest ih =>
    obtain ⟨key, s, i⟩ := m
    obtain ⟨_, alive⟩ := mine _ List.mem_cons_self
    obtain ⟨_, given⟩ := incoming _ List.mem_cons_self
    obtain ⟨_, kept, kept'⟩ := merges w s i _ _ alive given
    -- The call may change what the summaries hold, but not whether they can be read.
    obtain ⟨calls, log, noted, joined⟩ := ih
      (fun m member =>
        have ⟨u, held⟩ := mine m (List.mem_cons_of_mem _ member)
        ⟨u, kept _ _ held⟩)
      (fun m member =>
        have ⟨y, held⟩ := incoming m (List.mem_cons_of_mem _ member)
        ⟨y, kept' _ _ held⟩)
    obtain ⟨x, held⟩ := aliveIff.mp alive
    let v := prepare s i w.1
    refine ⟨((s, v.2), (v.1, v.2)) :: calls, ?_, .cons ⟨rfl, w.1, x, held, rfl⟩ noted, ?_⟩
    · simp only [meetAll, log]
      simp [consult, Policy.noted, Policy.recorded, v]
    · simp only [meetAll, joined, List.map_cons, List.zip_cons_cons]
      rfl

def due (x : Intersection σ) (theta : Int) (c : Call σ) : List Int :=
  c.keys.filter fun key => decide (key < theta ∧ key ∈ x.entries.map Prod.fst)

section Calls
variable {read : Reading ω σ τ} {policy : Policy ω σ} {x : Intersection σ}
  {w : ω × Array (Consultation ω σ)}

theorem copyAllSilent {ops : SummaryOps ω σ} (input : List (Int × σ)) :
    (ops.beside.copyAll input w).2.2 = w.2 := by
  induction input generalizing w with
  | nil => rfl
  | cons e rest ih =>
    simp only [SummaryOps.copyAll, ih]
    rfl

theorem giveSilent {ops : SummaryOps ω σ} {c : Call σ} {w₀ : ω} (proper : c.Proper read w₀)
    (idle : x.started = false ∨ c.keys = []) :
    (x.give ops.beside policy.noted c w).2.2.2 = w.2 := by
  cases proper with
  | absent => rfl
  | absentKeys summary => rfl
  | tuples honest readable =>
    simp only [give, update]
    split
    · rfl
    · rename_i retains
      have first : x.started = false := idle.resolve_right fun zero =>
        retains ((offeredNothing ⟨rfl, rfl, honest⟩).mpr zero)
      simp only [first, Bool.false_eq_true, if_false]
      exact copyAllSilent _
  | keys honest readable =>
    simp only [give, updateKeys]
    split
    · rfl
    · rename_i retains
      have first : x.started = false := idle.resolve_right fun zero =>
        retains ((offeredNothing ⟨rfl, rfl, honest⟩).mpr zero)
      simp only [first, Bool.false_eq_true, if_false]

end Calls

/-- What a later input makes an intersection ask of its policy, call by call, and what of the
answers it retains. -/
structure Consults (ops : SummaryOps ω σ) (policy : Policy ω σ) (read : Reading ω σ τ)
    (x : Intersection σ) (c : Call σ) (x' : Intersection σ) (calls : List (Consultation ω σ)) :
    Prop where
  tuples : ∀ {kind sample}, c = .update (.tuples kind sample) →
    List.Forall₂ (fun m call => call.mine = m.2.1 ∧ call.incoming = m.2.2)
      (meetings x.entries x'.theta sample.entries) calls
  keys : ∀ {kind sample summary}, c = .updateKeys (.keys kind sample) summary →
    List.Forall₂ (fun m call => call.mine = m.2.1 ∧
        (∃ w, ops.copy m.2.1 w = (call.incoming, call.world)) ∧
        ∃ y, read call.world call.mine = some y ∧ read call.world call.incoming = some y)
      (meetings x.entries x'.theta (sample.entries.map (·, ()))) calls
  retained : x'.entries.Perm
    ((x.due x'.theta c).zip (calls.map (Consultation.returned policy)))

section Consulting
variable {ops : SummaryOps ω σ} {policy : Policy ω σ} {read : Reading ω σ τ}
  {before : List (Call σ)} {c : Call σ} {x x' : Intersection σ}
  {origin w : ω × Array (Consultation ω σ)}

theorem idleConsults
    (computes : Computes blind (fun _ _ => ()) origin w x' (before ++ [c]))
    (nothing : c.keys = []) : Consults ops policy read x c x' [] where
  tuples := by
    rintro kind sample rfl
    have blank : sample.entries = [] := by simpa [Call.keys] using nothing
    simp [blank, meetings]
  keys := by
    rintro kind sample summary rfl
    have blank : sample.entries = [] := nothing
    simp [blank, meetings]
  retained := by
    have bare : x'.entries.map Prod.fst = [] := List.eq_nil_iff_forall_not_mem.mpr
      fun key member => by
        have inside := ((computes.keys key).mp member).2.2 c (by simp)
        simp [nothing] at inside
    simp [List.map_eq_nil_iff.mp bare, due, nothing]

theorem restrictEntries {census : Census} (retains : census.retained ≠ 0) :
    (x.accept.restrict census).entries = x.entries := by
  rw [entries, restrictKeeps retains, entries]

theorem entriesReadable (readable : x.Readable read.beside w) :
    ∀ e ∈ x.entries, ∃ u, read.alive.beside w e.2 = some u := by
  intro e member
  cases kept : x.table with
  | none => simp [entries, kept] at member
  | some t =>
    have inside : e ∈ t.entries := by simpa [entries, kept] using member
    exact ⟨(), aliveIff.mpr (readable e.2 ⟨t, kept, EntryTable.hasEntry inside⟩)⟩

theorem laterNotes {prepare : σ → ι → ω → σ × ω}
    {value : Reading (ω × Array (Consultation ω σ)) ι υ} {join : Unit → υ → Unit}
    (merges : Merges (consult policy prepare) read.alive.beside value join)
    (computes : Computes blind (fun _ _ => ()) origin w x before)
    (held : x.Readable read.beside w) {census : Census} (retains : census.retained ≠ 0)
    (input : List (Int × ι)) (honest : census.Honest (input.map Prod.fst))
    (incoming : ∀ e ∈ input, ∃ y, value w e.2 = some y) :
    ∃ x' w' calls,
      (x.accept.restrict census).refine (consult policy prepare) input w = (.ok (), x', w') ∧
      w'.2.toList = w.2.toList ++ calls ∧
      List.Forall₂ (Noted read prepare) (meetings x.entries x'.theta input) calls ∧
      x'.entries.Perm (((input.map Prod.fst).filter fun key =>
        decide (key < x'.theta ∧ key ∈ x.entries.map Prod.fst)).zip
          (calls.map (Consultation.returned policy))) := by
  obtain ⟨x', ran, theta, left⟩ := refineMeets (x := x.accept.restrict census)
    (restrictKeeps (x := x) retains ▸ computes.table) (consult policy prepare) honest.nodup
    (fun e member => Census.honestRange honest e.1 (List.mem_map_of_mem member)) w
  rw [restrictEntries retains, ← theta] at ran left
  obtain ⟨calls, log, noted, joined⟩ := meetAllNotes merges
    (meetings x.entries x'.theta input) (w := w)
    (fun m member => entriesReadable held _ (meetingsMember member).1)
    (fun m member => incoming _ (meetingsMember member).2)
  refine ⟨x', _, calls, ran, log, noted, ?_⟩
  rw [← meetingsKeys, ← joined]
  exact left

theorem tuplesConsults (lasts : policy.Lasts read)
    (computes : Computes blind (fun _ _ => ()) origin w x before)
    (held : x.Readable read.beside w) (later : before ≠ []) {kind : String}
    {sample : Sample (Int × σ)} (honest : sample.census.Honest (sample.entries.map Prod.fst))
    (retains : sample.census.retained ≠ 0)
    (readable : ∀ e ∈ sample.entries, ∃ y, read.beside w e.2 = some y) :
    ∃ x' w' calls,
      x.update ops.beside policy.noted (.tuples kind sample) w = (.ok (), x', w') ∧
      w'.2.toList = w.2.toList ++ calls ∧
      Consults ops policy read x (.update (.tuples kind sample)) x' calls := by
  have started : x.started = true := computes.started.mpr later
  have merges : Merges (consult policy fun _ i u => (i, u)) read.alive.beside read.alive.beside
      fun _ _ => () := policyMerges (joinsNoted lasts)
  obtain ⟨x', w', calls, ran, log, noted, left⟩ := laterNotes merges computes held retains
    sample.entries honest fun e member => ⟨(), aliveIff.mpr (readable e member)⟩
  refine ⟨x', w', calls, ?_, log, ⟨?_, nofun, left⟩⟩
  · simp only [update, if_neg retains, started, if_true]
    exact ran
  · rintro _ _ ⟨⟩
    refine noted.imp ?_
    rintro m call ⟨mine, u, y, _, given⟩
    exact ⟨mine, (congrArg Prod.fst given).symm⟩

theorem keysConsults (copies : ops.Copies read) (lasts : policy.Lasts read)
    (computes : Computes blind (fun _ _ => ()) origin w x before)
    (held : x.Readable read.beside w) (later : before ≠ []) {kind : String}
    {sample : Sample Int} {summary : σ} (honest : sample.census.Honest sample.entries)
    (retains : sample.census.retained ≠ 0) :
    ∃ x' w' calls,
      x.updateKeys ops.beside policy.noted (.keys kind sample) summary w = (.ok (), x', w') ∧
      w'.2.toList = w.2.toList ++ calls ∧
      Consults ops policy read x (.updateKeys (.keys kind sample) summary) x' calls := by
  have started : x.started = true := computes.started.mpr later
  have merges : Merges (consult policy fun mine (_ : Unit) u => ops.copy mine u)
      read.alive.beside (fun _ _ => some ()) fun _ _ => () :=
    ownMerges (copiesBeside (copiesAlive copies)) (joinsNoted lasts)
  obtain ⟨x', w', calls, ran, log, noted, left⟩ := laterNotes merges computes held retains
    (sample.entries.map (·, ())) (by rw [keysAlike]; exact honest) fun _ _ => ⟨(), rfl⟩
  rw [keysAlike] at left
  refine ⟨x', w', calls, ?_, log, ⟨nofun, ?_, left⟩⟩
  · simp only [updateKeys, if_neg retains, started, if_true]
    exact ran
  · rintro _ _ _ ⟨⟩
    refine noted.imp ?_
    rintro m call ⟨mine, u, y, held, copied⟩
    obtain ⟨new, keeps⟩ := copies u m.2.1 y held
    simp only [copied] at new keeps
    exact ⟨mine, ⟨u, copied⟩, y, mine ▸ keeps _ _ held, new⟩

theorem livedComputes {ops : SummaryOps ω σ} {policy : Policy ω σ} {w : ω}
    (lived : Lived ops policy read (fun w c => c.Proper read w) before x w) (origin : ω) :
    Computes blind (fun _ _ => ()) origin w x before := by
  induction lived with
  | begun w => exact blindMoved (universalComputes blind (fun _ _ => ()) origin) w
  | @given past x w c lived proper ih =>
    obtain ⟨x', w', given, computes⟩ :=
      giveComputes (blindCopies ops) (blindJoins policy) ih (Call.properBlind proper origin)
    rw [given]
    exact computes
  | meanwhile _ _ ih => exact blindMoved ih _

abbrev Recounted (ops : SummaryOps ω σ) (policy : Policy ω σ) (read : Reading ω σ τ) :
    List (Call σ) → Intersection σ → ω × Array (Consultation ω σ) → Prop :=
  Lived ops.beside policy.noted read.beside fun w c => c.Proper read.beside w

/-- The policy is called once for each key of a later input that is below theta and retained, in
the order of the input, the retained summary first; what it returns is what is retained then. -/
theorem policyConsulted (copies : ops.Copies read) (lasts : policy.Lasts read)
    (lived : Recounted ops policy read before x w) (proper : c.Proper read.beside w) :
    ∃ x' w' calls, x.give ops.beside policy.noted c w = (.ok (), x', w') ∧
      w'.2.toList = w.2.toList ++ calls ∧
      (before = [] ∨ c.keys = [] → calls = []) ∧
      (before ≠ [] → Consults ops policy read x c x' calls) := by
  have computes := livedComputes lived w
  have held : x.Readable read.beside w := livedReadable (copiesBeside copies) (joinsNoted lasts)
    (fun _ _ proper _ shows => properShows proper shows) lived
  by_cases idle : before = [] ∨ c.keys = []
  · obtain ⟨x', w', given, after⟩ := giveComputes (blindCopies ops.beside)
      (blindJoins policy.noted) computes (Call.properBlind proper w)
    have silent : (x.give ops.beside policy.noted c w).2.2.2 = w.2 := by
      refine giveSilent (Call.properBlind proper w.1) (idle.imp_left fun first => ?_)
      rw [← Bool.not_eq_true, computes.started]
      simp [first]
    rw [given] at silent
    exact ⟨x', w', [], given, by simpa using congrArg Array.toList silent, fun _ => rfl,
      fun later => idleConsults after (idle.resolve_left later)⟩
  obtain ⟨later, shown⟩ := not_or.mp idle
  cases proper with
  | absent => simp [Call.keys] at shown
  | absentKeys summary => simp [Call.keys] at shown
  | tuples honest readable =>
    have many := mt (offeredNothing ⟨rfl, rfl, honest⟩).mp shown
    obtain ⟨x', w', calls, given, log, consults⟩ :=
      tuplesConsults lasts computes held later honest many readable
    exact ⟨x', w', calls, given, log, fun either => absurd either idle, fun _ => consults⟩
  | keys honest readable =>
    have many := mt (offeredNothing ⟨rfl, rfl, honest⟩).mp shown
    obtain ⟨x', w', calls, given, log, consults⟩ :=
      keysConsults copies lasts computes held later honest many
    exact ⟨x', w', calls, given, log, fun either => absurd either idle, fun _ => consults⟩

end Consulting

def minuends : Call Handle :=
  .update (.tuples QuickSelect.tupleKind ⟨⟨90, 2, false⟩, [(5, ⟨0⟩), (7, ⟨1⟩)]⟩)

def subtrahends : Call Handle :=
  .update (.tuples QuickSelect.tupleKind ⟨⟨80, 2, false⟩, [(9, ⟨1⟩), (7, ⟨0⟩)]⟩)

theorem policyConsultedDifference : ∃ x w x' w' calls,
    Recounted (.stored .sum) (.stored Summary.difference) Store.read? [minuends] x w ∧
    x.give (SummaryOps.stored .sum).beside (Policy.stored Summary.difference).noted subtrahends w =
      (.ok (), x', w') ∧
    w'.2.toList = w.2.toList ++ calls ∧ calls.length = 1 ∧
    Consults (.stored .sum) (.stored Summary.difference) Store.read? x subtrahends x' calls := by
  let start : Store × Array (Consultation Store Handle) := (pairedStore, #[])
  let held := universal.give (SummaryOps.stored .sum).beside
    (Policy.stored Summary.difference).noted minuends start
  have first : minuends.Proper (Reading.beside Store.read?) start := by
    refine .tuples ⟨by decide, by decide, by decide, by decide⟩ ?_
    simp only [List.forall_mem_cons]
    exact ⟨⟨_, rfl⟩, ⟨_, rfl⟩, by simp⟩
  have lived : Recounted (.stored .sum) (.stored Summary.difference) Store.read? [minuends]
      held.2.1 held.2.2 := .given (.begun start) first
  have proper : subtrahends.Proper (Reading.beside Store.read?) held.2.2 := by
    refine .tuples ⟨by decide, by decide, by decide, by decide⟩ ?_
    simp only [List.forall_mem_cons]
    exact ⟨⟨_, rfl⟩, ⟨_, rfl⟩, by simp⟩
  obtain ⟨x', w', calls, given, log, _, consults⟩ := policyConsulted (storedCopies .sum)
    (joinsLasts (storedJoins Summary.difference)) lived proper
  have before : held.2.2.2.toList = [] := by decide +kernel
  have once : (held.2.1.give (SummaryOps.stored .sum).beside
      (Policy.stored Summary.difference).noted subtrahends held.2.2).2.2.2.toList.length = 1 := by
    decide +kernel
  rw [given, log, before] at once
  exact ⟨_, _, x', w', calls, lived, given, log, once, consults (by simp)⟩

end Intersection
end KeySampling
