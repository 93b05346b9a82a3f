import KeySampling.Proofs.Intersection.Reference

/-! An intersection computes what its inputs say. Theta, the emptiness flag and the table agree
with the inputs so far after every one of them, whichever degenerate inputs lie in between; that a
pass drops keys by an intermediate theta does no harm, since no later theta lets them back in. -/
namespace KeySampling
namespace Intersection
variable {ω σ τ : Type}

def give (ops : SummaryOps ω σ) (policy : Policy ω σ) (x : Intersection σ) :
    Call σ → ω → Except Fault Unit × Intersection σ × ω
  | .update input, w => x.update ops policy input w
  | .updateKeys input summary, w => x.updateKeys ops policy input summary w

def giveAll (ops : SummaryOps ω σ) (policy : Policy ω σ) (x : Intersection σ) :
    List (Call σ) → ω → Except Fault Unit × Intersection σ × ω
  | [], w => (.ok (), x, w)
  | call :: rest, w =>
      match x.give ops policy call w with
      | (.error f, x, w) => (.error f, x, w)
      | (.ok (), x, w) => x.giveAll ops policy rest w

theorem updateAllGiven {ops : SummaryOps ω σ} {policy : Policy ω σ} {x : Intersection σ}
    {inputs : List (Operand σ)} {w : ω} :
    x.updateAll ops policy inputs w = x.giveAll ops policy (inputs.map Call.update) w := by
  induction inputs generalizing x w with
  | nil => rfl
  | cons input rest ih =>
    simp only [updateAll, List.map_cons, giveAll, give]
    cases x.update ops policy input w with
    | mk r next =>
      cases r with
      | error f => rfl
      | ok _ => exact ih

def entries (x : Intersection σ) : List (Int × σ) :=
  match x.table with
  | none => []
  | some t => t.entries

structure Computes (read : Reading ω σ τ) (join : τ → τ → τ) (origin w : ω) (x : Intersection σ)
    (calls : List (Call σ)) : Prop where
  keeps : read.Keeps origin w
  started : x.started = true ↔ calls ≠ []
  theta : x.theta = Call.thetaSince calls
  empty : x.empty = true ↔ ∃ c ∈ calls, c.absent = true ∨ c.keys = [] ∧ c.theta = maxTheta
  table : ∀ t, x.table = some t → t.WellFormed
  keys : ∀ key, key ∈ x.entries.map Prod.fst ↔
    calls ≠ [] ∧ key < x.theta ∧ ∀ c ∈ calls, key ∈ c.keys
  contents : read.Finds w x.entries fun key => Call.outcome join read origin key calls

theorem universalComputes (read : Reading ω σ τ) (join : τ → τ → τ) (w : ω) :
    Computes read join w w (universal : Intersection σ) [] := by
  refine ⟨keepsSelf read w, ?_, rfl, ?_, ?_, ?_, ?_⟩ <;>
    simp [universal, entries, Reading.Finds]

variable {read : Reading ω σ τ} {join : τ → τ → τ} {origin w w' : ω} {x : Intersection σ}
  {calls : List (Call σ)} {c : Call σ}

theorem collapseComputes (computes : Computes read join origin w x calls)
    (missing : c.absent = true) (nothing : c.keys = []) :
    Computes read join origin w x.accept.collapse (calls ++ [c]) := by
  refine ⟨computes.keeps, by simp [accept, collapse], ?_, ?_, by simp [collapse], ?_, ?_⟩
  · rw [Call.thetaSinceAbsent missing]
    rfl
  · refine ⟨fun _ => ⟨c, by simp, .inl missing⟩, fun _ => rfl⟩
  · intro key
    refine ⟨by simp [collapse, entries], fun inside => ?_⟩
    have impossible := inside.2.2 c (by simp)
    simp [nothing] at impossible
  · simp [Reading.Finds, collapse, entries]

section Present
variable {census : Census}

theorem restrictLower : (x.accept.restrict census).theta ≤ x.theta := min_le_left _ _

theorem restrictTheta (computes : Computes read join origin w x calls) (offers : c.Offers census) :
    (x.accept.restrict census).theta = Call.thetaSince (calls ++ [c]) := by
  rw [Call.thetaSincePresent offers.present, ← computes.theta, offers.theta]
  rfl

theorem offeredNothing (offers : c.Offers census) : census.retained = 0 ↔ c.keys = [] := by
  rw [offers.honest.counted, Int.natCast_eq_zero, List.length_eq_zero_iff]

theorem restrictEmpty (computes : Computes read join origin w x calls) (offers : c.Offers census) :
    (x.accept.restrict census).empty = true ↔
      ∃ c' ∈ calls ++ [c], c'.absent = true ∨ c'.keys = [] ∧ c'.theta = maxTheta := by
  simp only [restrict, accept, Bool.or_eq_true, decide_eq_true_eq, computes.empty,
    offeredNothing offers, List.mem_append, List.mem_singleton, or_and_right, exists_or,
    exists_eq_left, offers.present, offers.theta, Bool.false_eq_true, false_or]

theorem laterKeys (computes : Computes read join origin w x calls) (later : calls ≠ [])
    (key : Int) :
    (key ∈ c.keys ∧ key < (x.accept.restrict census).theta ∧ key ∈ x.entries.map Prod.fst) ↔
      key < (x.accept.restrict census).theta ∧ ∀ c' ∈ calls ++ [c], key ∈ c'.keys := by
  rw [computes.keys]
  constructor
  · intro all
    refine ⟨all.2.1, fun c' member => ?_⟩
    rcases List.mem_append.mp member with old | new
    · exact all.2.2.2.2 c' old
    · exact List.mem_singleton.mp new ▸ all.1
  · intro all
    -- Theta only falls, so a key below it now was below it at every earlier pass.
    exact ⟨all.2 c (by simp), all.1, later, lt_of_lt_of_le all.1 restrictLower,
      fun c' member => all.2 c' (List.mem_append_left _ member)⟩

theorem barrenComputes (computes : Computes read join origin w x calls) (offers : c.Offers census)
    (wf : ∀ t, (x.accept.restrict census).table = some t → t.WellFormed)
    (nothing : (x.accept.restrict census).entries = [])
    (barren : ∀ key, key < (x.accept.restrict census).theta →
      ¬ ∀ c' ∈ calls ++ [c], key ∈ c'.keys) :
    Computes read join origin w (x.accept.restrict census) (calls ++ [c]) := by
  refine ⟨computes.keeps, by simp [accept, restrict], restrictTheta computes offers,
    restrictEmpty computes offers, wf, ?_, ?_⟩
  · intro key
    rw [nothing]
    exact ⟨by simp, fun inside => absurd inside.2.2 (barren key inside.2.1)⟩
  · simp [Reading.Finds, nothing]

theorem clearComputes (computes : Computes read join origin w x calls) (offers : c.Offers census)
    (zero : census.retained = 0) :
    Computes read join origin w (x.accept.restrict census) (calls ++ [c]) := by
  have cleared : (x.accept.restrict census).table = Option.none := by simp [restrict, zero]
  have nothing := (offeredNothing offers).mp zero
  refine barrenComputes computes offers (by simp [cleared]) (by simp [entries, cleared]) ?_
  intro key _ all
  have impossible := all c (by simp)
  simp [nothing] at impossible

theorem idleComputes (computes : Computes read join origin w x calls) (later : calls ≠ [])
    (offers : c.Offers census) (kept : (x.accept.restrict census).table = x.table)
    (nothing : x.entries = []) :
    Computes read join origin w (x.accept.restrict census) (calls ++ [c]) := by
  have nothing' : (x.accept.restrict census).entries = [] := by rw [← nothing, entries, kept]; rfl
  refine barrenComputes computes offers (kept ▸ computes.table) nothing' fun key below all => ?_
  have held := ((laterKeys computes later key).mpr ⟨below, all⟩).2.2
  simp [nothing] at held

theorem storeComputes (computes : Computes read join origin w x calls) (offers : c.Offers census)
    (keeps : read.Keeps w w') {new : List (Int × σ)} (nodup : (new.map Prod.fst).Nodup)
    (keys : ∀ key, key ∈ new.map Prod.fst ↔
      key < (x.accept.restrict census).theta ∧ ∀ c' ∈ calls ++ [c], key ∈ c'.keys)
    (contents : read.Finds w' new fun key => Call.outcome join read origin key (calls ++ [c])) :
    ∃ x', (x.accept.restrict census).store (build new.length new) = (.ok (), x') ∧
      Computes read join origin w' x' (calls ++ [c]) := by
  have inRange : ∀ e ∈ new, 0 < e.1 ∧ e.1 ≤ maxTheta := by
    intro e member
    have all := ((keys e.1).mp (List.mem_map_of_mem member)).2
    exact Census.honestRange offers.honest e.1 (all c (by simp))
  obtain ⟨t, lg, built, holds⟩ := buildHolds nodup inRange
  refine ⟨{ x.accept.restrict census with table := some t }, by rw [built, store], ?_⟩
  refine ⟨keepsTrans computes.keeps keeps, by simp [accept, restrict],
    restrictTheta computes offers, restrictEmpty computes offers, ?_, ?_, ?_⟩
  · intro other found
    cases Option.some.inj found
    exact holds.wellFormed
  · intro key
    have moved : key ∈ t.entries.map Prod.fst ↔ key ∈ new.map Prod.fst :=
      (holds.entries.map Prod.fst).mem_iff
    simp only [entries, moved, keys, ne_eq, List.append_eq_nil_iff, List.cons_ne_self, and_false,
      not_false_eq_true, true_and]
  · intro e member
    exact contents e (holds.entries.mem_iff.mp member)

theorem refineComputes {ι υ : Type} {step : σ → ι → ω → σ × ω} {value : Reading ω ι υ}
    {merge : τ → υ → τ} (merges : Merges step read value merge)
    (computes : Computes read join origin w x calls) (later : calls ≠ [])
    (offers : c.Offers census) (retains : census.retained ≠ 0) {input : List (Int × ι)}
    (keys : input.map Prod.fst = c.keys) (new : Int → Option υ) (incoming : value.Finds w input new)
    (agrees : ∀ key x, c.join join read origin key x = (new key).map (merge x)) :
    ∃ x' w', (x.accept.restrict census).refine step input w = (.ok (), x', w') ∧
      Computes read join origin w' x' (calls ++ [c]) := by
  have kept : (x.accept.restrict census).table = x.table := by simp [restrict, accept, retains]
  have idle := idleComputes computes later offers kept
  unfold refine
  rw [kept]
  cases held : x.table with
  | none => exact ⟨_, w, rfl, idle (by simp [entries, held])⟩
  | some t =>
    have wf := computes.table t held
    have shown : x.entries = t.entries := by simp [entries, held]
    by_cases vacant : t.count = 0
    · simp only [if_pos vacant]
      rw [wf.counted, List.length_eq_zero_iff, ← shown] at vacant
      exact ⟨_, w, rfl, idle vacant⟩
    simp only [if_neg vacant]
    have mine : read.Finds w t.entries fun key => Call.outcome join read origin key calls :=
      shown ▸ computes.contents
    have nonzero : ∀ e ∈ input, e.1 ≠ 0 := fun e member =>
      (offers.honest.inRange e.1 (keys ▸ List.mem_map_of_mem member)).1.ne'
    obtain ⟨joined, w', ok, keeps, matched, finds⟩ :=
      joinAllMatches merges wf (x.accept.restrict census).theta nonzero mine incoming
    have nodup : (joined.map Prod.fst).Nodup := by
      rw [matched, keys]
      exact offers.honest.nodup.filter _
    have inside (key : Int) : key ∈ joined.map Prod.fst ↔
        key < (x.accept.restrict census).theta ∧ ∀ c' ∈ calls ++ [c], key ∈ c'.keys := by
      rw [matched, keys, List.mem_filter, decide_eq_true_eq, EntryTable.keySet, ← shown]
      exact laterKeys computes later key
    have contents : read.Finds w' joined fun key =>
        Call.outcome join read origin key (calls ++ [c]) := by
      intro e member
      obtain ⟨y, said, read⟩ := finds e member
      refine ⟨y, ?_, read⟩
      simpa only [Call.outcomeSnoc later, agrees] using said
    obtain ⟨x', stored, after⟩ := storeComputes computes offers keeps nodup inside contents
    exact ⟨x', w', by simp only [ok, stored], after⟩

theorem seedComputes (computes : Computes read join origin w x []) (offers : c.Offers census)
    (keeps : read.Keeps w w') {new : List (Int × σ)} (keys : new.map Prod.fst = c.keys)
    (contents : read.Finds w' new fun key => c.seed read origin key) :
    ∃ x', (x.accept.restrict census).store (build census.retained new) = (.ok (), x') ∧
      Computes read join origin w' x' [c] := by
  have length : census.retained = new.length := by
    rw [offers.honest.counted, ← keys, List.length_map]
  have theta : (x.accept.restrict census).theta = census.theta := by
    rw [restrictTheta computes offers, Call.thetaSincePresent offers.present, offers.theta]
    exact min_eq_right offers.honest.bound
  rw [length]
  refine storeComputes computes offers keeps (keys ▸ offers.honest.nodup) ?_ contents
  intro key
  rw [keys, theta]
  constructor
  · intro member
    refine ⟨(offers.honest.inRange key member).2, fun c' single => ?_⟩
    exact List.mem_singleton.mp single ▸ member
  · exact fun inside => inside.2 c (by simp)

end Present

theorem sampleFinds {entries : List (Int × σ)} (nodup : (entries.map Prod.fst).Nodup)
    (readable : ∀ e ∈ entries, ∃ y, read origin e.2 = some y) (keeps : read.Keeps origin w) :
    read.Finds w entries fun key => (entries.lookup key).bind (read origin) := by
  intro e member
  obtain ⟨y, held⟩ := readable e member
  exact ⟨y, by simp [lookupEntry nodup member, held], keeps e.2 y held⟩

section Steps
variable {ops : SummaryOps ω σ} {policy : Policy ω σ}

theorem policyMerges (joins : policy.Joins read join) : Merges policy read read join := by
  intro w a b y z left right
  obtain ⟨merged, keeps⟩ := joins w a b y z left right
  exact ⟨merged, keeps, keeps⟩

theorem ownMerges (copies : ops.Copies read) (joins : policy.Joins read join) :
    Merges (fun mine (_ : Unit) w => policy mine (ops.copy mine w).1 (ops.copy mine w).2)
      read (fun _ _ => some ()) fun y _ => join y y := by
  intro w a i y z held _
  obtain ⟨copied, kept⟩ := copies w a y held
  obtain ⟨merged, keeps⟩ := joins _ _ _ y y (kept a y held) copied
  exact ⟨merged, keepsTrans kept keeps, fun _ _ same => same⟩

theorem tuplesComputes (copies : ops.Copies read) (joins : policy.Joins read join)
    (computes : Computes read join origin w x calls) {kind : String} {sample : Sample (Int × σ)}
    (honest : sample.census.Honest (sample.entries.map Prod.fst))
    (readable : ∀ e ∈ sample.entries, ∃ y, read origin e.2 = some y) :
    ∃ x' w', x.update ops policy (.tuples kind sample) w = (.ok (), x', w') ∧
      Computes read join origin w' x' (calls ++ [.update (.tuples kind sample)]) := by
  have offers : Call.Offers (.update (.tuples kind sample)) sample.census := ⟨rfl, rfl, honest⟩
  have finds := sampleFinds honest.nodup readable computes.keeps
  simp only [update]
  by_cases zero : sample.census.retained = 0
  · simp only [if_pos zero]
    exact ⟨_, w, rfl, clearComputes computes offers zero⟩
  simp only [if_neg zero]
  by_cases first : calls = []
  · subst first
    have fresh : ¬ x.started = true := by simp [computes.started]
    obtain ⟨keys, copied, keeps⟩ := copyAllFinds copies finds
    obtain ⟨x', stored, after⟩ := seedComputes computes offers keeps keys copied
    exact ⟨x', _, by simp only [if_neg fresh, stored], after⟩
  · have started : x.started = true := computes.started.mpr first
    simp only [if_pos started]
    exact refineComputes (policyMerges joins) computes first offers zero rfl _ finds fun _ _ => rfl

theorem keysAlike {α : Type} (keys : List Int) (a : α) : (keys.map (·, a)).map Prod.fst = keys := by
  rw [List.map_map]
  exact List.map_id keys

theorem keysComputes (copies : ops.Copies read) (joins : policy.Joins read join)
    (computes : Computes read join origin w x calls) {kind : String} {sample : Sample Int}
    {summary : σ} {y : τ} (honest : sample.census.Honest sample.entries)
    (readable : read origin summary = some y) :
    ∃ x' w', x.updateKeys ops policy (.keys kind sample) summary w = (.ok (), x', w') ∧
      Computes read join origin w' x' (calls ++ [.updateKeys (.keys kind sample) summary]) := by
  have offers : Call.Offers (.updateKeys (.keys kind sample) summary) sample.census :=
    ⟨rfl, rfl, honest⟩
  simp only [updateKeys]
  by_cases zero : sample.census.retained = 0
  · simp only [if_pos zero]
    exact ⟨_, w, rfl, clearComputes computes offers zero⟩
  simp only [if_neg zero]
  by_cases first : calls = []
  · subst first
    have fresh : ¬ x.started = true := by simp [computes.started]
    have placed : read.Finds w (sample.entries.map (·, summary)) fun key =>
        Call.seed read origin key (.updateKeys (.keys kind sample) summary) := by
      intro e member
      obtain ⟨key, inside, rfl⟩ := List.mem_map.mp member
      exact ⟨y, by simp [Call.seed, inside, readable], computes.keeps summary y readable⟩
    obtain ⟨x', stored, after⟩ :=
      seedComputes computes offers (keepsSelf read w) (keysAlike sample.entries summary) placed
    exact ⟨x', w, by simp only [if_neg fresh, stored], after⟩
  · have started : x.started = true := computes.started.mpr first
    simp only [if_pos started]
    refine refineComputes (ownMerges copies joins) computes first offers zero (keysAlike _ _)
      (fun key => if key ∈ sample.entries then some () else Option.none) ?_ ?_
    · intro e member
      obtain ⟨key, inside, rfl⟩ := List.mem_map.mp member
      exact ⟨(), by simp [inside], rfl⟩
    · intro key z
      by_cases inside : key ∈ sample.entries <;> simp [Call.join, inside]

theorem giveComputes (copies : ops.Copies read) (joins : policy.Joins read join)
    (computes : Computes read join origin w x calls) (proper : c.Proper read origin) :
    ∃ x' w', x.give ops policy c w = (.ok (), x', w') ∧
      Computes read join origin w' x' (calls ++ [c]) := by
  cases proper with
  | absent => exact ⟨_, w, rfl, collapseComputes computes rfl rfl⟩
  | absentKeys summary => exact ⟨_, w, rfl, collapseComputes computes rfl rfl⟩
  | tuples honest readable => exact tuplesComputes copies joins computes honest readable
  | keys honest readable => exact keysComputes copies joins computes honest readable

theorem giveAllComputes (copies : ops.Copies read) (joins : policy.Joins read join)
    {next : List (Call σ)} (computes : Computes read join origin w x calls)
    (proper : ∀ c ∈ next, c.Proper read origin) :
    ∃ x' w', x.giveAll ops policy next w = (.ok (), x', w') ∧
      Computes read join origin w' x' (calls ++ next) := by
  induction next generalizing x w calls with
  | nil => exact ⟨x, w, rfl, by simpa using computes⟩
  | cons c rest ih =>
    obtain ⟨x₁, w₁, given, after⟩ := giveComputes copies joins computes (proper c (by simp))
    have proper' : ∀ c ∈ rest, c.Proper read origin := fun c member =>
      proper c (List.mem_cons_of_mem _ member)
    obtain ⟨x', w', run, computed⟩ := ih after proper'
    exact ⟨x', w', by simp only [giveAll, given, run], by simpa using computed⟩

end Steps
end Intersection
end KeySampling
