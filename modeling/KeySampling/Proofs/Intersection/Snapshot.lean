import KeySampling.Proofs.KeyTable.Mapping
import KeySampling.Proofs.Summary.Effects
import KeySampling.Proofs.Intersection.Matching

/-! An intersection in a store of shared summaries, seen as one that holds values. It reads its
input once, while it is given, and whatever it keeps of it are summaries of its own. So it does
what it would do if each summary were replaced by its contents. -/
namespace KeySampling

def Operand.map {σ τ : Type} (f : σ → τ) : Operand σ → Operand τ
  | .absent => .absent
  | .tuples kind sample => .tuples kind ⟨sample.census, sample.entries.map (Prod.map id f)⟩
  | .keys kind sample => .keys kind sample
  | .other kind => .other kind

def Operand.entries {σ : Type} : Operand σ → List (Int × σ)
  | .tuples _ sample => sample.entries
  | _ => []

theorem Operand.mapAlike {σ τ : Type} {f g : σ → τ} {input : Operand σ}
    (alike : ∀ e ∈ input.entries, f e.2 = g e.2) : input.map f = input.map g := by
  cases input with
  | tuples kind sample =>
    have same : sample.entries.map (Prod.map id f) = sample.entries.map (Prod.map id g) :=
      List.map_congr_left fun e member => Prod.ext rfl (alike e member)
    simp only [Operand.map, same]
  | absent | keys _ _ | other _ => rfl

def Compact.map {σ τ : Type} (f : σ → τ) (c : Compact σ) : Compact τ :=
  { c with entries := c.entries.map (Prod.map id f) }

/-- A policy that makes a new summary from what two summaries hold, and changes none. -/
structure Policy.Makes (policy : Policy Store Handle) (join : Summary → Summary → Summary) :
    Prop where
  joins : policy.Joins Store.read? join
  new : ∀ {store : Store} {a b : Handle}, store.Live a → store.Live b →
    ¬ store.Live (policy a b store).1

/-- A policy that makes a new summary and changes none. What it makes may depend on all there is. -/
structure Policy.Renews (policy : Policy Store Handle) : Prop where
  keeps : ∀ {store : Store} {a b : Handle}, store.Live a → store.Live b →
    Reading.Keeps Store.read? store (policy a b store).2
  live : ∀ {store : Store} {a b : Handle}, store.Live a → store.Live b →
    (policy a b store).2.Live (policy a b store).1
  new : ∀ {store : Store} {a b : Handle}, store.Live a → store.Live b →
    ¬ store.Live (policy a b store).1

theorem makesRenews {policy : Policy Store Handle} {join : Summary → Summary → Summary}
    (makes : Policy.Makes policy join) : Policy.Renews policy where
  keeps mine incoming :=
    (makes.joins _ _ _ _ _ (Store.liveRead mine) (Store.liveRead incoming)).2
  live mine incoming :=
    ⟨_, (makes.joins _ _ _ _ _ (Store.liveRead mine) (Store.liveRead incoming)).1⟩
  new := makes.new

theorem storedMakes (join : Summary → Summary → Summary) :
    Policy.Makes (Policy.stored join) join :=
  ⟨storedJoins join, fun _ _ => Store.newDead _ _⟩

inductive Renewed (before : Store) : Except Fault (List (Int × Handle)) × Store → Prop
  | failed {f : Fault} {after : Store} (keeps : Reading.Keeps Store.read? before after) :
      Renewed before (.error f, after)
  | made {after : Store} {entries : List (Int × Handle)} (fresh : Fresh before after entries) :
      Renewed before (.ok entries, after)

inductive Mirrors (before : Store) : Except Fault (List (Int × Handle)) × Store →
    Except Fault (List (Int × Summary)) × Unit → Prop
  | failed {f : Fault} {after : Store} (keeps : Reading.Keeps Store.read? before after) :
      Mirrors before (.error f, after) (.error f, ())
  | made {after : Store} {entries : List (Int × Handle)} {contents : List (Int × Summary)}
      (made : Made before after entries contents) :
      Mirrors before (.ok entries, after) (.ok contents, ())

inductive Yields (before : Store) : Except Fault (Compact Handle) × Store →
    Except Fault (Compact Summary) × Unit → Prop
  | failed {f : Fault} {after : Store} (keeps : Reading.Keeps Store.read? before after) :
      Yields before (.error f, after) (.error f, ())
  | made {after : Store} {c : Compact Handle} {contents : List (Int × Summary)}
      (made : Made before after c.entries contents) :
      Yields before (.ok c, after) (.ok ⟨contents, c.theta, c.empty, c.memoryLimit⟩, ())

theorem yieldsReads {before : Store} {r : Except Fault (Compact Handle) × Store}
    {v : Except Fault (Compact Summary) × Unit} (yields : Yields before r v) :
    v.1 = r.1.map (Compact.map r.2.read) := by
  cases yields with
  | failed _ => rfl
  | made made => simp [Except.map, Compact.map, made.reads]

namespace Intersection
variable {σ τ : Type}

theorem joinAllRenewed {policy : Policy Store Handle} (renews : Policy.Renews policy)
    {t : EntryTable Handle} (theta : Int) {entries : List (Int × Handle)} {store : Store}
    (mine : ∀ h, t.Has h → store.Live h) (live : ∀ e ∈ entries, store.Live e.2) :
    Renewed store (joinAll t theta policy entries store) := by
  induction entries generalizing store with
  | nil => exact .made (freshNil store)
  | cons e rest ih =>
    obtain ⟨key, h⟩ := e
    rw [List.forall_mem_cons] at live
    have passed := ih mine live.2
    simp only [joinAll]
    split
    · exact passed
    cases t.keys.search t.lg key with
    | error f => exact .failed (keepsSelf Store.read? store)
    | ok place =>
      cases place with
      | none => exact passed
      | some slot =>
        cases held : t.summaryAt? slot with
        | none => simpa [held] using .failed (keepsSelf Store.read? store)
        | some g =>
          have own := mine g (EntryTable.hasSummaryAt held)
          have keeps := renews.keeps own live.1
          have later := ih (fun k has => Store.keepsLive keeps (mine k has))
            fun e member => Store.keepsLive keeps (live.2 e member)
          simp only [held]
          generalize joinAll t theta policy rest (policy g h store).2 = r at later ⊢
          cases later with
          | failed after => exact .failed (keepsTrans keeps after)
          | made fresh =>
            exact .made (freshCons keeps (renews.new own live.1) (renews.live own live.1) fresh)

theorem joinAllMirrors {policy : Policy Store Handle} {join : Summary → Summary → Summary}
    (makes : Policy.Makes policy join) {t : EntryTable Handle} (theta : Int)
    {entries : List (Int × Handle)} {store : Store} (mine : ∀ h, t.Has h → store.Live h)
    (live : ∀ e ∈ entries, store.Live e.2) :
    Mirrors store (joinAll t theta policy entries store)
      (joinAll (t.map store.read) theta (Policy.ofFunction join)
        (entries.map (Prod.map id store.read)) ()) := by
  induction entries generalizing store with
  | nil => exact .made (madeNil store)
  | cons e rest ih =>
    obtain ⟨key, h⟩ := e
    rw [List.forall_mem_cons] at live
    have passed := ih mine live.2
    simp only [List.map_cons, Prod.map_apply, id_eq, joinAll, EntryTable.mapSummaryAt,
      EntryTable.mapKeys, EntryTable.mapLg]
    split
    · exact passed
    cases t.keys.search t.lg key with
    | error f => exact .failed (keepsSelf Store.read? store)
    | ok place =>
      cases place with
      | none => exact passed
      | some slot =>
        cases held : t.summaryAt? slot with
        | none => simpa [held] using .failed (keepsSelf Store.read? store)
        | some g =>
          have own := mine g (EntryTable.hasSummaryAt held)
          obtain ⟨joined, keeps⟩ := makes.joins store g h _ _ (Store.liveRead own)
            (Store.liveRead live.1)
          have later := ih (fun k has => Store.keepsLive keeps (mine k has))
            fun e member => Store.keepsLive keeps (live.2 e member)
          -- The rest is joined in the store after the policy, where the table reads as it did.
          have alike : t.map (policy g h store).2.read = t.map store.read :=
            EntryTable.mapAlike fun k has => Store.keepsRead keeps (mine k has)
          rw [readsKept keeps live.2, alike] at later
          have applied (x y : Summary) : Policy.ofFunction join x y () = (join x y, ()) := rfl
          simp only [held, Option.map_some, applied]
          generalize joinAll t theta policy rest (policy g h store).2 = r at later ⊢
          generalize joinAll (t.map store.read) theta (Policy.ofFunction join)
            (rest.map (Prod.map id store.read)) () = v at later ⊢
          cases later with
          | failed after => exact .failed (keepsTrans keeps after)
          | made made => exact .made (madeCons keeps (makes.new own live.1) joined made)

def map (f : σ → τ) (x : Intersection σ) : Intersection τ :=
  { x with table := x.table.map (EntryTable.map f) }

def Has (x : Intersection σ) (s : σ) : Prop := ∃ t, x.table = some t ∧ t.Has s

section Map
variable (f : σ → τ) (x : Intersection σ)

theorem mapAlike {x : Intersection σ} {f g : σ → τ} (alike : ∀ s, x.Has s → f s = g s) :
    x.map f = x.map g := by
  have same : x.table.map (EntryTable.map f) = x.table.map (EntryTable.map g) :=
    Option.map_congr fun t kept => EntryTable.mapAlike fun s has => alike s ⟨t, kept, has⟩
  simp only [map, same]

theorem mapRestrict (census : Census) :
    (x.map f).accept.restrict census = (x.accept.restrict census).map f := by
  simp only [restrict, accept, map]
  split <;> rfl

theorem mapBuild (declared : Int) (entries : List (Int × σ)) :
    build declared (entries.map (Prod.map id f)) =
      (build declared entries).map (EntryTable.map f) := by
  simp only [build, EntryTable.mapOfEntries]
  split <;> rfl

theorem mapStore (built : Except Fault (EntryTable σ)) :
    (x.map f).store (built.map (EntryTable.map f)) =
      ((x.store built).1, (x.store built).2.map f) := by
  cases built <;> rfl

theorem restrictHas {x : Intersection σ} {census : Census} {s : σ}
    (has : (x.accept.restrict census).Has s) : x.Has s := by
  obtain ⟨t, kept, has⟩ := has
  simp only [restrict, accept] at kept
  split at kept
  · contradiction
  · exact ⟨t, kept, has⟩

theorem storeHas {x : Intersection σ} {declared : Int} {entries : List (Int × σ)} {s : σ}
    (has : (x.store (build declared entries)).2.Has s) : x.Has s ∨ ∃ e ∈ entries, e.2 = s := by
  cases built : build declared entries with
  | error fault => exact .inl (by simpa [built, store] using has)
  | ok t =>
    rw [built] at has
    obtain ⟨next, kept, has⟩ := has
    cases (Option.some.inj kept : t = next)
    obtain ⟨lg, ok⟩ := buildFilled built
    exact .inr (EntryTable.ofEntriesHas ok has)

end Map

structure Frames (x : Intersection Handle) (before : Store)
    (r : Except Fault Unit × Intersection Handle × Store) : Prop where
  keeps : Reading.Keeps Store.read? before r.2.2
  own : ∀ h, r.2.1.Has h → r.2.2.Live h ∧ (x.Has h ∨ ¬ before.Live h)

def seen (r : Except Fault Unit × Intersection Handle × Store) :
    Except Fault Unit × Intersection Summary × Unit := (r.1, r.2.1.map r.2.2.read, ())

section Update
variable {x y : Intersection Handle} {before after : Store}

theorem keptReads (keeps : Reading.Keeps Store.read? before after)
    (live : ∀ h, x.Has h → before.Live h) : x.map after.read = x.map before.read :=
  mapAlike fun h has => Store.keepsRead keeps (live h has)

theorem stoodFrames (keeps : Reading.Keeps Store.read? before after)
    (live : ∀ h, x.Has h → before.Live h) (fewer : ∀ h, y.Has h → x.Has h)
    (r : Except Fault Unit) : Frames x before (r, y, after) :=
  ⟨keeps, fun h has => ⟨Store.keepsLive keeps (live h (fewer h has)), .inl (fewer h has)⟩⟩

theorem stoodSeen (keeps : Reading.Keeps Store.read? before after)
    (live : ∀ h, y.Has h → before.Live h) (r : Except Fault Unit) :
    (r, y.map before.read, ()) = seen (r, y, after) := by
  rw [seen, keptReads keeps live]

theorem builtFrames {entries : List (Int × Handle)} (fresh : Fresh before after entries)
    (live : ∀ h, x.Has h → before.Live h) (fewer : ∀ h, y.Has h → x.Has h) (declared : Int) :
    Frames x before ((y.store (build declared entries)).1,
      (y.store (build declared entries)).2, after) := by
  refine ⟨fresh.keeps, fun h has => ?_⟩
  rcases storeHas has with old | ⟨e, member, rfl⟩
  · exact ⟨Store.keepsLive fresh.keeps (live h (fewer h old)), .inl (fewer h old)⟩
  · exact ⟨fresh.live e member, .inr (fresh.new e member)⟩

theorem builtSeen {entries : List (Int × Handle)} {contents : List (Int × Summary)}
    (made : Made before after entries contents) (live : ∀ h, y.Has h → before.Live h)
    (declared : Int) :
    (((y.map before.read).store (build declared contents)).1,
      ((y.map before.read).store (build declared contents)).2, ()) =
      seen ((y.store (build declared entries)).1, (y.store (build declared entries)).2, after) := by
  rw [seen, ← made.reads, mapBuild, ← keptReads made.keeps live, mapStore]

theorem refineFrames {policy : Policy Store Handle} (renews : Policy.Renews policy)
    {entries : List (Int × Handle)} (live : ∀ h, x.Has h → before.Live h)
    (fewer : ∀ h, y.Has h → x.Has h) (given : ∀ e ∈ entries, before.Live e.2) :
    Frames x before (y.refine policy entries before) := by
  have stood := stoodFrames (keepsSelf Store.read? before) live fewer
  unfold refine
  split
  · exact stood (.ok ())
  rename_i t held
  split
  · exact stood (.ok ())
  have renewed := joinAllRenewed renews y.theta (fun h has => live h (fewer h ⟨t, held, has⟩)) given
  generalize joinAll t y.theta policy entries before = r at renewed ⊢
  cases renewed with
  | failed keeps => exact stoodFrames keeps live fewer _
  | made fresh => exact builtFrames fresh live fewer _

theorem refineSeen {policy : Policy Store Handle} {join : Summary → Summary → Summary}
    (makes : Policy.Makes policy join) {entries : List (Int × Handle)}
    (live : ∀ h, y.Has h → before.Live h) (given : ∀ e ∈ entries, before.Live e.2) :
    (y.map before.read).refine (Policy.ofFunction join)
      (entries.map (Prod.map id before.read)) () = seen (y.refine policy entries before) := by
  have stood := stoodSeen (keepsSelf Store.read? before) live
  obtain ⟨theta, empty, table, started, updates⟩ := y
  cases table with
  | none => exact stood (.ok ())
  | some t =>
    have mirrors := joinAllMirrors makes theta (fun h has => live h ⟨t, rfl, has⟩) given
    simp only [refine, map, Option.map_some, EntryTable.mapCount] at stood ⊢
    by_cases nothing : t.count = 0
    · simpa only [nothing, if_true] using stood (.ok ())
    · simp only [nothing, if_false]
      generalize joinAll t theta policy entries before = r at mirrors ⊢
      generalize joinAll (t.map before.read) theta (Policy.ofFunction join)
        (entries.map (Prod.map id before.read)) () = v at mirrors ⊢
      cases mirrors with
      | failed keeps => exact stoodSeen keeps live _
      | @made after joined contents made =>
        have length : joined.length = contents.length := by rw [← made.reads, List.length_map]
        simp only [length]
        exact builtSeen made live contents.length

theorem valuesCopyAll (mode : Mode) (contents : List (Int × Summary)) :
    (SummaryOps.values mode).copyAll contents () = (contents, ()) := by
  induction contents with
  | nil => rfl
  | cons e rest ih =>
    have copied (s : Summary) : (SummaryOps.values mode).copy s () = (s, ()) := rfl
    simp only [SummaryOps.copyAll, copied, ih]

theorem collapseNothing {x : Intersection σ} {s : σ} : ¬ x.accept.collapse.Has s := by
  rintro ⟨t, kept, _⟩
  simp [collapse] at kept

theorem updateFrames (mode : Mode) {policy : Policy Store Handle} (renews : Policy.Renews policy)
    {input : Operand Handle} (live : ∀ h, x.Has h → before.Live h)
    (given : ∀ e ∈ input.entries, before.Live e.2) :
    Frames x before (x.update (.stored mode) policy input before) := by
  have stood {y : Intersection Handle} (fewer : ∀ h, y.Has h → x.Has h) (r : Except Fault Unit) :=
    stoodFrames (keepsSelf Store.read? before) live fewer r
  cases input with
  | absent => exact stood (fun _ has => (collapseNothing has).elim) (.ok ())
  | keys kind sample => exact stood (fun _ has => has) _
  | other kind => exact stood (fun _ has => has) _
  | tuples kind sample =>
    have fewer : ∀ h, (x.accept.restrict sample.census).Has h → x.Has h :=
      fun h has => restrictHas has
    simp only [Intersection.update]
    split
    · exact stood fewer _
    split
    · exact refineFrames renews live fewer given
    · exact builtFrames (copyAllMade mode given).toFresh live fewer _

theorem updateSeen (mode : Mode) {policy : Policy Store Handle}
    {join : Summary → Summary → Summary} (makes : Policy.Makes policy join)
    {input : Operand Handle} (live : ∀ h, x.Has h → before.Live h)
    (given : ∀ e ∈ input.entries, before.Live e.2) :
    (x.map before.read).update (.values mode) (Policy.ofFunction join)
      (input.map before.read) () = seen (x.update (.stored mode) policy input before) := by
  have stood {y : Intersection Handle} (live : ∀ h, y.Has h → before.Live h)
      (r : Except Fault Unit) := stoodSeen (keepsSelf Store.read? before) live r
  cases input with
  | absent => exact stood (fun _ has => (collapseNothing has).elim) (.ok ())
  | keys kind sample => exact stood live _
  | other kind => exact stood live _
  | tuples kind sample =>
    have live' : ∀ h, (x.accept.restrict sample.census).Has h → before.Live h :=
      fun h has => live h (restrictHas has)
    simp only [Intersection.update, Operand.map, mapRestrict, valuesCopyAll]
    split
    · exact stood live' _
    change (if x.started then _ else _) = _
    split
    · exact refineSeen makes live' given
    · exact builtSeen (copyAllMade mode given) live' _

theorem resultPacked {ω : Type} (ops : SummaryOps ω σ) {x : Intersection σ} {t : EntryTable σ}
    (started : x.started = true) (held : x.table = some t) (occupied : t.count ≠ 0) (w : ω) :
    x.result ops w =
      let packed := ops.copyAll (t.entries.filter fun e => decide (e.1 ≤ x.theta)) w
      if packed.1.length = t.count then (.ok ⟨packed.1, x.theta, x.empty, none⟩, packed.2)
      else (.error (.countMismatch packed.1.length t.count), packed.2) := by
  simp [result, started, held, occupied]

theorem resultYields (mode : Mode) (live : ∀ h, x.Has h → before.Live h) :
    Yields before (x.result (.stored mode) before)
      ((x.map before.read).result (.values mode) ()) := by
  cases started : x.started with
  | false => simpa [result, map, started] using .failed (keepsSelf Store.read? before)
  | true =>
    have nothing : Yields before (.ok ⟨[], x.theta, x.empty, none⟩, before)
        (.ok ⟨[], x.theta, x.empty, none⟩, ()) := .made (madeNil before)
    cases held : x.table with
    | none => simpa [result, map, started, held] using nothing
    | some t =>
      by_cases vacant : t.count = 0
      · simpa [result, map, started, held, vacant] using nothing
      have own : ∀ e ∈ t.entries.filter fun e => decide (e.1 ≤ x.theta), before.Live e.2 :=
        fun e member => live e.2 ⟨t, held, EntryTable.hasEntry (List.mem_of_mem_filter member)⟩
      have made := copyAllMade mode own
      have kept : (t.map before.read).entries.filter
          (fun e => decide (e.1 ≤ (x.map before.read).theta)) =
          (t.entries.filter fun e => decide (e.1 ≤ x.theta)).map (Prod.map id before.read) := by
        rw [EntryTable.mapEntries, List.filter_map]
        rfl
      have held' : (x.map before.read).table = some (t.map before.read) := by simp [map, held]
      have started' : (x.map before.read).started = true := started
      have length := congrArg List.length made.reads
      rw [List.length_map] at length
      rw [resultPacked _ started held vacant, resultPacked _ started' held' vacant, kept]
      simp only [valuesCopyAll, ← length, EntryTable.mapCount]
      split
      · exact .made (c := ⟨_, x.theta, x.empty, Option.none⟩) made
      · exact .failed made.keeps

end Update

end Intersection
end KeySampling
