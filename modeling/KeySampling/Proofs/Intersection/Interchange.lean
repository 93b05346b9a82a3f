import KeySampling.Proofs.Intersection.Emptiness
import KeySampling.Proofs.Intersection.Failure
import KeySampling.Proofs.Intersection.Lifetime
import KeySampling.Proofs.Sketch.Custody
import KeySampling.Proofs.Sketch.Ownership

/-! A tuple sketch and its compact copy as inputs. Both show the same census and, in the same order,
the same keys with summaries of the same contents, though not the same summaries. An intersection
goes by what it is shown, so it cannot tell the two apart. -/
namespace KeySampling
namespace QuickSelect

/-- The updates of a tuple sketch so far, each successful or not, with anything done meanwhile that
makes no summary unreadable. -/
inductive Lived (mode : Mode) (settings : Settings) :
    List (Datum × Datum) → QuickSelect Handle → Store → Prop
  | begun {s : QuickSelect Handle} (begins : Begins settings s) (store : Store) :
      Lived mode settings [] s store
  | updated {past : List (Datum × Datum)} {s s' : QuickSelect Handle} {store store' : Store}
      {item value : Datum} {r : Except Fault Unit} (lived : Lived mode settings past s store)
      (next : s.update (.stored mode) item value store = (r, s', store')) :
      Lived mode settings (past ++ [(item, value)]) s' store'
  | meanwhile {past : List (Datum × Datum)} {s : QuickSelect Handle} {store store' : Store}
      (lived : Lived mode settings past s store) (lasts : ∀ h, store.Live h → store'.Live h) :
      Lived mode settings past s store'

variable {mode : Mode} {settings : Settings} {past : List (Datum × Datum)}
  {s : QuickSelect Handle} {store : Store}

theorem livedReached (lived : Lived mode settings past s store) :
    Reached (.stored mode) settings past s := by
  induction lived with
  | begun begins _ => exact .begun begins
  | updated _ next ih => exact .updated ih next
  | meanwhile _ _ ih => exact ih

theorem updateAllLived {start : QuickSelect Handle} {updates : List (Datum × Datum)}
    {store' : Store} (begins : Begins settings start)
    (ok : start.updateAll (.stored mode) updates store = (.ok (), s, store')) :
    Lived mode settings updates s store' :=
  updateAllKeeps (fun s store past => Lived mode settings past s store)
    (fun lived next => .updated lived next) (.begun begins store) ok

theorem livedIntact (lived : Lived mode settings past s store) : s.Intact :=
  (reachedTracks (livedReached lived)).intact

theorem livedOwn (lived : Lived mode settings past s store) :
    ∀ h, s.table.Has h → store.Live h := by
  induction lived with
  | begun begins store =>
    obtain ⟨config, _, rfl⟩ := beginsOfConfig begins
    exact fun h has => absurd has (EntryTable.blankHas _ h)
  | @updated past s s' store store' item value r _ next ih =>
    have works := updateWorks mode ih item value
    rw [next] at works
    exact fun h has => (works.holds h has).1
  | meanwhile _ lasts ih => exact fun h has => lasts h (ih h has)

theorem compactHolds (intact : s.Intact) (own : ∀ h, s.table.Has h → store.Live h) :
    Made store (s.compact (.stored mode) store).2 (s.compact (.stored mode) store).1.entries
      (s.table.entries.map (Prod.map id store.read)) := by
  unfold compact
  split
  · rename_i vacant
    have nothing : s.table.entries = [] := by
      rw [← List.length_eq_zero_iff, ← intact.table.counted, vacant]
    simpa [nothing] using madeNil store
  · exact copyAllMade mode fun e member => own e.2 (EntryTable.hasEntry member)

end QuickSelect

namespace Intersection

/-- An intersection in a store, with the values that its summaries hold there. -/
def Stands (x : Intersection Handle) (store : Store) (y : Intersection Summary) : Prop :=
  x.map store.read? = y.map some

theorem standsRead {x : Intersection Handle} {store : Store}
    (own : ∀ h, x.Has h → store.Live h) : x.Stands store (x.map store.read) := by
  have alive : x.map store.read? = x.map fun h => some (store.read h) :=
    mapAlike fun h has => Store.liveRead (own h has)
  rw [Stands, alive]
  obtain ⟨theta, empty, table, started, updates⟩ := x
  cases table with
  | none => rfl
  | some t => simp [map, EntryTable.map, Function.comp_def]

section Given
variable {ω σ : Type} {ops : SummaryOps ω σ} {policy : Policy ω σ} {x : Intersection σ} {w : ω}

theorem livedSounds {τ : Type} {read : Reading ω σ τ} {fit : ω → Call σ → Prop}
    {past : List (Call σ)} (lived : Lived ops policy read fit past x w) : x.Sounds := by
  induction lived with
  | begun _ => exact fun t impossible => by contradiction
  | given _ _ ih => exact giveSounds ih _ _
  | meanwhile _ _ ih => exact ih

theorem honestAccepted (sounds : x.Sounds) {kind : String} {sample : Sample (Int × σ)}
    (honest : sample.census.Honest (sample.entries.map Prod.fst)) :
    (x.update ops policy (.tuples kind sample) w).1 = .ok () := by
  cases came : x.update ops policy (.tuples kind sample) w with
  | mk r after =>
    cases r with
    | ok _ => rfl
    | error f =>
      have inRange := Census.honestRange honest
      rcases giveFails (c := .update (.tuples kind sample)) sounds
        (keysBound honest.nodup inRange) came with ⟨_, unfit, _⟩ | ⟨census, offers, _, _, misfit, _⟩
      · cases unfit
      · cases offers
        rcases misfit with miscounted | ⟨key, member, unfit⟩
        · exact absurd honest.counted miscounted
        · have range := inRange key member
          simp [keyFits range.1.le range.2] at unfit

end Given

section Interchange
variable {policy : Policy Store Handle} {join : Summary → Summary → Summary} {mode own : Mode}
  {settings : Settings} {past : List (Datum × Datum)} {before : List (Call Handle)}
  {s : QuickSelect Handle} {x : Intersection Handle} {store : Store}

abbrev Used (mode : Mode) (policy : Policy Store Handle) :
    List (Call Handle) → Intersection Handle → Store → Prop :=
  Lived (.stored mode) policy Store.read? fun store c => ∀ h, c.Shows h → store.Live h

theorem usedOwn (makes : Policy.Makes policy join) (used : Used own policy before x store) :
    ∀ h, x.Has h → store.Live h :=
  livedReadable (storedCopies own) (joinsLasts makes.joins) (fun _ _ fit => fit) used

theorem updateStands (own : Mode) (makes : Policy.Makes policy join)
    (held : ∀ h, x.Has h → store.Live h) (sample : Sample (Int × Handle))
    (given : ∀ e ∈ sample.entries, store.Live e.2) (kind other : String) :
    let r := x.update (.stored own) policy (.tuples kind sample) store
    let v := (x.map store.read).update (.values own) (Policy.ofFunction join)
      (.tuples other ⟨sample.census, sample.entries.map (Prod.map id store.read)⟩) ()
    v.1 = r.1 ∧ r.2.1.Stands r.2.2 v.2.1 := by
  intro r v
  have frames : Frames x store r := updateFrames own (makesRenews makes) held given
  have shown : ∀ e ∈ (Operand.tuples kind sample).entries, store.Live e.2 := given
  have same : v = seen r := updateSeen own makes held shown
  rw [same]
  exact ⟨rfl, standsRead fun h has => (frames.own h has).1⟩

theorem listsRead {entries : List (Int × Handle)} (live : ∀ e ∈ entries, store.Live e.2) :
    entries.map (Prod.map id store.read?) =
      (entries.map (Prod.map id store.read)).map (Prod.map id some) := by
  rw [List.map_map]
  exact List.map_congr_left fun e member => Prod.ext rfl (Store.liveRead (live e member))

/-- An intersection is the same after a sketch as after its compact copy. -/
theorem compactInterchanges (makes : Policy.Makes policy join)
    (sketch : QuickSelect.Lived mode settings past s store)
    (used : Used own policy before x store) :
    let frozen := s.compact (.stored mode) store
    let live := x.update (.stored own) policy (.tuples QuickSelect.tupleKind s.sample) store
    let later := x.update (.stored own) policy (.tuples Compact.kind frozen.1.sample) frozen.2
    (∃ y, live.1 = .ok () ∧ live.2.1.Stands live.2.2 y ∧
      later.1 = .ok () ∧ later.2.1.Stands later.2.2 y) ∧
    frozen.1.census = s.census ∧
    ∃ contents : List (Int × Summary),
      s.sample.entries.map (Prod.map id store.read?) = contents.map (Prod.map id some) ∧
      frozen.1.entries.map (Prod.map id frozen.2.read?) = contents.map (Prod.map id some) := by
  intro frozen live later
  have intact := QuickSelect.livedIntact sketch
  have mine := QuickSelect.livedOwn sketch
  have held := usedOwn makes used
  have shown : ∀ e ∈ s.sample.entries, store.Live e.2 := fun e member =>
    mine e.2 (EntryTable.hasEntry member)
  have made : Made store frozen.2 frozen.1.entries
      (s.sample.entries.map (Prod.map id store.read)) := QuickSelect.compactHolds intact mine
  have census : frozen.1.sample.census = s.sample.census :=
    (QuickSelect.compactSame intact (.stored mode) store).1
  obtain ⟨first, stands⟩ :=
    updateStands own makes held s.sample shown QuickSelect.tupleKind Compact.kind
  obtain ⟨second, stands'⟩ :=
    updateStands own makes (fun h has => Store.keepsLive made.keeps (held h has)) frozen.1.sample
      made.live Compact.kind Compact.kind
  -- With values in place of summaries the two inputs are one and the same.
  rw [keptReads made.keeps held, census, show frozen.1.sample.entries.map _ = _ from made.reads]
    at second stands'
  have accepted : live.1 = .ok () :=
    honestAccepted (livedSounds used) (QuickSelect.intactHonest intact)
  refine ⟨⟨_, accepted, stands, ?_, stands'⟩, census, _, listsRead shown, ?_⟩
  · exact (second.symm.trans first).trans accepted
  · rw [← made.reads]
    exact listsRead made.live

def pricedStream : List (Datum × Datum) :=
  ((List.range 20).map fun n : Nat => (.int n, .int (n + 1))) ++
    ((List.range 20).map fun n : Nat => (.int n, .text [50]))

/-- Twenty keys, in an intersection that was given the same sketch before. -/
theorem compactInterchangesGrown : ∃ (s : QuickSelect Handle) (x : Intersection Handle)
    (store : Store) (y : Intersection Summary),
    QuickSelect.Lived .sum { nominal := 17 } pricedStream s store ∧
    Used .sum (.stored (Summary.combine .sum))
      [.update (.tuples QuickSelect.tupleKind s.sample)] x store ∧
    s.census.retained = 20 ∧
    let frozen := s.compact (.stored .sum) store
    let later := x.update (.stored .sum) (.stored (Summary.combine .sum))
      (.tuples Compact.kind frozen.1.sample) frozen.2
    later.1 = .ok () ∧ later.2.1.Stands later.2.2 y := by
  let config : Config := ⟨5, .float .one, maxTheta, defaultSeed, none⟩
  have begins : QuickSelect.Begins { nominal := 17 }
      (QuickSelect.ofConfig config : QuickSelect Handle) := QuickSelect.beginsDefaults (by decide)
  let final := (QuickSelect.ofConfig config).updateAll (.stored .sum) pricedStream
    .empty
  have ok : (QuickSelect.ofConfig config).updateAll (.stored .sum) pricedStream .empty =
      (.ok (), final.2.1, final.2.2) := Prod.ext (by decide +kernel) rfl
  have sketch := QuickSelect.updateAllLived begins ok
  let call : Call Handle := .update (.tuples QuickSelect.tupleKind final.2.1.sample)
  have shown : ∀ h, call.Shows h → final.2.2.Live h := fun h ⟨_, member⟩ =>
    QuickSelect.livedOwn sketch h (EntryTable.hasEntry member)
  have used : Used .sum (.stored (Summary.combine .sum)) [call] _ _ :=
    .given (.begun final.2.2) shown
  have safe : Safe Store.read? final.2.2 _ := giveSafe (storedCopies .sum)
    (joinsLasts (storedJoins (Summary.combine .sum)))
    (livedReadable (storedCopies .sum) (joinsLasts (storedJoins (Summary.combine .sum)))
      (fun _ _ fit => fit) (Lived.begun final.2.2)) shown
  have still := sketch.meanwhile fun h live => aliveIff.mp (safe.keeps h () (aliveIff.mpr live))
  obtain ⟨⟨y, _, _, accepted, stands⟩, _⟩ :=
    compactInterchanges (storedMakes (Summary.combine .sum)) still used
  exact ⟨_, _, _, y, still, used, by decide +kernel, accepted, stands⟩

end Interchange

end Intersection
end KeySampling
