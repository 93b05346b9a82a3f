import KeySampling.Proofs.Sketch.Selection
import KeySampling.Proofs.Sketch.Stranding

/-! The summaries of a tuple sketch. No two keys share one, each holds the values its key was
given since the beginning, and an update changes no summary that belongs to someone else. -/
namespace KeySampling

def EntryTable.handles (t : EntryTable Handle) : List Handle := t.entries.map Prod.snd

namespace QuickSelect

structure Owns (store : Store) (mode : Mode) (seed : Int) (t : EntryTable Handle)
    (past : List (Datum × Datum)) : Prop where
  separate : t.handles.Nodup
  contents : ∀ key h, (key, h) ∈ t.entries →
    ∃ x, store.read? h = some x ∧ Summary.Folds mode (valuesFor seed key past) x

def Confined (t : EntryTable Handle) (store : Store) (next : EntryTable Handle) (store' : Store) :
    Prop :=
  ∀ h x, store.read? h = some x → h ∉ t.handles → store'.read? h = some x ∧ h ∉ next.handles

theorem confinedTrans {a b c : EntryTable Handle} {s t u : Store} (first : Confined a s b t)
    (second : Confined b t c u) : Confined a s c u := fun h x read foreign =>
  have mid := first h x read foreign
  second h x mid.1 mid.2

theorem memHandles {t : EntryTable Handle} {key : Int} {h : Handle}
    (member : (key, h) ∈ t.entries) : h ∈ t.handles := List.mem_map_of_mem (f := Prod.snd) member

theorem valuesForOther {seed key other : Int} {item : Datum}
    (hashed : samplingKey item seed = .ok key) (past : List (Datum × Datum)) (value : Datum)
    (different : other ≠ key) :
    valuesFor seed other (past ++ [(item, value)]) = valuesFor seed other past := by
  rw [valuesForSnoc hashed, if_neg (fun same => different same.symm), List.append_nil]

theorem valuesForSame {seed key : Int} {item : Datum} (hashed : samplingKey item seed = .ok key)
    (past : List (Datum × Datum)) (value : Datum) :
    valuesFor seed key (past ++ [(item, value)]) = valuesFor seed key past ++ [value] := by
  rw [valuesForSnoc hashed, if_pos rfl]

theorem ownsDropped {store : Store} {mode : Mode} {seed key : Int} {t : EntryTable Handle}
    {past : List (Datum × Datum)} {item : Datum} (owns : Owns store mode seed t past)
    (hashed : samplingKey item seed = .ok key) (absent : key ∉ t.keySet) (value : Datum) :
    Owns store mode seed t (past ++ [(item, value)]) := by
  refine ⟨owns.separate, fun other h member => ?_⟩
  have different : other ≠ key := fun same =>
    absent (same ▸ List.mem_map_of_mem (f := Prod.fst) member)
  rw [valuesForOther hashed past value different]
  exact owns.contents other h member

theorem ownsKnown {store store' : Store} {mode : Mode} {seed key : Int}
    {t next : EntryTable Handle} {past : List (Datum × Datum)} {item value : Datum}
    {old new : Handle} (wf : t.WellFormed) (owns : Owns store mode seed t past)
    (hashed : samplingKey item seed = .ok key) (replaces : t.Replaces key old new next)
    (folded : (SummaryOps.stored mode).fold old value store = (.ok new, store')) :
    Owns store' mode seed next (past ++ [(item, value)]) ∧ Confined t store next store' := by
  obtain ⟨pre, post, before, after⟩ := replaces.entries
  have here : (key, old) ∈ t.entries := by simp [before]
  obtain ⟨x, read, folds⟩ := owns.contents key old here
  obtain ⟨rfl, ⟨y, fed, now⟩, others⟩ := Store.foldRead read folded
  have same : next.entries = t.entries := after.trans before.symm
  have handles : next.handles = t.handles := congrArg (List.map Prod.snd) same
  refine ⟨⟨handles ▸ owns.separate, fun other h member => ?_⟩, fun h z held foreign => ?_⟩
  · rw [same] at member
    by_cases hit : other = key
    · subst hit
      have alone : h = new := by
        have unique := List.inj_on_of_nodup_map (EntryTable.keysNodup wf) member here rfl
        exact congrArg Prod.snd unique
      rw [alone, valuesForSame hashed]
      exact ⟨y, now, Summary.foldsSnoc folds fed⟩
    · have apart : h ≠ new := by
        intro shared
        have unique := List.inj_on_of_nodup_map owns.separate member here shared
        exact hit (congrArg Prod.fst unique)
      rw [others h apart, valuesForOther hashed past value hit]
      exact owns.contents other h member
  · have apart : h ≠ new := fun shared => foreign (shared ▸ memHandles here)
    exact ⟨(others h apart).trans held, handles ▸ foreign⟩

theorem ownsFresh {store store' : Store} {mode : Mode} {seed key : Int}
    {t next : EntryTable Handle} {past : List (Datum × Datum)} {item value : Datum} {new : Handle}
    (owns : Owns store mode seed t past) (hashed : samplingKey item seed = .ok key)
    (absent : key ∉ t.keySet) (unseen : key ∉ keysOf seed past) (gains : t.Gains key new next)
    (folded : (SummaryOps.stored mode).fold (store.alloc (.fresh mode)).1 value
      (store.alloc (.fresh mode)).2 = (.ok new, store')) :
    Owns store' mode seed next (past ++ [(item, value)]) ∧ Confined t store next store' := by
  obtain ⟨rfl, ⟨y, fed, now⟩, others⟩ := Store.foldRead (Store.readNew store _) folded
  have kept {h : Handle} {x : Summary} (read : store.read? h = some x) :
      store'.read? h = some x :=
    (others h (Store.handleOld read _)).trans (Store.readOld read _)
  have perm := EntryTable.gainsPerm gains
  have members : next.handles.Perm ((store.alloc (.fresh mode)).1 :: t.handles) :=
    perm.map Prod.snd
  have outside : (store.alloc (.fresh mode)).1 ∉ t.handles := by
    intro member
    obtain ⟨⟨other, h⟩, inside, same⟩ := List.mem_map.mp member
    obtain ⟨x, read, _⟩ := owns.contents other h inside
    exact Store.handleOld read _ same
  refine ⟨⟨members.nodup_iff.mpr (List.nodup_cons.mpr ⟨outside, owns.separate⟩), ?_⟩, ?_⟩
  · intro other h member
    rcases List.mem_cons.mp (perm.mem_iff.mp member) with same | old
    · cases same
      rw [valuesForSame hashed, valuesForUnseen unseen]
      exact ⟨y, now, Summary.foldsSnoc (Summary.foldsNil mode) fed⟩
    · obtain ⟨x, read, folds⟩ := (ownsDropped owns hashed absent value).contents other h old
      exact ⟨x, kept read, folds⟩
  · intro h x read foreign
    refine ⟨kept read, fun member => ?_⟩
    rcases List.mem_cons.mp (members.mem_iff.mp member) with same | old
    · exact Store.handleOld read _ same
    · exact foreign old

theorem ownsFewer {store : Store} {mode : Mode} {seed : Int} {t next : EntryTable Handle}
    {past : List (Datum × Datum)} {lg : Nat} {bound : Int} (owns : Owns store mode seed t past)
    (holds : next.Holds lg (t.entries.filter fun e => decide (e.1 < bound))) :
    Owns store mode seed next past ∧ Confined t store next store := by
  have within : ∀ e ∈ next.entries, e ∈ t.entries := fun e member =>
    List.mem_of_mem_filter (holds.entries.mem_iff.mp member)
  refine ⟨⟨?_, fun key h member => owns.contents key h (within _ member)⟩, ?_⟩
  · rw [EntryTable.handles, (holds.entries.map Prod.snd).nodup_iff]
    exact owns.separate.sublist (List.filter_sublist.map Prod.snd)
  · intro h x read foreign
    refine ⟨read, fun member => ?_⟩
    obtain ⟨e, inside, rfl⟩ := List.mem_map.mp member
    exact foreign (memHandles (within e inside))

theorem settlesOwns {s s' : QuickSelect Handle} {store : Store} {mode : Mode} {seed : Int}
    {past : List (Datum × Datum)} (owns : Owns store mode seed s.table past)
    (settles : Settles s s') :
    Owns store mode seed s'.table past ∧ Confined s.table store s'.table store := by
  cases settles with
  | kept _ => exact ⟨owns, fun _ _ read foreign => ⟨read, foreign⟩⟩
  | grown _ _ holds => exact ownsFewer owns holds
  | rebuilt _ _ holds => exact ownsFewer owns holds

theorem updateOwns {mode : Mode} {s s' : QuickSelect Handle} {store store' : Store}
    {item value : Datum} {past : List (Datum × Datum)} (retains : s.Retains past)
    (owns : Owns store mode s.config.seed s.table past)
    (ok : s.update (.stored mode) item value store = (.ok (), s', store')) :
    Owns store' mode s.config.seed s'.table (past ++ [(item, value)]) ∧
      Confined s.table store s'.table store' := by
  obtain ⟨key, hashed, steps⟩ := updateSteps retains.table ok
  cases steps with
  | dropped outside =>
    refine ⟨ownsDropped owns hashed ?_ value, fun _ _ read foreign => ⟨read, foreign⟩⟩
    intro member
    obtain ⟨nonzero, _, below⟩ := (retains.keys key).mp member
    rcases outside with zero | above
    · exact nonzero zero
    · exact absurd below (not_lt.mpr above)
  | @taken table _ _ nonzero below absorbs settles =>
    have absorbed : Owns store' mode s.config.seed table (past ++ [(item, value)]) ∧
        Confined s.table store table store' := by
      cases absorbs with
      | known replaces folded => exact ownsKnown retains.table owns hashed replaces folded
      | fresh absent gains folded =>
        refine ownsFresh owns hashed absent (fun seen => ?_) gains folded
        exact absent ((retains.keys key).mpr ⟨nonzero, seen, below⟩)
    have settled := settlesOwns (s := { s.noted with table }) absorbed.1 settles
    exact ⟨settled.1, confinedTrans absorbed.2 settled.2⟩

theorem ofConfigOwns (config : Config) (store : Store) (mode : Mode) :
    Owns store mode config.seed (ofConfig config).table [] := by
  refine ⟨?_, ?_⟩ <;> simp [EntryTable.handles, ofConfigEntries]

theorem runOwns {mode : Mode} {settings : Settings} {start s : QuickSelect Handle}
    {store store' : Store} {updates : List (Datum × Datum)} (begins : Begins settings start)
    (ok : start.updateAll (.stored mode) updates store = (.ok (), s, store')) :
    Owns store' mode settings.seed s.table updates := by
  obtain ⟨config, accepted, rfl⟩ := beginsOfConfig begins
  have run := updateAllKeeps
    (fun s store past =>
      s.Retains past ∧ s.config = config ∧ Owns store mode config.seed s.table past)
    (fun before first => by
      obtain ⟨retains, same, owns⟩ := before
      obtain ⟨retained, config, _⟩ := updateRetains retains first
      refine ⟨retained, config.trans same, ?_⟩
      rw [← same] at owns ⊢
      exact (updateOwns retains owns first).1)
    ⟨ofConfigRetains config, rfl, ofConfigOwns config store mode⟩ ok
  rw [← Config.acceptedSeed accepted]
  exact run.2.2

/-- Nothing below theta is lost or counted in part. After every run that does not fail, a sketch
shows each key of its stream that lies below theta, once. In a tuple sketch the summary of a key
holds all the values that the key was given, in order, from the neutral value on. -/
theorem retainedInFull (settings : Settings) (updates : List (Datum × Datum)) :
    (∀ {ω σ : Type} (ops : SummaryOps ω σ) {start s : QuickSelect σ} {w w' : ω},
      Begins settings start → start.updateAll ops updates w = (.ok (), s, w') →
        s.keySample.entries.Nodup ∧ ∀ key, key ∈ s.keySample.entries ↔
          key ≠ 0 ∧ key ∈ keysOf settings.seed updates ∧ key < s.theta) ∧
    ∀ (mode : Mode) {start s : QuickSelect Handle} {store store' : Store},
      Begins settings start → start.updateAll (.stored mode) updates store = (.ok (), s, store') →
        ∀ key h, (key, h) ∈ s.sample.entries → ∃ numbers : List Binary64,
          (valuesFor settings.seed key updates).map Datum.toBinary64 = numbers.map .ok ∧
          store'.read? h = some ⟨numbers.foldl mode.fold mode.neutral, mode⟩ := by
  constructor
  · intro ω σ ops start s w w' begins ok
    obtain ⟨retains, accepted, _⟩ := runRetains begins ok
    refine ⟨EntryTable.keysNodup retains.table, fun key => ?_⟩
    rw [← Config.acceptedSeed accepted]
    exact retains.keys key
  · intro mode start s store store' begins ok key h member
    obtain ⟨x, read, numbers, converted, rfl⟩ := (runOwns begins ok).contents key h member
    exact ⟨numbers, converted, read⟩

def pricedCrowd : List (Datum × Datum) := crowd ++ crowd.map fun u => (u.1, .text [50])

theorem pricedCrowdHashed : ∀ u ∈ pricedCrowd, ∃ key, samplingKey u.1 defaultSeed = .ok key := by
  rw [pricedCrowd, List.forall_mem_append, List.forall_mem_map]
  exact ⟨crowdHashed, crowdHashed⟩

theorem retainedInFullCrowd :
    ∃ (start s : QuickSelect Handle) (store : Store), Begins { nominal := 16 } start ∧
      start.updateAll (.stored .sum) pricedCrowd .empty = (.ok (), s, store) ∧
      s.theta ≠ start.theta ∧ s.keySample.entries.Nodup ∧
      ∃ key h, (key, h) ∈ s.sample.entries ∧ ∃ numbers : List Binary64,
        (valuesFor defaultSeed key pricedCrowd).map Datum.toBinary64 = numbers.map .ok ∧
        store.read? h = some ⟨numbers.foldl Mode.sum.fold Mode.sum.neutral, .sum⟩ := by
  obtain ⟨start, begins, whole⟩ := sixteenBegin none
  have converts : ∀ u ∈ pricedCrowd, u.2.converts = true := by decide +kernel
  obtain ⟨s, store, ok⟩ := runSucceeds begins pricedCrowdHashed
    (fun u member => acceptsTakes (storedAccepts .sum) (converts u member)) .empty
  have sampling := runSampling begins ok
  rw [whole] at sampling
  have moved := crowdMoves (runRetains begins ok).2.1 sampling (by decide +kernel)
  have occupied : 0 < s.table.entries.length := by
    rw [← sampling.retains.table.counted]
    exact (pow2Pos _).trans_le (loweredLoad sampling moved).1
  obtain ⟨⟨key, h⟩, member⟩ := List.exists_mem_of_length_pos occupied
  have retained := retainedInFull { nominal := 16 } pricedCrowd
  rw [← whole] at moved
  exact ⟨start, s, store, begins, ok, moved, (retained.1 _ begins ok).1, key, h, member,
    retained.2 .sum begins ok key h member⟩

end QuickSelect
end KeySampling
