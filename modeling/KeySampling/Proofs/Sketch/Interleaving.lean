import KeySampling.Proofs.Sketch.InitialTheta
import KeySampling.Proofs.Sketch.Ownership
import Mathlib.Logic.Function.Basic

/-! Several tuple sketches that are updated in turn, in any order, and share one store. What an
update does to one sketch cannot be seen from another: each is as if it were alone with its own
stream. -/
namespace KeySampling
namespace QuickSelect

/-- A tuple sketch that holds what its stream says. -/
structure Faithful (store : Store) (mode : Mode) (seed : Int) (s : QuickSelect Handle)
    (past : List (Datum × Datum)) : Prop where
  retains : s.Retains past
  seeded : s.config.seed = seed
  owns : Owns store mode seed s.table past
  theta : s.theta ≤ maxTheta

theorem beginsFaithful {settings : Settings} {s : QuickSelect Handle} (begins : Begins settings s)
    (store : Store) (mode : Mode) :
    Faithful store mode settings.seed s [] ∧ s.table.handles = [] := by
  obtain ⟨config, accepted, rfl⟩ := beginsOfConfig begins
  have seed := Config.acceptedSeed accepted
  refine ⟨⟨ofConfigRetains config, seed, ?_, Config.acceptedTheta accepted⟩, ?_⟩
  · exact seed ▸ ofConfigOwns config store mode
  · rw [EntryTable.handles, ofConfigEntries, List.map_nil]

theorem updateFaithful {mode : Mode} {seed : Int} {s s' : QuickSelect Handle}
    {store store' : Store} {item value : Datum} {past : List (Datum × Datum)}
    (faithful : Faithful store mode seed s past)
    (ok : s.update (.stored mode) item value store = (.ok (), s', store')) :
    Faithful store' mode seed s' (past ++ [(item, value)]) ∧
      Confined s.table store s'.table store' := by
  obtain ⟨retains, config, theta⟩ := updateRetains faithful.retains ok
  have owns := faithful.owns
  rw [← faithful.seeded] at owns ⊢
  have updated := updateOwns faithful.retains owns ok
  have seed := congrArg Config.seed config
  exact ⟨⟨retains, seed, updated.1, le_trans theta faithful.theta⟩, updated.2⟩

theorem unnoticed {mode : Mode} {seed : Int} {s : QuickSelect Handle} {store store' : Store}
    {past : List (Datum × Datum)} {t t' : EntryTable Handle}
    (faithful : Faithful store mode seed s past)
    (foreign : ∀ h ∈ s.table.handles, h ∉ t.handles) (confined : Confined t store t' store') :
    Faithful store' mode seed s past ∧ ∀ h ∈ s.table.handles, h ∉ t'.handles := by
  have kept : ∀ key h, (key, h) ∈ s.table.entries → ∃ x, store'.read? h = some x ∧
      Summary.Folds mode (valuesFor seed key past) x ∧ h ∉ t'.handles := by
    intro key h member
    obtain ⟨x, read, folds⟩ := faithful.owns.contents key h member
    obtain ⟨still, apart⟩ := confined h x read (foreign h (memHandles member))
    exact ⟨x, still, folds, apart⟩
  refine ⟨⟨faithful.retains, faithful.seeded, ⟨faithful.owns.separate, ?_⟩, faithful.theta⟩, ?_⟩
  · intro key h member
    obtain ⟨x, still, folds, _⟩ := kept key h member
    exact ⟨x, still, folds⟩
  · intro h member
    obtain ⟨⟨key, g⟩, inside, same⟩ := List.mem_map.mp member
    cases same
    obtain ⟨_, _, _, apart⟩ := kept key g inside
    exact apart

variable {ι : Type} [DecidableEq ι]

def feedAll (modes : ι → Mode) (sketches : ι → QuickSelect Handle) :
    List (ι × Datum × Datum) → Store → Except Fault Unit × (ι → QuickSelect Handle) × Store
  | [], store => (.ok (), sketches, store)
  | (i, item, value) :: rest, store =>
      match (sketches i).update (.stored (modes i)) item value store with
      | (.error f, s, store) => (.error f, Function.update sketches i s, store)
      | (.ok (), s, store) => feedAll modes (Function.update sketches i s) rest store

def streamOf (i : ι) (turns : List (ι × Datum × Datum)) : List (Datum × Datum) :=
  (turns.filter fun turn => decide (turn.1 = i)).map Prod.snd

theorem streamOfSelf (i : ι) (past : List (ι × Datum × Datum)) (u : Datum × Datum) :
    streamOf i (past ++ [(i, u)]) = streamOf i past ++ [u] := by
  simp [streamOf]

theorem streamOfOther {i j : ι} (different : j ≠ i) (past : List (ι × Datum × Datum))
    (u : Datum × Datum) : streamOf j (past ++ [(i, u)]) = streamOf j past := by
  simp [streamOf, different.symm]

structure AllFaithful (store : Store) (modes : ι → Mode) (seed : Int)
    (sketches : ι → QuickSelect Handle) (past : List (ι × Datum × Datum)) : Prop where
  each : ∀ i, Faithful store (modes i) seed (sketches i) (streamOf i past)
  apart : ∀ i j, i ≠ j → ∀ h ∈ (sketches i).table.handles, h ∉ (sketches j).table.handles

theorem turnFaithful {modes : ι → Mode} {seed : Int} {sketches : ι → QuickSelect Handle}
    {store store' : Store} {past : List (ι × Datum × Datum)} {i : ι} {item value : Datum}
    {s : QuickSelect Handle} (all : AllFaithful store modes seed sketches past)
    (ok : (sketches i).update (.stored (modes i)) item value store = (.ok (), s, store')) :
    AllFaithful store' modes seed (Function.update sketches i s) (past ++ [(i, item, value)]) := by
  obtain ⟨faithful, confined⟩ := updateFaithful (all.each i) ok
  have others (j : ι) (different : j ≠ i) :=
    unnoticed (all.each j) (all.apart j i different) confined
  -- Either index may be the one whose turn it was; apart from it, nothing has moved.
  refine ⟨fun j => ?_, fun j k different h member => ?_⟩
  · by_cases here : j = i
    · subst here
      rw [Function.update_self, streamOfSelf]
      exact faithful
    · rw [Function.update_of_ne here, streamOfOther here]
      exact (others j here).1
  · by_cases here : j = i
    · subst here
      rw [Function.update_self] at member
      rw [Function.update_of_ne different.symm]
      exact fun shared => (others k different.symm).2 h shared member
    · rw [Function.update_of_ne here] at member
      by_cases there : k = i
      · subst there
        rw [Function.update_self]
        exact (others j here).2 h member
      · rw [Function.update_of_ne there]
        exact all.apart j k different h member

theorem feedAllFaithful {modes : ι → Mode} {seed : Int} {start sketches : ι → QuickSelect Handle}
    {store store' : Store} {past turns : List (ι × Datum × Datum)}
    (all : AllFaithful store modes seed start past)
    (ok : feedAll modes start turns store = (.ok (), sketches, store')) :
    AllFaithful store' modes seed sketches (past ++ turns) := by
  induction turns generalizing start store past with
  | nil =>
    simp only [feedAll, Prod.mk.injEq, true_and] at ok
    obtain ⟨rfl, rfl⟩ := ok
    simpa using all
  | cons turn rest ih =>
    obtain ⟨i, item, value⟩ := turn
    simp only [feedAll] at ok
    split at ok
    · simp at ok
    rename_i _ s mid first
    simpa using ih (turnFaithful all first) ok

theorem beginAllFaithful {settings : ι → Settings} {seed : Int} {modes : ι → Mode}
    {start : ι → QuickSelect Handle} (begins : ∀ i, Begins (settings i) (start i))
    (shared : ∀ i, (settings i).seed = seed) (store : Store) :
    AllFaithful store modes seed start [] := by
  refine ⟨fun i => ?_, fun i j _ h member => ?_⟩
  · exact shared i ▸ (beginsFaithful (begins i) store (modes i)).1
  · simp [(beginsFaithful (begins i) store (modes i)).2] at member

end QuickSelect
end KeySampling
