import KeySampling.Proofs.Isolation.Scene
import KeySampling.Proofs.Sketch.Retention

/-! What becomes of summaries while a program runs. What a result shows stands until somebody
touches that result, and an intersection goes by what its inputs showed when they were given. -/
namespace KeySampling
namespace Scene
variable {ι ε γ : Type} {setup : Setup ι ε γ} {s s' : Scene ι ε} {owner : Handle → Owner}

theorem snapshotStands {written : Handle → Prop} (owned : s.Owned setup owner)
    (alters : Store.Alters written s.store s'.store) {source : Origin ι γ}
    (same : s'.operand setup source = s.operand setup source)
    (foreign : ∀ h, owner h = source.owner → ¬ written h) :
    s'.snapshot setup source = s.snapshot setup source := by
  rw [snapshot, snapshot, same]
  refine Operand.mapAlike fun e member => ?_
  obtain ⟨live, mine⟩ := owned _ _ (operandHolds source member)
  exact Store.altersRead alters live (foreign e.2 mine)

def digest (join : Summary → Summary → Summary) (inputs : List (Operand Summary)) :
    Intersection Summary :=
  inputs.foldl (fun x input => (x.update (.values .sum) (Policy.ofFunction join) input ()).2.1)
    .universal

structure Begun (setup : Setup ι ε γ) (settings : ι → Settings) (s : Scene ι ε) : Prop where
  sketches : ∀ i, QuickSelect.Begins (settings i) (s.sketches i)
  engines : ∀ e, s.engines e = .universal
  results : s.results = []
  guests : ∀ g, ∀ e ∈ (setup.guests g).entries, s.store.Live e.2

theorem begunOwned {settings : ι → Settings} (begun : s.Begun setup settings) :
    s.Owned setup fun _ => .lent := by
  intro who h has
  cases who with
  | lent =>
    rcases has with ⟨i, has⟩ | ⟨g, e, member, rfl⟩
    · obtain ⟨config, _, same⟩ := QuickSelect.beginsOfConfig (begun.sketches i)
      rw [same] at has
      exact absurd has (EntryTable.blankHas _ h)
    · exact ⟨begun.guests g e member, rfl⟩
  | engine =>
    obtain ⟨e, t, kept, _⟩ := has
    rw [begun.engines e] at kept
    cases kept
  | result n =>
    obtain ⟨c, held, _⟩ := has
    simp [begun.results] at held

section Step
variable [DecidableEq ι] [DecidableEq ε]

theorem stepResults (setup : Setup ι ε γ) (s : Scene ι ε) (a : Action ι ε γ) :
    s.results <+: (s.step setup a).results := by
  cases a with
  | touch source index value =>
    simp only [step]
    split <;> exact List.prefix_refl _
  | compact i => exact List.prefix_append _ _
  | conclude e =>
    simp only [step]
    split
    · exact List.prefix_append _ _
    · exact List.prefix_refl _
  | update _ _ _ | reset _ | give _ _ | restart _ => exact List.prefix_refl _

theorem resultKept (s : Scene ι ε) (a : Action ι ε γ) {n : Nat} (there : n < s.results.length) :
    (s.step setup a).results[n]? = s.results[n]? := by
  obtain ⟨new, more⟩ := stepResults setup s a
  rw [← more, List.getElem?_append_left there]

theorem resultStands (renews : ∀ e, Policy.Renews (setup.policies e))
    (owned : s.Owned setup owner) {a : Action ι ε γ} {n : Nat} (there : n < s.results.length)
    (untouched : ∀ index value, a ≠ .touch (.result n) index value) :
    (s.step setup a).snapshot setup (.result n) = s.snapshot setup (.result n) := by
  refine snapshotStands owned (stepActs renews owned a).alters ?_ fun h mine writes => ?_
  · simp only [operand, resultKept s a there]
  · rw [mine] at writes
    obtain ⟨index, value, same⟩ := Action.writesResult writes
    exact untouched index value same

theorem engineKeeps (renews : ∀ e, Policy.Renews (setup.policies e))
    (owned : s.Owned setup owner) {a : Action ι ε γ} (engine : a.OfEngine) :
    Reading.Keeps Store.read? s.store (s.step setup a).store := fun h x held =>
  (stepActs renews owned a).alters.spares h x held (Action.engineWrites engine _)

theorem engineSketches (s : Scene ι ε) {a : Action ι ε γ} (engine : a.OfEngine) :
    (s.step setup a).sketches = s.sketches := by
  cases a with
  | give _ _ | restart _ => rfl
  | conclude e =>
    simp only [step]
    split <;> rfl
  | update _ _ _ | reset _ | touch _ _ _ | compact _ => exact engine.elim

theorem engineStands (renews : ∀ e, Policy.Renews (setup.policies e))
    (owned : s.Owned setup owner) {a : Action ι ε γ} (e : ε)
    (same : (s.step setup a).engines e = s.engines e) :
    ((s.step setup a).engines e).map (s.step setup a).store.read =
      (s.engines e).map s.store.read := by
  rw [same]
  refine Intersection.mapAlike fun h has => ?_
  obtain ⟨live, mine⟩ := owned .engine h ⟨e, has⟩
  refine Store.altersRead (stepActs renews owned a).alters live ?_
  rw [mine]
  exact Action.writesEngine

section Play
variable {start : Scene ι ε} {joins : ε → Summary → Summary → Summary}

theorem playSnoc (start : Scene ι ε) (actions : List (Action ι ε γ)) (a : Action ι ε γ) :
    start.play setup (actions ++ [a]) = ((start.play setup actions).1.step setup a,
      (start.play setup actions).1.hear setup (start.play setup actions).2 a) := by
  simp only [play, List.foldl_append, List.foldl_cons, List.foldl_nil]

theorem playOwned (renews : ∀ e, Policy.Renews (setup.policies e))
    {settings : ι → Settings} (begun : start.Begun setup settings)
    (actions : List (Action ι ε γ)) : ∃ owner, (start.play setup actions).1.Owned setup owner := by
  induction actions using List.reverseRecOn with
  | nil => exact ⟨_, begunOwned begun⟩
  | append_singleton actions a ih =>
    obtain ⟨owner, owned⟩ := ih
    rw [playSnoc]
    exact actsOwned owned (stepActs renews owned a)

theorem stepDigests (makes : ∀ e, Policy.Makes (setup.policies e) (joins e))
    (owned : s.Owned setup owner) {heard : ε → List (Operand Summary)}
    (digests : ∀ e, (s.engines e).map s.store.read = digest (joins e) (heard e))
    (a : Action ι ε γ) (e : ε) : ((s.step setup a).engines e).map (s.step setup a).store.read =
      digest (joins e) (s.hear setup heard a e) := by
  -- An intersection that the call is not about keeps what it holds and hears nothing.
  have stands (same : (s.step setup a).engines e = s.engines e)
      (unheard : s.hear setup heard a e = heard e) :
      ((s.step setup a).engines e).map (s.step setup a).store.read =
        digest (joins e) (s.hear setup heard a e) := by
    rw [unheard, ← digests e]
    exact engineStands (fun e => makesRenews (makes e)) owned e same
  cases a with
  | update _ _ _ | reset _ | compact _ => exact stands rfl rfl
  | touch source index value =>
    refine stands ?_ rfl
    simp only [step]
    split <;> rfl
  | conclude f =>
    refine stands ?_ rfl
    simp only [step]
    split <;> rfl
  | restart f =>
    by_cases here : e = f
    · subst here
      simp only [step, hear, Function.update_self]
      rfl
    · exact stands (Function.update_of_ne here _ _) (Function.update_of_ne here _ _)
  | give f source =>
    by_cases here : e = f
    · subst here
      have same := Intersection.updateSeen .sum (makes e)
        (fun h has => (owned .engine h ⟨e, has⟩).1)
        fun entry member => (owned _ _ (operandHolds source member)).1
      simp only [step, hear, Function.update_self]
      rw [digest, List.foldl_append, ← digest, ← digests e]
      simp only [List.foldl_cons, List.foldl_nil]
      exact (congrArg (fun v => v.2.1) same).symm
    · exact stands (Function.update_of_ne here _ _) (Function.update_of_ne here _ _)

theorem playDigests (makes : ∀ e, Policy.Makes (setup.policies e) (joins e))
    {settings : ι → Settings} (begun : start.Begun setup settings)
    (actions : List (Action ι ε γ)) (e : ε) :
    ((start.play setup actions).1.engines e).map (start.play setup actions).1.store.read =
      digest (joins e) ((start.play setup actions).2 e) := by
  induction actions using List.reverseRecOn generalizing e with
  | nil =>
    change (start.engines e).map start.store.read = .universal
    rw [begun.engines e]
    rfl
  | append_singleton actions a ih =>
    obtain ⟨owner, owned⟩ := playOwned (fun e => makesRenews (makes e)) begun actions
    rw [playSnoc]
    exact stepDigests makes owned ih a e

theorem playResult (renews : ∀ e, Policy.Renews (setup.policies e))
    {settings : ι → Settings} (begun : start.Begun setup settings)
    (before after : List (Action ι ε γ)) {n : Nat}
    (there : n < (start.play setup before).1.results.length)
    (untouched : ∀ a ∈ after, ∀ index value, a ≠ .touch (.result n) index value) :
    n < (start.play setup (before ++ after)).1.results.length ∧
      (start.play setup (before ++ after)).1.snapshot setup (.result n) =
        (start.play setup before).1.snapshot setup (.result n) := by
  induction after using List.reverseRecOn with
  | nil => rw [List.append_nil]; exact ⟨there, rfl⟩
  | append_singleton after a ih =>
    rw [List.forall_mem_append, List.forall_mem_singleton] at untouched
    obtain ⟨still, same⟩ := ih untouched.1
    obtain ⟨owner, owned⟩ := playOwned renews begun (before ++ after)
    rw [← List.append_assoc, playSnoc]
    refine ⟨?_, (resultStands renews owned still untouched.2).trans same⟩
    exact lt_of_lt_of_le still (stepResults setup _ a).length_le

/-- The summaries of a program stay apart, if its policies make new ones and change none. What a
result holds changes only where the program updates summaries of that result. No call of an
intersection changes a sketch, a summary or an earlier result. And if policies go by contents, what
an intersection holds, and what it results in, comes from what its inputs held when they were
given. -/
theorem summariesIsolated (renews : ∀ e, Policy.Renews (setup.policies e))
    {settings : ι → Settings} (begun : start.Begun setup settings) :
    (∀ (before after : List (Action ι ε γ)) (n : Nat),
      n < (start.play setup before).1.results.length →
      (∀ a ∈ after, ∀ index value, a ≠ .touch (.result n) index value) →
      (start.play setup (before ++ after)).1.snapshot setup (.result n) =
        (start.play setup before).1.snapshot setup (.result n)) ∧
    (∀ joins : ε → Summary → Summary → Summary,
      (∀ e, Policy.Makes (setup.policies e) (joins e)) →
      ∀ (actions : List (Action ι ε γ)) (e : ε),
        let s := (start.play setup actions).1
        let values := digest (joins e) ((start.play setup actions).2 e)
        let r := (s.engines e).result (.stored .sum) s.store
        (s.engines e).map s.store.read = values ∧
          r.1.map (Compact.map r.2.read) = (values.result (.values .sum) ()).1) ∧
    ∀ (actions : List (Action ι ε γ)) (a : Action ι ε γ), a.OfEngine →
      let s := (start.play setup actions).1
      let s' := s.step setup a
      s'.sketches = s.sketches ∧ s.results <+: s'.results ∧
      (∀ h x, s.store.read? h = some x → s'.store.read? h = some x) ∧
      (∀ i, s'.snapshot setup (.sketch i) = s.snapshot setup (.sketch i)) ∧
      (∀ g, s'.snapshot setup (.guest g) = s.snapshot setup (.guest g)) ∧
      ∀ n < s.results.length, s'.snapshot setup (.result n) = s.snapshot setup (.result n) := by
  refine ⟨fun before after n there untouched => ?_, fun joins makes actions e => ?_,
    fun actions a engine => ?_⟩
  · exact (playResult renews begun before after there untouched).2
  · obtain ⟨owner, owned⟩ := playOwned renews begun actions
    have digests := playDigests makes begun actions e
    refine ⟨digests, ?_⟩
    rw [← digests]
    exact (yieldsReads (Intersection.resultYields .sum fun h has =>
      (owned .engine h ⟨e, has⟩).1)).symm
  · obtain ⟨owner, owned⟩ := playOwned renews begun actions
    have alters := (stepActs renews owned a).alters
    have foreign (h : Handle) : ¬ a.Writes (owner h) := Action.engineWrites engine (owner h)
    refine ⟨engineSketches _ engine, stepResults setup _ a, engineKeeps renews owned engine,
      ?_, ?_, ?_⟩
    · intro i
      refine snapshotStands owned alters ?_ fun h _ => foreign h
      simp only [operand, engineSketches _ engine]
    · exact fun g => snapshotStands owned alters rfl fun h _ => foreign h
    · intro n there
      refine snapshotStands owned alters ?_ fun h _ => foreign h
      simp only [operand, resultKept _ a there]

end Play
end Step

def pairSetup : Setup Unit Unit Empty :=
  ⟨fun _ => .sum, fun _ => .stored (Summary.combine .sum), nofun⟩

def pairStart : Scene Unit Unit :=
  ⟨.empty, fun _ => .ofConfig ⟨4, .float .one, maxTheta, defaultSeed, none⟩,
    fun _ => .universal, []⟩

def sharedOut : List (Action Unit Unit Empty) :=
  [.update () (.int 1) (.int 5), .compact (), .give () (.sketch ())]

def wornDown : List (Action Unit Unit Empty) :=
  [.touch (.sketch ()) 0 (.int 7), .give () (.result 0), .conclude (),
    .touch (.result 1) 0 (.int 9), .update () (.int 1) (.int 2)]

theorem summariesIsolatedWorn :
    let s := (pairStart.play pairSetup (sharedOut ++ wornDown)).1
    let shown (source : Origin Unit Empty) :=
      (s.snapshot pairSetup source).entries.map fun e => e.2.value
    shown (.sketch ()) = [.ofInt 14] ∧ shown (.result 0) = [.ofInt 5] ∧
      shown (.result 1) = [.ofInt 19] ∧
      s.snapshot pairSetup (.result 0) =
        (pairStart.play pairSetup sharedOut).1.snapshot pairSetup (.result 0) ∧
      (s.engines ()).map s.store.read = digest (Summary.combine .sum)
        ((pairStart.play pairSetup (sharedOut ++ wornDown)).2 ()) := by
  intro s shown
  have begun : pairStart.Begun pairSetup fun _ => { nominal := 16 } :=
    ⟨fun _ => QuickSelect.beginsDefaults (by decide), fun _ => rfl, rfl, nofun⟩
  have makes : ∀ e, Policy.Makes (pairSetup.policies e) (Summary.combine .sum) :=
    fun _ => storedMakes (Summary.combine .sum)
  have untouched : ∀ a ∈ wornDown, ∀ index value, a ≠ .touch (.result 0) index value := by
    simp [wornDown]
  obtain ⟨stands, digests, _⟩ := summariesIsolated (fun e => makesRenews (makes e)) begun
  have kept := stands sharedOut wornDown 0 (by decide +kernel) untouched
  have digested := (digests _ makes (sharedOut ++ wornDown) ()).1
  refine ⟨by decide +kernel, by decide +kernel, by decide +kernel, kept, ?_⟩
  simpa only [s] using digested

end Scene
end KeySampling
