import KeySampling.Proofs.Intersection.Snapshot
import KeySampling.Proofs.Sketch.Custody
import Mathlib.Logic.Function.Basic

/-! A program that uses tuple sketches and intersections side by side, with all their summaries in
one store. Every summary has one owner: the sketches and what came from outside, which may share
theirs, the intersections, or one result. Nothing writes to the summaries of an intersection, and
only who uses a result itself writes to those of a result. -/
namespace KeySampling

inductive Origin (ι γ : Type) where
  | absent
  | other (kind : String)
  | sketch (i : ι)
  | result (n : Nat)
  | guest (g : γ)

/-- A call that a program may make. To touch is to update one of the summaries that something
shows. -/
inductive Action (ι ε γ : Type) where
  | update (i : ι) (item value : Datum)
  | reset (i : ι)
  | touch (source : Origin ι γ) (index : Nat) (value : Datum)
  | compact (i : ι)
  | give (e : ε) (source : Origin ι γ)
  | conclude (e : ε)
  | restart (e : ε)

/-- What a program was set up with: the modes of its sketches, the policies of its intersections,
and tuple sketches of any other making. -/
structure Setup (ι ε γ : Type) where
  modes : ι → Mode
  policies : ε → Policy Store Handle
  guests : γ → Sample (Int × Handle)

structure Scene (ι ε : Type) where
  store : Store
  sketches : ι → QuickSelect Handle
  engines : ε → Intersection Handle
  results : List (Compact Handle)

namespace Scene
variable {ι ε γ : Type}

section Play
variable (setup : Setup ι ε γ)

def operand (s : Scene ι ε) : Origin ι γ → Operand Handle
  | .absent => .absent
  | .other kind => .other kind
  | .sketch i => .tuples QuickSelect.tupleKind (s.sketches i).sample
  | .result n =>
      match s.results[n]? with
      | some c => .tuples Compact.kind c.sample
      | none => .other "list"
  | .guest g => .tuples Compact.kind (setup.guests g)

def snapshot (s : Scene ι ε) (source : Origin ι γ) : Operand Summary :=
  (s.operand setup source).map s.store.read

variable [DecidableEq ι] [DecidableEq ε]

def step (s : Scene ι ε) : Action ι ε γ → Scene ι ε
  | .update i item value =>
      let (_, sketch, store) :=
        (s.sketches i).update (.stored (setup.modes i)) item value s.store
      { s with store, sketches := Function.update s.sketches i sketch }
  | .reset i => { s with sketches := Function.update s.sketches i (s.sketches i).reset }
  | .touch source index value =>
      match (s.operand setup source).entries[index]? with
      | some e => { s with store := (s.store.update e.2 value).2 }
      | none => s
  | .compact i =>
      let (c, store) := (s.sketches i).compact (.stored (setup.modes i)) s.store
      { s with store, results := s.results ++ [c] }
  -- An intersection only ever copies summaries, which is the same in every mode.
  | .give e source =>
      let (_, engine, store) :=
        (s.engines e).update (.stored .sum) (setup.policies e) (s.operand setup source) s.store
      { s with store, engines := Function.update s.engines e engine }
  | .conclude e =>
      match (s.engines e).result (.stored .sum) s.store with
      | (.ok c, store) => { s with store, results := s.results ++ [c] }
      | (.error _, store) => { s with store }
  | .restart e => { s with engines := Function.update s.engines e .universal }

/-- What each intersection was given since it was last reset, as it was then. -/
def hear (s : Scene ι ε) (heard : ε → List (Operand Summary)) :
    Action ι ε γ → ε → List (Operand Summary)
  | .give e source => Function.update heard e (heard e ++ [s.snapshot setup source])
  | .restart e => Function.update heard e []
  | _ => heard

def play (start : Scene ι ε) (actions : List (Action ι ε γ)) :
    Scene ι ε × (ε → List (Operand Summary)) :=
  actions.foldl (fun p a => (p.1.step setup a, p.1.hear setup p.2 a)) (start, fun _ => [])

end Play

inductive Owner where
  | lent
  | engine
  | result (n : Nat)

def Holds (setup : Setup ι ε γ) (s : Scene ι ε) : Owner → Handle → Prop
  | .lent, h => (∃ i, (s.sketches i).table.Has h) ∨ ∃ g, ∃ e ∈ (setup.guests g).entries, e.2 = h
  | .engine, h => ∃ e, (s.engines e).Has h
  | .result n, h => ∃ c, s.results[n]? = some c ∧ ∃ e ∈ c.entries, e.2 = h

def Owned (setup : Setup ι ε γ) (s : Scene ι ε) (owner : Handle → Owner) : Prop :=
  ∀ who h, s.Holds setup who h → s.store.Live h ∧ owner h = who

structure Acts (setup : Setup ι ε γ) (s : Scene ι ε) (actor : Owner) (written : Handle → Prop)
    (s' : Scene ι ε) : Prop where
  alters : Store.Alters written s.store s'.store
  holds : ∀ who h, s'.Holds setup who h →
    s'.store.Live h ∧ (s.Holds setup who h ∨ who = actor ∧ ¬ s.store.Live h)

end Scene

def Origin.owner {ι γ : Type} : Origin ι γ → Scene.Owner
  | .result n => .result n
  | _ => .lent

namespace Action
variable {ι ε γ : Type}

def Writes : Action ι ε γ → Scene.Owner → Prop
  | .update _ _ _, who => who = .lent
  | .touch source _ _, who => who = source.owner
  | _, _ => False

def OfEngine : Action ι ε γ → Prop
  | .give _ _ | .conclude _ | .restart _ => True
  | _ => False

theorem writesResult {a : Action ι ε γ} {n : Nat} (writes : a.Writes (.result n)) :
    ∃ index value, a = .touch (.result n) index value := by
  cases a with
  | touch source index value =>
    cases source <;> cases writes
    exact ⟨index, value, rfl⟩
  | update _ _ _ => cases writes
  | reset _ | compact _ | give _ _ | conclude _ | restart _ => exact writes.elim

theorem writesEngine {a : Action ι ε γ} : ¬ a.Writes .engine := by
  intro writes
  cases a with
  | touch source _ _ => cases source <;> cases writes
  | update _ _ _ => cases writes
  | reset _ | compact _ | give _ _ | conclude _ | restart _ => exact writes

theorem engineWrites {a : Action ι ε γ} (engine : a.OfEngine) (who : Scene.Owner) :
    ¬ a.Writes who := by
  cases a with
  | give _ _ | conclude _ | restart _ => exact id
  | update _ _ _ | reset _ | touch _ _ _ | compact _ => exact engine.elim

def actor (s : Scene ι ε) : Action ι ε γ → Scene.Owner
  | .compact _ | .conclude _ => .result s.results.length
  | .give _ _ | .restart _ => .engine
  | _ => .lent

end Action

namespace Scene
variable {ι ε γ : Type} {setup : Setup ι ε γ} {s s' : Scene ι ε} {owner : Handle → Owner}

theorem operandHolds (source : Origin ι γ) {e : Int × Handle}
    (member : e ∈ (s.operand setup source).entries) : s.Holds setup source.owner e.2 := by
  cases source with
  | absent | other _ => simp [operand, Operand.entries] at member
  | sketch i => exact .inl ⟨i, EntryTable.hasEntry member⟩
  | guest g => exact .inr ⟨g, e, member, rfl⟩
  | result n =>
    simp only [operand] at member
    split at member
    · rename_i c held
      exact ⟨c, held, e, member, rfl⟩
    · simp [Operand.entries] at member

theorem actsOwned {actor : Owner} {written : Handle → Prop} (owned : s.Owned setup owner)
    (acts : s.Acts setup actor written s') : ∃ owner', s'.Owned setup owner' := by
  classical
  -- What was given out keeps its owner; what is new goes to whom the call acts for.
  refine ⟨fun h => if s.store.Live h then owner h else actor, fun who h has => ?_⟩
  obtain ⟨live, old | ⟨rfl, dead⟩⟩ := acts.holds who h has
  · obtain ⟨lived, same⟩ := owned who h old
    exact ⟨live, (if_pos lived).trans same⟩
  · exact ⟨live, if_neg dead⟩

theorem actsOf {actor : Owner} {written put : Handle → Prop} (owned : s.Owned setup owner)
    (alters : Store.Alters written s.store s'.store)
    (split : ∀ who h, s'.Holds setup who h → s.Holds setup who h ∨ who = actor ∧ put h)
    (origin : ∀ h, put h → s'.store.Live h ∧ (s.Holds setup actor h ∨ ¬ s.store.Live h)) :
    s.Acts setup actor written s' := by
  refine ⟨alters, fun who h has => ?_⟩
  rcases split who h has with old | ⟨rfl, inside⟩
  · exact ⟨alters.lasts h (owned who h old).1, .inl old⟩
  · obtain ⟨live, old | dead⟩ := origin h inside
    · exact ⟨live, .inl old⟩
    · exact ⟨live, .inr ⟨rfl, dead⟩⟩

theorem actsFewer {actor : Owner} {written : Handle → Prop} (owned : s.Owned setup owner)
    (alters : Store.Alters written s.store s'.store)
    (fewer : ∀ who h, s'.Holds setup who h → s.Holds setup who h) :
    s.Acts setup actor written s' := by
  refine ⟨alters, fun who h has => ?_⟩
  have old := fewer who h has
  exact ⟨alters.lasts h (owned who h old).1, .inl old⟩

theorem sketchHolds [DecidableEq ι] {store : Store} {i : ι} {sketch : QuickSelect Handle}
    (who : Owner) (h : Handle)
    (has : Holds setup { s with store, sketches := Function.update s.sketches i sketch } who h) :
    s.Holds setup who h ∨ who = .lent ∧ sketch.table.Has h := by
  cases who with
  | engine | result _ => exact .inl has
  | lent =>
    rcases has with ⟨j, has⟩ | guest
    · dsimp only at has
      by_cases here : j = i
      · subst here
        rw [Function.update_self] at has
        exact .inr ⟨rfl, has⟩
      · rw [Function.update_of_ne here] at has
        exact .inl (.inl ⟨j, has⟩)
    · exact .inl (.inr guest)

theorem engineHolds [DecidableEq ε] {store : Store} {e : ε} {engine : Intersection Handle}
    (who : Owner) (h : Handle)
    (has : Holds setup { s with store, engines := Function.update s.engines e engine } who h) :
    s.Holds setup who h ∨ who = .engine ∧ engine.Has h := by
  cases who with
  | lent | result _ => exact .inl has
  | engine =>
    obtain ⟨f, has⟩ := has
    dsimp only at has
    by_cases here : f = e
    · subst here
      rw [Function.update_self] at has
      exact .inr ⟨rfl, has⟩
    · rw [Function.update_of_ne here] at has
      exact .inl ⟨f, has⟩

theorem resultHolds {store : Store} {c : Compact Handle} (who : Owner) (h : Handle)
    (has : Holds setup { s with store, results := s.results ++ [c] } who h) :
    s.Holds setup who h ∨ who = .result s.results.length ∧ ∃ e ∈ c.entries, e.2 = h := by
  cases who with
  | lent | engine => exact .inl has
  | result n =>
    obtain ⟨d, held, inside⟩ := has
    rcases Nat.lt_trichotomy n s.results.length with before | rfl | after
    · rw [List.getElem?_append_left before] at held
      exact .inl ⟨d, held, inside⟩
    · rw [List.getElem?_concat_length] at held
      cases held
      exact .inr ⟨rfl, inside⟩
    · rw [List.getElem?_eq_none (by rw [List.length_append]; exact after)] at held
      contradiction

section Step
variable [DecidableEq ι] [DecidableEq ε]

theorem updateActs (owned : s.Owned setup owner) (i : ι) (item value : Datum) :
    s.Acts setup .lent (fun h => owner h = .lent)
      (s.step setup (.update i item value : Action ι ε γ)) := by
  have mine (h : Handle) (has : (s.sketches i).table.Has h) := owned .lent h (.inl ⟨i, has⟩)
  have works := QuickSelect.updateWorks (setup.modes i) (fun h has => (mine h has).1) item value
  refine actsOf owned (Store.altersMore works.alters fun h has => (mine h has).2) sketchHolds
    fun h has => ?_
  obtain ⟨live, origin⟩ := works.holds h has
  exact ⟨live, origin.imp_left fun old => .inl ⟨i, old⟩⟩

theorem compactActs (owned : s.Owned setup owner) (i : ι) (written : Handle → Prop) :
    s.Acts setup (.result s.results.length) written
      (s.step setup (.compact i : Action ι ε γ)) := by
  obtain ⟨_, made⟩ := QuickSelect.compactMade (setup.modes i) fun h has =>
    (owned .lent h (.inl ⟨i, has⟩)).1
  refine actsOf owned (Store.keepsAlters made.keeps) resultHolds fun h has => ?_
  obtain ⟨e, member, rfl⟩ := has
  exact ⟨made.live e member, .inr (made.new e member)⟩

theorem giveActs (renews : ∀ e, Policy.Renews (setup.policies e))
    (owned : s.Owned setup owner) (e : ε) (source : Origin ι γ) (written : Handle → Prop) :
    s.Acts setup .engine written (s.step setup (.give e source)) := by
  have frames := Intersection.updateFrames .sum (renews e)
    (fun h has => (owned .engine h ⟨e, has⟩).1)
    fun entry member => (owned _ _ (operandHolds source member)).1
  refine actsOf owned (Store.keepsAlters frames.keeps) engineHolds fun h has => ?_
  obtain ⟨live, origin⟩ := frames.own h has
  exact ⟨live, origin.imp_left fun old => ⟨e, old⟩⟩

theorem concludeActs (owned : s.Owned setup owner) (e : ε) (written : Handle → Prop) :
    s.Acts setup (.result s.results.length) written
      (s.step setup (.conclude e : Action ι ε γ)) := by
  have yields := Intersection.resultYields .sum fun h has => (owned .engine h ⟨e, has⟩).1
  simp only [step]
  generalize (s.engines e).result (.stored .sum) s.store = r at yields ⊢
  generalize ((s.engines e).map s.store.read).result (.values .sum) () = v at yields
  cases yields with
  | failed keeps => exact actsFewer owned (Store.keepsAlters keeps) fun _ _ has => has
  | made made =>
    refine actsOf owned (Store.keepsAlters made.keeps) resultHolds fun h has => ?_
    obtain ⟨e, member, rfl⟩ := has
    exact ⟨made.live e member, .inr (made.new e member)⟩

theorem touchActs (owned : s.Owned setup owner) (source : Origin ι γ) (index : Nat)
    (value : Datum) : s.Acts setup .lent (fun h => owner h = source.owner)
      (s.step setup (.touch source index value : Action ι ε γ)) := by
  simp only [step]
  split
  · rename_i e held
    have mine := (owned _ _ (operandHolds source (List.mem_of_getElem? held))).2
    have alters := Store.updateAlters s.store e.2 value
    refine actsFewer owned (Store.altersMore alters ?_) fun _ _ has => has
    rintro h rfl
    exact mine
  · exact actsFewer owned (Store.keepsAlters (keepsSelf Store.read? s.store)) fun _ _ has => has

theorem stepActs (renews : ∀ e, Policy.Renews (setup.policies e))
    (owned : s.Owned setup owner) (a : Action ι ε γ) :
    s.Acts setup (a.actor s) (fun h => a.Writes (owner h)) (s.step setup a) := by
  have kept (written : Handle → Prop) : Store.Alters written s.store s.store :=
    Store.keepsAlters (keepsSelf Store.read? s.store)
  cases a with
  | update i item value => exact updateActs owned i item value
  | touch source index value => exact touchActs owned source index value
  | compact i => exact compactActs owned i _
  | give e source => exact giveActs renews owned e source _
  | conclude e => exact concludeActs owned e _
  | reset i =>
    refine actsFewer owned (kept _) fun who h has => ?_
    exact (sketchHolds who h has).resolve_right fun new => EntryTable.blankHas _ h new.2
  | restart e =>
    refine actsFewer owned (kept _) fun who h has => ?_
    refine (engineHolds who h has).resolve_right ?_
    rintro ⟨_, t, cleared, _⟩
    cases cleared

end Step
end Scene
end KeySampling
