import KeySampling.Proofs.Intersection.Run
import KeySampling.Proofs.KeyTable.Filling

/-! Intersections that are given anything at all: inputs of the wrong kind, counts that are
misstated, keys that repeat or exceed their threshold. A use that fails is passed over, and the
intersection goes on as it left it. -/
namespace KeySampling
namespace Call
variable {σ : Type} {c : Call σ} {before after : List (Call σ)}

def census : Call σ → Option Census
  | .update (.tuples _ sample) => some sample.census
  | .updateKeys (.keys _ sample) _ => some sample.census
  | _ => none

theorem censusTheta {census : Census} (offers : c.census = some census) :
    c.theta = census.theta := by
  unfold Call.census at offers
  split at offers <;> cases offers <;> rfl

theorem refusedTheta (unfit : c.census = none) : c.theta = maxTheta := by
  unfold theta
  split <;> simp_all [census]

theorem belowTheta {bound : Int} (low : bound ≤ maxTheta) :
    bound ≤ c.theta ↔ ∀ census, c.census = some census → bound ≤ census.theta := by
  cases told : c.census with
  | none => simp [refusedTheta told, low]
  | some census => simp [censusTheta told]

theorem censusPresent {census : Census} (offers : c.census = some census) :
    c.absent = false := by
  unfold Call.census at offers
  split at offers <;> cases offers <;> rfl

theorem thetaSinceAgain (missing : c.absent = true) (before after : List (Call σ)) :
    thetaSince (before ++ c :: after) = thetaSince after := by
  have restart : thetaSince (before ++ [c]) = thetaSince ([] : List (Call σ)) :=
    thetaSinceAbsent missing
  simpa using thetaSinceThrough restart after

theorem thetaSinceMore (present : ∀ c ∈ after, c.absent = false) :
    thetaSince (before ++ after) = min (thetaSince before) (thetaSince after) := by
  induction after using List.reverseRecOn with
  | nil => rw [List.append_nil]; exact (min_eq_left (thetaSinceBound before)).symm
  | append_singleton after last ih =>
    have here := present last (by simp)
    rw [← List.append_assoc, thetaSincePresent here, thetaSincePresent here,
      ih fun c member => present c (List.mem_append_left _ member), min_assoc]

theorem thetaSinceTop (present : ∀ c ∈ after, c.absent = false) :
    thetaSince after = maxTheta ↔ ∀ c ∈ after, maxTheta ≤ c.theta := by
  constructor
  · intro top c member
    exact top ▸ thetaSinceLe present c member
  · intro every
    rcases thetaSinceReached present with top | ⟨c, member, same⟩
    · exact top
    · exact le_antisymm (thetaSinceBound after) (same ▸ every c member)

end Call

namespace Intersection
variable {ω σ ι : Type} {x x' : Intersection σ} {c : Call σ} {w w' : ω}

def attemptEach (ops : SummaryOps ω σ) (policy : Policy ω σ) (x : Intersection σ)
    (calls : List (Call σ × ω)) : Intersection σ :=
  calls.foldl (fun x c => (x.give ops policy c.1 c.2).2.1) x

inductive Comes (x : Intersection σ) (c : Call σ) (w : ω) :
    Except Fault Unit × Intersection σ × ω → Prop
  | refused {f : Fault} (present : c.absent = false) (unfit : c.census = none) :
      Comes x c w (.error f, x, w)
  | collapsed (missing : c.absent = true) : Comes x c w (.ok (), x.accept.collapse, w)
  | cleared {census : Census} (offers : c.census = some census) (nothing : census.retained = 0) :
      Comes x c w (.ok (), x.accept.restrict census, w)
  | seeded {census : Census} {entries : List (Int × σ)} {w' : ω}
      (offers : c.census = some census) (retains : census.retained ≠ 0)
      (first : x.started = false) (keys : entries.map Prod.fst = c.keys) :
      Comes x c w
        (((x.accept.restrict census).store (build census.retained entries)).1,
          ((x.accept.restrict census).store (build census.retained entries)).2, w')
  | refined {census : Census} {ι : Type} {step : σ → ι → ω → σ × ω} {entries : List (Int × ι)}
      (offers : c.census = some census) (retains : census.retained ≠ 0)
      (later : x.started = true) (keys : entries.map Prod.fst = c.keys) :
      Comes x c w ((x.accept.restrict census).refine step entries w)

theorem copyAllKeys (ops : SummaryOps ω σ) (entries : List (Int × σ)) (w : ω) :
    (ops.copyAll entries w).1.map Prod.fst = entries.map Prod.fst := by
  induction entries generalizing w with
  | nil => rfl
  | cons e rest ih => simp [SummaryOps.copyAll, ih]

theorem copyAllLength (ops : SummaryOps ω σ) (entries : List (Int × σ)) (w : ω) :
    (ops.copyAll entries w).1.length = entries.length := by
  rw [← List.length_map (f := Prod.fst), copyAllKeys, List.length_map]

theorem giveComes (ops : SummaryOps ω σ) (policy : Policy ω σ) (x : Intersection σ) (c : Call σ)
    (w : ω) : Comes x c w (x.give ops policy c w) := by
  cases c with
  | update input =>
    cases input with
    | absent => exact .collapsed rfl
    | keys kind sample => exact .refused rfl rfl
    | other kind => exact .refused rfl rfl
    | tuples kind sample =>
      simp only [give, update]
      split
      · exact .cleared rfl ‹_›
      split
      · exact .refined rfl ‹_› ‹_› rfl
      · exact .seeded rfl ‹_› (Bool.eq_false_iff.mpr ‹_›) (copyAllKeys ops sample.entries w)
  | updateKeys input summary =>
    cases input with
    | absent => exact .collapsed rfl
    | tuples kind sample => exact .refused rfl rfl
    | other kind => exact .refused rfl rfl
    | keys kind sample =>
      simp only [give, updateKeys]
      split
      · exact .cleared rfl ‹_›
      split
      · exact .refined rfl ‹_› ‹_› (keysAlike sample.entries ())
      · exact .seeded rfl ‹_› (Bool.eq_false_iff.mpr ‹_›) (keysAlike sample.entries summary)

theorem restrictClears {census : Census} (nothing : census.retained = 0) :
    (x.accept.restrict census).table = none := by
  simp [restrict, nothing]

theorem restrictKeeps {census : Census} (retains : census.retained ≠ 0) :
    (x.accept.restrict census).table = x.table := by
  simp [restrict, accept, retains]

theorem giveAbsent {ops : SummaryOps ω σ} {policy : Policy ω σ} (missing : c.absent = true) :
    x.give ops policy c w = (.ok (), x.accept.collapse, w) := by
  generalize came : x.give ops policy c w = out
  cases came ▸ giveComes ops policy x c w with
  | refused present _ => simp [missing] at present
  | collapsed _ => rfl
  | cleared offers _ | seeded offers _ _ _ | refined offers _ _ _ =>
    simp [Call.censusPresent offers] at missing

inductive Admits (x : Intersection σ) (c : Call σ) (census : Census) (w : ω) :
    Except Fault Unit × Intersection σ × ω → Prop
  | cleared (nothing : census.retained = 0) :
      Admits x c census w (.ok (), x.accept.restrict census, w)
  | seeded {entries : List (Int × σ)} {w' : ω} (retains : census.retained ≠ 0)
      (first : x.started = false) (keys : entries.map Prod.fst = c.keys) :
      Admits x c census w
        (((x.accept.restrict census).store (build census.retained entries)).1,
          ((x.accept.restrict census).store (build census.retained entries)).2, w')
  | refined {ι : Type} {step : σ → ι → ω → σ × ω} {entries : List (Int × ι)}
      (retains : census.retained ≠ 0) (later : x.started = true)
      (keys : entries.map Prod.fst = c.keys) :
      Admits x c census w ((x.accept.restrict census).refine step entries w)

theorem giveAdmits {census : Census} (offers : c.census = some census) (ops : SummaryOps ω σ)
    (policy : Policy ω σ) (x : Intersection σ) (w : ω) :
    Admits x c census w (x.give ops policy c w) := by
  generalize came : x.give ops policy c w = out
  cases came ▸ giveComes ops policy x c w with
  | refused _ unfit => simp [offers] at unfit
  | collapsed missing => simp [Call.censusPresent offers] at missing
  | cleared offers' nothing =>
    cases Option.some.inj (offers.symm.trans offers')
    exact .cleared nothing
  | seeded offers' retains first keys =>
    cases Option.some.inj (offers.symm.trans offers')
    exact .seeded retains first keys
  | refined offers' retains later keys =>
    cases Option.some.inj (offers.symm.trans offers')
    exact .refined retains later keys

inductive Moves (x : Intersection σ) (c : Call σ) : Intersection σ → Prop
  | refused (present : c.absent = false) (unfit : c.census = none) : Moves x c x
  | collapsed (missing : c.absent = true) : Moves x c x.accept.collapse
  | restricted {census : Census} (offers : c.census = some census)
      (table : Option (EntryTable σ)) : Moves x c { x.accept.restrict census with table }

theorem storeTable (x : Intersection σ) (built : Except Fault (EntryTable σ)) :
    ∃ table, (x.store built).2 = { x with table } := by
  cases built with
  | error f => exact ⟨x.table, rfl⟩
  | ok t => exact ⟨some t, rfl⟩

theorem refineTable (x : Intersection σ) (step : σ → ι → ω → σ × ω) (entries : List (Int × ι))
    (w : ω) : ∃ table, (x.refine step entries w).2.1 = { x with table } := by
  unfold refine
  split
  · exact ⟨x.table, rfl⟩
  split
  · exact ⟨x.table, rfl⟩
  split
  · exact ⟨x.table, rfl⟩
  · exact storeTable x _

theorem giveMoves (ops : SummaryOps ω σ) (policy : Policy ω σ) (x : Intersection σ) (c : Call σ)
    (w : ω) : Moves x c (x.give ops policy c w).2.1 := by
  generalize came : x.give ops policy c w = out
  cases came ▸ giveComes ops policy x c w with
  | refused present unfit => exact .refused present unfit
  | collapsed missing => exact .collapsed missing
  | cleared offers _ => exact .restricted offers _
  | @seeded census entries _ offers _ _ _ =>
    obtain ⟨table, same⟩ := storeTable (x.accept.restrict census) (build census.retained entries)
    exact same ▸ .restricted offers table
  | @refined census _ step entries offers _ _ _ =>
    obtain ⟨table, same⟩ := refineTable (x.accept.restrict census) step entries w
    exact same ▸ .restricted offers table

section Run
variable {ops : SummaryOps ω σ} {policy : Policy ω σ}

theorem attemptEachKeeps {P : List (Call σ) → Intersection σ → Prop}
    (step : ∀ past x c w, P past x → P (past ++ [c]) (x.give ops policy c w).2.1)
    (past : List (Call σ)) {x : Intersection σ} (holds : P past x) (calls : List (Call σ × ω)) :
    P (past ++ calls.map Prod.fst) (x.attemptEach ops policy calls) := by
  induction calls generalizing x past with
  | nil => simpa [attemptEach] using holds
  | cons c rest ih => simpa [attemptEach] using ih (past ++ [c.1]) (step past x c.1 c.2 holds)

theorem attemptEachTheta (calls : List (Call σ × ω)) :
    (universal.attemptEach ops policy calls).theta = Call.thetaSince (calls.map Prod.fst) := by
  refine attemptEachKeeps (P := fun past x => x.theta = Call.thetaSince past) ?_ [] rfl calls
  intro past x c w same
  generalize moved : (x.give ops policy c w).2.1 = x'
  cases moved ▸ giveMoves ops policy x c w with
  | refused present unfit =>
    rw [Call.thetaSincePresent present, Call.refusedTheta unfit, same]
    exact (min_eq_left (Call.thetaSinceBound past)).symm
  | collapsed missing => exact (Call.thetaSinceAbsent missing).symm
  | @restricted census offers _ =>
    rw [Call.thetaSincePresent (Call.censusPresent offers), Call.censusTheta offers, ← same]
    rfl

theorem attemptEachFresh (calls : List (Call σ × ω)) :
    (universal.attemptEach ops policy calls).started = false →
      universal.attemptEach ops policy calls = universal := by
  refine attemptEachKeeps (P := fun _ x => x.started = false → x = universal) ?_ []
    (fun _ => rfl) calls
  intro past x c w same
  generalize moved : (x.give ops policy c w).2.1 = x'
  cases moved ▸ giveMoves ops policy x c w with
  | refused _ _ => exact same
  | collapsed _ => exact fun impossible => by contradiction
  | restricted _ _ => exact fun impossible => by contradiction

structure Barren (x : Intersection σ) : Prop where
  started : x.started = true
  table : x.table = none

theorem giveBarren (barren : x.Barren) (c : Call σ) (w : ω) :
    (x.give ops policy c w).2.1.Barren := by
  generalize came : x.give ops policy c w = out
  cases came ▸ giveComes ops policy x c w with
  | refused _ _ => exact barren
  | collapsed _ => exact ⟨rfl, rfl⟩
  | cleared _ nothing => exact ⟨rfl, restrictClears nothing⟩
  | seeded _ _ first _ => simp [barren.started] at first
  | @refined census _ step entries _ retains _ _ =>
    have bare : (x.accept.restrict census).table = none :=
      (restrictKeeps retains).trans barren.table
    simp only [refine, bare]
    exact ⟨rfl, bare⟩

theorem attemptEachBarren (barren : x.Barren) (calls : List (Call σ × ω)) :
    (x.attemptEach ops policy calls).Barren :=
  attemptEachKeeps (P := fun _ x => x.Barren) (fun _ _ c w barren => giveBarren barren c w) []
    barren calls

theorem barrenResult (barren : x.Barren) (w : ω) :
    x.result ops w = (.ok ⟨[], x.theta, x.empty, none⟩, w) := by
  simp [result, barren.started, barren.table]

theorem attemptEachEmpty (empty : x.empty = true) (calls : List (Call σ × ω)) :
    (x.attemptEach ops policy calls).empty = true := by
  refine attemptEachKeeps (P := fun _ x => x.empty = true) ?_ [] empty calls
  intro _ x c w empty
  generalize moved : (x.give ops policy c w).2.1 = x'
  cases moved ▸ giveMoves ops policy x c w with
  | refused _ _ => exact empty
  | collapsed _ => rfl
  | restricted _ _ => simp [restrict, accept, empty]

end Run

end Intersection
end KeySampling
