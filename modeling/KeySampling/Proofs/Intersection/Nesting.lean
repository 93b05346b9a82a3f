import KeySampling.Proofs.Intersection.Emptiness
import KeySampling.Proofs.Intersection.Result

/-! Feeding the result of an intersection to another. Theta, the keys and what is held for them are
the same as if all the inputs had come one after the other. The emptiness flag is not: it is told
from the result's theta and keys, which say less than the inputs did. -/
namespace KeySampling

inductive Operand.Honest {σ : Type} : Operand σ → Prop
  | absent : Honest .absent
  | tuples {kind : String} {sample : Sample (Int × σ)}
      (honest : sample.census.Honest (sample.entries.map Prod.fst)) : Honest (.tuples kind sample)

def Operand.Readable {ω σ τ : Type} (read : Reading ω σ τ) (w : ω) : Operand σ → Prop
  | .tuples _ sample => ∀ e ∈ sample.entries, ∃ x, read w e.2 = some x
  | _ => True

theorem blindReadable {ω σ : Type} (w : ω) (input : Operand σ) : input.Readable blind w := by
  cases input with
  | tuples kind sample => exact fun _ _ => ⟨(), rfl⟩
  | _ => trivial

def Compact.holds {ω σ τ : Type} (read : Reading ω σ τ) (w : ω) (c : Compact σ) (key : Int) :
    Option τ := (c.entries.lookup key).bind (read w)

def intersectNested {ω σ : Type} (ops : SummaryOps ω σ) (policy : Policy ω σ)
    (first later : List (Operand σ)) (w : ω) : Except Fault (Compact σ) × ω :=
  match intersect ops policy first w with
  | (.error f, w) => (.error f, w)
  | (.ok inner, w) => intersect ops policy (.tuples Compact.kind inner.sample :: later) w

namespace Call
variable {ω σ τ : Type} {read : Reading ω σ τ} {f : τ → τ → τ} {w w' : ω} {key : Int} {c : Call σ}
  {first later : List (Call σ)}

theorem honestProper {input : Operand σ} (honest : input.Honest)
    (readable : input.Readable read w) : Proper read w (.update input) := by
  cases honest with
  | absent => exact .absent
  | tuples honest => exact .tuples honest readable

theorem keyPositive (proper : c.Proper read w) (member : key ∈ c.keys) : 0 < key := by
  cases proper with
  | absent => simp [keys] at member
  | absentKeys summary => simp [keys] at member
  | tuples honest _ => exact (honest.inRange key member).1
  | keys honest _ => exact (honest.inRange key member).1

theorem properKept (proper : c.Proper read w) (keeps : read.Keeps w w') : c.Proper read w' := by
  cases proper with
  | absent => exact .absent
  | absentKeys summary => exact .absentKeys summary
  | tuples honest readable =>
    refine .tuples honest fun e member => ?_
    obtain ⟨x, held⟩ := readable e member
    exact ⟨x, keeps e.2 x held⟩
  | @keys _ _ summary x honest readable => exact .keys honest (keeps summary x readable)

theorem joinKept (proper : c.Proper read w) (keeps : read.Keeps w w') (mine : τ) :
    c.join f read w' key mine = c.join f read w key mine := by
  cases proper with
  | absent => rfl
  | absentKeys summary => rfl
  | @tuples _ sample _ readable =>
    simp only [join]
    cases found : sample.entries.lookup key with
    | none => rfl
    | some s =>
      obtain ⟨x, held⟩ := readable (key, s) (lookupMember found)
      simp only [Option.bind_some, held, keeps s x held]
  | keys _ _ => rfl

theorem thetaSinceStands (present : c.absent = false) (same : c.theta = thetaSince first) :
    thetaSince (c :: later) = thetaSince (first ++ later) := by
  have single : thetaSince ([] ++ [c]) = min maxTheta c.theta := thetaSincePresent present
  rw [List.nil_append, same, min_eq_right (thetaSinceBound first)] at single
  exact thetaSinceThrough single later

theorem outcomeStands (nonempty : first ≠ []) (proper : ∀ c ∈ later, c.Proper read w)
    (keeps : read.Keeps w w') (same : c.seed read w' key = outcome f read w key first) :
    outcome f read w' key (c :: later) = outcome f read w key (first ++ later) := by
  induction later using List.reverseRecOn with
  | nil => rw [outcomeOne, same, List.append_nil]
  | append_singleton later last ih =>
    have before := ih fun c member => proper c (List.mem_append_left _ member)
    rw [← List.cons_append, ← List.append_assoc, outcomeSnoc (by simp),
      outcomeSnoc (by simp [nonempty]), before]
    congr 1
    funext mine
    exact joinKept (proper last (by simp)) keeps mine

end Call

namespace Intersection
variable {ω σ τ : Type} {ops : SummaryOps ω σ} {policy : Policy ω σ} {read : Reading ω σ τ}
  {join : τ → τ → τ} {origin w w' : ω} {c : Compact σ}

theorem resultKeeps {x : Intersection σ} {calls : List (Call σ)} (copies : ops.Copies read)
    (computes : Computes read join origin w x calls) : read.Keeps w (x.result ops w).2 := by
  unfold result
  split
  · exact keepsSelf read w
  split
  · exact keepsSelf read w
  rename_i t held
  split
  · exact keepsSelf read w
  have finds : read.Finds w (t.entries.filter fun e => decide (e.1 ≤ x.theta)) fun key =>
      Call.outcome join read origin key calls := by
    intro e member
    refine computes.contents e ?_
    simp only [entries, held]
    exact List.mem_of_mem_filter member
  dsimp only
  split <;> exact (copyAllFinds copies finds).2.2

theorem intersectReports {inputs : List (Operand σ)} (copies : ops.Copies read)
    (joins : policy.Joins read join) (nonempty : inputs ≠ [])
    (proper : ∀ call ∈ inputs.map Call.update, call.Proper read w) :
    ∃ c w', intersect ops policy inputs w = (.ok c, w') ∧
      Reports read join w w' (inputs.map Call.update) c ∧ read.Keeps w w' := by
  obtain ⟨x, w₁, run, computes⟩ := giveAllComputes copies joins
    (universalComputes read join w) proper
  rw [List.nil_append] at computes
  obtain ⟨c, ok, reports⟩ := resultReports copies computes (by simpa using nonempty)
  refine ⟨c, (x.result ops w₁).2, ?_, reports, ?_⟩
  · simp only [intersect, updateAllGiven, run]
    exact Prod.ext ok rfl
  · exact keepsTrans computes.keeps (resultKeeps copies computes)

section Nested
variable {first later : List (Call σ)}

abbrev fed (c : Compact σ) : Call σ := .update (.tuples Compact.kind c.sample)

theorem reportsProper (reports : Reports read join w w' first c) (nonempty : first ≠ [])
    (proper : ∀ call ∈ first, call.Proper read w) : (fed c).Proper read w' := by
  refine .tuples ⟨?_, reports.nodup, fun key member => ?_, ?_⟩ fun e member => ?_
  · rw [List.length_map]
    rfl
  · obtain ⟨below, every⟩ := (reports.keys key).mp member
    obtain ⟨call, here⟩ := List.exists_mem_of_ne_nil first nonempty
    exact ⟨Call.keyPositive (proper call here) (every call here), below⟩
  · exact reports.theta.trans_le (Call.thetaSinceBound first)
  · obtain ⟨x, _, held⟩ := reports.contents e member
    exact ⟨x, held⟩

theorem keysStand (reports : Reports read join w w' first c) (key : Int) :
    (key < Call.thetaSince (fed c :: later) ∧ ∀ call ∈ fed c :: later, key ∈ call.keys) ↔
      key < Call.thetaSince (first ++ later) ∧ ∀ call ∈ first ++ later, key ∈ call.keys := by
  have stands : Call.thetaSince (fed c :: later) = Call.thetaSince (first ++ later) :=
    Call.thetaSinceStands rfl reports.theta
  rw [← stands]
  have inner : key ∈ (fed c).keys ↔ key < c.theta ∧ ∀ call ∈ first, key ∈ call.keys :=
    reports.keys key
  simp only [List.forall_mem_cons, List.forall_mem_append, inner]
  constructor
  · exact fun all => ⟨all.1, all.2.1.2, all.2.2⟩
  · rintro ⟨below, old, new⟩
    refine ⟨below, ⟨lt_of_lt_of_le below ?_, old⟩, new⟩
    -- An absent input would raise theta again, but a key that all have is in none of those.
    have present : ∀ call ∈ fed c :: later, call.absent = false := by
      intro call member
      rcases List.mem_cons.mp member with same | other
      · exact same ▸ rfl
      · exact Call.presentOfKey (new call other)
    exact Call.thetaSinceLe present (fed c) List.mem_cons_self

theorem reportsHolds {calls : List (Call σ)} {key : Int}
    (reports : Reports read join origin w calls c) (member : key ∈ c.entries.map Prod.fst) :
    ∃ x, c.holds read w key = some x ∧ Call.outcome join read origin key calls = some x := by
  obtain ⟨⟨key, s⟩, inside, rfl⟩ := List.mem_map.mp member
  obtain ⟨x, said, held⟩ := reports.contents _ inside
  exact ⟨x, by rw [Compact.holds, lookupEntry reports.nodup inside, Option.bind_some, held],
    said⟩

theorem nestedHolds {inner flat nested : Compact σ} {w₁ w₂ w₃ : ω} (nonempty : first ≠ [])
    (proper : ∀ call ∈ first ++ later, call.Proper read w)
    (innerReports : Reports read join w w₁ first inner) (keeps : read.Keeps w w₁)
    (flatReports : Reports read join w w₂ (first ++ later) flat)
    (nestedReports : Reports read join w₁ w₃ (fed inner :: later) nested) :
    nested.theta = flat.theta ∧
      (nested.entries.map Prod.fst).Perm (flat.entries.map Prod.fst) ∧
      ∀ key ∈ flat.entries.map Prod.fst, ∃ x,
        flat.holds read w₂ key = some x ∧ nested.holds read w₃ key = some x := by
  have theta : nested.theta = flat.theta := by
    rw [nestedReports.theta, flatReports.theta]
    exact Call.thetaSinceStands rfl innerReports.theta
  have keys (key : Int) :
      key ∈ nested.entries.map Prod.fst ↔ key ∈ flat.entries.map Prod.fst := by
    rw [nestedReports.keys, flatReports.keys, nestedReports.theta, flatReports.theta]
    exact keysStand innerReports key
  refine ⟨theta, (List.perm_ext_iff_of_nodup nestedReports.nodup flatReports.nodup).mpr keys, ?_⟩
  intro key member
  have member' := (keys key).mpr member
  obtain ⟨x, straight, outcome⟩ := reportsHolds flatReports member
  obtain ⟨y, roundabout, outcome'⟩ := reportsHolds nestedReports member'
  obtain ⟨z, fedBack, between⟩ := reportsHolds innerReports
    (((nestedReports.keys key).mp member').2 (fed inner) List.mem_cons_self)
  have stands : Call.outcome join read w₁ key (fed inner :: later) =
      Call.outcome join read w key (first ++ later) :=
    Call.outcomeStands nonempty (fun call other => proper call (List.mem_append_right _ other))
      keeps (fedBack.trans between.symm)
  rw [stands, outcome] at outcome'
  exact ⟨x, straight, roundabout.trans outcome'.symm⟩

theorem nestedEmpty {inner flat nested : Compact σ} {w₁ w₂ w₃ : ω}
    (innerReports : Reports read join w w₁ first inner)
    (flatReports : Reports read join w w₂ (first ++ later) flat)
    (nestedReports : Reports read join w₁ w₃ (fed inner :: later) nested) :
    nested.empty = flat.empty ↔
      (inner.empty = true ↔ inner.entries = [] ∧ inner.theta = maxTheta) ∨
        ∃ call ∈ later, call.absent = true ∨ call.keys = [] ∧ call.theta = maxTheta := by
  have told : nested.empty = true ↔ inner.entries = [] ∧ inner.theta = maxTheta ∨
      ∃ call ∈ later, call.absent = true ∨ call.keys = [] ∧ call.theta = maxTheta := by
    rw [nestedReports.empty, List.exists_mem_cons_iff]
    simp [Call.absent, Call.keys, Call.theta, Compact.sample, Compact.census]
  have known : flat.empty = true ↔ inner.empty = true ∨
      ∃ call ∈ later, call.absent = true ∨ call.keys = [] ∧ call.theta = maxTheta := by
    rw [flatReports.empty, innerReports.empty]
    simp only [List.mem_append, or_and_right, exists_or]
  rw [Bool.eq_iff_iff, told, known]
  by_cases others : ∃ call ∈ later, call.absent = true ∨ call.keys = [] ∧ call.theta = maxTheta
  · simp only [others, or_true]
  · simp only [others, or_false]
    exact Iff.comm

end Nested

theorem nestedReports {first later : List (Operand σ)} (copies : ops.Copies read)
    (joins : policy.Joins read join) (nonempty : first ≠ [])
    (proper : ∀ call ∈ (first ++ later).map Call.update, call.Proper read w) :
    ∃ inner flat nested w₁ w₂ w₃, intersect ops policy first w = (.ok inner, w₁) ∧
      intersect ops policy (first ++ later) w = (.ok flat, w₂) ∧
      intersectNested ops policy first later w = (.ok nested, w₃) ∧
      Reports read join w w₁ (first.map Call.update) inner ∧ read.Keeps w w₁ ∧
      Reports read join w w₂ (first.map Call.update ++ later.map Call.update) flat ∧
      Reports read join w₁ w₃ (fed inner :: later.map Call.update) nested := by
  obtain ⟨flat, w₂, straight, flatReports, _⟩ :=
    intersectReports copies joins (List.append_ne_nil_of_left_ne_nil nonempty later) proper
  rw [List.map_append] at proper flatReports
  have old : ∀ call ∈ first.map Call.update, call.Proper read w := fun call member =>
    proper call (List.mem_append_left _ member)
  obtain ⟨inner, w₁, begun, innerReports, keeps⟩ := intersectReports copies joins nonempty old
  have again : ∀ call ∈ (.tuples Compact.kind inner.sample :: later).map Call.update,
      call.Proper read w₁ := by
    intro call member
    rcases List.mem_cons.mp member with same | new
    · exact same ▸ reportsProper innerReports (by simpa using nonempty) old
    · exact Call.properKept (proper call (List.mem_append_right _ new)) keeps
  obtain ⟨nested, w₃, ended, reports, _⟩ :=
    intersectReports copies joins (List.cons_ne_nil _ _) again
  refine ⟨inner, flat, nested, w₁, w₂, w₃, begun, straight, ?_, innerReports, keeps, flatReports,
    reports⟩
  rw [intersectNested, begun]
  exact ended

/-- The result of an intersection, as the first input of another, gives the theta, the keys and the
summaries that all the inputs give in one go. The emptiness flag is the same just when the inner
result's flag follows from its theta and keys, or some later input makes both empty. -/
theorem nestedAgrees (ops : SummaryOps ω σ) (policy : Policy ω σ) {first later : List (Operand σ)}
    (nonempty : first ≠ []) (honest : ∀ input ∈ first ++ later, input.Honest) (w : ω) :
    ∃ inner flat nested w₁ w₂ w₃, intersect ops policy first w = (.ok inner, w₁) ∧
      intersect ops policy (first ++ later) w = (.ok flat, w₂) ∧
      intersectNested ops policy first later w = (.ok nested, w₃) ∧
      nested.theta = flat.theta ∧ (flat.entries.map Prod.fst).Nodup ∧
      (nested.entries.map Prod.fst).Perm (flat.entries.map Prod.fst) ∧
      (nested.empty = flat.empty ↔
        (inner.empty = true ↔ inner.entries = [] ∧ inner.theta = maxTheta) ∨
          ∃ call ∈ later.map Call.update,
            call.absent = true ∨ call.keys = [] ∧ call.theta = maxTheta) ∧
      ∀ {τ : Type} {read : Reading ω σ τ} {join : τ → τ → τ}, ops.Copies read →
        policy.Joins read join → (∀ input ∈ first ++ later, input.Readable read w) →
          ∀ key ∈ flat.entries.map Prod.fst, ∃ x,
            flat.holds read w₂ key = some x ∧ nested.holds read w₃ key = some x := by
  have proper {τ : Type} {read : Reading ω σ τ}
      (readable : ∀ input ∈ first ++ later, input.Readable read w) :
      ∀ call ∈ (first ++ later).map Call.update, call.Proper read w := by
    intro call member
    obtain ⟨input, inside, rfl⟩ := List.mem_map.mp member
    exact Call.honestProper (honest input inside) (readable input inside)
  have mapped : first.map (Call.update (σ := σ)) ≠ [] := by simpa using nonempty
  -- No contract is needed for what does not look into the summaries.
  obtain ⟨inner, flat, nested, w₁, w₂, w₃, begun, straight, ended, innerReports, keeps, flatReports,
    reports⟩ := nestedReports (blindCopies ops) (blindJoins policy) nonempty
      (proper fun input _ => blindReadable w input)
  obtain ⟨theta, perm, _⟩ := nestedHolds mapped
    (List.map_append ▸ proper fun input _ => blindReadable w input) innerReports keeps flatReports
    reports
  refine ⟨inner, flat, nested, w₁, w₂, w₃, begun, straight, ended, theta, flatReports.nodup, perm,
    nestedEmpty innerReports flatReports reports, ?_⟩
  intro τ read join copies joins readable
  obtain ⟨_, _, _, _, _, _, begun', straight', ended', innerReports', keeps', flatReports',
    reports'⟩ := nestedReports copies joins nonempty (proper readable)
  cases begun.symm.trans begun'
  cases straight.symm.trans straight'
  cases ended.symm.trans ended'
  exact (nestedHolds mapped (List.map_append ▸ proper readable) innerReports' keeps' flatReports'
    reports').2.2

def honestSketch (theta : Int) (entries : List (Int × σ)) : Operand σ :=
  .tuples QuickSelect.tupleKind ⟨⟨theta, entries.length, entries.isEmpty && theta == maxTheta⟩,
    entries⟩

theorem sketchHonest {theta : Int} {entries : List (Int × σ)}
    (nodup : (entries.map Prod.fst).Nodup)
    (inRange : ∀ key ∈ entries.map Prod.fst, 0 < key ∧ key < theta) (bound : theta ≤ maxTheta) :
    (honestSketch theta entries).Honest :=
  .tuples ⟨by rw [List.length_map], nodup, inRange, bound⟩

/-- Two disjoint sketches are not empty, but their intersection is when it is fed back; an empty
and a sampled sketch the other way round. -/
theorem nestedDisagrees :
    let policy : Policy Unit Summary := .ofFunction (Summary.combine .sum)
    let flag (r : Except Fault (Compact Summary) × Unit) := r.1.toOption.map Compact.empty
    let disjoint := [honestSketch maxTheta [(1, .fresh .sum)],
      honestSketch maxTheta [(2, .fresh .sum)]]
    let sampled := [honestSketch maxTheta [], honestSketch 500 []]
    ((∀ input ∈ disjoint, input.Honest) ∧
      flag (intersect (.values .sum) policy disjoint ()) = some false ∧
      flag (intersectNested (.values .sum) policy disjoint [] ()) = some true) ∧
    (∀ input ∈ sampled, input.Honest) ∧
      flag (intersect (.values .sum) policy sampled ()) = some true ∧
      flag (intersectNested (.values .sum) policy sampled [] ()) = some false := by
  intro policy flag disjoint sampled
  refine ⟨⟨?_, by decide +kernel⟩, ?_, by decide +kernel⟩
  · simp only [disjoint, List.forall_mem_cons]
    exact ⟨sketchHonest (by decide) (by decide) (by decide),
      sketchHonest (by decide) (by decide) (by decide), by simp⟩
  · simp only [sampled, List.forall_mem_cons]
    exact ⟨sketchHonest (by decide) (by decide) (by decide),
      sketchHonest (by decide) (by decide) (by decide), by simp⟩

def overlapping : List (Operand Handle) × List (Operand Handle) :=
  ([honestSketch 90 [(5, ⟨0⟩), (7, ⟨1⟩)], honestSketch 80 [(7, ⟨0⟩)]],
    [honestSketch 70 [(7, ⟨1⟩), (9, ⟨0⟩)]])

theorem nestedAgreesOverlapping : ∃ flat nested store₂ store₃ x,
    intersect (.stored .sum) (.stored (Summary.combine .sum))
      (overlapping.1 ++ overlapping.2) pairedStore = (.ok flat, store₂) ∧
    intersectNested (.stored .sum) (.stored (Summary.combine .sum)) overlapping.1 overlapping.2
      pairedStore = (.ok nested, store₃) ∧
    nested.theta = flat.theta ∧
    flat.holds Store.read? store₂ 7 = some x ∧ nested.holds Store.read? store₃ 7 = some x := by
  have sound : ∀ input ∈ overlapping.1 ++ overlapping.2,
      input.Honest ∧ input.Readable Store.read? pairedStore := by
    simp only [overlapping, List.cons_append, List.nil_append, List.forall_mem_cons]
    refine ⟨⟨sketchHonest (by decide) (by decide) (by decide), ?_⟩,
      ⟨sketchHonest (by decide) (by decide) (by decide), ?_⟩,
      ⟨sketchHonest (by decide) (by decide) (by decide), ?_⟩, by simp⟩ <;>
      simp [honestSketch, Operand.Readable, Store.read?, pairedStore]
  obtain ⟨_, flat, nested, _, store₂, store₃, _, straight, ended, theta, _, _, _, held⟩ :=
    nestedAgrees (.stored .sum) (.stored (Summary.combine .sum)) (by decide)
      (fun input member => (sound input member).1) pairedStore
  have keys : (intersect (.stored .sum) (.stored (Summary.combine .sum))
      (overlapping.1 ++ overlapping.2) pairedStore).1.toOption.map
        (fun c => c.entries.map Prod.fst) = some [7] := by decide +kernel
  rw [straight] at keys
  obtain ⟨x, one, other⟩ := held (storedCopies .sum) (storedJoins _)
    (fun input member => (sound input member).2) 7 (by simp [Option.some.inj keys])
  exact ⟨flat, nested, store₂, store₃, x, straight, ended, theta, one, other⟩

end Intersection
end KeySampling
