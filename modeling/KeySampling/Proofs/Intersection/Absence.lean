import KeySampling.Proofs.Intersection.Attempts
import KeySampling.Proofs.Intersection.Nesting

/-! An absent input empties an intersection for good and lets go of theta: whatever theta was, it
is the largest one again, and falls anew with what comes later. Nothing else ever raises it. -/
namespace KeySampling
namespace Intersection
variable {ω σ : Type}

theorem resultTheta {ops : SummaryOps ω σ} {x : Intersection σ} {w : ω} {result : Compact σ}
    (ok : (x.result ops w).1 = .ok result) : result.theta = x.theta := by
  unfold Intersection.result at ok
  split at ok
  · contradiction
  split at ok
  · cases Except.ok.inj ok
    rfl
  split at ok
  · cases Except.ok.inj ok
    rfl
  dsimp only at ok
  split at ok
  · cases Except.ok.inj ok
    rfl
  · contradiction

/-- Whatever was given before and whichever uses fail, theta falls to the least threshold of what
is let in, until an input is absent; then it is the largest one. A result has it as it is. -/
theorem thetaFalls (ops : SummaryOps ω σ) (policy : Policy ω σ) (before : List (Call σ × ω))
    {after : List (Call σ × ω)} (present : ∀ c ∈ after, c.1.absent = false) :
    let x := universal.attemptEach ops policy before
    let x' := x.attemptEach ops policy after
    x'.theta = min x.theta (Call.thetaSince (after.map Prod.fst)) ∧
      (∀ c ∈ after, ∀ census, c.1.census = some census → x'.theta ≤ census.theta) ∧
      (∀ w result, (x'.result ops w).1 = .ok result → result.theta = x'.theta) ∧
      ∀ (c : Call σ) w, c.absent = true → (x'.give ops policy c w).2.1.theta = maxTheta := by
  intro x x'
  have present' : ∀ c ∈ after.map Prod.fst, c.absent = false := List.forall_mem_map.mpr present
  have theta : x'.theta = min x.theta (Call.thetaSince (after.map Prod.fst)) := by
    have whole : x' = universal.attemptEach ops policy (before ++ after) := List.foldl_append.symm
    rw [whole, attemptEachTheta, List.map_append, Call.thetaSinceMore present', attemptEachTheta]
  refine ⟨theta, ?_, fun w result ok => resultTheta ok, ?_⟩
  · intro c member census offers
    have least := Call.thetaSinceLe present' c.1 (List.mem_map_of_mem member)
    rw [← Call.censusTheta offers, theta]
    exact (min_le_right _ _).trans least
  · intro c w missing
    rw [giveAbsent missing]
    rfl

def drained : Call Summary := .update (honestSketch 500 [])

theorem drainedPresent : ∀ c ∈ [(drained, ())], c.1.absent = false :=
  List.forall_mem_singleton.mpr rfl

def tried (calls : List (Call Summary)) : Intersection Summary :=
  universal.attemptEach (.values .sum) (.ofFunction (Summary.combine .sum)) (calls.map (·, ()))

/-- An absent input raises theta above that of a sketch, and a sketch of the wrong kind has no part
in it. -/
theorem thetaRises :
    (tried [drained]).theta = 500 ∧ (tried [drained, .update .absent]).theta = maxTheta ∧
    ((tried [drained, .update .absent]).result (.values .sum) ()).1 =
      .ok ⟨[], maxTheta, true, none⟩ ∧
    ((tried [.update (honestSketch maxTheta []),
        .update (.keys QuickSelect.thetaKind ⟨⟨500, 0, false⟩, []⟩)]).result (.values .sum) ()).1 =
      .ok ⟨[], maxTheta, true, none⟩ :=
  ⟨rfl, rfl, rfl, rfl⟩

theorem thetaFallsDrained :
    (tried [.update .absent, drained]).theta = min (tried [.update .absent]).theta 500 ∧
    ∀ result, ((tried [.update .absent, drained]).result (.values .sum) ()).1 = .ok result →
      result.theta = 500 := by
  obtain ⟨theta, _, shown, _⟩ := thetaFalls (.values .sum) (.ofFunction (Summary.combine .sum))
    [(.update .absent, ())] drainedPresent
  exact ⟨theta, fun result ok => (shown () result ok).trans theta⟩

/-- From an absent input on, whatever follows and whether or not it fails, every result is empty.
Its theta is not that of the empty set if a sampled input follows. -/
theorem absentAbsorbs (ops : SummaryOps ω σ) (policy : Policy ω σ) {c : Call σ}
    (missing : c.absent = true) (v : ω) (before after : List (Call σ × ω)) (w : ω) :
    let x := universal.attemptEach ops policy (before ++ (c, v) :: after)
    ∃ result, x.result ops w = (.ok result, w) ∧ result.entries = [] ∧ result.empty = true ∧
      result.theta = Call.thetaSince (after.map Prod.fst) ∧
      ((∀ c ∈ after, c.1.absent = false) → (result.theta = maxTheta ↔
        ∀ c ∈ after, ∀ census, c.1.census = some census → maxTheta ≤ census.theta)) := by
  intro x
  have theta : x.theta = Call.thetaSince (after.map Prod.fst) := by
    rw [attemptEachTheta, List.map_append, List.map_cons, Call.thetaSinceAgain missing]
  have onwards : x = attemptEach ops policy
      (universal.attemptEach ops policy before).accept.collapse after := by
    simp only [x, attemptEach, List.foldl_append, List.foldl_cons, giveAbsent missing]
  have barren : x.Barren := onwards ▸ attemptEachBarren ⟨rfl, rfl⟩ after
  have empty : x.empty = true := onwards ▸ attemptEachEmpty rfl after
  refine ⟨_, barrenResult barren w, rfl, empty, theta, fun present => ?_⟩
  have present' : ∀ c ∈ after.map Prod.fst, c.absent = false := List.forall_mem_map.mpr present
  dsimp only
  rw [theta, Call.thetaSinceTop present', List.forall_mem_map]
  simp only [Call.belowTheta (le_refl maxTheta)]

/-- An empty set of which something more is known. -/
theorem absenceReleased :
    ((tried [.update .absent, drained]).result (.values .sum) ()).1 =
      .ok ⟨[], 500, true, none⟩ := rfl

theorem absentAbsorbsDrained : ∃ result,
    (tried [drained, .update .absent, drained]).result (.values .sum) () = (.ok result, ()) ∧
    result.entries = [] ∧ result.empty = true ∧ result.theta ≠ maxTheta := by
  have missing : Call.absent (.update .absent : Call Summary) = true := rfl
  obtain ⟨result, ok, nothing, empty, _, top⟩ := absentAbsorbs (.values .sum)
    (.ofFunction (Summary.combine .sum)) missing () [(drained, ())] [(drained, ())] ()
  refine ⟨result, ok, nothing, empty, fun full => ?_⟩
  have bound := (top drainedPresent).mp full (drained, ()) (by simp) ⟨500, 0, false⟩ rfl
  exact absurd bound (by decide)

end Intersection
end KeySampling
