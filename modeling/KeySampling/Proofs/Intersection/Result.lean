import KeySampling.Proofs.Intersection.Run
import KeySampling.Sketch.QuickSelect

/-! The result of an intersection. All keys of the table lie below theta, so none is left out and
the number of entries is the one that was kept count of. -/
namespace KeySampling
namespace Intersection
variable {ω σ τ : Type} {ops : SummaryOps ω σ} {policy : Policy ω σ} {read : Reading ω σ τ}
  {join : τ → τ → τ} {origin w : ω} {x : Intersection σ} {calls : List (Call σ)}

/-- A result that says what the inputs say, with summaries that can be read in a world. -/
structure Reports (read : Reading ω σ τ) (join : τ → τ → τ) (origin w : ω)
    (calls : List (Call σ)) (c : Compact σ) : Prop where
  theta : c.theta = Call.thetaSince calls
  empty : c.empty = true ↔
    ∃ call ∈ calls, call.absent = true ∨ call.keys = [] ∧ call.theta = maxTheta
  nodup : (c.entries.map Prod.fst).Nodup
  keys : ∀ key, key ∈ c.entries.map Prod.fst ↔ key < c.theta ∧ ∀ call ∈ calls, key ∈ call.keys
  contents : read.Finds w c.entries fun key => Call.outcome join read origin key calls

theorem nothingReports (computes : Computes read join origin w x calls) (nonempty : calls ≠ [])
    (nothing : x.entries = []) :
    Reports read join origin w calls ⟨[], x.theta, x.empty, none⟩ := by
  refine ⟨computes.theta, computes.empty, by simp, ?_, by simp [Reading.Finds]⟩
  intro key
  have held := computes.keys key
  simp only [nothing] at held
  rw [held]
  exact ⟨fun inside => inside.2, fun inside => ⟨nonempty, inside⟩⟩

theorem resultReports (copies : ops.Copies read) (computes : Computes read join origin w x calls)
    (nonempty : calls ≠ []) :
    ∃ c, (x.result ops w).1 = .ok c ∧ Reports read join origin (x.result ops w).2 calls c := by
  have started : x.started = true := computes.started.mpr nonempty
  unfold result
  rw [if_neg (by simp [started])]
  cases held : x.table with
  | none => exact ⟨_, rfl, nothingReports computes nonempty (by simp [entries, held])⟩
  | some t =>
    have wf := computes.table t held
    have shown : x.entries = t.entries := by simp [entries, held]
    by_cases vacant : t.count = 0
    · simp only [if_pos vacant]
      rw [wf.counted, List.length_eq_zero_iff, ← shown] at vacant
      exact ⟨_, rfl, nothingReports computes nonempty vacant⟩
    simp only [if_neg vacant]
    have all : t.entries.filter (fun e => decide (e.1 ≤ x.theta)) = t.entries := by
      refine List.filter_eq_self.mpr fun e member => decide_eq_true ?_
      exact ((computes.keys e.1).mp (shown ▸ List.mem_map_of_mem member)).2.1.le
    obtain ⟨keys, copied, keeps⟩ := copyAllFinds copies (shown ▸ computes.contents)
    have length : (ops.copyAll t.entries w).1.length = t.count := by
      rw [wf.counted, ← List.length_map (f := Prod.fst), keys, List.length_map]
    simp only [all, if_pos length]
    refine ⟨_, rfl, computes.theta, computes.empty, ?_, ?_, copied⟩
    · rw [keys]
      exact EntryTable.keysNodup wf
    · intro key
      rw [keys, ← shown, computes.keys]
      exact ⟨fun inside => inside.2, fun inside => ⟨nonempty, inside⟩⟩

/-- An intersection of well-formed inputs, in any order and with absent or empty ones anywhere,
refuses none of them and comes to the result that they have together. -/
theorem referenceComputed (copies : ops.Copies read) (joins : policy.Joins read join)
    (proper : ∀ call ∈ calls, call.Proper read w) :
    ∃ x w', (universal : Intersection σ).giveAll ops policy calls w = (.ok (), x, w') ∧
      ((x.result ops w').1 = .error .nothingIntersected ↔ calls = []) ∧
      (calls ≠ [] → ∃ c, (x.result ops w').1 = .ok c ∧
        c.theta = Call.thetaSince calls ∧
        (c.empty = true ↔
          ∃ call ∈ calls, call.absent = true ∨ call.keys = [] ∧ call.theta = maxTheta) ∧
        (c.entries.map Prod.fst).Nodup ∧
        (∀ key, key ∈ c.entries.map Prod.fst ↔
          (∀ call ∈ calls, call.absent = false ∧ call.keys ≠ []) ∧
            key < c.theta ∧ ∀ call ∈ calls, key ∈ call.keys) ∧
        ∀ key s, (key, s) ∈ c.entries → ∃ y, Call.outcome join read w key calls = some y ∧
          read (x.result ops w').2 s = some y) := by
  obtain ⟨x, w', run, computes⟩ :=
    giveAllComputes copies joins (universalComputes read join w) proper
  rw [List.nil_append] at computes
  refine ⟨x, w', run, ?_, fun nonempty => ?_⟩
  · constructor
    · intro refused
      by_contra nonempty
      obtain ⟨c, ok, _⟩ := resultReports copies computes nonempty
      rw [ok] at refused
      contradiction
    · intro empty
      have fresh : x.started = false := by
        rw [← Bool.not_eq_true, computes.started]
        simp [empty]
      rw [result, if_pos fresh]
  · obtain ⟨c, ok, reports⟩ := resultReports copies computes nonempty
    refine ⟨c, ok, reports.theta, reports.empty, reports.nodup, fun key => ?_,
      fun key s member => reports.contents (key, s) member⟩
    rw [reports.keys]
    constructor
    · intro inside
      refine ⟨fun call member => ?_, inside⟩
      have held := inside.2 call member
      exact ⟨Call.presentOfKey held, List.ne_nil_of_mem held⟩
    · exact fun inside => inside.2

def pairedCalls : List (Call Handle) :=
  [.update (.tuples QuickSelect.tupleKind ⟨⟨90, 2, false⟩, [(5, ⟨0⟩), (7, ⟨1⟩)]⟩),
    .updateKeys (.keys QuickSelect.thetaKind ⟨⟨80, 2, false⟩, [7, 9]⟩) ⟨0⟩]

def pairedStore : Store := ⟨#[⟨.one, .sum⟩, ⟨.one, .max⟩]⟩

theorem pairedProper : ∀ call ∈ pairedCalls, call.Proper Store.read? pairedStore := by
  intro call member
  rcases List.mem_cons.mp member with first | later
  · subst first
    refine .tuples ⟨by decide, by decide, by decide, by decide⟩ ?_
    intro e inside
    rcases List.mem_cons.mp inside with one | other
    · exact ⟨⟨.one, .sum⟩, by rw [one]; rfl⟩
    · exact ⟨⟨.one, .max⟩, by rw [List.mem_singleton.mp other]; rfl⟩
  · rw [List.mem_singleton.mp later]
    exact .keys (x := ⟨.one, .sum⟩) ⟨by decide, by decide, by decide, by decide⟩ rfl

theorem referenceComputedPaired : ∃ x store,
    universal.giveAll (.stored .sum) (.stored (Summary.combine .sum)) pairedCalls pairedStore =
      (.ok (), x, store) ∧
    ∃ c, (x.result (.stored .sum) store).1 = .ok c ∧ c.theta = 80 ∧ 7 ∈ c.entries.map Prod.fst := by
  obtain ⟨x, store, run, _, reports⟩ := referenceComputed (storedCopies .sum)
    (storedJoins (Summary.combine .sum)) pairedProper
  obtain ⟨c, ok, theta, _, _, keys, _⟩ := reports (by decide)
  have least : c.theta = 80 := theta.trans (by decide)
  exact ⟨x, store, run, c, ok, least, (keys 7).mpr ⟨by decide, by rw [least]; decide, by decide⟩⟩

end Intersection
end KeySampling
