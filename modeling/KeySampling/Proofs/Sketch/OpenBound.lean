import KeySampling.Proofs.Census.Bracketing
import KeySampling.Proofs.Sketch.ExactCount

/-! The upper bound of a sampled sketch. A threshold that was lowered is a retained key, so theta
reaches zero only where it starts there. With a positive theta the bound is positive: a retained
key counts for itself, and with none the sketch still has its first theta, whose share of the keys
is told from one. A probability below 2^-63 leaves no threshold, and its bounds are all zero. -/
namespace KeySampling

namespace Census
open Binary64
variable {c : Census} {count : Nat} {δ : ℚ}

theorem shareBelowOne (far : c.theta ≤ 9223372036854774784) : c.share < 1 := by
  have quotient : ofQuotient 9223372036854774784 maxTheta =
      .finite ⟨false, 9007199254740991, -53, by decide⟩ := by decide +kernel
  have nonneg : (0 : ℚ) ≤ (9223372036854774784 : Int) / maxTheta :=
    div_nonneg (by norm_num) maxThetaPos.le
  have most : ((9223372036854774784 : Int) : ℚ) / maxTheta ≤ 2 ^ (0 : Int) := by
    rw [zpow_zero, div_le_one₀ maxThetaPos]
    norm_num [maxTheta]
  have value : (ofQuotient 9223372036854774784 maxTheta).toRat? =
      some (rounded ((9223372036854774784 : Int) / maxTheta)) :=
    ofRatValue (belowHuge nonneg most (by decide))
  rw [quotient, toRat?, positiveValue rfl, magnitudePow, Option.some.injEq] at value
  have le : (c.theta : ℚ) / maxTheta ≤ (9223372036854774784 : Int) / maxTheta :=
    div_le_div_of_nonneg_right (by exact_mod_cast far) maxThetaPos.le
  calc c.share ≤ rounded ((9223372036854774784 : Int) / maxTheta) := roundedMono le
    _ = (9007199254740991 : Nat) * 2 ^ (-53 : Int) := value.symm
    _ < 1 := by norm_num

theorem estimateOpen (possible : c.Possible count) (positive : 0 < c.theta)
    (shown : c.empty = false) (occupied : 0 < count) : 1 ≤ c.estimateAt (rounded count) := by
  obtain ⟨low, high⟩ := shareRange possible
  have share : 0 < c.share := lt_of_lt_of_le (zpowPos _) (shareLeast positive)
  have whole : (1 : ℚ) ≤ rounded count := by
    rw [← roundedOne]
    exact roundedMono (by exact_mod_cast occupied)
  rw [estimateAt, if_neg (by simp [shown, share.ne']), ← roundedOne]
  refine roundedMono (whole.trans ((le_div_iff₀ share).mpr ?_))
  exact mul_le_of_le_one_right (zero_le_one.trans whole) high

theorem upperOpen (possible : c.Possible count) (positive : 0 < c.theta)
    (sampled : c.isSampled = true) (open' : 0 < count ∨ c.theta ≤ 9223372036854774784)
    {k : Int} (asked : k = 1 ∨ k = 2 ∨ k = 3) : ∃ u, Yields (c.upperBound k) u ∧ 0 < u := by
  obtain ⟨δ, deviated, nonneg, deviates, yields⟩ := boundsYield possible
  have bound := (yields k asked).2
  rw [if_pos sampled] at bound
  refine ⟨_, bound, ?_⟩
  have least : 1 ≤ k := by omega
  have low := (estimateRange possible).1
  have own := yieldsOwn (estimateYields possible)
  rcases open' with occupied | far
  · have shown : c.empty = false := by
      simp only [isSampled, Bool.and_eq_true, Bool.not_eq_true'] at sampled
      exact sampled.2
    have estimate := estimateOpen possible positive shown occupied
    linarith [upperAbove own nonneg (show 0 ≤ k by omega)]
  · have share : 0 < c.share := lt_of_lt_of_le (zpowPos _) (shareLeast positive)
    have one : rounded ((1 : Int) * δ) = δ := by rw [Int.cast_one, one_mul, yieldsOwn deviated]
    have spread := spreadMono nonneg least
    rw [one] at spread
    calc 0 < δ := deviates share (shareBelowOne far)
      _ = rounded δ := (yieldsOwn deviated).symm
      _ ≤ upperAt (c.estimateAt (rounded count)) δ k := roundedMono (by linarith)

theorem upperNone {k : Int} (asked : k = 1 ∨ k = 2 ∨ k = 3) :
    upperBound ⟨0, 0, false⟩ k = .ok (.zero false) := by
  rcases asked with rfl | rfl | rfl <;> decide +kernel

end Census

namespace Config
variable {settings : Settings} {config : Config} {p : Binary64}

theorem initialFloor (given : settings.probability = .float p)
    (accepted : ofSettings settings = .ok config) : ∃ x, p.toRat? = some x ∧
      (2 ^ (-63 : Int) ≤ x → 1 ≤ config.initialTheta) ∧
      (x < 2 ^ (-63 : Int) → config.initialTheta = 0) ∧
      (config.initialTheta = maxTheta ∨ config.initialTheta ≤ 9223372036854774784) := by
  obtain ⟨_, fraction, rfl⟩ := acceptedSettings accepted
  rw [given] at fraction ⊢
  obtain ⟨x, rfl, positive, ⟨full, one⟩ | ⟨below, less⟩⟩ := fractionRange fraction
  · have top : thetaFor (.float (.finite x)) = maxTheta := if_pos full
    refine ⟨1, by rw [Binary64.toRat?, one], fun _ => ?_, fun small => ?_, .inl top⟩
    · exact top.symm ▸ (by decide : (1 : Int) ≤ maxTheta)
    · exact absurd small (not_lt.mpr (by norm_num))
  · have product : (2 : ℚ) ^ (-63 : Int) * 2 ^ (63 : Int) = 1 := Binary64.zpowCancel 63
    have scale := Binary64.zpowPos 63
    rw [thetaForShare positive less below]
    refine ⟨_, rfl, fun large => ?_, fun small => ?_, .inr ?_⟩
    · rw [Rat.le_floor_iff, Int.cast_one, ← product]
      exact mul_le_mul_of_nonneg_right large scale.le
    · have low := thetaForNonneg fraction
      rw [thetaForShare positive less below] at low
      have high : (x.toRat * 2 ^ (63 : Int)).floor < 1 := by
        rw [Rat.floor_lt_iff, Int.cast_one, ← product]
        exact mul_lt_mul_of_pos_right small scale
      exact le_antisymm (Int.lt_add_one_iff.mp high) low
    · have most := shareBelowTop positive less
      exact_mod_cast (Rat.floor_le _).trans most

end Config

namespace QuickSelect
variable {ω σ : Type}

def Afloat (s : QuickSelect σ) : Prop := s.theta = s.config.initialTheta ∨ 0 < s.theta

theorem settlesAfloat {s s' : QuickSelect σ} (intact : s.Intact) (afloat : s.Afloat)
    (settles : Settles s s') : s'.Afloat := by
  cases settles with
  | kept _ | grown _ _ _ => exact afloat
  | rebuilt _ _ _ =>
    rcases selectMem s.table.keySet s.config.nominal s.theta with same | member
    · exact afloat.imp same.trans fun positive => lt_of_lt_of_eq positive same.symm
    · exact .inr (intact.inRange _ member).1

theorem updateAfloat {ops : SummaryOps ω σ} {s s' : QuickSelect σ} {item value : Datum}
    {r : Except Fault Unit} {w w' : ω} (intact : s.Intact) (afloat : s.Afloat)
    (next : s.update ops item value w = (r, s', w')) : s'.Afloat := by
  cases r with
  | ok _ =>
    obtain ⟨key, hashed, steps⟩ := updateSteps intact.table next
    cases steps with
    | dropped _ => exact afloat
    | taken nonzero below absorbs settles =>
      exact settlesAfloat (absorbsIntact intact hashed nonzero below absorbs) afloat settles
  | error f => cases updateFails intact next <;> exact afloat

theorem reachedAfloat {ops : SummaryOps ω σ} {settings : Settings} {s : QuickSelect σ}
    {past : List (Datum × Datum)} (reached : Reached ops settings past s) : s.Afloat := by
  induction reached with
  | begun begins =>
    obtain ⟨config, _, rfl⟩ := beginsOfConfig begins
    exact .inl rfl
  | updated reached next ih => exact updateAfloat (reachedTracks reached).intact ih next

section Bound
variable {ops : SummaryOps ω σ} {settings : Settings} {s : QuickSelect σ}
  {past : List (Datum × Datum)}

theorem reachedFloor (reached : Reached ops settings past s) : 0 ≤ s.theta := by
  rcases reachedAfloat reached with same | positive
  · exact same ▸ Config.acceptedFloor (reachedTracks reached).accepted
  · exact positive.le

theorem reachedPossible (reached : Reached ops settings past s) :
    s.census.Possible s.table.count := by
  have intact := (reachedTracks reached).intact
  exact ⟨reachedFloor reached, intact.theta.trans intact.bounded, rfl, countFits intact⟩

theorem reachedOpen (reached : Reached ops settings past s)
    (floor : 1 ≤ s.config.initialTheta)
    (far : s.config.initialTheta = maxTheta ∨ s.config.initialTheta ≤ 9223372036854774784)
    (sampled : s.census.isSampled = true) : 1 ≤ s.theta ∧
      ∀ k : Int, k = 1 ∨ k = 2 ∨ k = 3 →
        ∃ u, Binary64.Yields (s.census.upperBound k) u ∧ 0 < u := by
  have tracks := reachedTracks reached
  have positive : 0 < s.theta := by
    rcases reachedAfloat reached with same | key
    · exact same ▸ floor
    · exact key
  refine ⟨positive, fun k asked => ?_⟩
  refine Census.upperOpen (reachedPossible reached) positive sampled ?_ asked
  rcases Nat.eq_zero_or_pos s.table.count with vacant | occupied
  · -- A sketch that retains nothing never lowered its theta, and it is below the top.
    have untouched := tracks.bare.untouched vacant
    have below : s.theta < maxTheta := by
      simp only [Census.isSampled, Bool.and_eq_true, decide_eq_true_eq] at sampled
      exact sampled.1
    have least : s.theta ≤ 9223372036854774784 := by
      rw [untouched] at below ⊢
      exact far.resolve_left below.ne
    exact .inr least
  · exact .inl occupied

theorem reachedNone (reached : Reached ops settings past s) (nonempty : past ≠ [])
    (zero : s.config.initialTheta = 0) : s.census = ⟨0, 0, false⟩ := by
  have tracks := reachedTracks reached
  have shown : s.empty = false := Bool.eq_false_of_not_eq_true (mt tracks.empty.mp nonempty)
  have nothing : s.table.count = 0 := by
    refine tracks.bare.nothing.mpr fun key member => .inr ?_
    exact zero ▸ (keyInRange member).1
  rw [census, tracks.bare.untouched nothing, zero, nothing, shown]
  rfl

end Bound

/-- Of a sketch in sampling mode the upper bounds are positive if its probability is at least
2^-63, retained keys or not. A smaller one, although it is accepted, leaves no threshold: then
every sketch that was given an item is in sampling mode, and all its upper bounds are zero. -/
theorem boundStaysOpen (ops : SummaryOps ω σ) {settings : Settings} {p : Binary64}
    (given : settings.probability = .float p) {start s : QuickSelect σ}
    (begins : Begins settings start) {updates : List (Datum × Datum)} {w w' : ω}
    (nonempty : updates ≠ []) (ok : start.updateAll ops updates w = (.ok (), s, w')) :
    ∃ x, p.toRat? = some x ∧
      (2 ^ (-63 : Int) ≤ x → s.census.isSampled = true → 1 ≤ start.theta ∧ 1 ≤ s.theta ∧
        ∀ k : Int, k = 1 ∨ k = 2 ∨ k = 3 →
          ∃ u, Binary64.Yields (s.census.upperBound k) u ∧ 0 < u) ∧
      (x < 2 ^ (-63 : Int) → s.census.isSampled = true ∧ start.theta = 0 ∧ s.theta = 0 ∧
        s.census.retained = 0 ∧
        ∀ k : Int, k = 1 ∨ k = 2 ∨ k = 3 → s.census.upperBound k = .ok (.zero false)) := by
  have reached := updateAllReached begins ok
  have tracks := reachedTracks reached
  obtain ⟨config, accepted, rfl⟩ := beginsOfConfig begins
  have same : config = s.config := Except.ok.inj (accepted.symm.trans tracks.accepted)
  subst same
  obtain ⟨x, value, floor, drops, far⟩ := Config.initialFloor given accepted
  refine ⟨x, value, fun large sampled => ?_, fun small => ?_⟩
  · exact ⟨floor large, reachedOpen reached (floor large) far sampled⟩
  · have shown := reachedNone reached nonempty (drops small)
    have theta : s.theta = 0 := congrArg Census.theta shown
    rw [shown]
    exact ⟨rfl, drops small, theta, rfl, fun k asked => Census.upperNone asked⟩

theorem beginsSixteen {p : Binary64} {theta : Int} {limit : Option Int}
    (fraction : (Datum.float p).isFraction true = .ok true)
    (initial : thetaFor (.float p) = theta) :
    Begins { nominal := 16, probability := .float p, memoryLimit := limit }
      (ofConfig ⟨4, .float p, theta, defaultSeed, limit⟩ : QuickSelect σ) := by
  have log : (ceilingPow2 16).log2 = 4 := by decide
  rw [← log, ← initial]
  exact beginsAccepted (Config.settingsAccepted le_rfl fraction)

/-- The least probability that leaves a threshold, for which no key is below it. -/
theorem boundStaysOpenBare :
    let p : Binary64 := .finite ⟨false, 4503599627370496, -115, by decide⟩
    let start : QuickSelect Unit := ofConfig ⟨4, .float p, 1, defaultSeed, none⟩
    let s := (start.updateAll .keysOnly edgeStream ()).2.1
    Begins { nominal := 16, probability := .float p } start ∧
    start.updateAll .keysOnly edgeStream () = (.ok (), s, ()) ∧
    s.census.isSampled = true ∧ s.census.retained = 0 ∧ 1 ≤ s.theta ∧
    ∃ u, Binary64.Yields (s.census.upperBound 1) u ∧ 0 < u := by
  intro p start s
  have begins : Begins { nominal := 16, probability := .float p } start :=
    beginsSixteen (by decide +kernel) (by decide +kernel)
  have ok : start.updateAll .keysOnly edgeStream () = (.ok (), s, ()) :=
    Prod.ext (by decide +kernel) rfl
  have sampled : s.census.isSampled = true := by decide +kernel
  obtain ⟨x, value, open', _⟩ := boundStaysOpen .keysOnly rfl begins
    (List.cons_ne_nil _ _) ok
  have least : (2 : ℚ) ^ (-63 : Int) ≤ x := by
    rw [← Option.some.inj value, Binary64.positiveValue rfl, Binary64.magnitudePow]
    norm_num
  obtain ⟨_, theta, bounds⟩ := open' least sampled
  exact ⟨begins, ok, sampled, by decide +kernel, theta, bounds 1 (.inl rfl)⟩

/-- Half of it leaves none: after one item the sketch is in sampling mode, and bounded by zero. -/
theorem boundCloses :
    let p : Binary64 := .finite ⟨false, 4503599627370496, -116, by decide⟩
    let start : QuickSelect Unit := ofConfig ⟨4, .float p, 0, defaultSeed, none⟩
    let s := (start.updateAll .keysOnly [(.int 1, .none)] ()).2.1
    Begins { nominal := 16, probability := .float p } start ∧
    start.updateAll .keysOnly [(.int 1, .none)] () = (.ok (), s, ()) ∧
    s.census.isSampled = true ∧ ¬ 1 ≤ start.theta ∧ ¬ 1 ≤ s.theta ∧
    ∀ k : Int, k = 1 ∨ k = 2 ∨ k = 3 → s.census.upperBound k = .ok (.zero false) := by
  intro p start s
  have shown : s.census = ⟨0, 0, false⟩ := by decide +kernel
  refine ⟨beginsSixteen (by decide +kernel) (by decide +kernel), ?_⟩
  refine ⟨Prod.ext (by decide +kernel) rfl, by decide +kernel, by decide, by decide +kernel, ?_⟩
  intro k asked
  rw [shown]
  exact Census.upperNone asked

end QuickSelect
end KeySampling
