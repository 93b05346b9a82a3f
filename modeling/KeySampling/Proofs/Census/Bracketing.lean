import KeySampling.Proofs.Census.Evaluation

/-! The order of the bounds. Each step of their computation keeps order, so that a wider bound is
nowhere narrower after rounding; and a rounding changes neither the estimate nor the number of
retained keys, so that no bound crosses them. -/
namespace KeySampling
namespace Census
open Binary64

section Order
variable {count estimate deviation : ℚ}

theorem spreadMono (nonneg : 0 ≤ deviation) {j k : Int} (le : j ≤ k) :
    rounded (j * deviation) ≤ rounded (k * deviation) :=
  roundedMono (mul_le_mul_of_nonneg_right (by exact_mod_cast le) nonneg)

theorem spreadNonneg (nonneg : 0 ≤ deviation) {k : Int} (low : 0 ≤ k) :
    0 ≤ rounded (k * deviation) := roundedNonneg (mul_nonneg (by exact_mod_cast low) nonneg)

theorem lowerWiden (nonneg : 0 ≤ deviation) {j k : Int} (le : j ≤ k) :
    lowerAt count estimate deviation k ≤ lowerAt count estimate deviation j :=
  max_le_max (le_refl _) (roundedMono (sub_le_sub_left (spreadMono nonneg le) _))

theorem upperWiden (nonneg : 0 ≤ deviation) {j k : Int} (le : j ≤ k) :
    upperAt estimate deviation j ≤ upperAt estimate deviation k :=
  roundedMono (add_le_add_right (spreadMono nonneg le) _)

theorem lowerBelow (own : rounded estimate = estimate) (most : count ≤ estimate)
    (nonneg : 0 ≤ deviation) {k : Int} (low : 0 ≤ k) :
    lowerAt count estimate deviation k ≤ estimate := by
  refine max_le most ?_
  calc rounded (estimate - rounded (k * deviation)) ≤ rounded estimate :=
        roundedMono (sub_le_self _ (spreadNonneg nonneg low))
    _ = estimate := own

theorem upperAbove (own : rounded estimate = estimate) (nonneg : 0 ≤ deviation) {k : Int}
    (low : 0 ≤ k) : estimate ≤ upperAt estimate deviation k :=
  calc estimate = rounded estimate := own.symm
    _ ≤ rounded (estimate + rounded (k * deviation)) :=
        roundedMono (le_add_of_nonneg_right (spreadNonneg nonneg low))

end Order

variable {c : Census} {count : Nat}

theorem estimateFull (few : count ≤ 9007199254740992) (emptyCount : c.empty = true → count = 0)
    (exact' : c.theta = maxTheta ∨ c.empty = true) : c.estimateAt (rounded count) = count := by
  rw [estimateAt, roundedWhole few]
  rcases exact' with full | empty
  · rw [shareFull full, div_one, roundedWhole few]
    by_cases empty : c.empty = true
    · rw [if_pos (.inl empty), emptyCount empty, Nat.cast_zero]
    · rw [if_neg (by simp [empty])]
  · rw [if_pos (.inl empty), emptyCount empty, Nat.cast_zero]

theorem retainedLeEstimate (possible : c.Possible count) (few : count ≤ 9007199254740992)
    (emptyCount : c.empty = true → count = 0) (thetaPositive : 0 < count → 0 < c.theta) :
    (count : ℚ) ≤ c.estimateAt (rounded count) := by
  have nothing (absent : count = 0) : (count : ℚ) ≤ 0 := by rw [absent, Nat.cast_zero]
  rw [estimateAt]
  split
  · rename_i vanishes
    rcases vanishes with empty | unseen
    · exact nothing (emptyCount empty)
    · refine nothing (Nat.eq_zero_of_not_pos fun positive => ?_)
      exact (thetaPositive positive).ne' ((shareZero possible).mp unseen)
  rename_i shown
  rw [not_or] at shown
  obtain ⟨low, high⟩ := shareRange possible
  have positive : 0 < c.share := lt_of_le_of_ne low (Ne.symm shown.2)
  have more : (count : ℚ) ≤ count / c.share :=
    (le_div_iff₀ positive).mpr (mul_le_of_le_one_right (Nat.cast_nonneg _) high)
  have kept := roundedMono more
  rwa [roundedWhole few] at kept ⊢

def Bracket.Spans (b : Bracket) (lower upper : ℚ) : Prop :=
  b.lower.toRat? = some lower ∧ b.upper.toRat? = some upper

theorem bracketSpans {k : Int} {lower upper : ℚ} (below : Yields (c.lowerBound k) lower)
    (above : Yields (c.upperBound k) upper) : ∃ b, c.bracket k = .ok b ∧ b.Spans lower upper := by
  obtain ⟨x, found, value⟩ := below
  obtain ⟨y, found', value'⟩ := above
  refine ⟨⟨x, y⟩, ?_, value, value'⟩
  rw [bracket, found, found']
  rfl

theorem boundsSpan {estimate : ℚ} {lower upper : Int → ℚ} (estimated : Yields c.estimate estimate)
    (yields : ∀ k : Int, k = 1 ∨ k = 2 ∨ k = 3 →
      Yields (c.lowerBound k) (lower k) ∧ Yields (c.upperBound k) (upper k)) :
    ∃ b, c.bounds = .ok b ∧ b.estimate.toRat? = some estimate ∧
      b.one.Spans (lower 1) (upper 1) ∧ b.two.Spans (lower 2) (upper 2) ∧
      b.three.Spans (lower 3) (upper 3) := by
  obtain ⟨e, found, value⟩ := estimated
  obtain ⟨one, found₁, spans₁⟩ := bracketSpans (yields 1 (by decide)).1 (yields 1 (by decide)).2
  obtain ⟨two, found₂, spans₂⟩ := bracketSpans (yields 2 (by decide)).1 (yields 2 (by decide)).2
  obtain ⟨three, found₃, spans₃⟩ := bracketSpans (yields 3 (by decide)).1 (yields 3 (by decide)).2
  refine ⟨⟨e, one, two, three⟩, ?_, value, spans₁, spans₂, spans₃⟩
  rw [bounds, found, found₁, found₂, found₃]
  rfl

/-- An estimate not below the number of retained keys, and six bounds about it, each step of one
deviation no narrower than the one before. Without sampling all of them are that number. -/
theorem estimateBracketed (range : 0 ≤ c.theta ∧ c.theta ≤ maxTheta) (counted : c.retained = count)
    (few : count ≤ 9007199254740992) (emptyCount : c.empty = true → count = 0)
    (thetaPositive : 0 < count → 0 < c.theta) :
    ∃ (estimate : ℚ) (lower upper : Int → ℚ),
      Yields c.estimate estimate ∧
      (∀ k : Int, k = 1 ∨ k = 2 ∨ k = 3 →
        Yields (c.lowerBound k) (lower k) ∧ Yields (c.upperBound k) (upper k)) ∧
      (∃ b, c.bounds = .ok b ∧ b.estimate.toRat? = some estimate ∧
        b.one.Spans (lower 1) (upper 1) ∧ b.two.Spans (lower 2) (upper 2) ∧
        b.three.Spans (lower 3) (upper 3)) ∧
      count ≤ lower 3 ∧ lower 3 ≤ lower 2 ∧ lower 2 ≤ lower 1 ∧ lower 1 ≤ estimate ∧
      estimate ≤ upper 1 ∧ upper 1 ≤ upper 2 ∧ upper 2 ≤ upper 3 ∧
      (c.theta = maxTheta → estimate = count ∧
        ∀ k : Int, k = 1 ∨ k = 2 ∨ k = 3 → lower k = count ∧ upper k = count) := by
  have possible : c.Possible count :=
    ⟨range.1, range.2, counted, lt_of_le_of_lt few (by decide)⟩
  obtain ⟨δ, _, nonneg, _, yields⟩ := boundsYield possible
  have estimated := estimateYields possible
  by_cases sampled : c.isSampled = true
  · simp only [sampled, if_true, roundedWhole few] at yields
    have most := retainedLeEstimate possible few emptyCount thetaPositive
    have own := yieldsOwn estimated
    rw [roundedWhole few] at estimated most own
    refine ⟨_, _, _, estimated, yields, boundsSpan estimated yields, le_max_left _ _,
      lowerWiden nonneg (by decide), lowerWiden nonneg (by decide),
      lowerBelow own most nonneg (by decide), upperAbove own nonneg (by decide),
      upperWiden nonneg (by decide), upperWiden nonneg (by decide), fun full => ?_⟩
    rw [isSampled, full] at sampled
    exact absurd sampled (by simp)
  · simp only [sampled, Bool.false_eq_true, if_false, roundedWhole few] at yields
    have exact' : c.theta = maxTheta ∨ c.empty = true := by
      simp only [isSampled, Bool.and_eq_true, decide_eq_true_eq, Bool.not_eq_true', not_and,
        Bool.not_eq_false] at sampled
      exact (eq_or_lt_of_le range.2).imp_right sampled
    rw [estimateFull few emptyCount exact'] at estimated
    have same := le_refl (count : ℚ)
    exact ⟨count, fun _ => count, fun _ => count, estimated, yields, boundsSpan estimated yields,
      same, same, same, same, same, same, same, fun _ => ⟨rfl, fun _ _ => ⟨rfl, rfl⟩⟩⟩

/-- As many keys as binary64 counts exactly, below the least threshold that retains any. -/
theorem estimateBracketedLeast : ∃ (estimate : ℚ) (lower upper : Int → ℚ),
    let c : Census := ⟨1, 9007199254740992, false⟩
    Yields c.estimate estimate ∧ Yields (c.lowerBound 3) (lower 3) ∧
      Yields (c.upperBound 3) (upper 3) ∧ 9007199254740992 ≤ lower 3 ∧
      lower 3 ≤ lower 2 ∧ lower 2 ≤ lower 1 ∧ lower 1 ≤ estimate ∧
      estimate ≤ upper 1 ∧ upper 1 ≤ upper 2 ∧ upper 2 ≤ upper 3 := by
  have counted : (⟨1, 9007199254740992, false⟩ : Census).retained = (9007199254740992 : Nat) := rfl
  obtain ⟨estimate, lower, upper, estimated, yields, _, least, l₃, l₂, l₁, u₁, u₂, u₃, _⟩ :=
    estimateBracketed (by decide) counted (le_refl _) (by decide) (by decide)
  exact ⟨estimate, lower, upper, estimated, (yields 3 (by decide)).1, (yields 3 (by decide)).2,
    by exact_mod_cast least, l₃, l₂, l₁, u₁, u₂, u₃⟩

end Census
end KeySampling
