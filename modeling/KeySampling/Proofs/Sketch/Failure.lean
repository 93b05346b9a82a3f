import KeySampling.Proofs.Sketch.Threshold

/-! What one failed update leaves of itself. An item is counted, then its key gets a slot, and only
then is its value folded, so that whatever fails finds the writes before it done. Making room is
the one part that cannot fail. -/
namespace KeySampling
namespace QuickSelect
variable {ω σ : Type}

/-- What a sketch relies on, however its updates ended. -/
structure Intact (s : QuickSelect σ) : Prop where
  table : s.table.WellFormed
  inRange : ∀ key ∈ s.table.keySet, 0 < key ∧ key < s.theta
  theta : s.theta ≤ s.config.initialTheta
  bounded : s.config.initialTheta ≤ maxTheta
  start : startLgTable ≤ s.table.lg
  largest : s.table.lg ≤ s.config.lgLargest

theorem intactRange {s : QuickSelect σ} (intact : s.Intact) :
    ∀ key ∈ s.table.keySet, 0 ≤ key ∧ key ≤ maxTheta := fun key member =>
  have range := intact.inRange key member
  ⟨range.1.le, range.2.le.trans (intact.theta.trans intact.bounded)⟩

theorem joinedIntact {s : QuickSelect σ} {table : EntryTable σ} {key : Int} (intact : s.Intact)
    (wf : table.WellFormed) (lg : table.lg = s.table.lg)
    (keys : ∀ other, other ∈ table.keySet ↔ other = key ∨ other ∈ s.table.keySet)
    (positive : 0 < key) (below : key < s.theta) : Intact { s.noted with table } := by
  refine ⟨wf, fun other member => ?_, intact.theta, intact.bounded, lg ▸ intact.start,
    lg ▸ intact.largest⟩
  rcases (keys other).mp member with rfl | old
  · exact ⟨positive, below⟩
  · exact intact.inRange other old

theorem positiveKey {seed key : Int} {item : Datum} (hashed : samplingKey item seed = .ok key)
    (nonzero : key ≠ 0) : 0 < key := lt_of_le_of_ne (samplingKeyRange hashed).1 nonzero.symm

theorem absorbsIntact {ops : SummaryOps ω σ} {s : QuickSelect σ} {item value : Datum} {key : Int}
    {table : EntryTable σ} {w w' : ω} (intact : s.Intact)
    (hashed : samplingKey item s.config.seed = .ok key) (nonzero : key ≠ 0)
    (below : key < s.theta) (absorbs : Absorbs ops key value s.table w table w') :
    Intact { s.noted with table } :=
  joinedIntact intact (absorbsWellFormed absorbs) (absorbsLg absorbs) (absorbsKeys absorbs)
    (positiveKey hashed nonzero) below

/-- A table from which more than half of 2^57 slots are taken has more keys than any memory. -/
theorem grownAllowed {s : QuickSelect σ} (intact : s.Intact) (full : s.crowded = true)
    (small : s.table.lg < s.config.lgLargest) :
    min (s.table.lg + growthLg) s.config.lgLargest ≤ largestLgTable ∨
      mostKeys < (s.table.entries.filter fun e => decide (e.1 < s.theta)).length := by
  have whole : (s.table.entries.filter fun e => decide (e.1 < s.theta)) = s.table.entries :=
    List.filter_eq_self.mpr fun e member =>
      decide_eq_true (intact.inRange e.1 (List.mem_map_of_mem member)).2
  rw [whole, ← intact.table.counted]
  by_contra refused
  rw [not_or, not_le, not_lt] at refused
  obtain ⟨large, few⟩ := refused
  have slots : pow2 57 ≤ pow2 s.table.lg := pow2Mono (by
    simp only [largestLgTable, growthLg] at large
    omega)
  have load := mt (growingLoad small).mpr (by simp [full])
  rw [pow2Pow] at slots
  simp only [mostKeys] at few
  omega

theorem rebuiltAllowed {s : QuickSelect σ} (intact : s.Intact) (full : s.crowded = true)
    (large : ¬ s.table.lg < s.config.lgLargest) :
    s.table.lg ≤ largestLgTable ∨
      mostKeys < (s.table.entries.filter fun e => decide (e.1 < s.pivot)).length := by
  have enough := crowdedEnough full large intact.largest
  have slots := largestSlots s.config
  rw [← le_antisymm intact.largest (not_lt.mp large)] at slots
  rw [belowPivot intact.table (by omega)]
  by_contra refused
  rw [not_or, not_le, not_lt] at refused
  have many : pow2 60 ≤ pow2 s.table.lg := pow2Mono refused.1
  have few := refused.2
  rw [pow2Pow] at many
  simp only [mostKeys] at few
  omega

theorem rehashSucceeds {s : QuickSelect σ} (wf : s.table.WellFormed)
    (fits : ∀ key ∈ s.table.keySet, fitsSigned64 key = true) {lg : Nat}
    (larger : s.table.lg ≤ lg)
    (allowed : lg ≤ largestLgTable ∨
      mostKeys < (s.table.entries.filter fun e => decide (e.1 < s.theta)).length) :
    (s.rehash lg).1 = .ok () := by
  have room : (s.table.entries.filter fun e => decide (e.1 < s.theta)).length ≤ pow2 lg :=
    calc (s.table.entries.filter fun e => decide (e.1 < s.theta)).length
        ≤ s.table.entries.length := List.length_filter_le _ _
      _ = s.table.count := wf.counted.symm
      _ ≤ pow2 s.table.lg := EntryTable.countBound wf
      _ ≤ pow2 lg := pow2Mono larger
  obtain ⟨table, moved⟩ := EntryTable.rehashRoom wf fits room allowed
  simp [rehash, moved]

theorem settleSucceeds {s : QuickSelect σ} (intact : s.Intact) : s.settle.1 = .ok () := by
  have fits : ∀ key ∈ s.table.keySet, fitsSigned64 key = true := fun key member =>
    keyFits (intactRange intact key member).1 (intactRange intact key member).2
  unfold settle
  split
  · rename_i small
    split
    · rename_i full
      exact rehashSucceeds intact.table fits (le_min (Nat.le_add_right _ _) small.le)
        (grownAllowed intact (by simp [crowded, small, full]) small)
    · rfl
  · rename_i large
    split
    · rename_i full
      exact rehashSucceeds (s := { s with theta := s.pivot }) intact.table fits (le_refl _)
        (rebuiltAllowed intact (by simp [crowded, large, full]) large)
    · rfl

theorem slotForFails {ops : SummaryOps ω σ} {t mid : EntryTable σ} {key : Int} {f : Fault}
    {w w' : ω} (wf : t.WellFormed) (fits : fitsSigned64 key = true)
    (failed : slotFor ops key w t = (.error f, mid, w')) :
    f = .keyNeitherFoundNorPlaced ∧ mid = t ∧ w' = w ∧ key ∉ t.keySet ∧
      t.count = pow2 t.lg := by
  have within := EntryTable.keyIff wf key
  have full := EntryTable.fullCount wf
  obtain ⟨lg, keys, summaries, count⟩ := t
  simp only [slotFor] at failed
  split at failed
  all_goals simp only [Prod.mk.injEq, reduceCtorEq, false_and, Except.error.injEq] at failed
  rename_i fault table refused
  obtain ⟨rfl, rfl, rfl⟩ := failed
  obtain ⟨rfl, rfl, absent, crammed⟩ := KeyTable.findOrInsertFails wf.keys.size fits refused
  exact ⟨rfl, rfl, rfl, fun member => absent (within.mp member).2, full crammed⟩

theorem foldAtFails {ops : SummaryOps ω σ} {t next : EntryTable σ} {slot : Nat} {value : Datum}
    {old : σ} {f : Fault} {w w' : ω} (held : t.summaryAt? slot = some old)
    (failed : foldAt ops slot value t w = (.error f, next, w')) :
    next = t ∧ ops.fold old value w = (.error f, w') := by
  simp only [foldAt, held] at failed
  split at failed
  all_goals simp only [Prod.mk.injEq, reduceCtorEq, false_and, Except.error.injEq] at failed
  rename_i fault after rejected
  obtain ⟨rfl, rfl, rfl⟩ := failed
  exact ⟨rfl, rejected⟩

inductive Fails (ops : SummaryOps ω σ) (s : QuickSelect σ) (item value : Datum) (w : ω)
    (f : Fault) : QuickSelect σ → ω → Prop
  | unhashed (refused : samplingKey item s.config.seed = .error f) :
      Fails ops s item value w f s.noted w
  | crammed {key : Int} (hashed : samplingKey item s.config.seed = .ok key) (nonzero : key ≠ 0)
      (below : key < s.theta) (absent : key ∉ s.table.keySet)
      (full : s.table.count = pow2 s.table.lg) (refusal : f = .keyNeitherFoundNorPlaced) :
      Fails ops s item value w f s.noted w
  | known {key : Int} {old : σ} {w' : ω} (hashed : samplingKey item s.config.seed = .ok key)
      (retained : (key, old) ∈ s.table.entries)
      (rejected : ops.fold old value w = (.error f, w')) : Fails ops s item value w f s.noted w'
  | stranded {key : Int} {table : EntryTable σ} {w' : ω}
      (hashed : samplingKey item s.config.seed = .ok key) (nonzero : key ≠ 0)
      (below : key < s.theta) (absent : key ∉ s.table.keySet)
      (gains : s.table.Gains key (ops.fresh w).1 table)
      (rejected : ops.fold (ops.fresh w).1 value (ops.fresh w).2 = (.error f, w')) :
      Fails ops s item value w f { s.noted with table } w'

theorem receiveFails {ops : SummaryOps ω σ} {s s' : QuickSelect σ} {item value : Datum} {key : Int}
    {f : Fault} {w w' : ω} (intact : s.Intact)
    (hashed : samplingKey item s.config.seed = .ok key) (nonzero : key ≠ 0)
    (below : key < s.theta) (failed : s.noted.receive ops key value w = (.error f, s', w')) :
    Fails ops s item value w f s' w' := by
  have wf := intact.table
  have bounds := samplingKeyRange hashed
  obtain ⟨config, theta, table, empty, processed⟩ := s
  simp only [noted, receive] at failed
  split at failed
  · rename_i fault mid w₁ refused
    simp only [Prod.mk.injEq, Except.error.injEq] at failed
    obtain ⟨rfl, rfl, rfl⟩ := failed
    obtain ⟨refusal, rfl, rfl, absent, full⟩ :=
      slotForFails wf (keyFits bounds.1 bounds.2) refused
    exact .crammed hashed nonzero below absent full refusal
  rename_i slot mid w₁ found
  have located := slotForLocated wf nonzero found
  split at failed
  · rename_i fault next w₂ raised
    simp only [Prod.mk.injEq, Except.error.injEq] at failed
    obtain ⟨rfl, rfl, rfl⟩ := failed
    cases located with
    | known stored =>
      have occupied := mt (wf.paired slot key stored).mpr nonzero
      obtain ⟨old, held⟩ := Option.ne_none_iff_exists'.mp occupied
      obtain ⟨rfl, rejected⟩ := foldAtFails held raised
      exact .known hashed ((EntryTable.entryIff wf key old).mpr ⟨nonzero, slot, stored, held⟩)
        rejected
    | fresh absent gains stored held =>
      obtain ⟨rfl, rejected⟩ := foldAtFails held raised
      exact .stranded hashed nonzero below absent gains rejected
  · rename_i _ next w₂ folded
    have absorbs := slotForAbsorbs wf nonzero found folded
    have settled := settleSucceeds (absorbsIntact intact hashed nonzero below absorbs)
    simp only [noted] at settled
    simp [settled] at failed

theorem updateFails {ops : SummaryOps ω σ} {s s' : QuickSelect σ} {item value : Datum} {f : Fault}
    {w w' : ω} (intact : s.Intact) (failed : s.update ops item value w = (.error f, s', w')) :
    Fails ops s item value w f s' w' := by
  simp only [update] at failed
  split at failed
  · rename_i fault refused
    simp only [Prod.mk.injEq, Except.error.injEq] at failed
    obtain ⟨rfl, rfl, rfl⟩ := failed
    exact .unhashed refused
  rename_i key hashed
  split at failed
  · simp at failed
  · rename_i inside
    rw [not_or, not_le] at inside
    exact receiveFails intact hashed inside.1 inside.2 failed

end QuickSelect
end KeySampling
