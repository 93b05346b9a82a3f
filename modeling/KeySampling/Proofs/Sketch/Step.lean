import KeySampling.Proofs.KeyTable.Entries
import KeySampling.Proofs.Sketch.Stream
import Mathlib.Data.List.Basic

/-! What one successful update can do to a sketch. Its key is dropped, or it is absorbed by the
table and the table is settled: left as it is, grown, or rebuilt under a lower theta. Every
property of a run is derived from these cases. -/
namespace KeySampling
namespace QuickSelect
variable {ω σ : Type}

def noted (s : QuickSelect σ) : QuickSelect σ :=
  { s with processed := s.processed + 1, empty := false }

/-- A value folded into the summary of its key, which is fresh if the key is new. -/
inductive Absorbs (ops : SummaryOps ω σ) (key : Int) (value : Datum) (t : EntryTable σ) (w : ω)
    (next : EntryTable σ) (w' : ω) : Prop
  | known {old new : σ} (replaces : t.Replaces key old new next)
      (folded : ops.fold old value w = (.ok new, w')) : Absorbs ops key value t w next w'
  | fresh {new : σ} (absent : key ∉ t.keySet) (gains : t.Gains key new next)
      (folded : ops.fold (ops.fresh w).1 value (ops.fresh w).2 = (.ok new, w')) :
      Absorbs ops key value t w next w'

def crowded (s : QuickSelect σ) : Bool :=
  if s.table.lg < s.config.lgLargest then growLoad.exceededBy s.table.count (pow2 s.table.lg)
  else rebuildLoad.exceededBy s.table.count (pow2 s.table.lg)

def pivot (s : QuickSelect σ) : Int := select s.table.keySet s.config.nominal s.theta

inductive Settles (s : QuickSelect σ) : QuickSelect σ → Prop
  | kept (roomy : s.crowded = false) : Settles s s
  | grown {table : EntryTable σ} (full : s.crowded = true) (small : s.table.lg < s.config.lgLargest)
      (holds : table.Holds (min (s.table.lg + growthLg) s.config.lgLargest)
        (s.table.entries.filter fun e => decide (e.1 < s.theta))) :
      Settles s { s with table }
  | rebuilt {table : EntryTable σ} (full : s.crowded = true)
      (large : ¬ s.table.lg < s.config.lgLargest)
      (holds : table.Holds s.table.lg
        (s.table.entries.filter fun e => decide (e.1 < s.pivot))) :
      Settles s { s with theta := s.pivot, table }

theorem settleSettles {s s' : QuickSelect σ} (wf : s.table.WellFormed)
    (ok : s.settle = (.ok (), s')) : Settles s s' := by
  unfold settle at ok
  split at ok
  · rename_i small
    split at ok
    · rename_i full
      unfold grow rehash at ok
      split at ok
      · simp at ok
      · rename_i table moved
        cases (Prod.mk.inj ok).2
        exact .grown (by simp [crowded, small, full]) small (EntryTable.rehashHolds wf moved)
    · rename_i roomy
      cases (Prod.mk.inj ok).2
      exact .kept (by simpa [crowded, small] using roomy)
  · rename_i large
    split at ok
    · rename_i full
      unfold rebuild rehash at ok
      dsimp only at ok
      split at ok
      · simp at ok
      · rename_i table moved
        cases (Prod.mk.inj ok).2
        exact .rebuilt (by simp [crowded, large, full]) large (EntryTable.rehashHolds wf moved)
    · rename_i roomy
      cases (Prod.mk.inj ok).2
      exact .kept (by simpa [crowded, large] using roomy)

theorem foldAtReplaces {ops : SummaryOps ω σ} {t next : EntryTable σ} {key : Int} {slot : Nat}
    {value : Datum} {w w' : ω} (wf : t.WellFormed) (nonzero : key ≠ 0)
    (stored : t.keys[slot]? = some key)
    (ok : foldAt ops slot value t w = (.ok (), next, w')) :
    ∃ old new, t.summaryAt? slot = some old ∧ ops.fold old value w = (.ok new, w') ∧
      t.Replaces key old new next := by
  unfold foldAt at ok
  split at ok
  · simp at ok
  rename_i old present
  split at ok
  · simp at ok
  rename_i new after folded
  simp only [Prod.mk.injEq, true_and] at ok
  obtain ⟨rfl, rfl⟩ := ok
  exact ⟨old, new, present, folded, EntryTable.setSummaryReplaces wf nonzero stored present new⟩

theorem gainsReplaces {t mid next : EntryTable σ} {key : Int} {first last : σ}
    (gains : t.Gains key first mid) (replaces : mid.Replaces key first last next) :
    t.Gains key last next := by
  obtain ⟨pre, post, before, added⟩ := gains.entries
  obtain ⟨front, back, shown, after⟩ := replaces.entries
  have nodup := EntryTable.keysNodup gains.wellFormed
  simp only [EntryTable.keySet, added, List.map_append, List.map_cons, List.nodup_append,
    List.nodup_cons] at nodup
  have left : (key, first) ∉ pre := fun member =>
    nodup.2.2 key (List.mem_map_of_mem member) key (by simp) rfl
  have right : (key, first) ∉ post := fun member =>
    nodup.2.1.1 (List.mem_map_of_mem (f := Prod.fst) member)
  obtain ⟨rfl, -, rfl⟩ := (List.append_cons_inj_of_notMem left right).mp (added.symm.trans shown)
  exact ⟨replaces.wellFormed, replaces.lg.trans gains.lg, pre, post, before, after⟩

inductive Located (ops : SummaryOps ω σ) (key : Int) (t : EntryTable σ) (w : ω) (slot : Nat) :
    EntryTable σ → ω → Prop
  | known (stored : t.keys[slot]? = some key) : Located ops key t w slot t w
  | fresh {mid : EntryTable σ} (absent : key ∉ t.keySet) (gains : t.Gains key (ops.fresh w).1 mid)
      (stored : mid.keys[slot]? = some key) (held : mid.summaryAt? slot = some (ops.fresh w).1) :
      Located ops key t w slot mid (ops.fresh w).2

theorem slotForLocated {ops : SummaryOps ω σ} {t mid : EntryTable σ} {key : Int} {slot : Nat}
    {w w' : ω} (wf : t.WellFormed) (nonzero : key ≠ 0)
    (found : slotFor ops key w t = (.ok slot, mid, w')) : Located ops key t w slot mid w' := by
  obtain ⟨lg, keys, summaries, count⟩ := t
  simp only [slotFor] at found
  split at found
  · simp at found
  · rename_i here table placed
    simp only [Prod.mk.injEq, Except.ok.injEq] at found
    obtain ⟨rfl, rfl, rfl⟩ := found
    rcases KeyTable.findOrInsertPlaces wf.keys nonzero placed with
      ⟨_, same, stored, rfl⟩ | ⟨_, other, _⟩
    · cases same
      exact .known stored
    · contradiction
  · rename_i here table placed
    simp only [Prod.mk.injEq, Except.ok.injEq] at found
    obtain ⟨rfl, rfl, rfl⟩ := found
    rcases KeyTable.findOrInsertPlaces wf.keys nonzero placed with
      ⟨_, other, _, _⟩ | ⟨_, same, places⟩
    · contradiction
    · cases same
      have gains := EntryTable.placeGains wf nonzero places (ops.fresh w).1
      have inside : here < keys.size := (Array.getElem?_eq_some_iff.mp places.vacant).1
      have bound : here < summaries.size := EntryTable.slotBound wf places.vacant
      refine .fresh (fun member => ?_) gains ?_ ?_
      · exact places.absent ((EntryTable.keyIff wf key).mp member).2
      · simp [places.placed, inside]
      · simp [EntryTable.summaryAt?, bound]

theorem slotForAbsorbs {ops : SummaryOps ω σ} {t mid next : EntryTable σ} {key : Int}
    {slot : Nat} {value : Datum} {w w₁ w₂ : ω} (wf : t.WellFormed) (nonzero : key ≠ 0)
    (found : slotFor ops key w t = (.ok slot, mid, w₁))
    (folded : foldAt ops slot value mid w₁ = (.ok (), next, w₂)) :
    Absorbs ops key value t w next w₂ := by
  cases slotForLocated wf nonzero found with
  | known stored =>
    obtain ⟨old, new, _, step, replaces⟩ := foldAtReplaces wf nonzero stored folded
    exact .known replaces step
  | fresh absent gains stored held =>
    obtain ⟨old, new, present, step, replaces⟩ :=
      foldAtReplaces gains.wellFormed nonzero stored folded
    cases Option.some.inj (held.symm.trans present)
    exact .fresh absent (gainsReplaces gains replaces) step

inductive Steps (ops : SummaryOps ω σ) (s : QuickSelect σ) (key : Int) (value : Datum) (w : ω) :
    QuickSelect σ → ω → Prop
  | dropped (outside : key = 0 ∨ s.theta ≤ key) : Steps ops s key value w s.noted w
  | taken {table : EntryTable σ} {s' : QuickSelect σ} {w' : ω} (nonzero : key ≠ 0)
      (below : key < s.theta) (absorbs : Absorbs ops key value s.table w table w')
      (settles : Settles { s.noted with table } s') : Steps ops s key value w s' w'

theorem absorbsWellFormed {ops : SummaryOps ω σ} {key : Int} {value : Datum}
    {t next : EntryTable σ} {w w' : ω} (absorbs : Absorbs ops key value t w next w') :
    next.WellFormed := by
  cases absorbs with
  | known replaces _ => exact replaces.wellFormed
  | fresh _ gains _ => exact gains.wellFormed

theorem updateSteps {ops : SummaryOps ω σ} {s s' : QuickSelect σ} {item value : Datum} {w w' : ω}
    (wf : s.table.WellFormed) (ok : s.update ops item value w = (.ok (), s', w')) :
    ∃ key, samplingKey item s.config.seed = .ok key ∧ Steps ops s key value w s' w' := by
  simp only [update] at ok
  split at ok
  · simp at ok
  rename_i key hashed
  refine ⟨key, hashed, ?_⟩
  split at ok
  · rename_i outside
    simp only [Prod.mk.injEq, true_and] at ok
    obtain ⟨rfl, rfl⟩ := ok
    exact .dropped outside
  · rename_i inside
    have nonzero : key ≠ 0 := fun zero => inside (.inl zero)
    have below : key < s.theta := by
      rw [not_or, not_le] at inside
      exact inside.2
    obtain ⟨config, theta, table, empty, processed⟩ := s
    simp only [receive] at ok
    split at ok
    · simp at ok
    rename_i slot mid w₁ found
    split at ok
    · simp at ok
    rename_i _ next w₂ folded
    simp only [Prod.mk.injEq] at ok
    obtain ⟨settled, rfl, rfl⟩ := ok
    have absorbs := slotForAbsorbs wf nonzero found folded
    exact .taken nonzero below absorbs
      (settleSettles (absorbsWellFormed absorbs) (Prod.ext settled rfl))

end QuickSelect
end KeySampling
