import KeySampling.Proofs.KeyTable.Entries
import KeySampling.Proofs.KeyTable.Filling

/-! Tables as two arrays of slots. The entries of a table say what it holds; its layout says where
that lies, and that a search for a key leads to its slot. -/
namespace KeySampling
namespace EntryTable
variable {σ : Type} {t : EntryTable σ}

structure Layout (t : EntryTable σ) : Prop where
  keys : t.keys.size = pow2 t.lg
  summaries : t.summaries.size = pow2 t.lg
  counted : t.count = t.keys.taken
  distinct : ∀ (a b : Nat) key, key ≠ 0 → t.keys[a]? = some key → t.keys[b]? = some key → a = b
  found : ∀ (slot : Nat) key, key ≠ 0 → t.keys[slot]? = some key →
    t.keys.search t.lg key = .ok (some slot)
  paired : ∀ (slot : Nat) key, t.keys[slot]? = some key → (key = 0 ↔ t.summaryAt? slot = none)

theorem shownKeys {slots : List (Int × Option σ)} (paired : ∀ e ∈ slots, e.1 = 0 ↔ e.2 = none) :
    (slots.filterMap shown).map Prod.fst =
      (slots.map Prod.fst).filter fun key => decide (key ≠ 0) := by
  induction slots with
  | nil => rfl
  | cons e rest ih =>
    obtain ⟨key, summary⟩ := e
    obtain ⟨here, later⟩ := List.forall_mem_cons.mp paired
    cases summary with
    | none =>
      have vacant : key = 0 := here.mpr rfl
      simp [shown, vacant, ih later]
    | some s =>
      have taken : key ≠ 0 := fun vacant => by simpa using here.mp vacant
      simp [shown, taken, ih later]

theorem keySetTaken (sizes : t.keys.size ≤ t.summaries.size)
    (paired : ∀ e ∈ t.slots, e.1 = 0 ↔ e.2 = none) :
    t.keySet = t.keys.toList.filter fun key => decide (key ≠ 0) := by
  rw [keySet, entriesSlots, shownKeys paired, slots, List.map_fst_zip]
  simpa using sizes

theorem slotPaired (wf : t.WellFormed) : ∀ e ∈ t.slots, e.1 = 0 ↔ e.2 = none := by
  intro e member
  obtain ⟨slot, here⟩ := List.getElem?_of_mem member
  have read := slotKey here
  have beside := Option.some.inj ((slotRead wf read).symm.trans here)
  rw [wf.paired slot e.1 read, ← beside]

theorem countTaken (wf : t.WellFormed) : t.count = t.keys.taken :=
  calc t.count = t.keySet.length := (keySetLength wf).symm
    _ = (t.keys.toList.filter fun key => decide (key ≠ 0)).length := by
      rw [keySetTaken (wf.keys.size.trans wf.size.symm).le (slotPaired wf)]
    _ = t.keys.toList.countP fun key => decide (key ≠ 0) := List.countP_eq_length_filter.symm
    _ = t.keys.toList.countP fun key => !Probe.isVacant key :=
      List.countP_congr fun key _ => by simp [Probe.isVacant]
    _ = t.keys.taken := by rw [KeyTable.taken, Array.countP_toList]

theorem wellFormedLayout (wf : t.WellFormed) : t.Layout where
  keys := wf.keys.size
  summaries := wf.size
  counted := countTaken wf
  distinct _ _ _ nonzero left right := KeyTable.storedOnce wf.keys nonzero left right
  found _ _ nonzero stored := KeyTable.searchStored wf.keys stored nonzero
  paired := wf.paired

end EntryTable
end KeySampling
