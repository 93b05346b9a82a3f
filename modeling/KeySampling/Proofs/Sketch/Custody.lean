import KeySampling.Proofs.KeyTable.Mapping
import KeySampling.Proofs.Summary.Effects
import KeySampling.Proofs.Sketch.Step

/-! Whose summaries an update of a tuple sketch can reach. It writes to those that the sketch holds
and to new ones, whether it succeeds or not and whatever its table looks like. -/
namespace KeySampling
namespace QuickSelect

section Reach
variable {t : EntryTable Handle} {store : Store}

theorem slotForWorks (mode : Mode) (live : ∀ h, t.Has h → store.Live h) (key : Int) :
    Store.Works t.Has store (slotFor (.stored mode) key store t).2.1.Has
      (slotFor (.stored mode) key store t).2.2 := by
  have same := Store.worksFewer live fun _ has => has
  obtain ⟨lg, keys, summaries, count⟩ := t
  simp only [slotFor]
  split
  · exact same
  · exact same
  · have keeps := Store.allocKeeps store (.fresh mode)
    refine ⟨Store.keepsAlters keeps, fun h has => ?_⟩
    rcases EntryTable.setHas (t := ⟨lg, keys, summaries, count⟩) has with old | rfl
    · exact ⟨Store.keepsLive keeps (live h old), .inl old⟩
    · exact ⟨⟨_, Store.readNew store _⟩, .inr (Store.newDead store _)⟩

theorem storedFold (mode : Mode) (h : Handle) (value : Datum) (store : Store) :
    (SummaryOps.stored mode).fold h value store =
      ((store.update h value).1.map fun _ => h, (store.update h value).2) := by
  simp only [SummaryOps.stored]
  cases store.update h value with
  | mk r after => cases r <;> rfl

theorem foldAtWorks (mode : Mode) (live : ∀ h, t.Has h → store.Live h) (slot : Nat)
    (value : Datum) : Store.Works t.Has store (foldAt (.stored mode) slot value t store).2.1.Has
      (foldAt (.stored mode) slot value t store).2.2 := by
  unfold foldAt
  split
  · exact Store.worksFewer live fun _ has => has
  rename_i held present
  have mine := EntryTable.hasSummaryAt present
  have alters := Store.updateAlters store held value
  have within : Store.Alters t.Has store (store.update held value).2 :=
    Store.altersMore alters fun h same => same ▸ mine
  have still : ∀ h, t.Has h → (store.update held value).2.Live h ∧ (t.Has h ∨ ¬ store.Live h) :=
    fun h has => ⟨alters.lasts h (live h has), .inl has⟩
  rw [storedFold]
  cases (store.update held value).1 with
  | error f => exact ⟨within, still⟩
  | ok _ =>
    refine ⟨within, fun h has => still h ?_⟩
    rcases EntryTable.setHas has with old | rfl
    · exact old
    · exact mine

theorem rehashHas {σ : Type} {s : QuickSelect σ} {lg : Nat} {h : σ}
    (has : (s.rehash lg).2.table.Has h) : s.table.Has h := by
  unfold rehash at has
  split at has
  · exact has
  · rename_i next moved
    obtain ⟨e, member, rfl⟩ := EntryTable.ofEntriesHas moved has
    exact EntryTable.hasEntry (List.mem_of_mem_filter member)

theorem settleHas {σ : Type} {s : QuickSelect σ} {h : σ} (has : s.settle.2.table.Has h) :
    s.table.Has h := by
  unfold settle at has
  split at has <;> split at has
  · exact rehashHas has
  · exact has
  · exact rehashHas (s := { s with theta := s.pivot }) has
  · exact has

theorem receiveWorks (mode : Mode) {s : QuickSelect Handle}
    (live : ∀ h, s.table.Has h → store.Live h) (key : Int) (value : Datum) :
    Store.Works s.table.Has store (s.receive (.stored mode) key value store).2.1.table.Has
      (s.receive (.stored mode) key value store).2.2 := by
  obtain ⟨config, theta, table, empty, processed⟩ := s
  have located := slotForWorks mode live key
  simp only [receive]
  cases found : slotFor (.stored mode) key store table with
  | mk r after =>
    obtain ⟨mid, store₁⟩ := after
    rw [found] at located
    cases r with
    | error f => exact located
    | ok slot =>
      have folded := foldAtWorks mode (fun h has => (located.holds h has).1) slot value
      cases taken : foldAt (.stored mode) slot value mid store₁ with
      | mk r after =>
        obtain ⟨next, store₂⟩ := after
        rw [taken] at folded
        have absorbed := Store.worksTrans located folded
        cases r with
        | error f => simpa only [taken] using absorbed
        | ok _ =>
          simp only [taken]
          exact Store.worksSame absorbed fun h has => settleHas has

theorem updateWorks (mode : Mode) {s : QuickSelect Handle}
    (live : ∀ h, s.table.Has h → store.Live h) (item value : Datum) :
    Store.Works s.table.Has store (s.update (.stored mode) item value store).2.1.table.Has
      (s.update (.stored mode) item value store).2.2 := by
  have same := Store.worksFewer live fun _ has => has
  simp only [update]
  split
  · exact same
  · split
    · exact same
    · exact receiveWorks (s := s.noted) mode live _ value

theorem compactMade (mode : Mode) {s : QuickSelect Handle}
    (live : ∀ h, s.table.Has h → store.Live h) :
    ∃ contents, Made store (s.compact (.stored mode) store).2
      (s.compact (.stored mode) store).1.entries contents := by
  unfold compact
  split
  · exact ⟨[], madeNil store⟩
  · exact ⟨_, copyAllMade mode fun e member => live e.2 (EntryTable.hasEntry member)⟩

end Reach

end QuickSelect
end KeySampling
