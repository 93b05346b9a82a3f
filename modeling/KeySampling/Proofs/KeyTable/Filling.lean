import KeySampling.KeyTable.Entries
import KeySampling.Proofs.KeyTable.Probing

/-! Tables that were filled with whatever came, repeated keys and the key 0 among it. A repeated
key is found in the first of its slots only and the key 0 in none, yet no probe fails, each key
that is found has a summary, and there is room while fewer keys came than there are slots. -/
namespace KeySampling
namespace KeyTable
open Probe
variable {table next : KeyTable} {lg slot : Nat} {key : Int}

def taken (table : KeyTable) : Nat := table.countP fun key => !isVacant key

theorem blankTaken (lg : Nat) : (blank lg).taken = 0 := by
  simp [taken, blank, isVacant, Array.countP_replicate]

theorem takenPut (table : KeyTable) (slot : Nat) (key : Int) :
    taken (table.setIfInBounds slot key) ≤ table.taken + 1 := by
  unfold taken
  rw [← Array.countP_toList, ← Array.countP_toList, Array.toList_setIfInBounds]
  rcases Nat.lt_or_ge slot table.toList.length with inside | outside
  · rw [List.countP_set inside]
    split <;> split <;> omega
  · rw [List.set_eq_of_length_le outside]
    exact Nat.le_succ _

theorem takenRoom (room : table.taken < table.size) : ∃ slot : Nat, table[slot]? = some 0 := by
  unfold taken at room
  rw [← Array.countP_toList, ← Array.length_toList, List.countP_lt_length_iff] at room
  obtain ⟨held, member, vacant⟩ := room
  have zero : held = 0 := by simpa [isVacant] using vacant
  exact Array.getElem?_of_mem (zero ▸ Array.mem_toList_iff.mp member)

theorem insertVacancy (sized : table.size = pow2 lg)
    (ok : table.insert lg key = (.ok slot, next)) :
    table[slot]? = some 0 ∧ fitsSigned64 key = true ∧ next = table.setIfInBounds slot key := by
  rcases insertCases sized key with ⟨n, stops⟩ | ⟨_, failed⟩
  · rw [insertVacant sized stops] at ok
    split at ok <;> cases ok
    exact ⟨stops.reads, ‹_›, rfl⟩
  · rw [failed] at ok
    cases ok

theorem searchEnds (sized : table.size = pow2 lg) (key : Int) :
    ∃ found, table.search lg key = .ok found ∧
      ∀ slot, found = some slot → key ≠ 0 ∧ table[slot]? = some key := by
  cases courseOf sized key with
  | found slot nonzero stored search =>
    refine ⟨some slot, search, fun other same => ?_⟩
    cases Option.some.inj same
    exact ⟨nonzero, stored⟩
  | vacant n stops search => exact ⟨none, search, fun slot impossible => by contradiction⟩
  | full full absent search => exact ⟨none, search, fun slot impossible => by contradiction⟩

end KeyTable

namespace EntryTable
variable {σ : Type} {t next : EntryTable σ} {key : Int} {summary : σ} {new : List (Int × σ)}

structure Sound (t : EntryTable σ) : Prop where
  keys : t.keys.size = pow2 t.lg
  summaries : t.summaries.size = pow2 t.lg
  held : ∀ (slot : Nat) key, t.keys[slot]? = some key → key ≠ 0 → ∃ s, t.summaryAt? slot = some s
  fits : ∀ (slot : Nat) key, t.keys[slot]? = some key → fitsSigned64 key = true
  taken : t.keys.taken ≤ t.count

theorem blankSound (lg : Nat) : (blank lg : EntryTable σ).Sound := by
  refine ⟨by simp [blank, KeyTable.blank], by simp [blank], ?_, ?_, (KeyTable.blankTaken lg).le⟩
  all_goals
    intro slot key read
    simp only [blank, KeyTable.blank, Array.getElem?_replicate] at read
    split at read <;> try contradiction
    cases Option.some.inj read
  · exact fun nonzero => absurd rfl nonzero
  · decide

theorem insertSound (sound : t.Sound) (ok : t.insert key summary = .ok next) :
    next.Sound ∧ next.lg = t.lg ∧ next.count = t.count + 1 := by
  obtain ⟨lg, keys, summaries, count⟩ := t
  simp only [insert] at ok
  split at ok <;> try contradiction
  rename_i slot grown placed
  cases Except.ok.inj ok
  obtain ⟨vacant, fits, rfl⟩ := KeyTable.insertVacancy sound.keys placed
  obtain ⟨inside, _⟩ := Array.getElem?_eq_some_iff.mp vacant
  have bound : slot < summaries.size := by
    have sizes := sound.keys.trans sound.summaries.symm
    exact sizes ▸ inside
  refine ⟨⟨by simpa using sound.keys, by simpa using sound.summaries, ?_, ?_, ?_⟩, rfl, rfl⟩
  · intro other held read nonzero
    by_cases here : slot = other
    · subst here
      exact ⟨summary, by simp [summaryAt?, bound]⟩
    · rw [Array.getElem?_setIfInBounds_ne here] at read
      simpa [summaryAt?, Array.getElem?_setIfInBounds_ne here] using
        sound.held other held read nonzero
  · intro other held read
    by_cases here : slot = other
    · subst here
      rw [Array.getElem?_setIfInBounds_self, if_pos inside] at read
      exact Option.some.inj read ▸ fits
    · rw [Array.getElem?_setIfInBounds_ne here] at read
      exact sound.fits other held read
  · exact (KeyTable.takenPut keys slot key).trans (Nat.succ_le_succ sound.taken)

theorem insertFits (sound : t.Sound) (fits : fitsSigned64 key = true)
    (room : t.count < pow2 t.lg) (summary : σ) : ∃ next, t.insert key summary = .ok next := by
  obtain ⟨slot, vacant⟩ : ∃ slot : Nat, t.keys[slot]? = some 0 := by
    refine KeyTable.takenRoom ?_
    rw [sound.keys]
    exact lt_of_le_of_lt sound.taken room
  obtain ⟨lg, keys, summaries, count⟩ := t
  obtain ⟨_, grown, placed⟩ := KeyTable.insertRoom sound.keys vacant fits
  simp only at placed
  simp [insert, placed]

theorem insertAllSound (sound : t.Sound) (ok : t.insertAll new = .ok next) : next.Sound := by
  induction new generalizing t with
  | nil => exact Except.ok.inj ok ▸ sound
  | cons e rest ih =>
    simp only [insertAll] at ok
    split at ok <;> try contradiction
    rename_i grown added
    exact ih (insertSound sound added).1 ok

theorem insertAllFits (sound : t.Sound) (fits : ∀ e ∈ new, fitsSigned64 e.1 = true)
    (room : t.count + new.length ≤ pow2 t.lg) : ∃ next, t.insertAll new = .ok next := by
  induction new generalizing t with
  | nil => exact ⟨t, rfl⟩
  | cons e rest ih =>
    simp only [List.length_cons] at room
    obtain ⟨grown, added⟩ := insertFits sound (fits e (by simp)) (by omega) e.2
    obtain ⟨sound', lg, count⟩ := insertSound sound added
    obtain ⟨next, ok⟩ := ih sound' (fun e member => fits e (List.mem_cons_of_mem _ member))
      (by rw [lg, count]; omega)
    exact ⟨next, by simp [insertAll, added, ok]⟩

end EntryTable
end KeySampling
