import KeySampling.Proofs.KeyTable.Probing

/-! The three probe loops on tables with any contents, repeated keys and keys off their paths
among them. A path meets every slot, so each loop ends within as many reads as there are slots,
and fails only where there is nothing to find. The loop that finds or stores goes the way of the
one that finds and, where that is in vain, of the one that stores. -/
namespace KeySampling
namespace Probe

theorem orbitPerm (lg : Nat) (key : Int) :
    ((List.range (pow2 lg)).map (ofKey lg key).slotAt).Perm (List.range (pow2 lg)) := by
  have cyclic := ofKeyCyclic lg key
  have once : ((List.range (pow2 lg)).map (ofKey lg key).slotAt).Nodup := by
    refine List.Nodup.map_on ?_ List.nodup_range
    intro m hm n hn same
    exact slotAtInjective cyclic (List.mem_range.mp hm) (List.mem_range.mp hn) same
  rw [List.perm_ext_iff_of_nodup once List.nodup_range]
  intro slot
  simp only [List.mem_map, List.mem_range]
  constructor
  · rintro ⟨steps, _, rfl⟩
    exact slotAtBound cyclic steps
  · exact slotAtSurjective cyclic

/-- A loop that comes to its end with so many reads, and so with any number above. -/
def EndsWithin {α : Type} (loop : Nat → Except Fault α) (reads : Nat) : Prop :=
  loop reads ≠ .error .endlessProbe ∧ ∀ more, loop (reads + more) = loop reads

theorem scanMore {p : Probe} {table : KeyTable} {stop : Int → Bool} {reads slot : Nat}
    (ended : p.scan table stop reads slot ≠ .error .endlessProbe) (more : Nat) :
    p.scan table stop (reads + more) slot = p.scan table stop reads slot := by
  induction reads generalizing slot with
  | zero => exact absurd rfl ended
  | succ reads ih =>
    rw [Nat.succ_add]
    unfold scan at ended ⊢
    cases read : table[slot]? with
    | none => rfl
    | some held =>
      simp only [read] at ended ⊢
      split
      · rfl
      split
      · rfl
      rename_i onwards ahead
      simp only [onwards, ahead, if_false, Bool.false_eq_true] at ended
      exact ih ended

section Loops
variable {p : Probe} {table : KeyTable}

theorem scanHalts (cyclic : p.Cyclic) (sized : table.size = p.size) (stop : Int → Bool) :
    ∃ halt, ∀ more, p.scan table stop (p.size + more) p.first = .ok halt := by
  obtain ⟨halt, ended⟩ : ∃ halt, p.scan table stop p.size p.first = .ok halt := by
    rcases stopsOrPasses cyclic sized stop _ (Nat.le_refl _) with ⟨n, held, stops⟩ | passes
    · exact ⟨_, scanStops cyclic sized stops⟩
    · exact ⟨_, scanPasses cyclic sized passes⟩
  refine ⟨halt, fun more => ?_⟩
  rw [scanMore (by simp [ended]), ended]

theorem searchWithin (cyclic : p.Cyclic) (sized : table.size = p.size) (key : Int) :
    EndsWithin (fun reads => p.search table key reads p.first) p.size := by
  obtain ⟨halt, ended⟩ := scanHalts cyclic sized (isSought key)
  have first := ended 0
  rw [Nat.add_zero] at first
  simp [EndsWithin, searchScan, first, ended, Except.map]

theorem vacancyWithin (cyclic : p.Cyclic) (sized : table.size = p.size) :
    EndsWithin (fun reads => p.vacancy table reads p.first) p.size := by
  obtain ⟨halt, ended⟩ := scanHalts cyclic sized isVacant
  have first := ended 0
  rw [Nat.add_zero] at first
  cases halt <;> simp [EndsWithin, vacancyScan, first, ended]

theorem spotWithin (cyclic : p.Cyclic) (sized : table.size = p.size) (key : Int) :
    EndsWithin (fun reads => p.spot table key reads p.first) p.size := by
  obtain ⟨halt, ended⟩ := scanHalts cyclic sized (isSought key)
  have first := ended 0
  rw [Nat.add_zero] at first
  cases halt <;> simp [EndsWithin, spotScan, first, ended]

end Loops
end Probe

namespace KeyTable
open Probe
variable {table : KeyTable} {lg : Nat} {key : Int}

theorem insertFailure (sized : table.size = pow2 lg) (fits : fitsSigned64 key = true) (f : Fault) :
    (table.insert lg key).1 = .error f ↔ f = .fullTable ∧ 0 ∉ table := by
  rcases insertCases sized key with ⟨n, stops⟩ | ⟨full, failed⟩
  · simp [insertVacant sized stops, fits, Array.mem_of_getElem? stops.reads]
  · simp [failed, full, eq_comm]

theorem findOrInsertFailure (sized : table.size = pow2 lg) (fits : fitsSigned64 key = true)
    (f : Fault) : (table.findOrInsert lg key).1 = .error f ↔
      f = .keyNeitherFoundNorPlaced ∧ 0 ∉ table ∧ key ∉ table := by
  cases courseOf sized key with
  | found slot nonzero stored search combined =>
    simp [combined, Array.mem_of_getElem? stored]
  | vacant n stops search combined =>
    simp [combined, fits, Array.mem_of_getElem? stops.reads]
  | full full absent search combined => simp [combined, full, absent, eq_comm]

inductive Leaves (table : KeyTable) (key : Int) : Except Fault Placement × KeyTable → Prop where
  | refused (f : Fault) : Leaves table key (.error f, table)
  | found (slot : Nat) (stored : table[slot]? = some key) :
      Leaves table key (.ok (.found slot), table)
  | placed (slot : Nat) (vacant : table[slot]? = some 0) :
      Leaves table key (.ok (.placed slot), table.setIfInBounds slot key)

theorem insertLeaves (sized : table.size = pow2 lg) (key : Int) :
    Leaves table key ((table.insert lg key).1.map .placed, (table.insert lg key).2) := by
  rcases insertCases sized key with ⟨n, stops⟩ | ⟨_, failed⟩
  · rw [insertVacant sized stops]
    split
    · exact .placed _ stops.reads
    · exact .refused _
  · rw [failed]
    exact .refused _

theorem findOrInsertLeaves (sized : table.size = pow2 lg) (key : Int) :
    Leaves table key (table.findOrInsert lg key) := by
  cases courseOf sized key with
  | found slot nonzero stored search combined =>
    rw [combined]
    exact .found slot stored
  | vacant n stops search combined =>
    rw [combined]
    split
    · exact .placed _ stops.reads
    · exact .refused _
  | full full absent search combined =>
    rw [combined]
    exact .refused _

/-- The path of every key meets each of the 2^lg slots once, so on a table of that size with any
contents the three loops end within 2^lg reads. Storing a key fails only where no slot is empty,
finding or storing it only where it is in no slot either. A use that fails leaves the table as it
is, and one that does not fills at most one slot, an empty one, with the key. -/
theorem failsOnlyFull (sized : table.size = pow2 lg) (key : Int) :
    ((List.range (pow2 lg)).map (ofKey lg key).slotAt).Perm (List.range (pow2 lg)) ∧
    EndsWithin (fun reads => (ofKey lg key).search table key reads (ofKey lg key).first)
      (pow2 lg) ∧
    EndsWithin (fun reads => (ofKey lg key).vacancy table reads (ofKey lg key).first) (pow2 lg) ∧
    EndsWithin (fun reads => (ofKey lg key).spot table key reads (ofKey lg key).first)
      (pow2 lg) ∧
    (fitsSigned64 key = true → ∀ f,
      ((table.insert lg key).1 = .error f ↔ f = .fullTable ∧ 0 ∉ table) ∧
      ((table.findOrInsert lg key).1 = .error f ↔
        f = .keyNeitherFoundNorPlaced ∧ 0 ∉ table ∧ key ∉ table)) ∧
    Leaves table key ((table.insert lg key).1.map .placed, (table.insert lg key).2) ∧
    Leaves table key (table.findOrInsert lg key) := by
  have cyclic := ofKeyCyclic lg key
  refine ⟨orbitPerm lg key, searchWithin cyclic sized key, vacancyWithin cyclic sized,
    spotWithin cyclic sized key, fun fits f => ?_, insertLeaves sized key,
    findOrInsertLeaves sized key⟩
  exact ⟨insertFailure sized fits f, findOrInsertFailure sized fits f⟩

/-- A full table that holds one key twice. -/
theorem failsOnlyFullTwice :
    (#[6, 6] : KeyTable).size = pow2 1 ∧ fitsSigned64 4 = true ∧
      (insert #[6, 6] 1 4).1 = .error .fullTable ∧
      (findOrInsert #[6, 6] 1 4).1 = .error .keyNeitherFoundNorPlaced ∧
      ∀ f, (findOrInsert #[6, 6] 1 6).1 ≠ .error f := by
  have sized : (#[6, 6] : KeyTable).size = pow2 1 := rfl
  obtain ⟨_, _, _, _, absent, _⟩ := failsOnlyFull sized 4
  obtain ⟨_, _, _, _, present, _⟩ := failsOnlyFull sized 6
  refine ⟨sized, by decide, ?_, ?_, fun f failed => ?_⟩
  · exact (absent (by decide) _).1.mpr ⟨rfl, by simp⟩
  · exact (absent (by decide) _).2.mpr ⟨rfl, by simp, by simp⟩
  · exact ((present (by decide) f).2.mp failed).2.2 (by simp)

/-- Finding or storing a key comes to what a search and, where it finds nothing, storing the key
come to, whatever the table holds. -/
theorem combinedAgrees (sized : table.size = pow2 lg) (fits : fitsSigned64 key = true) :
    (∃ slot, table.search lg key = .ok (some slot) ∧
      (table.findOrInsert lg key).1.map Placement.answer = .ok (slot : Int) ∧
      (table.findOrInsert lg key).2 = table) ∨
    table.search lg key = .ok none ∧
      ((∃ slot next, table.insert lg key = (.ok slot, next) ∧
        (table.findOrInsert lg key).1.map Placement.answer = .ok (~~~(slot : Int)) ∧
        (table.findOrInsert lg key).2 = next) ∨
      table.insert lg key = (.error .fullTable, table) ∧
        table.findOrInsert lg key = (.error .keyNeitherFoundNorPlaced, table)) := by
  cases courseOf sized key with
  | found slot nonzero stored search combined =>
    rw [combined]
    exact .inl ⟨slot, search, rfl, rfl⟩
  | vacant n stops search combined =>
    have insert := insertVacant sized stops
    rw [if_pos fits] at insert combined
    rw [combined]
    exact .inr ⟨search, .inl ⟨_, _, insert, rfl, rfl⟩⟩
  | full full absent search combined =>
    rcases insertCases sized key with ⟨n, stops⟩ | ⟨_, failed⟩
    · exact absurd (Array.mem_of_getElem? stops.reads) full
    · exact .inr ⟨search, .inr ⟨failed, combined⟩⟩

/-- The key 4 lies in slot 1, behind the empty slot 0 where its path begins. -/
theorem combinedAgreesHidden :
    (#[0, 4] : KeyTable).size = pow2 1 ∧ fitsSigned64 4 = true ∧
      search #[0, 4] 1 4 = .ok none ∧ insert #[0, 4] 1 4 = (.ok 0, #[4, 4]) ∧
      (findOrInsert #[0, 4] 1 4).1.map Placement.answer = .ok (-1) ∧
      (findOrInsert #[0, 4] 1 4).2 = #[4, 4] := by
  have unseen : search #[0, 4] 1 4 = .ok none := rfl
  have stored : insert #[0, 4] 1 4 = (.ok 0, #[4, 4]) := rfl
  refine ⟨rfl, by decide, unseen, stored, ?_⟩
  rcases @combinedAgrees #[0, 4] 1 4 rfl (by decide) with
    ⟨slot, found, _⟩ | ⟨_, ⟨slot, next, same, answer, left⟩ | ⟨full, _⟩⟩
  · simp [unseen] at found
  · simp only [stored, Prod.mk.injEq, Except.ok.injEq] at same
    obtain ⟨rfl, rfl⟩ := same
    exact ⟨answer, left⟩
  · simp [stored] at full

end KeyTable
end KeySampling
