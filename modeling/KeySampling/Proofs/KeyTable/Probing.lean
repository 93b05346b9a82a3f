import KeySampling.Proofs.KeyTable.Orbit

/-! What the three probe loops find. They differ in what they stop at and in what they make of
it, so each is one scan of a path with its own reading of the outcome, and on a table with any
contents each use follows from what the path meets first. A table is reachable when every key
lies on its own path with neither an empty slot nor itself before it: then a search finds exactly
the keys that are stored, and a key is never stored twice. -/
namespace KeySampling
namespace Probe

def scan (p : Probe) (table : KeyTable) (stop : Int → Bool) :
    Nat → Nat → Except Fault (Option (Nat × Int))
  | 0, _ => .error .endlessProbe
  | reads + 1, slot =>
      match table[slot]? with
      | none => .error .outOfRange
      | some held =>
          if stop held then .ok (some (slot, held))
          else if p.next slot = p.first then .ok none
          else p.scan table stop reads (p.next slot)

def isVacant (held : Int) : Bool := held == 0

def isSought (key held : Int) : Bool := held == 0 || held == key

theorem searchScan (p : Probe) (table : KeyTable) (key : Int) (reads slot : Nat) :
    p.search table key reads slot =
      (p.scan table (isSought key) reads slot).map fun halt =>
        halt.bind fun (slot, held) => if held = 0 then none else some slot := by
  induction reads generalizing slot with
  | zero => rfl
  | succ reads ih =>
    simp only [search, scan]
    cases table[slot]? with
    | none => rfl
    | some held =>
      by_cases vacant : held = 0
      · simp [isSought, vacant, Except.map]
      by_cases same : held = key
      · subst same
        simp [isSought, vacant, Except.map]
      have onwards : isSought key held = false := by simp [isSought, vacant, same]
      by_cases back : p.next slot = p.first <;> simp [vacant, same, onwards, back, ih, Except.map]

theorem vacancyScan (p : Probe) (table : KeyTable) (reads slot : Nat) :
    p.vacancy table reads slot =
      match p.scan table isVacant reads slot with
      | .error f => .error f
      | .ok none => .error .fullTable
      | .ok (some (slot, _)) => .ok slot := by
  induction reads generalizing slot with
  | zero => rfl
  | succ reads ih =>
    simp only [vacancy, scan]
    cases table[slot]? with
    | none => rfl
    | some held =>
      by_cases vacant : held = 0
      · simp [isVacant, vacant]
      have onwards : isVacant held = false := by simp [isVacant, vacant]
      by_cases back : p.next slot = p.first <;> simp [vacant, onwards, back, ih]

theorem spotScan (p : Probe) (table : KeyTable) (key : Int) (reads slot : Nat) :
    p.spot table key reads slot =
      match p.scan table (isSought key) reads slot with
      | .error f => .error f
      | .ok none => .error .keyNeitherFoundNorPlaced
      | .ok (some (slot, held)) => .ok (if held = 0 then .placed slot else .found slot) := by
  induction reads generalizing slot with
  | zero => rfl
  | succ reads ih =>
    simp only [spot, scan]
    cases table[slot]? with
    | none => rfl
    | some held =>
      by_cases vacant : held = 0
      · simp [isSought, vacant]
      by_cases same : held = key
      · subst same
        simp [isSought, vacant]
      have onwards : isSought key held = false := by simp [isSought, vacant, same]
      by_cases back : p.next slot = p.first <;> simp [vacant, same, onwards, back, ih]

def Passes (p : Probe) (table : KeyTable) (stop : Int → Bool) (steps : Nat) : Prop :=
  ∀ i < steps, ∀ held, table[p.slotAt i]? = some held → stop held = false

structure Stops (p : Probe) (table : KeyTable) (stop : Int → Bool) (steps : Nat) (held : Int) :
    Prop where
  inside : steps < p.size
  passes : p.Passes table stop steps
  reads : table[p.slotAt steps]? = some held
  stop : stop held = true

section Scan
variable {p : Probe} {table : KeyTable} {stop : Int → Bool}

theorem readable (cyclic : p.Cyclic) (sized : table.size = p.size) (steps : Nat) :
    ∃ held, table[p.slotAt steps]? = some held := by
  have inside := slotAtBound cyclic steps
  exact ⟨table[p.slotAt steps], Array.getElem?_eq_getElem (by omega)⟩

theorem stopsOrPasses (cyclic : p.Cyclic) (sized : table.size = p.size) (stop : Int → Bool) :
    ∀ steps ≤ p.size, (∃ n held, p.Stops table stop n held) ∨ p.Passes table stop steps := by
  intro steps
  induction steps with
  | zero => exact fun _ => .inr (fun i impossible => absurd impossible (Nat.not_lt_zero i))
  | succ steps ih =>
    intro inside
    rcases ih (by omega) with found | passes
    · exact .inl found
    obtain ⟨held, reads⟩ := readable cyclic sized steps
    cases stopped : stop held with
    | true => exact .inl ⟨steps, held, by omega, passes, reads, stopped⟩
    | false =>
      refine .inr fun i before other reads' => ?_
      rcases Nat.lt_succ_iff_lt_or_eq.mp before with earlier | rfl
      · exact passes i earlier other reads'
      · cases Option.some.inj (reads.symm.trans reads')
        exact stopped

theorem scanStep (cyclic : p.Cyclic) (sized : table.size = p.size) {n reads : Nat}
    (passes : p.Passes table stop (n + 1)) (inside : n + 1 < p.size) :
    p.scan table stop (reads + 1) (p.slotAt n) = p.scan table stop reads (p.slotAt (n + 1)) := by
  obtain ⟨held, read⟩ := readable cyclic sized n
  have onwards := passes n (by omega) held read
  have unfinished := slotAtFirst cyclic (Nat.succ_pos n) inside
  simp [scan, read, onwards, ← slotAtSucc, unfinished]

theorem scanSkip (cyclic : p.Cyclic) (sized : table.size = p.size) {n : Nat}
    (passes : p.Passes table stop n) (inside : n < p.size) :
    p.scan table stop p.size p.first = p.scan table stop (p.size - n) (p.slotAt n) := by
  induction n with
  | zero => rw [slotAtZero cyclic, Nat.sub_zero]
  | succ n ih =>
    rw [ih (fun i before => passes i (by omega)) (by omega),
      show p.size - n = p.size - (n + 1) + 1 by omega]
    exact scanStep cyclic sized passes inside

theorem scanStops (cyclic : p.Cyclic) (sized : table.size = p.size) {n : Nat} {held : Int}
    (stops : p.Stops table stop n held) :
    p.scan table stop p.size p.first = .ok (some (p.slotAt n, held)) := by
  rw [scanSkip cyclic sized stops.passes stops.inside,
    show p.size - n = p.size - n - 1 + 1 by have := stops.inside; omega]
  simp [scan, stops.reads, stops.stop]

theorem scanPasses (cyclic : p.Cyclic) (sized : table.size = p.size)
    (passes : p.Passes table stop p.size) :
    p.scan table stop p.size p.first = .ok none := by
  have positive := Nat.zero_lt_of_lt cyclic.first
  obtain ⟨held, read⟩ := readable cyclic sized (p.size - 1)
  rw [scanSkip cyclic sized (n := p.size - 1) (fun i before => passes i (by omega)) (by omega),
    show p.size - (p.size - 1) = 0 + 1 by omega]
  have back : p.next (p.slotAt (p.size - 1)) = p.first := by
    rw [← slotAtSucc, show p.size - 1 + 1 = p.size by omega, slotAtSize cyclic]
  simp [scan, read, passes _ (by omega) held read, back]

theorem passesAll (cyclic : p.Cyclic) (sized : table.size = p.size)
    (passes : p.Passes table stop p.size) {slot : Nat} {held : Int}
    (read : table[slot]? = some held) : stop held = false := by
  obtain ⟨inside, _⟩ := Array.getElem?_eq_some_iff.mp read
  obtain ⟨n, before, rfl⟩ := slotAtSurjective cyclic (sized ▸ inside)
  exact passes n before held read

end Scan
end Probe

namespace KeyTable
open Probe
variable {table : KeyTable} {lg : Nat} {key : Int}

theorem vacantStops {n : Nat} {held : Int}
    (stops : (Probe.ofKey lg key).Stops table isVacant n held) : held = 0 := by
  simpa [isVacant] using stops.stop

theorem soughtVacant {p : Probe} {n : Nat} (stops : p.Stops table (isSought key) n 0) :
    p.Stops table isVacant n 0 := by
  refine ⟨stops.inside, fun i before held read => ?_, stops.reads, rfl⟩
  have onwards := stops.passes i before held read
  simp_all [isSought, isVacant]

theorem insertVacant (sized : table.size = pow2 lg) {n : Nat}
    (stops : (ofKey lg key).Stops table isVacant n 0) :
    table.insert lg key =
      if fitsSigned64 key then
        (.ok ((ofKey lg key).slotAt n), table.setIfInBounds ((ofKey lg key).slotAt n) key)
      else (.error .tooLarge, table) := by
  simp only [insert, vacancyScan, scanStops (ofKeyCyclic lg key) sized stops]

theorem insertCases (sized : table.size = pow2 lg) (key : Int) :
    (∃ n, (ofKey lg key).Stops table isVacant n 0) ∨
      0 ∉ table ∧ table.insert lg key = (.error .fullTable, table) := by
  have cyclic := ofKeyCyclic lg key
  rcases stopsOrPasses cyclic sized isVacant _ (Nat.le_refl _) with ⟨n, held, stops⟩ | passes
  · cases vacantStops stops
    exact .inl ⟨n, stops⟩
  · refine .inr ⟨fun vacant => ?_, ?_⟩
    · obtain ⟨slot, read⟩ := Array.getElem?_of_mem vacant
      have blocked := passesAll cyclic sized passes read
      simp [isVacant] at blocked
    · simp only [insert, vacancyScan, scanPasses cyclic sized passes]

inductive Course (table : KeyTable) (lg : Nat) (key : Int) : Prop where
  | found (slot : Nat) (nonzero : key ≠ 0) (stored : table[slot]? = some key)
      (search : table.search lg key = .ok (some slot))
      (combined : table.findOrInsert lg key = (.ok (.found slot), table))
  | vacant (n : Nat) (stops : (ofKey lg key).Stops table isVacant n 0)
      (search : table.search lg key = .ok none)
      (combined : table.findOrInsert lg key =
        if fitsSigned64 key then
          (.ok (.placed ((ofKey lg key).slotAt n)),
            table.setIfInBounds ((ofKey lg key).slotAt n) key)
        else (.error .tooLarge, table))
  | full (full : 0 ∉ table) (absent : key ∉ table)
      (search : table.search lg key = .ok none)
      (combined : table.findOrInsert lg key = (.error .keyNeitherFoundNorPlaced, table))

theorem courseOf (sized : table.size = pow2 lg) (key : Int) : table.Course lg key := by
  have cyclic := ofKeyCyclic lg key
  rcases stopsOrPasses cyclic sized (isSought key) _ (Nat.le_refl _) with ⟨n, held, stops⟩ | passes
  · have scanned := scanStops cyclic sized stops
    by_cases vacant : held = 0
    · subst vacant
      refine .vacant n (soughtVacant stops) ?_ ?_
      · simp [search, searchScan, scanned, Except.map]
      · simp only [findOrInsert, spotScan, scanned, if_true]
    · have same : held = key := by simpa [isSought, vacant] using stops.stop
      subst same
      refine .found _ vacant stops.reads ?_ ?_
      · simp [search, searchScan, scanned, Except.map, vacant]
      · simp only [findOrInsert, spotScan, scanned, if_neg vacant]
  · have scanned := scanPasses cyclic sized passes
    have unsought (held : Int) (member : held ∈ table) : held ≠ 0 ∧ held ≠ key := by
      obtain ⟨slot, read⟩ := Array.getElem?_of_mem member
      simpa [isSought] using passesAll cyclic sized passes read
    refine .full (fun member => (unsought 0 member).1 rfl)
      (fun member => (unsought key member).2 rfl) ?_ ?_
    · simp [search, searchScan, scanned, Except.map]
    · simp only [findOrInsert, spotScan, scanned]

/-- Every key lies on its own path, behind neither an empty slot nor itself. -/
structure Reachable (table : KeyTable) (lg : Nat) : Prop where
  size : table.size = pow2 lg
  path : ∀ slot key, table[slot]? = some key → key ≠ 0 →
    ∃ n < pow2 lg, (Probe.ofKey lg key).slotAt n = slot ∧
      (Probe.ofKey lg key).Passes table (isSought key) n

theorem blankReachable (lg : Nat) : (blank lg).Reachable lg := by
  refine ⟨by simp [blank], ?_⟩
  intro slot key read nonzero
  simp only [blank, Array.getElem?_replicate] at read
  split at read <;> simp_all

theorem storedStops (reachable : table.Reachable lg) {slot : Nat}
    (stored : table[slot]? = some key) (nonzero : key ≠ 0) :
    ∃ n, (Probe.ofKey lg key).slotAt n = slot ∧
      (Probe.ofKey lg key).Stops table (isSought key) n key := by
  obtain ⟨n, inside, rfl, passes⟩ := reachable.path slot key stored nonzero
  exact ⟨n, rfl, inside, passes, stored, by simp [isSought]⟩

theorem storedOnce (reachable : table.Reachable lg) (nonzero : key ≠ 0) {a b : Nat}
    (left : table[a]? = some key) (right : table[b]? = some key) : a = b := by
  obtain ⟨m, rfl, hm⟩ := storedStops reachable left nonzero
  obtain ⟨n, rfl, hn⟩ := storedStops reachable right nonzero
  have cyclic := ofKeyCyclic lg key
  have same := (scanStops cyclic reachable.size hm).symm.trans
    (scanStops cyclic reachable.size hn)
  simpa using same

theorem searchStored (reachable : table.Reachable lg) {slot : Nat}
    (stored : table[slot]? = some key) (nonzero : key ≠ 0) :
    table.search lg key = .ok (some slot) := by
  obtain ⟨n, rfl, stops⟩ := storedStops reachable stored nonzero
  simp [search, searchScan, scanStops (ofKeyCyclic lg key) reachable.size stops, Except.map,
    nonzero]

theorem searchAbsent (sized : table.size = pow2 lg) (absent : key ∉ table) :
    table.search lg key = .ok none := by
  cases courseOf sized key with
  | found slot nonzero stored => exact absurd (Array.mem_of_getElem? stored) absent
  | vacant n stops search => exact search
  | full full absent search => exact search

theorem placeReachable (reachable : table.Reachable lg) (absent : key ∉ table) {n : Nat}
    (stops : (Probe.ofKey lg key).Stops table isVacant n 0) :
    KeyTable.Reachable (table.setIfInBounds ((Probe.ofKey lg key).slotAt n) key) lg := by
  refine ⟨by simpa using reachable.size, ?_⟩
  intro slot other read nonzero
  obtain ⟨bound, vacant⟩ := Array.getElem?_eq_some_iff.mp stops.reads
  by_cases here : (Probe.ofKey lg key).slotAt n = slot
  · have same : other = key := by
      rw [← here, Array.getElem?_setIfInBounds_self, if_pos bound] at read
      exact (Option.some.inj read).symm
    subst same
    refine ⟨n, stops.inside, here, ?_⟩
    intro i before held read
    have apart : (Probe.ofKey lg other).slotAt n ≠ (Probe.ofKey lg other).slotAt i := by
      intro same
      have := slotAtInjective (ofKeyCyclic lg other) stops.inside
        (Nat.lt_trans before stops.inside) same
      omega
    rw [Array.getElem?_setIfInBounds_ne apart] at read
    have occupied := stops.passes i before held read
    have different : held ≠ other := fun h => absent (h ▸ Array.mem_of_getElem? read)
    simp_all [isSought, isVacant]
  · rw [Array.getElem?_setIfInBounds_ne here] at read
    obtain ⟨m, inside, reached, passes⟩ := reachable.path slot other read nonzero
    refine ⟨m, inside, reached, ?_⟩
    intro i before held read'
    by_cases crossed : (Probe.ofKey lg key).slotAt n = (Probe.ofKey lg other).slotAt i
    · have blocked := passes i before 0 (crossed ▸ stops.reads)
      simp [isSought] at blocked
    · rw [Array.getElem?_setIfInBounds_ne crossed] at read'
      exact passes i before held read'

structure Places (table : KeyTable) (lg : Nat) (key : Int) (slot : Nat) (next : KeyTable) :
    Prop where
  absent : key ∉ table
  vacant : table[slot]? = some 0
  placed : next = table.setIfInBounds slot key
  reachable : next.Reachable lg

theorem insertPlaces (reachable : table.Reachable lg) (absent : key ∉ table) {slot : Nat}
    {next : KeyTable} (ok : table.insert lg key = (.ok slot, next)) :
    Places table lg key slot next := by
  rcases insertCases reachable.size key with ⟨n, stops⟩ | ⟨_, failed⟩
  · rw [insertVacant reachable.size stops] at ok
    split at ok <;> cases ok
    exact ⟨absent, stops.reads, rfl, placeReachable reachable absent stops⟩
  · rw [failed] at ok
    cases ok

theorem insertRoom (sized : table.size = pow2 lg) {slot : Nat} (vacant : table[slot]? = some 0)
    (fits : fitsSigned64 key = true) : ∃ slot next, table.insert lg key = (.ok slot, next) := by
  rcases insertCases sized key with ⟨n, stops⟩ | ⟨full, _⟩
  · exact ⟨_, _, by rw [insertVacant sized stops, if_pos fits]⟩
  · exact absurd (Array.mem_of_getElem? vacant) full

theorem unsearchedAbsent (reachable : table.Reachable lg) (nonzero : key ≠ 0)
    (search : table.search lg key = .ok none) : key ∉ table := by
  intro member
  obtain ⟨slot, stored⟩ := Array.getElem?_of_mem member
  rw [searchStored reachable stored nonzero] at search
  cases search

theorem findOrInsertPlaces (reachable : table.Reachable lg) (nonzero : key ≠ 0)
    {place : Placement} {next : KeyTable}
    (ok : table.findOrInsert lg key = (.ok place, next)) :
    (∃ slot, place = .found slot ∧ table[slot]? = some key ∧ next = table) ∨
      ∃ slot, place = .placed slot ∧ Places table lg key slot next := by
  cases courseOf reachable.size key with
  | found slot _ stored search combined =>
    cases combined.symm.trans ok
    exact .inl ⟨slot, rfl, stored, rfl⟩
  | vacant n stops search combined =>
    have absent := unsearchedAbsent reachable nonzero search
    rw [combined] at ok
    split at ok <;> cases ok
    exact .inr ⟨_, rfl, absent, stops.reads, rfl, placeReachable reachable absent stops⟩
  | full full absent search combined => cases combined.symm.trans ok

theorem findOrInsertFails (sized : table.size = pow2 lg) (fits : fitsSigned64 key = true)
    {f : Fault} {next : KeyTable} (failed : table.findOrInsert lg key = (.error f, next)) :
    f = .keyNeitherFoundNorPlaced ∧ next = table ∧ key ∉ table ∧ 0 ∉ table := by
  cases courseOf sized key with
  | found slot nonzero stored search combined => cases combined.symm.trans failed
  | vacant n stops search combined =>
    rw [if_pos fits] at combined
    cases combined.symm.trans failed
  | full full absent search combined =>
    cases combined.symm.trans failed
    exact ⟨rfl, rfl, absent, full⟩

end KeyTable
end KeySampling
