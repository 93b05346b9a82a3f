import KeySampling.KeyTable.Probe
/-! A table of keys with a summary beside each. -/
namespace KeySampling

structure EntryTable (σ : Type) where
  lg : Nat
  keys : KeyTable
  summaries : Array (Option σ)
  count : Nat

namespace EntryTable
variable {σ : Type}

def blank (lg : Nat) : EntryTable σ :=
  ⟨lg, .blank lg, Array.replicate (pow2 lg) none, 0⟩

def entries (t : EntryTable σ) : List (Int × σ) :=
  (t.keys.toList.zip t.summaries.toList).filterMap fun (key, summary) =>
    if key = 0 then none else summary.map (key, ·)

def summaryAt? (t : EntryTable σ) (slot : Nat) : Option σ := t.summaries[slot]?.join

def setSummary (t : EntryTable σ) (slot : Nat) (summary : σ) : EntryTable σ :=
  { t with summaries := t.summaries.setIfInBounds slot (some summary) }

def insert (key : Int) (summary : σ) : EntryTable σ → Except Fault (EntryTable σ)
  | ⟨lg, keys, summaries, count⟩ =>
      match keys.insert lg key with
      | (.error f, _) => .error f
      | (.ok slot, keys) =>
          .ok ⟨lg, keys, summaries.setIfInBounds slot (some summary), count + 1⟩

def insertAll (t : EntryTable σ) : List (Int × σ) → Except Fault (EntryTable σ)
  | [] => .ok t
  | (key, summary) :: rest =>
      match t.insert key summary with
      | .error f => .error f
      | .ok t => t.insertAll rest

def ofEntries (lg : Nat) (entries : List (Int × σ)) : Except Fault (EntryTable σ) :=
  match KeyTable.allot lg entries.length with
  | .error f => .error f
  | .ok keys => insertAll ⟨lg, keys, Array.replicate (pow2 lg) none, 0⟩ entries

theorem ofEntriesAllotted {lg : Nat} {entries : List (Int × σ)}
    (allowed : lg ≤ largestLgTable ∨ mostKeys < entries.length) :
    ofEntries lg entries = (blank lg).insertAll entries := by
  rw [ofEntries, KeyTable.allotBlank allowed]
  rfl

theorem ofEntriesRefused {lg : Nat} {entries : List (Int × σ)} (large : largestLgTable < lg)
    (few : entries.length ≤ mostKeys) : ofEntries lg entries = .error .tooLarge := by
  rw [ofEntries, KeyTable.allotRefused large few]

theorem ofEntriesFills {lg : Nat} {entries : List (Int × σ)} {t : EntryTable σ}
    (ok : ofEntries lg entries = .ok t) : (blank lg).insertAll entries = .ok t := by
  rw [ofEntries] at ok
  split at ok
  · contradiction
  · rename_i keys allotted
    rw [KeyTable.allotted allotted] at ok
    exact ok

def rehash (t : EntryTable σ) (lg : Nat) (keepBelow : Int) : Except Fault (EntryTable σ) :=
  ofEntries lg (t.entries.filter fun e => decide (e.1 < keepBelow))

end EntryTable
end KeySampling
