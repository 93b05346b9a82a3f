import KeySampling.KeyTable.Sizing
/-! Open addressing. A table of 2^lg slots holds keys, 0 marking an empty slot. A key is
looked for from slot `key mod 2^lg` on, in odd steps taken from the bits above. An odd step
meets every slot before it comes back to the first, which is how a probe notices that it has
seen them all. -/
namespace KeySampling

abbrev KeyTable := Array Int

structure Probe where
  size : Nat
  first : Nat
  stride : Nat
  deriving DecidableEq, Repr

namespace Probe

def ofKey (lg : Nat) (key : Int) : Probe :=
  let size := pow2 lg
  ⟨size, (key % size).toNat, 2 * ((key / size) % (strideMask + 1 : Nat)).toNat + 1⟩

def next (p : Probe) (slot : Nat) : Nat := (slot + p.stride) % p.size

theorem firstBound (lg : Nat) (key : Int) : (ofKey lg key).first < pow2 lg := by
  have pos := pow2Pos lg
  have low := Int.emod_nonneg key (b := (pow2 lg : Int)) (by omega)
  have high := Int.emod_lt_of_pos key (b := (pow2 lg : Int)) (by omega)
  simp only [ofKey]
  omega

theorem strideOdd (lg : Nat) (key : Int) : (ofKey lg key).stride % 2 = 1 := by
  simp only [ofKey]
  omega

def search (p : Probe) (table : KeyTable) (key : Int) : Nat → Nat → Except Fault (Option Nat)
  | 0, _ => .error .endlessProbe
  | reads + 1, slot =>
      match table[slot]? with
      | none => .error .outOfRange
      | some held =>
          if held = 0 then .ok none
          else if held = key then .ok (some slot)
          else
            let slot := p.next slot
            if slot = p.first then .ok none else p.search table key reads slot

def vacancy (p : Probe) (table : KeyTable) : Nat → Nat → Except Fault Nat
  | 0, _ => .error .endlessProbe
  | reads + 1, slot =>
      match table[slot]? with
      | none => .error .outOfRange
      | some held =>
          if held = 0 then .ok slot
          else
            let slot := p.next slot
            if slot = p.first then .error .fullTable else p.vacancy table reads slot

end Probe

inductive Placement where
  | found (slot : Nat)
  | placed (slot : Nat)
  deriving DecidableEq, Repr

def Placement.slot : Placement → Nat
  | .found slot => slot
  | .placed slot => slot

/-- What a caller is told: the slot of a key that was there, the complement of that of a new one. -/
def Placement.answer : Placement → Int
  | .found slot => slot
  | .placed slot => ~~~(slot : Int)

def Probe.spot (p : Probe) (table : KeyTable) (key : Int) : Nat → Nat → Except Fault Placement
  | 0, _ => .error .endlessProbe
  | reads + 1, slot =>
      match table[slot]? with
      | none => .error .outOfRange
      | some held =>
          if held = 0 then .ok (.placed slot)
          else if held = key then .ok (.found slot)
          else
            let slot := p.next slot
            if slot = p.first then .error .keyNeitherFoundNorPlaced
            else p.spot table key reads slot

namespace KeyTable

def blank (lg : Nat) : KeyTable := Array.replicate (pow2 lg) 0

def ofExponent (lg : Int) : Except Fault KeyTable :=
  match exponent lg with
  | .error f => .error f
  | .ok lg => if largestLgTable < lg then .error .tooLarge else .ok (blank lg)

/-- An empty table for keys at hand. What is refused to more of them than any memory holds is left
open: as if there were room for them, there is room for their table. -/
def allot (lg keys : Nat) : Except Fault KeyTable :=
  if mostKeys < keys then .ok (blank lg) else ofExponent lg

theorem allotBlank {lg keys : Nat} (allowed : lg ≤ largestLgTable ∨ mostKeys < keys) :
    allot lg keys = .ok (blank lg) := by
  rw [allot]
  split
  · rfl
  · rename_i few
    have small : lg ≤ largestLgTable := allowed.resolve_right few
    have counted : lg ≤ largestExponent := Nat.le_trans small (by decide)
    rw [ofExponent, exponentNat, if_pos counted]
    simp [Nat.not_lt.mpr small]

theorem allotRefused {lg keys : Nat} (large : largestLgTable < lg) (few : keys ≤ mostKeys) :
    allot lg keys = .error .tooLarge := by
  rw [allot, if_neg (Nat.not_lt.mpr few), ofExponent, exponentNat]
  by_cases counted : lg ≤ largestExponent <;> simp [counted, large]

theorem allotted {lg keys : Nat} {table : KeyTable} (ok : allot lg keys = .ok table) :
    table = blank lg := by
  by_cases allowed : lg ≤ largestLgTable ∨ mostKeys < keys
  · rw [allotBlank allowed] at ok
    exact (Except.ok.inj ok).symm
  · rw [not_or, Nat.not_le, Nat.not_lt] at allowed
    rw [allotRefused allowed.1 allowed.2] at ok
    contradiction

def search (table : KeyTable) (lg : Nat) (key : Int) : Except Fault (Option Nat) :=
  let p := Probe.ofKey lg key
  p.search table key p.size p.first

/-- Stores a key that is not in the table. The table must have room; it is never resized.
Slots hold signed 64-bit keys. -/
def insert (table : KeyTable) (lg : Nat) (key : Int) : Except Fault Nat × KeyTable :=
  let p := Probe.ofKey lg key
  match p.vacancy table p.size p.first with
  | .error f => (.error f, table)
  | .ok slot =>
      if fitsSigned64 key then (.ok slot, table.setIfInBounds slot key)
      else (.error .tooLarge, table)

def findOrInsert (table : KeyTable) (lg : Nat) (key : Int) :
    Except Fault Placement × KeyTable :=
  let p := Probe.ofKey lg key
  match p.spot table key p.size p.first with
  | .error f => (.error f, table)
  | .ok (.found slot) => (.ok (.found slot), table)
  | .ok (.placed slot) =>
      if fitsSigned64 key then (.ok (.placed slot), table.setIfInBounds slot key)
      else (.error .tooLarge, table)

end KeyTable
end KeySampling
