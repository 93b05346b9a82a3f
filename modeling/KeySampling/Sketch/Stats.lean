import KeySampling.Census
/-! A report on a sketch: its census, its bounds, and what it occupies in memory. -/
namespace KeySampling

/-- How many bytes the objects of one sketch occupy: the sketch and its attributes, its keys, its
list of summaries, and each summary. The runtime tells these sizes, and they differ from one to the
next and with an object's past. A sketch without summaries has no list of them, which takes none. -/
structure Sizes (σ : Type) where
  object : Nat
  attributes : Nat
  keys : Nat
  references : Nat
  summary : σ → Nat

namespace Sizes
variable {σ : Type}

/-- About the sizes on a 64-bit machine, for a run that has them from nowhere else. -/
def usual (slots : Nat) : Sizes σ := ⟨56, 296, 80 + 8 * slots, 56 + 8 * slots, fun _ => 56⟩

def total (sizes : Sizes σ) (summaries : List σ) : Nat :=
  sizes.object + sizes.attributes + sizes.keys + sizes.references +
    summaries.foldr (fun s bytes => sizes.summary s + bytes) 0

end Sizes

structure Memory where
  bytes : Nat
  limit : Option Int
  deriving DecidableEq, Repr

namespace Memory

def withinLimit (m : Memory) : Bool :=
  match m.limit with
  | none => true
  | some limit => decide ((m.bytes : Int) ≤ limit)

def percentUsed (m : Memory) : Except Fault (Option Binary64) :=
  match m.limit with
  | none => .ok none
  | some limit =>
      (Binary64.quotient m.bytes limit).map fun share => some (share.mul (.ofInt 100))

end Memory

structure Stats where
  kind : String
  census : Census
  probability : Binary64
  memory : Memory
  percentUsed : Option Binary64
  bounds : Census.Bounds
  deriving DecidableEq, Repr

def Census.stats (c : Census) (kind : String) (memory : Memory) : Except Fault Stats := do
  let probability ← c.probability
  let percentUsed ← memory.percentUsed
  return ⟨kind, c, probability, memory, percentUsed, ← c.bounds⟩

end KeySampling
