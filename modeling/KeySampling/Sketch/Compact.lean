import KeySampling.Sketch.Sample
import KeySampling.Sketch.Stats
import KeySampling.Datum.Encoding
/-! The compact tuple sketch: a read-only list of entries with a threshold and an emptiness
flag. Its summaries are held as given; whoever goes on changing them must pass copies. -/
namespace KeySampling

structure Compact (σ : Type) where
  entries : List (Int × σ)
  theta : Int
  empty : Bool
  memoryLimit : Option Int

namespace Compact
variable {σ : Type}

/-- Keys and their summaries in parallel; absent means none. The threshold is not checked
against the keys. -/
def ofLists (keys : Option (List Int)) (summaries : Option (List σ)) (theta : Int)
    (empty : Bool) (memoryLimit : Option Int) : Except Fault (Compact σ) :=
  let keys := keys.getD []
  let summaries := summaries.getD []
  if keys.all fitsSigned64 = false then .error .tooLarge
  else if keys.length ≠ summaries.length then
    .error (.lengthMismatch keys.length summaries.length)
  else .ok ⟨keys.zip summaries, theta, empty, memoryLimit⟩

def kind : String := "CompactTupleSketch"

def census (c : Compact σ) : Census := ⟨c.theta, c.entries.length, c.empty⟩

def sample (c : Compact σ) : Sample (Int × σ) := ⟨c.census, c.entries⟩

def memory (c : Compact σ) (sizes : Sizes σ := .usual c.entries.length) : Memory :=
  ⟨sizes.total (c.entries.map Prod.snd), c.memoryLimit⟩

def stats (c : Compact σ) (sizes : Sizes σ := .usual c.entries.length) : Except Fault Stats :=
  c.census.stats kind (c.memory sizes)

def sorted (c : Compact σ) : List (Int × σ) :=
  c.entries.mergeSort fun a b => decide (a.1 ≤ b.1)

def sameEntries (same : σ → σ → Bool) : List (Int × σ) → List (Int × σ) → Bool
  | [], [] => true
  | a :: as, b :: bs => decide (a.1 = b.1) && same a.2 b.2 && sameEntries same as bs
  | _, _ => false

def same (summaries : σ → σ → Bool) (a b : Compact σ) : Bool :=
  decide (a.theta = b.theta) && a.empty == b.empty && sameEntries summaries a.sorted b.sorted

def text (c : Compact σ) : String :=
  kind ++ "(retained_entries=" ++ toString c.entries.length ++ ", theta_long=" ++
    toString c.theta ++ ", empty=" ++ (if c.empty then "True" else "False") ++ ")"

end Compact
end KeySampling
