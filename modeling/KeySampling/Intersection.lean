import KeySampling.KeyTable.Entries
import KeySampling.KeyTable.Sizing
import KeySampling.Summary.Operations
import KeySampling.Sketch.Compact
/-! Intersection of sketches, one input at a time. A new intersection stands for the set of
everything. Theta is the smallest threshold seen. The first input seeds the table; a later
one keeps the keys that are in both and below theta, and joins their summaries by a policy.
An input without entries clears the table, and if its threshold is the largest one the
result is the empty set; so it is for an absent input, which also puts theta back to the
largest threshold.

An update may fail after it has changed the intersection: the outcome comes with the
intersection as it then is. -/
namespace KeySampling

/-- What may be offered to an intersection; `kind` is what a refusal calls it. -/
inductive Operand (σ : Type) where
  | absent
  | tuples (kind : String) (sample : Sample (Int × σ))
  | keys (kind : String) (sample : Sample Int)
  | other (kind : String)

structure Intersection (σ : Type) where
  theta : Int
  empty : Bool
  table : Option (EntryTable σ)
  started : Bool
  updates : Nat

namespace Intersection
variable {ω σ ι : Type}

def kind : String := "TupleIntersection"

def universal : Intersection σ := ⟨maxTheta, false, none, false, 0⟩

def retained (x : Intersection σ) : Nat :=
  match x.table with
  | none => 0
  | some t => t.count

def census (x : Intersection σ) : Census := ⟨x.theta, x.retained, x.empty⟩

def accept (x : Intersection σ) : Intersection σ :=
  { x with started := true, updates := x.updates + 1 }

def collapse (x : Intersection σ) : Intersection σ :=
  { x with theta := maxTheta, empty := true, table := none }

def restrict (x : Intersection σ) (input : Census) : Intersection σ :=
  { x with
    theta := min x.theta input.theta
    empty := x.empty || decide (input.retained = 0 ∧ input.theta = maxTheta)
    table := if input.retained = 0 then none else x.table }

def build (declared : Int) (entries : List (Int × σ)) : Except Fault (EntryTable σ) :=
  match KeyTable.lgFor declared leastLgTable with
  | .error f => .error f
  | .ok lg => EntryTable.ofEntries lg entries

def store (x : Intersection σ) (table : Except Fault (EntryTable σ)) :
    Except Fault Unit × Intersection σ :=
  match table with
  | .error f => (.error f, x)
  | .ok t => (.ok (), { x with table := some t })

def joinAll (t : EntryTable σ) (theta : Int) (join : σ → ι → ω → σ × ω) :
    List (Int × ι) → ω → Except Fault (List (Int × σ)) × ω
  | [], w => (.ok [], w)
  | (key, incoming) :: rest, w =>
      if theta ≤ key then joinAll t theta join rest w
      else
        match t.keys.search t.lg key with
        | .error f => (.error f, w)
        | .ok none => joinAll t theta join rest w
        | .ok (some slot) =>
            match t.summaryAt? slot with
            | none => (.error .missingSummary, w)
            | some mine =>
                let (s, w) := join mine incoming w
                match joinAll t theta join rest w with
                | (.ok joined, w) => (.ok ((key, s) :: joined), w)
                | (.error f, w) => (.error f, w)

def refine (x : Intersection σ) (join : σ → ι → ω → σ × ω) (entries : List (Int × ι)) (w : ω) :
    Except Fault Unit × Intersection σ × ω :=
  match x.table with
  | none => (.ok (), x, w)
  | some t =>
      if t.count = 0 then (.ok (), x, w)
      else
        match joinAll t x.theta join entries w with
        | (.error f, w) => (.error f, x, w)
        | (.ok joined, w) =>
            let (r, x) := x.store (build joined.length joined)
            (r, x, w)

def update (ops : SummaryOps ω σ) (policy : Policy ω σ) (x : Intersection σ)
    (input : Operand σ) (w : ω) : Except Fault Unit × Intersection σ × ω :=
  match input with
  | .absent => (.ok (), x.accept.collapse, w)
  | .keys kind _ => (.error (.notTupleSketch kind), x, w)
  | .other kind => (.error (.notTupleSketch kind), x, w)
  | .tuples _ sample =>
      let next := x.accept.restrict sample.census
      if sample.census.retained = 0 then (.ok (), next, w)
      else if x.started then next.refine policy sample.entries w
      else
        let (entries, w) := ops.copyAll sample.entries w
        let (r, next) := next.store (build sample.census.retained entries)
        (r, next, w)

/-- Intersects with a theta sketch. As the first input, every key gets the given summary
itself. As a later one, each retained summary is joined with a copy of itself. -/
def updateKeys (ops : SummaryOps ω σ) (policy : Policy ω σ) (x : Intersection σ)
    (input : Operand σ) (summary : σ) (w : ω) : Except Fault Unit × Intersection σ × ω :=
  match input with
  | .absent => (.ok (), x.accept.collapse, w)
  | .tuples kind _ => (.error (.notThetaSketch kind), x, w)
  | .other kind => (.error (.notThetaSketch kind), x, w)
  | .keys _ sample =>
      let next := x.accept.restrict sample.census
      if sample.census.retained = 0 then (.ok (), next, w)
      else if x.started then
        let joinOwn (mine : σ) (_ : Unit) (w : ω) :=
          let (c, w) := ops.copy mine w
          policy mine c w
        next.refine joinOwn (sample.entries.map (·, ())) w
      else
        let (r, next) := next.store (build sample.census.retained (sample.entries.map (·, summary)))
        (r, next, w)

def result (ops : SummaryOps ω σ) (x : Intersection σ) (w : ω) :
    Except Fault (Compact σ) × ω :=
  if x.started = false then (.error .nothingIntersected, w)
  else
    match x.table with
    | none => (.ok ⟨[], x.theta, x.empty, none⟩, w)
    | some t =>
        if t.count = 0 then (.ok ⟨[], x.theta, x.empty, none⟩, w)
        else
          let (entries, w) := ops.copyAll (t.entries.filter fun e => decide (e.1 ≤ x.theta)) w
          if entries.length = t.count then (.ok ⟨entries, x.theta, x.empty, none⟩, w)
          else (.error (.countMismatch entries.length t.count), w)

def updateAll (ops : SummaryOps ω σ) (policy : Policy ω σ) (x : Intersection σ) :
    List (Operand σ) → ω → Except Fault Unit × Intersection σ × ω
  | [], w => (.ok (), x, w)
  | input :: rest, w =>
      match x.update ops policy input w with
      | (.error f, x, w) => (.error f, x, w)
      | (.ok (), x, w) => x.updateAll ops policy rest w

structure Stats where
  census : Census
  probability : Binary64
  started : Bool
  slots : Nat
  load : Binary64
  updates : Nat

def stats (x : Intersection σ) : Except Fault Stats := do
  let probability ← x.census.probability
  let slots : Nat := match x.table with
    | none => 0
    | some t => pow2 t.lg
  let load ← if slots = 0 then .ok (.zero false) else Binary64.quotient x.retained slots
  return ⟨x.census, probability, x.started, slots, load, x.updates⟩

end Intersection

def intersect {ω σ : Type} (ops : SummaryOps ω σ) (policy : Policy ω σ)
    (inputs : List (Operand σ)) (w : ω) : Except Fault (Compact σ) × ω :=
  match Intersection.universal.updateAll ops policy inputs w with
  | (.error f, _, w) => (.error f, w)
  | (.ok (), x, w) => x.result ops w

end KeySampling
