import KeySampling.SamplingKey
import KeySampling.KeyTable.Entries
import KeySampling.KeyTable.Sizing
import KeySampling.Summary.Operations
import KeySampling.Sketch.Compact
/-! The updatable sketch. Each item is hashed to a sampling key, and keys below theta are
kept in a table that grows eightfold up to twice the nominal number of entries. When the
largest table fills up, theta drops to the smallest key that leaves exactly the nominal
number below it. With summaries the sketch is a tuple sketch; a theta sketch keeps keys only.

An update may fail after it has changed the sketch: the outcome comes with the sketch as it
then is. -/
namespace KeySampling

structure Settings where
  nominal : Int := defaultNominal
  probability : Datum := .float .one
  seed : Int := defaultSeed
  memoryLimit : Option Int := none

structure Config where
  lgNominal : Nat
  probability : Datum
  initialTheta : Int
  seed : Int
  memoryLimit : Option Int

/-- A probability of one keeps every key below the largest threshold. Any other is that
share of 2^63, cut to an integer. -/
def thetaFor (probability : Datum) : Int :=
  match probability with
  | .float p =>
      if Binary64.one.le p then maxTheta
      else ((p.mul (.ofInt maxTheta)).truncate?).getD 0
  | _ => maxTheta

namespace Config

def ofSettings (s : Settings) : Except Fault Config :=
  if s.nominal < leastNominal then .error (.fewNominalEntries leastNominal)
  else
    match s.probability.isFraction true with
    | .error f => .error f
    | .ok false => .error .badProbability
    | .ok true =>
        .ok ⟨(ceilingPow2 s.nominal).log2, s.probability, thetaFor s.probability, s.seed,
          s.memoryLimit⟩

def settingsForError (s : Settings) (relativeError : Datum) : Except Fault Settings :=
  match relativeError.isFraction false with
  | .error f => .error f
  | .ok false => .error .badErrorRate
  | .ok true =>
      match relativeError.toBinary64 with
      | .error f => .error f
      | .ok r =>
          -- A power function need not round correctly. This one is assumed to.
          let square := r.mul r
          if square.isZero then .error .divisionByZero
          else
            match (Binary64.one.div square).ceil? with
            | none => .error .tooLarge
            | some n => .ok { s with nominal := (max (ceilingPow2 n) leastNominal : Nat) }

def nominal (c : Config) : Nat := pow2 c.lgNominal

def lgLargest (c : Config) : Nat := c.lgNominal + 1

end Config

structure QuickSelect (σ : Type) where
  config : Config
  theta : Int
  table : EntryTable σ
  empty : Bool
  processed : Nat

namespace QuickSelect
variable {ω σ : Type}

def thetaKind : String := "UpdatableThetaSketch"
def tupleKind : String := "UpdatableTupleSketch"

def ofConfig (c : Config) : QuickSelect σ :=
  ⟨c, c.initialTheta, .blank (min startLgTable c.lgLargest), true, 0⟩

def new (s : Settings) : Except Fault (QuickSelect σ) :=
  match Config.ofSettings s with
  | .ok c => .ok (ofConfig c)
  | .error f => .error f

def newForError (s : Settings) (relativeError : Datum) : Except Fault (QuickSelect σ) :=
  match Config.settingsForError s relativeError with
  | .ok s => new s
  | .error f => .error f

def reset (s : QuickSelect σ) : QuickSelect σ := ofConfig s.config

def rehash (s : QuickSelect σ) (lg : Nat) : Except Fault Unit × QuickSelect σ :=
  match s.table.rehash lg s.theta with
  | .error f => (.error f, s)
  | .ok table => (.ok (), { s with table })

def grow (s : QuickSelect σ) : Except Fault Unit × QuickSelect σ :=
  s.rehash (min (s.table.lg + growthLg) s.config.lgLargest)

def select (keys : List Int) (smaller : Nat) (default : Int) : Int :=
  ((keys.mergeSort fun a b => decide (a ≤ b)).take (smaller + 1)).getLastD default

def rebuild (s : QuickSelect σ) : Except Fault Unit × QuickSelect σ :=
  let theta := select (s.table.entries.map Prod.fst) s.config.nominal s.theta
  { s with theta }.rehash s.table.lg

def settle (s : QuickSelect σ) : Except Fault Unit × QuickSelect σ :=
  if s.table.lg < s.config.lgLargest then
    if growLoad.exceededBy s.table.count (pow2 s.table.lg) then s.grow else (.ok (), s)
  else if rebuildLoad.exceededBy s.table.count (pow2 s.table.lg) then s.rebuild
  else (.ok (), s)

def slotFor (ops : SummaryOps ω σ) (key : Int) (w : ω) :
    EntryTable σ → Except Fault Nat × EntryTable σ × ω
  | ⟨lg, keys, summaries, count⟩ =>
      match keys.findOrInsert lg key with
      | (.error f, keys) => (.error f, ⟨lg, keys, summaries, count⟩, w)
      | (.ok (.found slot), keys) => (.ok slot, ⟨lg, keys, summaries, count⟩, w)
      | (.ok (.placed slot), keys) =>
          let (summary, w) := ops.fresh w
          (.ok slot, ⟨lg, keys, summaries.setIfInBounds slot (some summary), count + 1⟩, w)

def foldAt (ops : SummaryOps ω σ) (slot : Nat) (value : Datum) (t : EntryTable σ) (w : ω) :
    Except Fault Unit × EntryTable σ × ω :=
  match t.summaryAt? slot with
  | none => (.error .missingSummary, t, w)
  | some summary =>
      match ops.fold summary value w with
      | (.error f, w) => (.error f, t, w)
      | (.ok summary, w) => (.ok (), t.setSummary slot summary, w)

/-- Folds a value into the summary of a key, then makes room. A value that cannot be folded
leaves a new key in place, and no room is made for it. -/
def receive (ops : SummaryOps ω σ) (key : Int) (value : Datum) (w : ω) :
    QuickSelect σ → Except Fault Unit × QuickSelect σ × ω
  | ⟨config, theta, table, empty, processed⟩ =>
      match slotFor ops key w table with
      | (.error f, table, w) => (.error f, ⟨config, theta, table, empty, processed⟩, w)
      | (.ok slot, table, w) =>
          match foldAt ops slot value table w with
          | (.error f, table, w) => (.error f, ⟨config, theta, table, empty, processed⟩, w)
          | (.ok (), table, w) =>
              let (r, s) := settle ⟨config, theta, table, empty, processed⟩
              (r, s, w)

/-- Adds an item with its value. The item counts as processed, and the sketch as not empty,
whatever becomes of it. -/
def update (ops : SummaryOps ω σ) (s : QuickSelect σ) (item value : Datum) (w : ω) :
    Except Fault Unit × QuickSelect σ × ω :=
  let s := { s with processed := s.processed + 1, empty := false }
  match samplingKey item s.config.seed with
  | .error f => (.error f, s, w)
  | .ok key => if key = 0 ∨ s.theta ≤ key then (.ok (), s, w) else s.receive ops key value w

def updateAll (ops : SummaryOps ω σ) (s : QuickSelect σ) :
    List (Datum × Datum) → ω → Except Fault Unit × QuickSelect σ × ω
  | [], w => (.ok (), s, w)
  | (item, value) :: rest, w =>
      match s.update ops item value w with
      | (.error f, s, w) => (.error f, s, w)
      | (.ok (), s, w) => s.updateAll ops rest w

def census (s : QuickSelect σ) : Census := ⟨s.theta, s.table.count, s.empty⟩

def sample (s : QuickSelect σ) : Sample (Int × σ) := ⟨s.census, s.table.entries⟩

def keySample (s : QuickSelect σ) : Sample Int := ⟨s.census, s.table.entries.map Prod.fst⟩

def compact (ops : SummaryOps ω σ) (s : QuickSelect σ) (w : ω) : Compact σ × ω :=
  if s.table.count = 0 then (⟨[], s.theta, s.empty, none⟩, w)
  else
    let (entries, w) := ops.copyAll s.table.entries w
    (⟨entries, s.theta, s.empty, none⟩, w)

def memory (s : QuickSelect σ) (sizes : Sizes σ := .usual (pow2 s.table.lg)) : Memory :=
  ⟨sizes.total (s.table.summaries.toList.filterMap id), s.config.memoryLimit⟩

structure TableStats where
  sketch : Stats
  nominal : Nat
  probability : Datum
  slots : Nat
  load : Binary64
  processed : Nat

def stats (s : QuickSelect σ) (kind : String) (sizes : Sizes σ := .usual (pow2 s.table.lg)) :
    Except Fault TableStats := do
  let sketch ← s.census.stats kind (s.memory sizes)
  let load ← Binary64.quotient s.table.count (pow2 s.table.lg)
  return ⟨sketch, s.config.nominal, s.config.probability, pow2 s.table.lg, load, s.processed⟩

end QuickSelect
end KeySampling
