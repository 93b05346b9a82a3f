import KeySampling.Proofs.Binary64.Exactness
import KeySampling.Proofs.Sketch.Reached

/-! Counting without sampling. A sketch that samples with probability one counts the distinct keys
of its stream, as long as its largest table has room for them. Two keys have no part in that: 0
marks an empty slot, and the largest key is below no threshold. -/
namespace KeySampling

theorem Census.estimateExact {c : Census} {n : Nat} (top : c.theta = maxTheta)
    (count : c.retained = n) (fits : n < 9223372036854775808)
    (emptyCount : c.empty = true → n = 0) :
    c.estimate = .ok (.ofInt n) := by
  by_cases empty : c.empty = true
  · have zero : Binary64.zero false = .ofInt (0 : Nat) := by decide +kernel
    simp only [estimate, if_pos empty, emptyCount empty, ← zero]
    rfl
  · have certain : c.probability = .ok .one := by
      rw [probability, top]
      exact Binary64.quotientSelf (by decide)
    have nonzero : Binary64.one.isZero = false := by decide +kernel
    simp only [estimate, if_neg empty, certain, count, Binary64.ofIntFits fits]
    simp [Bind.bind, Except.bind, Pure.pure, Except.pure, nonzero, Binary64.ofIntDivOne fits]

/-- The distinct keys of a stream, less the two that no sketch retains. -/
def countedKeys (seed : Int) (stream : List (Datum × Datum)) : Finset Int :=
  (keysOf seed stream).toFinset \ {0, maxTheta}

theorem memCounted {seed key : Int} {stream : List (Datum × Datum)} :
    key ∈ countedKeys seed stream ↔ key ∈ keysOf seed stream ∧ key ≠ 0 ∧ key ≠ maxTheta := by
  simp [countedKeys]

theorem countedIff {seed key : Int} {stream : List (Datum × Datum)} :
    key ∈ distinctKeys seed stream ∧ key < maxTheta ↔ key ∈ countedKeys seed stream := by
  rw [QuickSelect.memDistinct, memCounted]
  constructor
  · rintro ⟨⟨nonzero, seen⟩, below⟩
    exact ⟨seen, nonzero, below.ne⟩
  · rintro ⟨seen, nonzero, other⟩
    exact ⟨⟨nonzero, seen⟩, lt_of_le_of_ne (keyInRange seen).2 other⟩

theorem countedBelow (seed : Int) (stream : List (Datum × Datum)) :
    (distinctKeys seed stream).filter (· < maxTheta) = countedKeys seed stream := by
  ext key
  rw [Finset.mem_filter, countedIff]

namespace QuickSelect
variable {ω σ : Type}

theorem countFits {s : QuickSelect σ} (intact : s.Intact) :
    s.table.count < 9223372036854775808 := by
  have range := intactRange intact
  have bound := keysBound (EntryTable.keysNodup intact.table) fun key member =>
    ⟨(intact.inRange key member).1, (range key member).2⟩
  rwa [EntryTable.keySetLength intact.table] at bound

/-- With probability one, theta stays where it is while no more than 15/8 of the nominal number of
distinct keys come. Every item is processed, and each key but 0 and the largest one is retained, so
that their number is the count, and the estimate as far as binary64 goes. -/
theorem countedExactly (ops : SummaryOps ω σ) {settings : Settings} {start s : QuickSelect σ}
    (begins : Begins settings start) (certain : settings.probability.same (.int 1) = true)
    {updates : List (Datum × Datum)} {w w' : ω}
    (few : 8 * (countedKeys settings.seed updates).card ≤ 15 * start.config.nominal)
    (ok : start.updateAll ops updates w = (.ok (), s, w')) :
    s.census.theta = maxTheta ∧
    s.processed = updates.length ∧ (s.census.empty = true ↔ updates = []) ∧
    s.census.retained = (countedKeys settings.seed updates).card ∧
    s.keySample.entries.Nodup ∧
    (∀ key, key ∈ s.keySample.entries ↔
      key ∈ keysOf settings.seed updates ∧ key ≠ 0 ∧ key ≠ maxTheta) ∧
    s.census.estimate = .ok (.ofInt (countedKeys settings.seed updates).card) ∧
    ((countedKeys settings.seed updates).card ≤ 9007199254740992 →
      ∃ x : Binary64.Finite, s.census.estimate = .ok (.finite x) ∧
        x.toRat = (countedKeys settings.seed updates).card) := by
  have sampling := runSampling begins ok
  have tracks := reachedTracks (updateAllReached begins ok)
  have seed := Config.acceptedSeed tracks.accepted
  obtain ⟨config, accepted, rfl⟩ := beginsOfConfig begins
  have same : config = s.config := Except.ok.inj (accepted.symm.trans tracks.accepted)
  have initial : (ofConfig config : QuickSelect σ).theta = maxTheta :=
    (Config.acceptedWhole accepted).mpr certain
  rw [initial] at sampling
  have counted := countedBelow s.config.seed updates
  have top : s.theta = maxTheta := by
    refine (untouchedIff sampling).mpr ?_
    rw [counted, seed, ← same]
    exact few
  have count : s.table.count = (countedKeys settings.seed updates).card := by
    rw [untouchedCount sampling top, counted, seed]
  have keys (key : Int) : key ∈ s.table.keySet ↔
      key ∈ keysOf settings.seed updates ∧ key ≠ 0 ∧ key ≠ maxTheta := by
    rw [← List.mem_toFinset, keySetBelow sampling.retains, top, countedIff, seed, memCounted]
  have retained : s.census.retained = (countedKeys settings.seed updates).card :=
    congrArg Int.ofNat count
  have estimate : s.census.estimate = .ok (.ofInt (countedKeys settings.seed updates).card) := by
    refine Census.estimateExact top retained (count ▸ countFits tracks.intact) fun empty => ?_
    rw [tracks.empty.mp empty]
    rfl
  refine ⟨top, tracks.processed, tracks.empty, retained, EntryTable.keysNodup tracks.intact.table,
    keys, estimate, fun exact' => ?_⟩
  obtain ⟨x, converted, value⟩ := Binary64.ofIntExact exact'
  exact ⟨x, by rw [estimate, converted], value⟩

def edgeStream : List (Datum × Datum) :=
  [(.bytes [0xb6, 0x25, 0xca, 0xd3, 0x3d, 0x94, 0xee, 0x5b, 0x6f, 0xd0, 0x1d, 0x10, 0x28, 0xfc,
      0x81, 0x56], .none),
    (.bytes [0xc8, 0xc6, 0x78, 0xad, 0x1f, 0x23, 0xe7, 0x0b, 0xb1, 0x51, 0xaa, 0x34, 0xe2, 0x44,
      0x71, 0xcb], .none)]

theorem edgesUncounted :
    let start : QuickSelect Unit := ofConfig ⟨4, .float .one, maxTheta, defaultSeed, none⟩
    let s := (start.updateAll .keysOnly edgeStream ()).2.1
    Begins { nominal := 16 } start ∧
    start.updateAll .keysOnly edgeStream () = (.ok (), s, ()) ∧
    keysOf defaultSeed edgeStream = [0, maxTheta] ∧
    8 * (keysOf defaultSeed edgeStream).toFinset.card ≤ 15 * start.config.nominal ∧
    s.processed = 2 ∧ s.census.retained = 0 ∧
    s.census.retained ≠ (keysOf defaultSeed edgeStream).toFinset.card := by
  refine ⟨beginsDefaults (by decide), Prod.ext (by decide +kernel) rfl, ?_⟩
  decide +kernel

def countingStream : List (Datum × Datum) := (List.range 20).map fun n : Nat => (.int n, .none)

theorem countedExactlyGrown : ∃ start s : QuickSelect Unit,
    Begins { nominal := 17 } start ∧
    start.updateAll .keysOnly (edgeStream ++ countingStream) () = (.ok (), s, ()) ∧
    s.census.retained = 20 ∧ s.census.estimate = .ok (.ofInt 20) := by
  let config : Config := ⟨5, .float .one, maxTheta, defaultSeed, none⟩
  have begins : Begins { nominal := 17 } (ofConfig config : QuickSelect Unit) :=
    beginsDefaults (by decide)
  have ok : (ofConfig config).updateAll .keysOnly (edgeStream ++ countingStream) () =
      (.ok (), ((ofConfig config).updateAll .keysOnly (edgeStream ++ countingStream) ()).2) :=
    Prod.ext (by decide +kernel) rfl
  have card : (countedKeys defaultSeed (edgeStream ++ countingStream)).card = 20 := by
    decide +kernel
  obtain ⟨_, _, _, count, _, _, estimate, _⟩ := countedExactly .keysOnly begins
    (by decide +kernel) (card ▸ (by decide : 8 * 20 ≤ 15 * config.nominal)) ok
  exact ⟨_, _, begins, ok, count.trans (congrArg Int.ofNat card),
    estimate.trans (congrArg (fun n : Nat => Except.ok (Binary64.ofInt n)) card)⟩

end QuickSelect
end KeySampling
