import KeySampling.Proofs.Intersection.Storage

/-! Keys and theta in a result. The pass over a later input drops the keys from its theta on, the
one over the first input drops none, and a result leaves out the keys above theta only. The three
agree unless there was one input, with a key that is not below its own theta. -/
namespace KeySampling

/-- An absent input, or one that is let in with distinct keys, wherever its theta lies. -/
inductive Call.Loose {σ : Type} (c : Call σ) : Prop
  | absent (missing : c.absent = true) : Loose c
  | offered {census : Census} (offers : c.census = some census) (nodup : c.keys.Nodup)
      (inRange : ∀ key ∈ c.keys, 0 < key ∧ key ≤ maxTheta) (bound : census.theta ≤ maxTheta) :
      Loose c

namespace Intersection
variable {ω σ : Type} {ops : SummaryOps ω σ} {policy : Policy ω σ} {x x' : Intersection σ}
  {t : EntryTable σ} {c : Call σ} {w w' : ω}

section Result

theorem resultWhole (started : x.started = true) (held : x.table = some t) (wf : t.WellFormed)
    (within : ∀ key ∈ t.keySet, key ≤ x.theta) (w : ω) :
    ∃ result, (x.result ops w).1 = .ok result ∧ result.theta = x.theta ∧
      result.entries.map Prod.fst = t.keySet := by
  have whole : t.entries.filter (fun e => decide (e.1 ≤ x.theta)) = t.entries :=
    List.filter_eq_self.mpr fun e member =>
      decide_eq_true (within e.1 (List.mem_map_of_mem member))
  simp only [result, started, held, whole]
  by_cases vacant : t.count = 0
  · have nothing : t.keySet = [] := by
      rw [← List.length_eq_zero_iff, EntryTable.keySetLength wf, vacant]
    exact ⟨⟨[], x.theta, x.empty, Option.none⟩, by simp [vacant], rfl, nothing.symm⟩
  · have packed := (copyAllLength ops t.entries w).trans wf.counted.symm
    exact ⟨_, by simp only [if_neg vacant, if_pos packed]; rfl, rfl, copyAllKeys ops t.entries w⟩

theorem resultShort (started : x.started = true) (held : x.table = some t) (wf : t.WellFormed)
    (beyond : ∃ key ∈ t.keySet, x.theta < key) (w : ω) :
    ∃ packed, (x.result ops w).1 = .error (.countMismatch packed t.count) := by
  obtain ⟨key, member, above⟩ := beyond
  have occupied := (EntryTable.countPositive wf member).ne'
  obtain ⟨e, inside, rfl⟩ := List.mem_map.mp member
  let left := t.entries.filter fun e => decide (e.1 ≤ x.theta)
  have fewer : left.length < t.count := by
    rw [wf.counted]
    exact List.length_filter_lt_length_iff_exists.mpr ⟨e, inside, by simpa using above⟩
  have short : (ops.copyAll left w).1.length ≠ t.count := by
    rw [copyAllLength]
    exact fewer.ne
  exact ⟨(ops.copyAll left w).1.length, by simp [result, started, held, occupied, left, short]⟩

end Result

structure Ranged (x : Intersection σ) : Prop where
  started : x.started = true
  table : ∀ t, x.table = some t → t.WellFormed
  inRange : ∀ t, x.table = some t → ∀ key ∈ t.keySet, 0 < key ∧ key ≤ maxTheta

structure Sifted (x : Intersection σ) : Prop extends Ranged x where
  below : ∀ t, x.table = some t → ∀ key ∈ t.keySet, key < x.theta

theorem bareSifted (started : x.started = true) (bare : x.table = none) : x.Sifted := by
  refine ⟨⟨started, ?_, ?_⟩, ?_⟩ <;> simp [bare]

theorem rangedCount (ranged : x.Ranged) (held : x.table = some t) :
    t.count < 9223372036854775808 := by
  have wf := ranged.table t held
  have bound := keysBound (EntryTable.keysNodup wf) (ranged.inRange t held)
  rwa [EntryTable.keySetLength wf] at bound

theorem refineSifted {ι : Type} {step : σ → ι → ω → σ × ω} {entries : List (Int × ι)}
    (ranged : x.Ranged) (nodup : (entries.map Prod.fst).Nodup) (nonzero : ∀ e ∈ entries, e.1 ≠ 0)
    (w : ω) : ∃ x' w', x.refine step entries w = (.ok (), x', w') ∧ x'.Sifted := by
  cases held : x.table with
  | none => exact ⟨x, w, by simp only [refine, held], bareSifted ranged.started held⟩
  | some t =>
    have wf := ranged.table t held
    have inRange := ranged.inRange t held
    obtain ⟨next, w', ok, sifts⟩ := refineSifts held wf
      (fun key member => keyFits (inRange key member).1.le (inRange key member).2)
      (rangedCount ranged held) nodup nonzero step w
    have left : next.WellFormed ∧ ∀ key ∈ next.keySet, key < x.theta ∧ key ∈ t.keySet := by
      cases sifts with
      | idle nothing => exact ⟨wf, by simp [nothing]⟩
      | rebuilt wf' _ _ keys => exact ⟨wf', keys⟩
    refine ⟨_, w', ok, ⟨ranged.started, fun u same => ?_, fun u same key member => ?_⟩,
      fun u same key member => ?_⟩ <;> cases Option.some.inj same
    · exact left.1
    · exact inRange key (left.2 key member).2
    · exact (left.2 key member).1

theorem giveSifted (ranged : x.Ranged) (loose : c.Loose) (w : ω) :
    ∃ x' w', x.give ops policy c w = (.ok (), x', w') ∧ x'.Sifted := by
  cases loose with
  | absent missing => exact ⟨_, w, giveAbsent missing, bareSifted rfl rfl⟩
  | @offered census offers nodup inRange bound =>
    generalize came : x.give ops policy c w = out
    cases came ▸ giveAdmits offers ops policy x w with
    | cleared nothing => exact ⟨_, w, rfl, bareSifted rfl (restrictClears nothing)⟩
    | seeded _ first _ => simp [ranged.started] at first
    | @refined _ step entries retains _ keys =>
      have kept : (x.accept.restrict census).table = x.table := restrictKeeps retains
      exact refineSifted ⟨rfl, kept ▸ ranged.table, kept ▸ ranged.inRange⟩ (keys ▸ nodup)
        (fun e member => (inRange e.1 (keys ▸ List.mem_map_of_mem member)).1.ne') w

theorem giveEachSifted {calls : List (Call σ × ω)} (sifted : x.Sifted)
    (loose : ∀ c ∈ calls, c.1.Loose) :
    ∃ x', x.giveEach ops policy calls = (.ok (), x') ∧ x'.Sifted := by
  induction calls generalizing x with
  | nil => exact ⟨x, rfl, sifted⟩
  | cons c rest ih =>
    obtain ⟨call, w⟩ := c
    obtain ⟨next, w', first, after⟩ :
        ∃ next w', x.give ops policy call w = (.ok (), next, w') ∧ next.Sifted :=
      giveSifted sifted.toRanged (loose (call, w) (by simp)) w
    obtain ⟨x', run, final⟩ := ih after fun c member => loose c (List.mem_cons_of_mem _ member)
    exact ⟨x', by simp only [giveEach, first, run], final⟩

inductive Begun (c : Call σ) (x : Intersection σ) : Prop
  | bare (nothing : ∀ census, c.census = some census → census.retained = 0)
      (table : x.table = none) : Begun c x
  | seeded {census : Census} {t : EntryTable σ} (offers : c.census = some census)
      (retains : census.retained ≠ 0) (theta : x.theta = c.theta) (held : x.table = some t)
      (wf : t.WellFormed) (keys : t.keySet.Perm c.keys) : Begun c x

theorem buildPerm {declared : Int} {entries : List (Int × σ)}
    (separate : EntryTable.Separate entries) (built : build declared entries = .ok t) :
    t.WellFormed ∧ t.entries.Perm entries := by
  obtain ⟨lg, filled⟩ := buildFilled built
  have holds := EntryTable.ofEntriesHolds separate filled
  exact ⟨holds.wellFormed, holds.entries⟩

theorem giveBegun (loose : c.Loose)
    (ok : (universal : Intersection σ).give ops policy c w = (.ok (), x, w')) :
    x.started = true ∧ Begun c x := by
  cases loose with
  | absent missing =>
    rw [giveAbsent missing] at ok
    cases ok
    refine ⟨rfl, .bare (fun census offers => ?_) rfl⟩
    simp [Call.censusPresent offers] at missing
  | @offered census offers nodup inRange bound =>
    generalize came : (universal : Intersection σ).give ops policy c w = out at ok
    cases came ▸ giveAdmits offers ops policy universal w with
    | cleared nothing =>
      cases ok
      refine ⟨rfl, .bare (fun census same => ?_) (restrictClears nothing)⟩
      cases Option.some.inj (offers.symm.trans same)
      exact nothing
    | @seeded entries _ retains _ keys =>
      cases built : build census.retained entries with
      | error f => simp [built, store] at ok
      | ok t =>
        simp only [built, store] at ok
        cases ok
        have separate : EntryTable.Separate entries :=
          ⟨keys ▸ nodup, fun e member =>
            (inRange e.1 (keys ▸ List.mem_map_of_mem member)).1.ne'⟩
        obtain ⟨wf, perm⟩ := buildPerm separate built
        refine ⟨rfl, .seeded offers retains ?_ rfl wf (keys ▸ perm.map Prod.fst)⟩
        rw [Call.censusTheta offers]
        exact min_eq_right bound
    | refined _ later _ => contradiction

theorem begunRanged (loose : c.Loose) (started : x.started = true) (begun : Begun c x) :
    x.Ranged := by
  cases begun with
  | bare _ table => exact (bareSifted started table).toRanged
  | @seeded census t offers _ _ held wf keys =>
    refine ⟨started, fun u same => ?_, fun u same key member => ?_⟩ <;>
      cases Option.some.inj (held.symm.trans same)
    · exact wf
    · cases loose with
      | absent missing => simp [Call.censusPresent offers] at missing
      | offered _ _ inRange _ => exact inRange key (keys.mem_iff.mp member)

theorem begunSifted (ranged : x.Ranged) (begun : Begun c x)
    (below : ∀ key ∈ c.keys, key < c.theta) : x.Sifted := by
  refine ⟨ranged, fun t held key member => ?_⟩
  cases begun with
  | bare _ table => simp [table] at held
  | seeded _ _ theta held' _ keys =>
    cases Option.some.inj (held'.symm.trans held)
    exact theta ▸ below key (keys.mem_iff.mp member)

theorem giveHonest (loose : c.Loose)
    (honest : ∀ census, c.census = some census → census.retained = c.keys.length) (w : ω) :
    ∃ x w', (universal : Intersection σ).give ops policy c w = (.ok (), x, w') := by
  cases loose with
  | absent missing => exact ⟨_, w, giveAbsent missing⟩
  | @offered census offers nodup inRange _ =>
    generalize came : (universal : Intersection σ).give ops policy c w = out
    cases came ▸ giveAdmits offers ops policy universal w with
    | cleared _ => exact ⟨_, w, rfl⟩
    | @seeded entries w' _ _ keys =>
      obtain ⟨t, _, built, _⟩ := buildHolds (keys ▸ nodup)
        fun e member => inRange e.1 (keys ▸ List.mem_map_of_mem member)
      have counted : census.retained = entries.length := by
        rw [honest census offers, ← keys, List.length_map]
      exact ⟨{ (universal : Intersection σ).accept.restrict census with table := some t }, w',
        by simp only [counted, built, store]⟩
    | refined _ later _ => contradiction

theorem siftedResult (sifted : x.Sifted) (w : ω) :
    ∃ result, (x.result ops w).1 = .ok result ∧
      ∀ key ∈ result.entries.map Prod.fst, key < result.theta := by
  cases held : x.table with
  | none => exact ⟨⟨[], x.theta, x.empty, none⟩, by simp [result, sifted.started, held], by simp⟩
  | some t =>
    have below := sifted.below t held
    obtain ⟨result, ok, theta, keys⟩ := resultWhole sifted.started held (sifted.table t held)
      (fun key member => (below key member).le) w
    refine ⟨result, ok, fun key member => ?_⟩
    rw [theta]
    exact below key (keys ▸ member)

theorem begunResult {census : Census} (started : x.started = true) (begun : Begun c x)
    (offers : c.census = some census) (retains : census.retained ≠ 0) (w : ω) :
    ((∃ key ∈ c.keys, c.theta < key) →
      ∃ packed, (x.result ops w).1 = .error (.countMismatch packed c.keys.length)) ∧
    ((∀ key ∈ c.keys, key ≤ c.theta) → ∃ result, (x.result ops w).1 = .ok result ∧
      result.theta = c.theta ∧ (result.entries.map Prod.fst).Perm c.keys) := by
  cases begun with
  | bare nothing _ => exact absurd (nothing census offers) retains
  | @seeded _ t _ _ theta held wf keys =>
    have count : t.count = c.keys.length := by
      rw [← EntryTable.keySetLength wf]
      exact keys.length_eq
    rw [← theta, ← count]
    constructor
    · rintro ⟨key, member, above⟩
      exact resultShort started held wf ⟨key, keys.mem_iff.mpr member, above⟩ w
    · intro within
      obtain ⟨result, ok, same, shown⟩ := resultWhole started held wf
        (fun key member => within key (keys.mem_iff.mp member)) w
      exact ⟨result, ok, same, shown ▸ keys⟩

theorem giveEachBegun {rest : List (Call σ × ω)} (loose : ∀ c ∈ rest, c.1.Loose)
    (ranged : x.Ranged) :
    ∃ x', x.giveEach ops policy rest = (.ok (), x') ∧ (rest ≠ [] → x'.Sifted) := by
  cases rest with
  | nil => exact ⟨x, rfl, fun impossible => absurd rfl impossible⟩
  | cons c rest =>
    obtain ⟨call, w⟩ := c
    obtain ⟨next, w', first, sifted⟩ :
        ∃ next w', x.give ops policy call w = (.ok (), next, w') ∧ next.Sifted :=
      giveSifted ranged (loose (call, w) (by simp)) w
    obtain ⟨x', run, final⟩ : ∃ x', next.giveEach ops policy rest = (.ok (), x') ∧ x'.Sifted :=
      giveEachSifted sifted fun c member => loose c (List.mem_cons_of_mem _ member)
    exact ⟨x', by simp only [giveEach, first, run], fun _ => final⟩

/-- Of inputs with distinct keys, honest ones are all taken. The result has keys below its theta
only, unless there was a single input with a key that is not below its own theta. A key above it
leaves no result at all, and a key at theta is part of the result. -/
theorem resultBounded (ops : SummaryOps ω σ) (policy : Policy ω σ) {calls : List (Call σ × ω)}
    (nonempty : calls ≠ []) (loose : ∀ c ∈ calls, c.1.Loose) :
    ((∀ c ∈ calls, ∀ census, c.1.census = some census → census.retained = c.1.keys.length) →
      ∃ x, (universal : Intersection σ).giveEach ops policy calls = (.ok (), x)) ∧
    ∀ x, (universal : Intersection σ).giveEach ops policy calls = (.ok (), x) → ∀ w,
      ((∀ c, calls.map Prod.fst = [c] → ∀ key ∈ c.keys, key < c.theta) →
        ∃ result, (x.result ops w).1 = .ok result ∧
          ∀ key ∈ result.entries.map Prod.fst, key < result.theta) ∧
      ∀ c census, calls.map Prod.fst = [c] → c.census = some census → census.retained ≠ 0 →
        ((∃ key ∈ c.keys, c.theta < key) → ∃ packed,
          (x.result ops w).1 = .error (.countMismatch packed c.keys.length)) ∧
        ((∀ key ∈ c.keys, key ≤ c.theta) → ∃ result, (x.result ops w).1 = .ok result ∧
          result.theta = c.theta ∧ (result.entries.map Prod.fst).Perm c.keys) := by
  obtain ⟨⟨first, v⟩, rest, rfl⟩ := List.exists_cons_of_ne_nil nonempty
  have loose' : first.Loose := loose (first, v) (by simp)
  have later : ∀ c ∈ rest, c.1.Loose := fun c member => loose c (List.mem_cons_of_mem _ member)
  constructor
  · intro honest
    obtain ⟨next, v', given⟩ : ∃ next v', universal.give ops policy first v = (.ok (), next, v') :=
      giveHonest loose' (honest (first, v) (by simp)) v
    obtain ⟨started, begun⟩ := giveBegun loose' given
    obtain ⟨x, run, _⟩ :
        ∃ x, next.giveEach ops policy rest = (.ok (), x) ∧ (rest ≠ [] → x.Sifted) :=
      giveEachBegun later (begunRanged loose' started begun)
    exact ⟨x, by simp only [giveEach, given, run]⟩
  · intro x ok w
    simp only [giveEach] at ok
    split at ok
    · simp at ok
    rename_i next v' given
    obtain ⟨started, begun⟩ := giveBegun loose' given
    have ranged := begunRanged loose' started begun
    obtain ⟨x', run, sifted⟩ := giveEachBegun later ranged
    cases (Prod.mk.inj (run.symm.trans ok)).2
    constructor
    · intro below
      refine siftedResult ?_ w
      -- A second input drops what the first one should not have had.
      by_cases single : rest = []
      · subst single
        cases (Prod.mk.inj ok).2
        exact begunSifted ranged begun (below first rfl)
      · exact sifted single
    · intro c census single offers offered
      simp only [List.map_cons, List.cons.injEq, List.map_eq_nil_iff] at single
      obtain ⟨rfl, rfl⟩ := single
      cases (Prod.mk.inj ok).2
      exact begunResult started begun offers offered w

def alone (key : Int) : Except Fault (List (Int × Summary) × Int) := do
  let c ← Compact.ofLists (some [key]) (some [.fresh .sum]) 5 false none
  let (result, _) := intersect (.values .sum) (.ofFunction (Summary.combine .sum))
    [.tuples Compact.kind c.sample] ()
  result.map fun c => (c.entries, c.theta)

theorem boundOverstepped :
    alone 7 = .error (.countMismatch 0 1) ∧ alone 5 = .ok ([(5, .fresh .sum)], 5) := by
  decide +kernel

def overstepped : List (Call Summary × Unit) :=
  let sketch (theta : Int) : Operand Summary :=
    .tuples Compact.kind ⟨⟨theta, 2, false⟩, [(3, .fresh .sum), (7, .fresh .sum)]⟩
  [(.update (sketch 5), ()), (.update (sketch maxTheta), ())]

theorem resultBoundedTwice : ∃ x result,
    (universal : Intersection Summary).giveEach (.values .sum)
      (.ofFunction (Summary.combine .sum)) overstepped = (.ok (), x) ∧
    (x.result (.values .sum) ()).1 = .ok result ∧
    ∀ key ∈ result.entries.map Prod.fst, key < result.theta := by
  have loose : ∀ c ∈ overstepped, c.1.Loose := by
    simp only [overstepped, List.forall_mem_cons]
    have nodup : [(3 : Int), 7].Nodup := by decide
    have inRange : ∀ key ∈ [(3 : Int), 7], 0 < key ∧ key ≤ maxTheta := by decide
    exact ⟨.offered rfl nodup inRange (by decide), .offered rfl nodup inRange le_rfl, by simp⟩
  have honest : ∀ c ∈ overstepped, ∀ census, c.1.census = some census →
      census.retained = c.1.keys.length := by
    simp only [overstepped, List.forall_mem_cons]
    exact ⟨fun _ same => Option.some.inj same ▸ rfl, fun _ same => Option.some.inj same ▸ rfl,
      by simp⟩
  obtain ⟨taken, bounded⟩ := resultBounded (.values .sum) (.ofFunction (Summary.combine .sum))
    (by simp [overstepped]) loose
  obtain ⟨x, run⟩ := taken honest
  obtain ⟨result, ok, below⟩ := (bounded x run ()).1 (by simp [overstepped])
  exact ⟨x, result, run, ok, below⟩

end Intersection
end KeySampling
