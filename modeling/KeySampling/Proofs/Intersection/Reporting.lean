import KeySampling.Proofs.Intersection.Failure
import KeySampling.Proofs.Sketch.Reporting

/-! Whatever is made of sketches, by copies and by intersections that may themselves be given
results, says as much as a sketch does. No key is looked at: theta stays between its least and its
largest value, and nothing has more entries than what it was made of. -/
namespace KeySampling

namespace EntryTable
variable {σ : Type} {t next : EntryTable σ}

theorem insertAllCount (sound : t.Sound) {new : List (Int × σ)}
    (ok : t.insertAll new = .ok next) : next.count = t.count + new.length := by
  induction new generalizing t with
  | nil =>
    cases Except.ok.inj ok
    rfl
  | cons e rest ih =>
    simp only [insertAll] at ok
    split at ok <;> try contradiction
    rename_i grown added
    obtain ⟨sound', _, count⟩ := insertSound sound added
    rw [ih sound' ok, count, List.length_cons]
    omega

end EntryTable

def Call.Possible {σ : Type} (c : Call σ) : Prop :=
  ∀ census, c.census = some census → census.Possible c.keys.length

theorem Census.barePossible {theta : Int} (low : 0 ≤ theta) (high : theta ≤ maxTheta)
    (empty : Bool) : (⟨theta, 0, empty⟩ : Census).Possible 0 :=
  ⟨low, high, rfl, by decide⟩

namespace Intersection
variable {ω σ ι : Type} {x : Intersection σ} {census : Census} {w : ω}

theorem buildCount {declared : Int} {entries : List (Int × σ)} {t : EntryTable σ}
    (built : build declared entries = .ok t) : t.count = entries.length := by
  obtain ⟨lg, filled⟩ := buildFilled built
  rw [EntryTable.insertAllCount (EntryTable.blankSound lg) (EntryTable.ofEntriesFills filled)]
  exact Nat.zero_add _

structure Steady (x : Intersection σ) : Prop where
  possible : x.census.Possible x.retained
  sounds : x.Sounds

theorem storePossible (possible : x.census.Possible x.retained) {declared : Int}
    {entries : List (Int × σ)} (few : entries.length < 9223372036854775808) :
    (x.store (build declared entries)).2.census.Possible
      (x.store (build declared entries)).2.retained := by
  cases built : build declared entries with
  | error f => exact possible
  | ok t => exact ⟨possible.low, possible.high, rfl, (buildCount built).trans_lt few⟩

theorem restrictPossible (possible : x.census.Possible x.retained) {count : Nat}
    (input : census.Possible count) : (x.accept.restrict census).census.Possible
      (x.accept.restrict census).retained := by
  refine ⟨le_min possible.low input.low, (min_le_left _ _).trans possible.high, rfl, ?_⟩
  by_cases nothing : census.retained = 0
  · simp [retained, restrict, nothing]
  · have kept : (x.accept.restrict census).retained = x.retained := by
      simp [retained, restrict, accept, nothing]
    exact kept.trans_lt possible.fits

theorem refinePossible (steady : x.Steady) (step : σ → ι → ω → σ × ω) {entries : List (Int × ι)}
    (few : entries.length < 9223372036854775808) (w : ω) :
    (x.refine step entries w).2.1.census.Possible (x.refine step entries w).2.1.retained := by
  unfold refine
  split
  · exact steady.possible
  rename_i t held
  split
  · exact steady.possible
  obtain ⟨joined, w', ok, fewer, _⟩ := joinAllEnds (steady.sounds t held) x.theta step entries w
  simp only [ok]
  exact storePossible steady.possible (fewer.trans_lt few)

theorem giveSteady (steady : x.Steady) {c : Call σ} (input : c.Possible) (ops : SummaryOps ω σ)
    (policy : Policy ω σ) (w : ω) : (x.give ops policy c w).2.1.Steady := by
  refine ⟨?_, giveSounds steady.sounds c w⟩
  have lengths {α : Type} {entries : List (Int × α)} (keys : entries.map Prod.fst = c.keys) :
      entries.length = c.keys.length := by rw [← keys, List.length_map]
  generalize came : x.give ops policy c w = out
  cases came ▸ giveComes ops policy x c w with
  | refused _ _ => exact steady.possible
  | collapsed _ => exact Census.barePossible (by decide) (le_refl maxTheta) _
  | cleared offers _ => exact restrictPossible steady.possible (input _ offers)
  | seeded offers _ _ keys =>
    have possible := input _ offers
    exact storePossible (restrictPossible steady.possible possible) (lengths keys ▸ possible.fits)
  | @refined census _ step entries offers _ _ keys =>
    have possible := input _ offers
    exact refinePossible ⟨restrictPossible steady.possible possible,
      restrictSounds steady.sounds census⟩ step (lengths keys ▸ possible.fits) w

theorem resultPossible (possible : x.census.Possible x.retained) {ops : SummaryOps ω σ}
    {c : Compact σ} {w' : ω} (ok : x.result ops w = (.ok c, w')) :
    c.census.Possible c.entries.length ∧ c.memoryLimit = none := by
  have bare := Census.barePossible possible.low possible.high x.empty
  unfold result at ok
  split at ok
  · simp at ok
  split at ok
  · cases ok
    exact ⟨bare, rfl⟩
  rename_i t held
  split at ok
  · cases ok
    exact ⟨bare, rfl⟩
  · dsimp only at ok
    split at ok
    · rename_i whole
      cases ok
      have fits := possible.fits
      simp only [retained, held] at fits
      exact ⟨⟨possible.low, possible.high, rfl, whole.trans_lt fits⟩, rfl⟩
    · simp at ok

end Intersection

inductive Piece (σ : Type) where
  | nothing
  | foreign (kind : String)
  | sketch (s : QuickSelect σ)
  | keys (s : QuickSelect Unit)
  | compact (c : Compact σ)
  | engine (x : Intersection σ)

namespace Piece
open Binary64
variable {ω σ : Type}

def operand : Piece σ → Operand σ
  | .nothing => .absent
  | .foreign kind => .other kind
  | .sketch s => .tuples QuickSelect.tupleKind s.sample
  | .keys s => .keys QuickSelect.thetaKind s.keySample
  | .compact c => .tuples Compact.kind c.sample
  | .engine _ => .other Intersection.kind

/-- All that can be made of sketches as their uses left them. An intersection may be given
anything that was made, and goes on after a use that fails. -/
inductive Made : Piece σ → Prop
  | nothing : Made .nothing
  | foreign (kind : String) : Made (.foreign kind)
  | sketch {ω : Type} {ops : SummaryOps ω σ} {settings : Settings} {start : QuickSelect σ}
      (begins : QuickSelect.Begins settings start) (uses : List (QuickSelect.Use × ω)) :
      Made (.sketch (start.useAll ops uses))
  | keys {ω : Type} {ops : SummaryOps ω Unit} {settings : Settings} {start : QuickSelect Unit}
      (begins : QuickSelect.Begins settings start) (uses : List (QuickSelect.Use × ω)) :
      Made (.keys (start.useAll ops uses))
  | compacted {ω : Type} (ops : SummaryOps ω σ) (w : ω) {s : QuickSelect σ}
      (made : Made (.sketch s)) : Made (.compact (s.compact ops w).1)
  | begun : Made (.engine .universal)
  | updated {ω : Type} (ops : SummaryOps ω σ) (policy : Policy ω σ) (w : ω) {x : Intersection σ}
      {p : Piece σ} (made : Made (.engine x)) (input : Made p) :
      Made (.engine (x.update ops policy p.operand w).2.1)
  | updatedKeys {ω : Type} (ops : SummaryOps ω σ) (policy : Policy ω σ) (summary : σ) (w : ω)
      {x : Intersection σ} {p : Piece σ} (made : Made (.engine x)) (input : Made p) :
      Made (.engine (x.updateKeys ops policy p.operand summary w).2.1)
  | concluded {ω : Type} {ops : SummaryOps ω σ} {w w' : ω} {x : Intersection σ} {c : Compact σ}
      (made : Made (.engine x)) (ok : x.result ops w = (.ok c, w')) : Made (.compact c)

def Keeps : Piece σ → Prop
  | .nothing | .foreign _ => True
  | .sketch s => s.Intact ∧ s.census.Possible s.table.count
  | .keys s => s.Intact ∧ s.census.Possible s.table.count
  | .compact c => c.census.Possible c.entries.length ∧ c.memoryLimit = none
  | .engine x => x.Steady

theorem keepsSketch {ops : SummaryOps ω σ} {settings : Settings} {start : QuickSelect σ}
    (begins : QuickSelect.Begins settings start) (uses : List (QuickSelect.Use × ω)) :
    (start.useAll ops uses).Intact ∧
      (start.useAll ops uses).census.Possible (start.useAll ops uses).table.count := by
  have unused : QuickSelect.Reached ops settings [] start := .begun begins
  obtain ⟨past, reached⟩ := QuickSelect.reachedUses unused uses
  exact ⟨(QuickSelect.reachedTracks reached).intact, QuickSelect.reachedPossible reached⟩

theorem keepsCalls {p : Piece σ} (keeps : p.Keeps) :
    (Call.update p.operand).Possible ∧
      ∀ summary, (Call.updateKeys p.operand summary).Possible := by
  cases p with
  | sketch s =>
    have length : (s.table.entries.map Prod.fst).length = s.table.count :=
      EntryTable.keySetLength keeps.1.table
    refine ⟨?_, fun _ _ refused => by contradiction⟩
    rintro _ ⟨⟩
    exact length.symm ▸ keeps.2
  | keys s =>
    have length : (s.table.entries.map Prod.fst).length = s.table.count :=
      EntryTable.keySetLength keeps.1.table
    refine ⟨fun _ refused => by contradiction, ?_⟩
    rintro summary _ ⟨⟩
    exact length.symm ▸ keeps.2
  | compact c =>
    have length : (c.entries.map Prod.fst).length = c.entries.length := List.length_map _
    refine ⟨?_, fun _ _ refused => by contradiction⟩
    rintro _ ⟨⟩
    exact length.symm ▸ keeps.1
  | _ => exact ⟨fun _ refused => by contradiction, fun _ _ refused => by contradiction⟩

theorem madeKeeps {p : Piece σ} (made : Made p) : p.Keeps := by
  induction made with
  | nothing | foreign _ => trivial
  | sketch begins uses => exact keepsSketch begins uses
  | keys begins uses => exact keepsSketch begins uses
  | @compacted _ ops w s _ ih =>
    have same := (QuickSelect.compactSame ih.1 ops w).1
    have counted : (s.table.count : Int) = (s.compact ops w).1.entries.length :=
      (congrArg Census.retained same).symm
    refine ⟨?_, ?_⟩
    · rw [← Int.ofNat.inj counted, same]
      exact ih.2
    · rw [QuickSelect.compact]
      split <;> rfl
  | begun =>
    exact ⟨Census.barePossible (by decide) (le_refl maxTheta) _, fun _ held => by contradiction⟩
  | updated ops policy w _ _ engine input =>
    exact Intersection.giveSteady engine (keepsCalls input).1 ops policy w
  | updatedKeys ops policy summary w _ _ engine input =>
    exact Intersection.giveSteady engine ((keepsCalls input).2 summary) ops policy w
  | concluded _ ok engine => exact Intersection.resultPossible engine.possible ok

theorem compactReports {c : Compact σ} (keeps : (Piece.compact c).Keeps) {sizes : Sizes σ}
    (bounded : sizes.Bounded) : ∃ r, c.stats sizes = .ok r ∧ AllFinite r.numbers := by
  obtain ⟨possible, unlimited⟩ := keeps
  have fits := possible.fits
  have most : (c.memory sizes).bytes ≤ 2 ^ 131 := by
    have total := Sizes.totalBound bounded (c.entries.map Prod.snd)
    rw [List.length_map] at total
    simp only [Compact.memory]
    omega
  exact Census.statsYield possible Compact.kind most (by simp [Compact.memory, unlimited])

/-- Whatever updates and resets a sketch went through, it answers every question, as does all that
is made of sketches; and it reports on itself, but for one that was limited to no bytes at all.
Whatever sizes the runtime tells of its objects, the share of the limit is a number. -/
theorem queriesAnswered (ops : SummaryOps ω σ) {settings : Settings} {start : QuickSelect σ}
    (begins : QuickSelect.Begins settings start) (uses : List (QuickSelect.Use × ω)) :
    (start.useAll ops uses).census.Answered ∧
    (∀ kind sizes, settings.memoryLimit = some 0 →
      (start.useAll ops uses).stats kind sizes = .error .divisionByZero) ∧
    (∀ kind sizes, Sizes.Bounded sizes → settings.memoryLimit ≠ some 0 →
      ∃ r, (start.useAll ops uses).stats kind sizes = .ok r ∧
        AllFinite (r.load :: r.sketch.numbers)) ∧
    ∀ {τ : Type} {c : Compact τ}, Made (.compact c) → c.census.Answered ∧
      ∀ sizes, Sizes.Bounded sizes → ∃ r, c.stats sizes = .ok r ∧ AllFinite r.numbers := by
  have unused : QuickSelect.Reached ops settings [] start := .begun begins
  obtain ⟨past, reached⟩ := QuickSelect.reachedUses unused uses
  refine ⟨Census.possibleAnswered (QuickSelect.reachedPossible reached),
    fun kind sizes zero => QuickSelect.reachedRefused reached kind sizes zero,
    fun kind _ bounded usable => QuickSelect.reachedReports reached kind bounded usable,
    fun made => ?_⟩
  have keeps := madeKeeps made
  exact ⟨Census.possibleAnswered keeps.1, fun _ bounded => compactReports keeps bounded⟩

/-- A sketch without a threshold and with a limit that is out of reach, and what an intersection
makes of it after a compact copy of it. -/
theorem queriesAnsweredBare :
    let p : Binary64 := .finite ⟨false, 4503599627370496, -116, by decide⟩
    let start : QuickSelect Unit := .ofConfig ⟨4, .float p, 0, defaultSeed, some (-1)⟩
    let uses : List (QuickSelect.Use × Unit) :=
      [(.update (.int 1) .none, ()), (.reset, ()), (.update (.int 2) .none, ())]
    let s := start.useAll .keysOnly uses
    let sizes : Sizes Unit := ⟨56, 296, 376, 0, fun _ => 0⟩
    s.theta = 0 ∧ s.empty = false ∧ (s.memory sizes).bytes = 728 ∧ s.census.Answered ∧
    (∃ r, s.stats QuickSelect.thetaKind sizes = .ok r) ∧
    ∃ c : Compact Unit, c.theta = 0 ∧ c.census.Answered ∧
      ∃ r, c.stats ⟨56, 296, 80, 56, fun _ => 56⟩ = .ok r := by
  intro p start uses s sizes
  have begins : QuickSelect.Begins
      { nominal := 16, probability := .float p, memoryLimit := some (-1) } start :=
    QuickSelect.beginsSixteen (by decide +kernel) (by decide +kernel)
  obtain ⟨answered, _, reports, results⟩ := queriesAnswered .keysOnly begins uses
  let copy : Compact Unit := (s.compact .keysOnly ()).1
  let x : Intersection Unit := (Intersection.universal.update .keysOnly (fun mine _ w => (mine, w))
    (Piece.compact copy).operand ()).2.1
  have made : Made (.engine x) :=
    .updated .keysOnly _ () .begun (.compacted .keysOnly () (.sketch begins uses))
  have barren : x.Barren := ⟨by decide +kernel, Option.isNone_iff_eq_none.mp (by decide +kernel)⟩
  have ok : x.result .keysOnly () = (.ok ⟨[], x.theta, x.empty, none⟩, ()) :=
    Intersection.barrenResult barren ()
  have bounded : sizes.Bounded :=
    ⟨by decide, by decide, by decide, by decide, fun _ => by decide +revert⟩
  obtain ⟨r, reported, _⟩ := reports QuickSelect.thetaKind sizes bounded (by decide)
  obtain ⟨answered', reports'⟩ := results (.concluded made ok)
  obtain ⟨r', reported', _⟩ := reports' ⟨56, 296, 80, 56, fun _ => 56⟩
    ⟨by decide, by decide, by decide, by decide, fun _ => by decide +revert⟩
  exact ⟨by decide +kernel, by decide +kernel, by decide +kernel, answered, ⟨r, reported⟩, _,
    (by decide +kernel : x.theta = 0), answered', r', reported'⟩

/-- A limit of zero bytes is accepted, and the memory is known to exceed it, but not by how much. -/
theorem limitDivides :
    let start : QuickSelect Unit := .ofConfig ⟨4, .float .one, maxTheta, defaultSeed, some 0⟩
    let sizes : Sizes Unit := ⟨56, 296, 376, 0, fun _ => 0⟩
    QuickSelect.Begins { nominal := 16, memoryLimit := some 0 } start ∧
    (start.memory sizes).withinLimit = false ∧
    start.stats QuickSelect.thetaKind sizes = .error .divisionByZero := by
  intro start sizes
  have begins : QuickSelect.Begins { nominal := 16, memoryLimit := some 0 } start :=
    QuickSelect.beginsSixteen (by decide +kernel) (by decide +kernel)
  have reached : QuickSelect.Reached (.keysOnly : SummaryOps Unit Unit) _ [] start := .begun begins
  exact ⟨begins, by decide +kernel, QuickSelect.reachedRefused reached _ sizes rfl⟩

end Piece
end KeySampling
