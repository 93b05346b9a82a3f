import KeySampling.Proofs.Intersection.Attempts
import KeySampling.Proofs.Intersection.Emptiness
import KeySampling.Proofs.KeyTable.Layout

/-! The store of an intersection. A table is never changed in place: an input without entries, or
an absent one, clears it, and any other leaves a new table for the keys that are left, no larger
than these need. A table without keys is kept as it is. -/
namespace KeySampling

structure Census.Storable (c : Census) (keys : List Int) : Prop where
  counted : c.retained = keys.length
  few : keys.length ≤ 9007199254740992
  nodup : keys.Nodup
  nonzero : ∀ key ∈ keys, key ≠ 0
  least : ∀ key ∈ keys, -9223372036854775808 ≤ key
  below : ∀ key ∈ keys, key < c.theta
  bound : c.theta ≤ maxTheta

theorem storableFits {c : Census} {keys : List Int} (storable : c.Storable keys) {key : Int}
    (member : key ∈ keys) : fitsSigned64 key = true := by
  have least := storable.least key member
  have most := (storable.below key member).trans_le storable.bound
  unfold maxTheta at most
  simp only [fitsSigned64, Bool.and_eq_true, decide_eq_true_eq]
  omega

structure EntryTable.Fitted {σ : Type} (t : EntryTable σ) (theta : Int) : Prop where
  wellFormed : t.WellFormed
  sized : KeyTable.lgFor t.count leastLgTable = .ok t.lg
  few : t.count ≤ 9007199254740992
  fits : ∀ key ∈ t.keySet, fitsSigned64 key = true
  below : ∀ key ∈ t.keySet, key < theta

namespace Intersection
variable {ω σ ι : Type}

inductive Use (σ : Type) where
  | give (call : Call σ)
  | reset

inductive Use.Proper : Use σ → Prop
  | absent {call : Call σ} (missing : call.absent = true) : Proper (.give call)
  | offered {call : Call σ} {census : Census} (offers : call.census = some census)
      (storable : census.Storable call.keys) : Proper (.give call)
  | reset : Proper .reset

def use (ops : SummaryOps ω σ) (policy : Policy ω σ) (x : Intersection σ) :
    Use σ → ω → Except Fault Unit × Intersection σ × ω
  | .give call, w => x.give ops policy call w
  | .reset, w => (.ok (), universal, w)

def useEach (ops : SummaryOps ω σ) (policy : Policy ω σ) (x : Intersection σ) :
    List (Use σ × ω) → Except Fault Unit × Intersection σ
  | [] => (.ok (), x)
  | (use, w) :: rest =>
      match x.use ops policy use w with
      | (.error f, x, _) => (.error f, x)
      | (.ok (), x, _) => x.useEach ops policy rest

/-- No table and no keys, or a table of the right size whose keys lie where they are looked for. -/
def Stored (x : Intersection σ) : Prop :=
  x.table = none ∧ x.retained = 0 ∨
    ∃ t, x.table = some t ∧ t.Layout ∧ KeyTable.lgFor x.retained leastLgTable = .ok t.lg ∧
      4 * t.keys.taken ≤ 3 * pow2 t.lg ∧ x.retained = t.keys.taken ∧
      ∀ key ∈ t.keys, key ≠ 0 → key < x.theta

structure Orderly (x : Intersection σ) : Prop where
  fresh : x.started = false → x.theta = maxTheta
  table : ∀ t, x.table = some t → t.Fitted x.theta

theorem orderlyStored {x : Intersection σ} (orderly : x.Orderly) : x.Stored := by
  cases held : x.table with
  | none => exact .inl ⟨held, by simp [retained, held]⟩
  | some t =>
    have fitted := orderly.table t held
    have layout := EntryTable.wellFormedLayout fitted.wellFormed
    have count : x.retained = t.count := by simp [retained, held]
    refine .inr ⟨t, held, layout, count ▸ fitted.sized, ?_, count.trans layout.counted, ?_⟩
    · rw [← layout.counted]
      exact KeyTable.lgForLoad fitted.few fitted.sized
    · intro key stored nonzero
      exact fitted.below key ((EntryTable.keyIff fitted.wellFormed key).mpr ⟨nonzero, stored⟩)

theorem buildFitted {entries : List (Int × σ)} {theta : Int}
    (separate : EntryTable.Separate entries) (fits : ∀ e ∈ entries, fitsSigned64 e.1 = true)
    (few : entries.length ≤ 9007199254740992) (below : ∀ e ∈ entries, e.1 < theta) :
    ∃ t, build entries.length entries = .ok t ∧ t.Fitted theta := by
  obtain ⟨t, lg, ok, sized, holds⟩ := buildSized separate fits (by omega)
  have count := EntryTable.holdsCount holds
  have keys {key : Int} (member : key ∈ t.keySet) : ∃ e ∈ entries, e.1 = key :=
    List.mem_map.mp ((holds.entries.map Prod.fst).mem_iff.mp member)
  refine ⟨t, ok, holds.wellFormed, by rw [count, sized, holds.lg], count ▸ few, ?_, ?_⟩
  · intro key member
    obtain ⟨e, inside, rfl⟩ := keys member
    exact fits e inside
  · intro key member
    obtain ⟨e, inside, rfl⟩ := keys member
    exact below e inside

theorem joinAllKeys {t : EntryTable σ} (wf : t.WellFormed) (theta : Int)
    (step : σ → ι → ω → σ × ω) {entries : List (Int × ι)} (nonzero : ∀ e ∈ entries, e.1 ≠ 0)
    (w : ω) :
    ∃ joined w', joinAll t theta step entries w = (.ok joined, w') ∧ joined.map Prod.fst =
      (entries.map Prod.fst).filter fun key => decide (key < theta ∧ key ∈ t.keySet) := by
  have merges : Merges step (blind (σ := σ)) (blind (σ := ι)) fun _ _ => () :=
    fun _ _ _ _ _ _ _ => ⟨rfl, fun _ _ _ => rfl, fun _ _ _ => rfl⟩
  have mine : blind.Finds w t.entries fun _ => some () := fun _ _ => ⟨(), rfl, rfl⟩
  have incoming : blind.Finds w entries fun _ => some () := fun _ _ => ⟨(), rfl, rfl⟩
  obtain ⟨joined, w', ok, _, keys, _⟩ := joinAllMatches merges wf theta nonzero mine incoming
  exact ⟨joined, w', ok, keys⟩

inductive Sifts (t : EntryTable σ) (theta : Int) : EntryTable σ → Prop
  | idle (nothing : t.keySet = []) : Sifts t theta t
  | rebuilt {next : EntryTable σ} (wellFormed : next.WellFormed)
      (sized : KeyTable.lgFor next.count leastLgTable = .ok next.lg)
      (fewer : next.count ≤ t.count)
      (keys : ∀ key ∈ next.keySet, key < theta ∧ key ∈ t.keySet) : Sifts t theta next

theorem refineSifts {x : Intersection σ} {t : EntryTable σ} (held : x.table = some t)
    (wf : t.WellFormed) (fits : ∀ key ∈ t.keySet, fitsSigned64 key = true)
    (few : t.count < 9223372036854775808) {entries : List (Int × ι)}
    (nodup : (entries.map Prod.fst).Nodup) (nonzero : ∀ e ∈ entries, e.1 ≠ 0)
    (step : σ → ι → ω → σ × ω) (w : ω) :
    ∃ next w', x.refine step entries w = (.ok (), { x with table := some next }, w') ∧
      Sifts t x.theta next := by
  simp only [refine, held]
  by_cases vacant : t.count = 0
  · have nothing : t.keySet = [] := by
      rw [← List.length_eq_zero_iff, EntryTable.keySetLength wf, vacant]
    exact ⟨t, w, by rw [if_pos vacant, ← held], .idle nothing⟩
  obtain ⟨joined, w', ok, keys⟩ := joinAllKeys wf x.theta step nonzero w
  have distinct : (joined.map Prod.fst).Nodup := keys ▸ nodup.filter _
  have kept (key : Int) (member : key ∈ joined.map Prod.fst) :
      key < x.theta ∧ key ∈ t.keySet := by
    rw [keys, List.mem_filter, decide_eq_true_eq] at member
    exact member.2
  have fewer : joined.length ≤ t.count := by
    have bound := (List.subperm_of_subset distinct fun key member => (kept key member).2).length_le
    rwa [EntryTable.keySetLength wf, List.length_map] at bound
  have inside (e : Int × σ) (member : e ∈ joined) : e.1 ∈ t.keySet :=
    (kept e.1 (List.mem_map_of_mem member)).2
  obtain ⟨next, lg, built, sized, holds⟩ := buildSized
    ⟨distinct, fun e member => EntryTable.keyNonzero wf (inside e member)⟩
    (fun e member => fits e.1 (inside e member)) (fewer.trans_lt few)
  have count := EntryTable.holdsCount holds
  refine ⟨next, w', by simp only [if_neg vacant, ok, built, store],
    .rebuilt holds.wellFormed ?_ ?_ ?_⟩
  · rw [count, sized, holds.lg]
  · exact count ▸ fewer
  · exact fun key member => kept key ((holds.entries.map Prod.fst).mem_iff.mp member)

theorem siftsFitted {t next : EntryTable σ} {bound theta : Int} (fitted : t.Fitted bound)
    (sifts : Sifts t theta next) : next.Fitted theta := by
  cases sifts with
  | idle nothing => exact { fitted with below := by simp [nothing] }
  | rebuilt wf sized fewer keys =>
    exact ⟨wf, sized, fewer.trans fitted.few, fun key member => fitted.fits key (keys key member).2,
      fun key member => (keys key member).1⟩

section Run
variable {ops : SummaryOps ω σ} {policy : Policy ω σ} {x : Intersection σ}

theorem universalOrderly : (universal : Intersection σ).Orderly :=
  ⟨fun _ => rfl, fun _ impossible => by contradiction⟩

theorem seedFitted {census : Census} {entries : List (Int × σ)} (orderly : x.Orderly)
    (first : x.started = false) (storable : census.Storable (entries.map Prod.fst)) :
    ∃ t, build census.retained entries = .ok t ∧ t.Fitted (x.accept.restrict census).theta := by
  have counted := storable.counted
  have few := storable.few
  have theta : (x.accept.restrict census).theta = census.theta := by
    simpa [restrict, accept, orderly.fresh first] using storable.bound
  rw [List.length_map] at counted few
  rw [counted, theta]
  exact buildFitted
    ⟨storable.nodup, fun e member => storable.nonzero e.1 (List.mem_map_of_mem member)⟩
    (fun e member => storableFits storable (List.mem_map_of_mem member)) few
    (fun e member => storable.below e.1 (List.mem_map_of_mem member))

theorem useOrderly {u : Use σ} (orderly : x.Orderly) (proper : u.Proper) (w : ω) :
    ∃ x' w', x.use ops policy u w = (.ok (), x', w') ∧ x'.Orderly := by
  cases proper with
  | reset => exact ⟨universal, w, rfl, universalOrderly⟩
  | absent missing =>
    refine ⟨x.accept.collapse, w, giveAbsent missing, ?_, ?_⟩
    · exact fun impossible => by contradiction
    · exact fun t impossible => by contradiction
  | @offered c census offers storable =>
    have begun {table : Option (EntryTable σ)}
        (fitted : ∀ t, table = some t → t.Fitted (x.accept.restrict census).theta) :
        Orderly { x.accept.restrict census with table } :=
      ⟨fun impossible => by contradiction, fitted⟩
    change ∃ x' w', x.give ops policy c w = (.ok (), x', w') ∧ x'.Orderly
    generalize came : x.give ops policy c w = out
    cases came ▸ giveAdmits offers ops policy x w with
    | cleared nothing =>
      exact ⟨_, w, rfl, begun fun t held =>
        absurd (held.symm.trans (restrictClears nothing)) (Option.some_ne_none t)⟩
    | @seeded entries w' _ first keys =>
      obtain ⟨t, built, fitted⟩ := seedFitted orderly first (keys ▸ storable)
      refine ⟨{ x.accept.restrict census with table := some t }, w', by simp only [built, store],
        begun fun u same => ?_⟩
      exact Option.some.inj same ▸ fitted
    | @refined _ step entries retains _ keys =>
      have kept : (x.accept.restrict census).table = x.table := restrictKeeps retains
      cases held : x.table with
      | none =>
        refine ⟨x.accept.restrict census, w, by simp only [refine, kept, held], ?_, ?_⟩
        · exact fun impossible => by contradiction
        · exact fun t same => by simp [kept, held] at same
      | some t =>
        have fitted := orderly.table t held
        obtain ⟨next, w', ok, sifts⟩ := refineSifts (kept.trans held) fitted.wellFormed fitted.fits
          (by have := fitted.few; omega) (keys ▸ storable.nodup)
          (fun e member => storable.nonzero e.1 (keys ▸ List.mem_map_of_mem member)) step w
        refine ⟨_, w', ok, begun fun u same => ?_⟩
        exact Option.some.inj same ▸ siftsFitted fitted sifts

theorem useEachOrderly {uses : List (Use σ × ω)} (orderly : x.Orderly)
    (proper : ∀ u ∈ uses, u.1.Proper) :
    ∃ x', x.useEach ops policy uses = (.ok (), x') ∧ x'.Orderly := by
  induction uses generalizing x with
  | nil => exact ⟨x, rfl, orderly⟩
  | cons u rest ih =>
    obtain ⟨use, w⟩ := u
    obtain ⟨next, w', first, after⟩ :
        ∃ next w', x.use ops policy use w = (.ok (), next, w') ∧ next.Orderly :=
      useOrderly orderly (proper (use, w) (by simp)) w
    obtain ⟨x', run, final⟩ := ih after fun u member => proper u (List.mem_cons_of_mem _ member)
    exact ⟨x', by simp only [useEach, first, run], final⟩

end Run

/-- However well-formed inputs, absent ones and resets follow each other, none of them fails, and
the table that is left is of the size that its keys need, with each key where it is looked for. -/
theorem arraysRebuilt (ops : SummaryOps ω σ) (policy : Policy ω σ) {uses : List (Use σ × ω)}
    (proper : ∀ u ∈ uses, u.1.Proper) :
    ∃ x, (universal : Intersection σ).useEach ops policy uses = (.ok (), x) ∧ x.Stored := by
  obtain ⟨x, run, orderly⟩ : ∃ x, (universal : Intersection σ).useEach ops policy uses =
      (.ok (), x) ∧ x.Orderly := useEachOrderly universalOrderly proper
  exact ⟨x, run, orderlyStored orderly⟩

def clearedUses : List (Use Summary × Unit) :=
  let offer (census : Census) (keys : List Int) : Use Summary :=
    .give (.updateKeys (.keys "ThetaSketch" ⟨census, keys⟩) (.fresh .sum))
  [(offer ⟨90, 3, false⟩ [5, 7, -9], ()), (.give (.update .absent), ()), (.reset, ()),
    (offer ⟨90, 3, false⟩ [5, 7, -9], ()), (offer ⟨7, 2, false⟩ [-9, 5], ())]

theorem arraysRebuiltCleared : ∃ x t,
    (universal : Intersection Summary).useEach (.values .sum)
      (.ofFunction (Summary.combine .sum)) clearedUses = (.ok (), x) ∧
    x.table = some t ∧ x.retained = 2 ∧ t.Layout := by
  have three : Census.Storable ⟨90, 3, false⟩ [5, 7, -9] := by
    constructor <;> decide
  have two : Census.Storable ⟨7, 2, false⟩ [-9, 5] := by
    constructor <;> decide
  have proper : ∀ u ∈ clearedUses, u.1.Proper := by
    simp only [clearedUses, List.forall_mem_cons]
    exact ⟨.offered rfl three, .absent rfl, .reset, .offered rfl three, .offered rfl two, by simp⟩
  obtain ⟨x, run, stored⟩ :=
    arraysRebuilt (.values .sum) (.ofFunction (Summary.combine .sum)) proper
  have count : x.retained = 2 := by
    have shown : ((universal : Intersection Summary).useEach (.values .sum)
        (.ofFunction (Summary.combine .sum)) clearedUses).2.retained = 2 := by decide +kernel
    rwa [run] at shown
  rcases stored with ⟨_, nothing⟩ | ⟨t, held, layout, _⟩
  · omega
  · exact ⟨x, t, run, held, count, layout⟩

end Intersection
end KeySampling
