import KeySampling.Proofs.Intersection.Nesting
import KeySampling.Proofs.Summary.OrderFree

/-! The order of the inputs of an intersection. What a result says of theta, emptiness and keys is
said of all the inputs together. The contents are joined one after the other, so their order is
lost only on joins that are free of it. -/
namespace KeySampling

def Operand.Holds {ω σ τ : Type} (read : Reading ω σ τ) (w : ω) (good : τ → Prop) :
    Operand σ → Prop
  | .tuples _ sample => ∀ e ∈ sample.entries, ∃ x, read w e.2 = some x ∧ good x
  | _ => True

theorem holdsReadable {ω σ τ : Type} {read : Reading ω σ τ} {w : ω} {good : τ → Prop}
    {input : Operand σ} (holds : input.Holds read w good) : input.Readable read w := by
  cases input with
  | tuples kind sample =>
    intro e member
    obtain ⟨x, held, _⟩ := holds e member
    exact ⟨x, held⟩
  | _ => trivial

namespace Call
variable {ω σ τ : Type} {read : Reading ω σ τ} {f : τ → τ → τ} {same : τ → τ → Prop} {w w' : ω}
  {key : Int} {x : τ} {c : Call σ} {calls others : List (Call σ)}

theorem thetaSincePerm (perm : calls.Perm others) (present : ∀ c ∈ calls, c.absent = false) :
    thetaSince calls = thetaSince others := by
  have all : (calls.rtakeWhile fun c => !c.absent) = calls :=
    List.rtakeWhile_eq_self_iff.mpr fun c member => by simp [present c member]
  have all' : (others.rtakeWhile fun c => !c.absent) = others :=
    List.rtakeWhile_eq_self_iff.mpr fun c member => by simp [present c (perm.mem_iff.mpr member)]
  rw [thetaSince, thetaSince, all, all']
  exact (perm.map theta).foldl_eq maxTheta

theorem updatePresent {input : Operand σ} (there : input ≠ .absent) :
    (update input).absent = false := by
  cases input with
  | absent => contradiction
  | _ => rfl

theorem seedKept (keeps : read.Keeps w w') (held : c.seed read w key = some x) :
    c.seed read w' key = some x := by
  cases c with
  | update input =>
    cases input with
    | tuples kind sample =>
      obtain ⟨s, found, held⟩ := Option.bind_eq_some_iff.mp held
      exact Option.bind_eq_some_iff.mpr ⟨s, found, keeps s x held⟩
    | _ => simp [seed] at held
  | updateKeys input summary =>
    cases input with
    | keys kind sample =>
      obtain ⟨member, held⟩ := Option.ite_none_right_eq_some.mp held
      exact Option.ite_none_right_eq_some.mpr ⟨member, keeps summary x held⟩
    | _ => simp [seed] at held

theorem updateJoin (input : Operand σ) (mine : τ) :
    (update input).join f read w key mine = ((update input).seed read w key).map (f mine) := by
  cases input <;> rfl

theorem updatesFold {first : Operand σ} {rest : List (Operand σ)} {xs : Operand σ → τ}
    (held : ∀ input ∈ first :: rest, (update input).seed read w key = some (xs input)) :
    outcome f read w key ((first :: rest).map update) =
      some ((rest.map xs).foldl f (xs first)) := by
  rw [List.map_cons, outcome, held first List.mem_cons_self]
  refine joinsFold (fun input member y => ?_) (xs first)
  rw [updateJoin, held input (List.mem_cons_of_mem _ member), Option.map_some]

theorem holdsSeed {good : τ → Prop} {input : Operand σ} (holds : input.Holds read w good)
    (member : key ∈ (update input).keys) :
    ∃ x, (update input).seed read w key = some x ∧ good x := by
  cases input with
  | tuples kind sample =>
    obtain ⟨s, found⟩ := (lookupKey sample.entries).mpr member
    obtain ⟨x, held, fine⟩ := holds (key, s) (lookupMember found)
    exact ⟨x, Option.bind_eq_some_iff.mpr ⟨s, found, held⟩, fine⟩
  | _ => simp [keys] at member

theorem outcomeReordered {inputs others : List (Operand σ)} (free : OrderFree same f)
    (perm : inputs.Perm others) (nonempty : inputs ≠ []) (keeps : read.Keeps w w')
    (brings : ∀ input ∈ inputs, ∃ x, (update input).seed read w key = some x ∧ same x x) :
    ∃ x y, outcome f read w key (inputs.map update) = some x ∧
      outcome f read w' key (others.map update) = some y ∧ same x y := by
  cases inputs with
  | nil => contradiction
  | cons first rest =>
    cases others with
    | nil => exact absurd perm.eq_nil (List.cons_ne_nil _ _)
    | cons other later =>
      obtain ⟨x, _⟩ := brings first List.mem_cons_self
      have : Nonempty τ := ⟨x⟩
      choose! xs held using brings
      have straight : outcome f read w key ((first :: rest).map update) =
          some ((rest.map xs).foldl f (xs first)) :=
        updatesFold fun input member => (held input member).1
      have turned : outcome f read w' key ((other :: later).map update) =
          some ((later.map xs).foldl f (xs other)) :=
        updatesFold fun input member => seedKept keeps (held input (perm.mem_iff.mpr member)).1
      refine ⟨_, _, straight, turned, free.headPerm (perm.map xs) fun z member => ?_⟩
      rw [← List.map_cons, List.mem_map] at member
      obtain ⟨input, inside, rfl⟩ := member
      exact (held input inside).2

end Call

namespace Intersection
variable {ω σ τ : Type} {ops : SummaryOps ω σ} {policy : Policy ω σ} {read : Reading ω σ τ}
  {join : τ → τ → τ} {w w' w₁ w₂ : ω} {a b : Compact σ} {inputs others : List (Operand σ)}

theorem reorderedReports (copies : ops.Copies read) (joins : policy.Joins read join)
    (perm : inputs.Perm others) (nonempty : inputs ≠ [])
    (proper : ∀ call ∈ inputs.map Call.update, call.Proper read w)
    (proper' : ∀ call ∈ inputs.map Call.update, call.Proper read w') :
    ∃ a b w₁ w₂, intersect ops policy inputs w = (.ok a, w₁) ∧
      intersect ops policy others w' = (.ok b, w₂) ∧
      Reports read join w w₁ (inputs.map Call.update) a ∧
      Reports read join w' w₂ (others.map Call.update) b := by
  have nonempty' : others ≠ [] := fun empty => nonempty (empty ▸ perm).eq_nil
  have calls : (inputs.map Call.update).Perm (others.map Call.update) := perm.map _
  obtain ⟨a, w₁, ran, reports, _⟩ := intersectReports copies joins nonempty proper
  obtain ⟨b, w₂, ran', reports', _⟩ := intersectReports copies joins nonempty'
    fun call member => proper' call (calls.mem_iff.mpr member)
  exact ⟨a, b, w₁, w₂, ran, ran', reports, reports'⟩

theorem reportsReordered {calls others : List (Call σ)} (perm : calls.Perm others)
    (present : ∀ c ∈ calls, c.absent = false) (reports : Reports read join w w₁ calls a)
    (reports' : Reports read join w' w₂ others b) :
    a.theta = b.theta ∧ a.empty = b.empty ∧
      (a.entries.map Prod.fst).Perm (b.entries.map Prod.fst) := by
  have theta : a.theta = b.theta := by
    rw [reports.theta, reports'.theta, Call.thetaSincePerm perm present]
  refine ⟨theta, ?_, (List.perm_ext_iff_of_nodup reports.nodup reports'.nodup).mpr fun key => ?_⟩
  · rw [Bool.eq_iff_iff, reports.empty, reports'.empty]
    simp only [perm.mem_iff]
  · rw [reports.keys, reports'.keys, theta]
    simp only [perm.mem_iff]

theorem reportsAgree {same : τ → τ → Prop} {key : Int}
    (free : OrderFree same join) (perm : inputs.Perm others) (nonempty : inputs ≠ [])
    (keeps : read.Keeps w w') (holds : ∀ input ∈ inputs, input.Holds read w fun x => same x x)
    (reports : Reports read join w w₁ (inputs.map Call.update) a)
    (reports' : Reports read join w' w₂ (others.map Call.update) b)
    (member : key ∈ a.entries.map Prod.fst) (member' : key ∈ b.entries.map Prod.fst) :
    ∃ x y, a.holds read w₁ key = some x ∧ b.holds read w₂ key = some y ∧ same x y := by
  have everywhere := ((reports.keys key).mp member).2
  obtain ⟨x, held, outcome⟩ := reportsHolds reports member
  obtain ⟨y, held', outcome'⟩ := reportsHolds reports' member'
  obtain ⟨p, q, straight, turned, agree⟩ :=
    Call.outcomeReordered free perm nonempty keeps fun input inside =>
      Call.holdsSeed (holds input inside) (everywhere _ (List.mem_map_of_mem inside))
  cases outcome.symm.trans straight
  cases outcome'.symm.trans turned
  exact ⟨x, y, held, held', agree⟩

/-- In which order sketches are intersected does not matter: theta, the emptiness flag and the keys
are the same, and so are the summaries, if their join is free of order. Joining by the smaller or
by the larger value is. -/
theorem orderIrrelevant (ops : SummaryOps ω σ) (policy : Policy ω σ) (perm : inputs.Perm others)
    (sketches : ∀ input ∈ inputs, input.Honest ∧ input ≠ .absent) (w w' : ω) :
    (inputs = [] → intersect ops policy inputs w = (.error .nothingIntersected, w) ∧
      intersect ops policy others w' = (.error .nothingIntersected, w')) ∧
    (inputs ≠ [] → ∃ a b w₁ w₂, intersect ops policy inputs w = (.ok a, w₁) ∧
      intersect ops policy others w' = (.ok b, w₂) ∧
      a.theta = b.theta ∧ a.empty = b.empty ∧ (a.entries.map Prod.fst).Nodup ∧
      (a.entries.map Prod.fst).Perm (b.entries.map Prod.fst) ∧
      ∀ {τ : Type} {read : Reading ω σ τ} {join : τ → τ → τ} {same : τ → τ → Prop},
        ops.Copies read → policy.Joins read join → OrderFree same join →
          (∀ input ∈ inputs, input.Holds read w fun x => same x x) → read.Keeps w w' →
            ∀ key ∈ a.entries.map Prod.fst, ∃ x y, a.holds read w₁ key = some x ∧
              b.holds read w₂ key = some y ∧ same x y) ∧
    ∀ mode, mode = .min ∨ mode = .max →
      OrderFree (fun x y => Summary.same x y = true) (Summary.combine mode) := by
  refine ⟨?_, fun nonempty => ?_, ?_⟩
  · rintro rfl
    rw [perm.symm.eq_nil]
    exact ⟨rfl, rfl⟩
  · have proper {τ : Type} {read : Reading ω σ τ} {w : ω}
        (readable : ∀ input ∈ inputs, input.Readable read w) :
        ∀ call ∈ inputs.map Call.update, call.Proper read w :=
      List.forall_mem_map.mpr fun input inside =>
        Call.honestProper (sketches input inside).1 (readable input inside)
    have present : ∀ call ∈ inputs.map Call.update, call.absent = false :=
      List.forall_mem_map.mpr fun input inside => Call.updatePresent (sketches input inside).2
    -- Theta, the flag and the keys do not depend on what the summaries are.
    obtain ⟨a, b, w₁, w₂, ran, ran', reports, reports'⟩ := reorderedReports (blindCopies ops)
      (blindJoins policy) perm nonempty (proper fun input _ => blindReadable w input)
      (proper fun input _ => blindReadable w' input)
    obtain ⟨theta, empty, keys⟩ := reportsReordered (perm.map _) present reports reports'
    refine ⟨a, b, w₁, w₂, ran, ran', theta, empty, reports.nodup, keys, ?_⟩
    intro τ read join same copies joins free holds keeps key member
    have sound := proper fun input inside => holdsReadable (holds input inside)
    obtain ⟨_, _, _, _, again, again', contents, contents'⟩ := reorderedReports copies joins perm
      nonempty sound fun call inside => Call.properKept (sound call inside) keeps
    cases ran.symm.trans again
    cases ran'.symm.trans again'
    exact reportsAgree free perm nonempty keeps holds contents contents' member
      (keys.mem_iff.mp member)
  · rintro mode (rfl | rfl)
    · exact Summary.minOrderFree
    · exact Summary.maxOrderFree

def zeros : Store := ⟨#[⟨.zero false, .min⟩, ⟨.zero true, .min⟩]⟩

def zeroed : List (Operand Handle) :=
  [honestSketch 90 [(5, ⟨0⟩), (7, ⟨0⟩)], honestSketch 80 [(7, ⟨1⟩)]]

theorem orderIrrelevantZeroed : ∃ a b store₁ store₂ x y,
    intersect (.stored .min) (.stored (Summary.combine .min)) zeroed zeros = (.ok a, store₁) ∧
    intersect (.stored .min) (.stored (Summary.combine .min)) zeroed.reverse zeros =
      (.ok b, store₂) ∧
    a.theta = b.theta ∧ a.empty = b.empty ∧
    a.holds Store.read? store₁ 7 = some x ∧ b.holds Store.read? store₂ 7 = some y ∧
    x.same y = true := by
  have sketches : ∀ input ∈ zeroed, (input.Honest ∧ input ≠ .absent) ∧
      input.Holds Store.read? zeros fun x => x.same x = true := by
    simp only [zeroed, List.forall_mem_cons]
    refine ⟨⟨⟨sketchHonest (by decide) (by decide) (by decide), by simp [honestSketch]⟩, ?_⟩,
      ⟨⟨sketchHonest (by decide) (by decide) (by decide), by simp [honestSketch]⟩, ?_⟩, by simp⟩ <;>
      simp [honestSketch, Operand.Holds, Store.read?, zeros] <;> decide +kernel
  obtain ⟨_, sure, free⟩ := orderIrrelevant (.stored .min) (.stored (Summary.combine .min))
    (List.reverse_perm zeroed).symm (fun input member => (sketches input member).1) zeros zeros
  obtain ⟨a, b, store₁, store₂, ran, ran', theta, empty, _, _, agree⟩ := sure (by simp [zeroed])
  have keys : (intersect (.stored .min) (.stored (Summary.combine .min)) zeroed
      zeros).1.toOption.map (fun c => c.entries.map Prod.fst) = some [7] := by decide +kernel
  rw [ran] at keys
  obtain ⟨x, y, held, held', equal⟩ := agree (storedCopies .min) (storedJoins _)
    (free .min (.inl rfl)) (fun input member => (sketches input member).2)
    (keepsSelf Store.read? zeros) 7 (by simp [Option.some.inj keys])
  exact ⟨a, b, store₁, store₂, x, y, ran, ran', theta, empty, held, held', equal⟩

end Intersection
end KeySampling
