import KeySampling.Proofs.Intersection.Run
import KeySampling.Proofs.Intersection.Snapshot

/-! An intersection within a program. Between its inputs others may change what summaries hold and
make new ones, as may its own policy; none of them can make a summary unreadable. So the summaries
that an intersection holds can be read at any time. -/
namespace KeySampling
variable {ω σ ι τ υ : Type}

def Reading.alive (read : Reading ω σ τ) : Reading ω σ Unit := fun w s => (read w s).map fun _ => ()

theorem aliveIff {read : Reading ω σ τ} {w : ω} {s : σ} {u : Unit} :
    read.alive w s = some u ↔ ∃ x, read w s = some x := by
  simp [Reading.alive]

theorem keepsAlive {read : Reading ω σ τ} {w w' : ω} (keeps : read.Keeps w w') :
    read.alive.Keeps w w' := by
  intro s u held
  obtain ⟨x, held⟩ := aliveIff.mp held
  exact aliveIff.mpr ⟨x, keeps s x held⟩

theorem copiesAlive {ops : SummaryOps ω σ} {read : Reading ω σ τ} (copies : ops.Copies read) :
    ops.Copies read.alive := by
  intro w s u held
  obtain ⟨x, held⟩ := aliveIff.mp held
  obtain ⟨copied, keeps⟩ := copies w s x held
  exact ⟨aliveIff.mpr ⟨x, copied⟩, keepsAlive keeps⟩

/-- What a policy returns can be read, and it makes nothing unreadable. It may write to what it is
given. -/
def Policy.Lasts (policy : Policy ω σ) (read : Reading ω σ τ) : Prop :=
  policy.Joins read.alive fun _ _ => ()

theorem joinsLasts {policy : Policy ω σ} {read : Reading ω σ τ} {join : τ → τ → τ}
    (joins : policy.Joins read join) : policy.Lasts read := by
  intro w a b _ _ left right
  obtain ⟨x, left⟩ := aliveIff.mp left
  obtain ⟨y, right⟩ := aliveIff.mp right
  obtain ⟨joined, keeps⟩ := joins w a b x y left right
  exact ⟨aliveIff.mpr ⟨_, joined⟩, keepsAlive keeps⟩

def Call.Shows : Call σ → σ → Prop
  | .update (.tuples _ sample), s => ∃ key, (key, s) ∈ sample.entries
  | .updateKeys (.keys _ _) summary, s => s = summary
  | _, _ => False

theorem properShows {read : Reading ω σ τ} {w : ω} {c : Call σ} (proper : c.Proper read w) {s : σ}
    (shows : c.Shows s) : ∃ x, read w s = some x := by
  cases proper with
  | absent => cases shows
  | absentKeys summary => cases shows
  | tuples honest readable =>
    obtain ⟨key, member⟩ := shows
    exact readable (key, s) member
  | keys honest readable =>
    cases shows
    exact ⟨_, readable⟩

namespace Intersection

def Readable (read : Reading ω σ τ) (w : ω) (x : Intersection σ) : Prop :=
  ∀ s, x.Has s → ∃ y, read w s = some y

section Step
variable {ops : SummaryOps ω σ} {policy : Policy ω σ} {read : Reading ω σ τ}
  {x y : Intersection σ} {c : Call σ} {w w' : ω}

theorem readableKept (readable : x.Readable read w) (keeps : read.alive.Keeps w w') :
    x.Readable read w' := by
  intro s has
  obtain ⟨y, held⟩ := readable s has
  exact aliveIff.mp (keeps s () (aliveIff.mpr ⟨y, held⟩))

structure Safe (read : Reading ω σ τ) (w : ω)
    (r : Except Fault Unit × Intersection σ × ω) : Prop where
  keeps : read.alive.Keeps w r.2.2
  held : r.2.1.Readable read r.2.2

theorem stoodSafe (readable : x.Readable read w) (fewer : ∀ s, y.Has s → x.Has s)
    (r : Except Fault Unit) : Safe read w (r, y, w) :=
  ⟨keepsSelf read.alive w, fun s has => readable s (fewer s has)⟩

theorem storeSafe (readable : x.Readable read w) (fewer : ∀ s, y.Has s → x.Has s)
    (keeps : read.alive.Keeps w w') {entries : List (Int × σ)}
    (made : ∀ e ∈ entries, ∃ y, read w' e.2 = some y) (declared : Int) :
    Safe read w
      ((y.store (build declared entries)).1, (y.store (build declared entries)).2, w') := by
  refine ⟨keeps, fun s has => ?_⟩
  rcases storeHas has with old | ⟨e, member, rfl⟩
  · exact readableKept readable keeps s (fewer s old)
  · exact made e member

theorem joinAllSafe {step : σ → ι → ω → σ × ω} {value : Reading ω ι υ} {join : Unit → υ → Unit}
    (merges : Merges step read.alive value join) {t : EntryTable σ} (theta : Int)
    {input : List (Int × ι)} (mine : ∀ s, t.Has s → ∃ y, read w s = some y)
    (incoming : ∀ e ∈ input, ∃ y, value w e.2 = some y) :
    read.alive.Keeps w (joinAll t theta step input w).2 ∧
      ∀ joined, (joinAll t theta step input w).1 = .ok joined →
        ∀ e ∈ joined, ∃ y, read (joinAll t theta step input w).2 e.2 = some y := by
  induction input generalizing w with
  | nil => exact ⟨keepsSelf read.alive w, by simp [joinAll]⟩
  | cons e rest ih =>
    obtain ⟨key, i⟩ := e
    rw [List.forall_mem_cons] at incoming
    have passed := ih mine incoming.2
    simp only [joinAll]
    split
    · exact passed
    cases t.keys.search t.lg key with
    | error f => exact ⟨keepsSelf read.alive w, by simp⟩
    | ok place =>
      cases place with
      | none => exact passed
      | some slot =>
        cases held : t.summaryAt? slot with
        | none => exact ⟨by simpa [held] using keepsSelf read.alive w, by simp [held]⟩
        | some s =>
          obtain ⟨y, own⟩ := mine s (EntryTable.hasSummaryAt held)
          obtain ⟨z, given⟩ := incoming.1
          obtain ⟨made, keeps, keeps'⟩ := merges w s i () z (aliveIff.mpr ⟨y, own⟩) given
          obtain ⟨after, joined⟩ := ih (w := (step s i w).2)
            (fun s has =>
              have ⟨y, held⟩ := mine s has
              aliveIff.mp (keeps s () (aliveIff.mpr ⟨y, held⟩)))
            (fun e member =>
              have ⟨z, held⟩ := incoming.2 e member
              ⟨z, keeps' e.2 z held⟩)
          have kept := keepsTrans keeps after
          simp only [held]
          generalize joinAll t theta step rest (step s i w).2 = r at after joined kept ⊢
          obtain ⟨r, w'⟩ := r
          cases r with
          | error f => exact ⟨kept, by simp⟩
          | ok new =>
            refine ⟨kept, ?_⟩
            rintro _ ⟨⟩
            rw [List.forall_mem_cons]
            exact ⟨aliveIff.mp (after _ _ made), joined new rfl⟩

theorem refineSafe {step : σ → ι → ω → σ × ω} {value : Reading ω ι υ} {join : Unit → υ → Unit}
    (merges : Merges step read.alive value join) (readable : x.Readable read w)
    (fewer : ∀ s, y.Has s → x.Has s) {input : List (Int × ι)}
    (incoming : ∀ e ∈ input, ∃ y, value w e.2 = some y) :
    Safe read w (y.refine step input w) := by
  have stood := stoodSafe readable fewer
  unfold refine
  split
  · exact stood _
  rename_i t kept
  split
  · exact stood _
  obtain ⟨keeps, made⟩ := joinAllSafe merges y.theta
    (fun s has => readable s (fewer s ⟨t, kept, has⟩)) incoming
  split
  · rename_i f w' failed
    rw [failed] at keeps
    exact ⟨keeps, readableKept (fun s has => readable s (fewer s has)) keeps⟩
  · rename_i joined w' ok
    rw [ok] at keeps made
    exact storeSafe readable fewer keeps (made joined rfl) _

theorem giveSafe (copies : ops.Copies read) (lasts : policy.Lasts read)
    (readable : x.Readable read w) (shown : ∀ s, c.Shows s → ∃ y, read w s = some y) :
    Safe read w (x.give ops policy c w) := by
  have self := stoodSafe (y := x) readable fun _ has => has
  have gone : Safe read w (.ok (), x.accept.collapse, w) :=
    stoodSafe readable (by rintro s ⟨t, ⟨⟩, _⟩) _
  have fewer (census : Census) : ∀ s, (x.accept.restrict census).Has s → x.Has s :=
    fun _ has => restrictHas has
  cases c with
  | update input =>
    cases input with
    | absent => exact gone
    | keys kind sample => exact self _
    | other kind => exact self _
    | tuples kind sample =>
      have alive : ∀ e ∈ sample.entries, ∃ u, read.alive w e.2 = some u := fun e member =>
        ⟨(), aliveIff.mpr (shown e.2 ⟨e.1, member⟩)⟩
      simp only [give, update]
      split
      · exact stoodSafe readable (fewer _) _
      split
      · exact refineSafe (policyMerges lasts) readable (fewer _) alive
      · have finds : read.alive.Finds w sample.entries fun _ => some () := by
          intro e member
          obtain ⟨_, held⟩ := alive e member
          exact ⟨(), rfl, held⟩
        obtain ⟨_, copied, keeps⟩ := copyAllFinds (copiesAlive copies) finds
        refine storeSafe readable (fewer _) keeps (fun e member => ?_) _
        obtain ⟨_, _, held⟩ := copied e member
        exact aliveIff.mp held
  | updateKeys input summary =>
    cases input with
    | absent => exact gone
    | tuples kind sample => exact self _
    | other kind => exact self _
    | keys kind sample =>
      simp only [give, updateKeys]
      split
      · exact stoodSafe readable (fewer _) _
      split
      · exact refineSafe (ownMerges (copiesAlive copies) lasts) readable (fewer _)
          fun _ _ => ⟨(), rfl⟩
      · refine storeSafe readable (fewer _) (keepsSelf read.alive w) (fun e member => ?_) _
        obtain ⟨key, _, rfl⟩ := List.mem_map.mp member
        exact shown summary rfl

end Step

/-- The uses of an intersection so far, each fit for the world it was made in, with anything done
meanwhile that makes no summary unreadable. A use may have failed. -/
inductive Lived (ops : SummaryOps ω σ) (policy : Policy ω σ) (read : Reading ω σ τ)
    (fit : ω → Call σ → Prop) : List (Call σ) → Intersection σ → ω → Prop
  | begun (w : ω) : Lived ops policy read fit [] universal w
  | given {past : List (Call σ)} {x : Intersection σ} {w : ω} {c : Call σ}
      (lived : Lived ops policy read fit past x w) (fits : fit w c) :
      Lived ops policy read fit (past ++ [c]) (x.give ops policy c w).2.1
        (x.give ops policy c w).2.2
  | meanwhile {past : List (Call σ)} {x : Intersection σ} {w w' : ω}
      (lived : Lived ops policy read fit past x w) (lasts : read.alive.Keeps w w') :
      Lived ops policy read fit past x w'

theorem livedReadable {ops : SummaryOps ω σ} {policy : Policy ω σ} {read : Reading ω σ τ}
    {fit : ω → Call σ → Prop} {past : List (Call σ)} {x : Intersection σ} {w : ω}
    (copies : ops.Copies read) (lasts : policy.Lasts read)
    (shown : ∀ w c, fit w c → ∀ s, c.Shows s → ∃ y, read w s = some y)
    (lived : Lived ops policy read fit past x w) : x.Readable read w := by
  induction lived with
  | begun w =>
    rintro s ⟨t, ⟨⟩, _⟩
  | given _ fits ih => exact (giveSafe copies lasts ih (shown _ _ fits)).held
  | meanwhile _ lasting ih => exact readableKept ih lasting

end Intersection
end KeySampling
