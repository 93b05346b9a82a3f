import KeySampling.Proofs.Intersection.Matching
import Mathlib.Data.List.DropRight
import Mathlib.Data.List.Induction

/-! What an intersection of given inputs should be, told from the inputs alone. Nothing here
knows of tables or of an order in which keys are looked up. -/
namespace KeySampling

inductive Call (σ : Type) where
  | update (input : Operand σ)
  | updateKeys (input : Operand σ) (summary : σ)

/-- A census that does not misstate the keys it comes with. -/
structure Census.Honest (c : Census) (keys : List Int) : Prop where
  counted : c.retained = keys.length
  nodup : keys.Nodup
  inRange : ∀ key ∈ keys, 0 < key ∧ key < c.theta
  bound : c.theta ≤ maxTheta

theorem Census.honestRange {c : Census} {keys : List Int} (honest : c.Honest keys) :
    ∀ key ∈ keys, 0 < key ∧ key ≤ maxTheta := fun key member =>
  have range := honest.inRange key member
  ⟨range.1, range.2.le.trans honest.bound⟩

namespace Call
variable {ω σ τ : Type}

def absent : Call σ → Bool
  | .update .absent => true
  | .updateKeys .absent _ => true
  | _ => false

def theta : Call σ → Int
  | .update (.tuples _ sample) => sample.census.theta
  | .updateKeys (.keys _ sample) _ => sample.census.theta
  | _ => maxTheta

def keys : Call σ → List Int
  | .update (.tuples _ sample) => sample.entries.map Prod.fst
  | .updateKeys (.keys _ sample) _ => sample.entries
  | _ => []

def seed (read : Reading ω σ τ) (w : ω) (key : Int) : Call σ → Option τ
  | .update (.tuples _ sample) => (sample.entries.lookup key).bind (read w)
  | .updateKeys (.keys _ sample) summary => if key ∈ sample.entries then read w summary else none
  | _ => none

def join (join : τ → τ → τ) (read : Reading ω σ τ) (w : ω) (key : Int) (mine : τ) :
    Call σ → Option τ
  | .update (.tuples _ sample) => ((sample.entries.lookup key).bind (read w)).map (join mine)
  | .updateKeys (.keys _ sample) _ =>
      if key ∈ sample.entries then some (join mine mine) else none
  | _ => none

/-- What all the inputs together leave to a key, theta apart. -/
def outcome (f : τ → τ → τ) (read : Reading ω σ τ) (w : ω) (key : Int) :
    List (Call σ) → Option τ
  | [] => none
  | first :: rest =>
      rest.foldl (fun mine call => mine.bind (call.join f read w key · )) (first.seed read w key)

/-- The least threshold since the last absent input. -/
def thetaSince (calls : List (Call σ)) : Int :=
  ((calls.rtakeWhile fun c => !c.absent).map theta).foldl min maxTheta

/-- A well-formed input, whose summaries can all be read. -/
inductive Proper (read : Reading ω σ τ) (w : ω) : Call σ → Prop
  | absent : Proper read w (.update .absent)
  | absentKeys (summary : σ) : Proper read w (.updateKeys .absent summary)
  | tuples {kind : String} {sample : Sample (Int × σ)}
      (honest : sample.census.Honest (sample.entries.map Prod.fst))
      (readable : ∀ e ∈ sample.entries, ∃ x, read w e.2 = some x) :
      Proper read w (.update (.tuples kind sample))
  | keys {kind : String} {sample : Sample Int} {summary : σ} {x : τ}
      (honest : sample.census.Honest sample.entries) (readable : read w summary = some x) :
      Proper read w (.updateKeys (.keys kind sample) summary)

structure Offers (c : Call σ) (census : Census) : Prop where
  present : c.absent = false
  theta : c.theta = census.theta
  honest : census.Honest c.keys

variable {read : Reading ω σ τ} {f : τ → τ → τ} {w : ω} {key : Int} {c : Call σ}
  {calls : List (Call σ)}

theorem presentOfKey (member : key ∈ c.keys) : c.absent = false := by
  cases c with
  | update input => cases input <;> simp_all [absent, keys]
  | updateKeys input summary => cases input <;> simp_all [absent, keys]

theorem thetaSinceAbsent (missing : c.absent = true) : thetaSince (calls ++ [c]) = maxTheta := by
  rw [thetaSince, List.rtakeWhile_concat_neg _ _ _ (by simp [missing])]
  rfl

theorem thetaSincePresent (present : c.absent = false) :
    thetaSince (calls ++ [c]) = min (thetaSince calls) c.theta := by
  rw [thetaSince, List.rtakeWhile_concat_pos _ _ _ (by simp [present])]
  simp [thetaSince]

theorem thetaSinceThrough {past past' : List (Call σ)} (same : thetaSince past = thetaSince past')
    (later : List (Call σ)) : thetaSince (past ++ later) = thetaSince (past' ++ later) := by
  induction later using List.reverseRecOn with
  | nil => simpa using same
  | append_singleton later last ih =>
    rw [← List.append_assoc, ← List.append_assoc]
    by_cases missing : last.absent = true
    · rw [thetaSinceAbsent missing, thetaSinceAbsent missing]
    · rw [thetaSincePresent (Bool.eq_false_iff.mpr missing),
        thetaSincePresent (Bool.eq_false_iff.mpr missing), ih]

theorem thetaSinceBound (calls : List (Call σ)) : thetaSince calls ≤ maxTheta := by
  induction calls using List.reverseRecOn with
  | nil => exact le_refl _
  | append_singleton calls last ih =>
    by_cases missing : last.absent = true
    · exact (thetaSinceAbsent missing).le
    · rw [thetaSincePresent (Bool.eq_false_iff.mpr missing)]
      exact (min_le_left _ _).trans ih

theorem thetaSinceLe (present : ∀ c ∈ calls, c.absent = false) :
    ∀ c ∈ calls, thetaSince calls ≤ c.theta := by
  induction calls using List.reverseRecOn with
  | nil => simp
  | append_singleton calls last ih =>
    have before := ih fun c member => present c (List.mem_append_left _ member)
    rw [thetaSincePresent (present last (by simp))]
    intro c member
    rcases List.mem_append.mp member with old | new
    · exact le_trans (min_le_left _ _) (before c old)
    · exact List.mem_singleton.mp new ▸ min_le_right _ _

theorem thetaSinceReached (present : ∀ c ∈ calls, c.absent = false) :
    thetaSince calls = maxTheta ∨ ∃ c ∈ calls, thetaSince calls = c.theta := by
  induction calls using List.reverseRecOn with
  | nil => exact .inl rfl
  | append_singleton calls last ih =>
    have before := ih fun c member => present c (List.mem_append_left _ member)
    rw [thetaSincePresent (present last (by simp))]
    rcases le_total (thetaSince calls) last.theta with less | more
    · rw [min_eq_left less]
      rcases before with top | reached
      · exact .inl top
      · obtain ⟨c, member, same⟩ := reached
        exact .inr ⟨c, List.mem_append_left _ member, same⟩
    · rw [min_eq_right more]
      exact .inr ⟨last, by simp, rfl⟩

theorem outcomeOne : outcome f read w key [c] = c.seed read w key := rfl

theorem outcomeSnoc (nonempty : calls ≠ []) : outcome f read w key (calls ++ [c]) =
    (outcome f read w key calls).bind fun mine => c.join f read w key mine := by
  cases calls with
  | nil => contradiction
  | cons first rest => simp [outcome]

theorem joinsFold {ι : Type} {call : ι → Call σ} {xs : ι → τ} {is : List ι}
    (joins : ∀ i ∈ is, ∀ y, (call i).join f read w key y = some (f y (xs i))) (y : τ) :
    (is.map call).foldl (fun mine c => mine.bind (c.join f read w key ·)) (some y) =
      some ((is.map xs).foldl f y) := by
  induction is generalizing y with
  | nil => rfl
  | cons i rest ih =>
    simp only [List.map_cons, List.foldl_cons, Option.bind_some, joins i List.mem_cons_self]
    exact ih (fun i member => joins i (List.mem_cons_of_mem _ member)) (f y (xs i))

theorem outcomeFold {n : Nat} {kind : String} {samples : Fin (n + 1) → Sample (Int × σ)}
    {xs : Fin (n + 1) → τ}
    (held : ∀ i, ((samples i).entries.lookup key).bind (read w) = some (xs i)) :
    outcome f read w key (List.ofFn fun i => .update (.tuples kind (samples i))) =
      some ((List.ofFn fun i : Fin n => xs i.succ).foldl f (xs 0)) := by
  rw [List.ofFn_succ, outcome]
  simp only [seed, held, List.ofFn_eq_map]
  exact joinsFold (fun i _ y => by simp only [join, held, Option.map_some]) (xs 0)

end Call
end KeySampling
