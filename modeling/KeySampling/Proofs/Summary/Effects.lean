import KeySampling.Proofs.Summary.Contents

/-! What a piece of a program does to a store in which others have summaries too. It may hold some
handles and write to what they refer to; meanwhile it may be given new ones, and every handle that
was given out keeps its summary. -/
namespace KeySampling
namespace Store
variable {a b : Store} {h : Handle}

def Live (store : Store) (h : Handle) : Prop := ∃ x, store.read? h = some x

theorem liveIff : a.Live h ↔ h.index < a.cells.size := by
  rw [Live, read?, ← Option.isSome_iff_exists, isSome_getElem?]

theorem keepsLive (keeps : Reading.Keeps Store.read? a b) (live : a.Live h) : b.Live h :=
  have ⟨x, held⟩ := live
  ⟨x, keeps h x held⟩

theorem keepsRead (keeps : Reading.Keeps Store.read? a b) (live : a.Live h) :
    b.read h = a.read h := by
  obtain ⟨x, held⟩ := live
  simp [read, held, keeps h x held]

theorem newDead (store : Store) (x : Summary) : ¬ store.Live (store.alloc x).1 := by
  rintro ⟨y, held⟩
  simp [newUnread] at held

theorem liveRead (live : a.Live h) : a.read? h = some (a.read h) := by
  obtain ⟨x, held⟩ := live
  simp [read, held]

/-- Nothing is lost, and nothing changes but what may be written. -/
structure Alters (written : Handle → Prop) (before after : Store) : Prop where
  lasts : ∀ h, before.Live h → after.Live h
  spares : ∀ h x, before.read? h = some x → ¬ written h → after.read? h = some x

/-- Work by a holder of handles. It writes to what it holds, and what it holds in the end it held
before or was given meanwhile. -/
structure Works (old : Handle → Prop) (before : Store) (new : Handle → Prop) (after : Store) :
    Prop where
  alters : Alters old before after
  holds : ∀ h, new h → after.Live h ∧ (old h ∨ ¬ before.Live h)

section Works
variable {old mid new : Handle → Prop} {a b c : Store}

theorem keepsAlters (keeps : Reading.Keeps Store.read? a b) : Alters old a b :=
  ⟨fun _ live => keepsLive keeps live, fun h x held _ => keeps h x held⟩

theorem altersMore {less more : Handle → Prop} (alters : Alters less a b)
    (within : ∀ h, less h → more h) : Alters more a b :=
  ⟨alters.lasts, fun h x held foreign => alters.spares h x held fun inside =>
    foreign (within h inside)⟩

theorem altersRead {written : Handle → Prop} {h : Handle} (alters : Alters written a b)
    (live : a.Live h) (foreign : ¬ written h) : b.read h = a.read h := by
  obtain ⟨x, held⟩ := live
  simp [read, held, alters.spares h x held foreign]

theorem worksFewer (live : ∀ h, old h → a.Live h) (fewer : ∀ h, new h → old h) :
    Works old a new a :=
  ⟨keepsAlters (keepsSelf Store.read? a), fun h has => ⟨live h (fewer h has), .inl (fewer h has)⟩⟩

theorem worksTrans (first : Works old a mid b) (second : Works mid b new c) :
    Works old a new c := by
  refine ⟨⟨fun h live => second.alters.lasts h (first.alters.lasts h live), ?_⟩, ?_⟩
  · intro h x held foreign
    refine second.alters.spares h x (first.alters.spares h x held foreign) fun has => ?_
    -- What was made meanwhile cannot be what was there at first.
    exact (first.holds h has).2.elim foreign fun dead => dead ⟨x, held⟩
  · intro h has
    obtain ⟨live, origin⟩ := second.holds h has
    refine ⟨live, ?_⟩
    rcases origin with has' | dead
    · exact (first.holds h has').2
    · exact .inr fun live' => dead (first.alters.lasts h live')

theorem worksSame (works : Works old a mid b) (fewer : ∀ h, new h → mid h) : Works old a new b :=
  ⟨works.alters, fun h has => works.holds h (fewer h has)⟩

theorem writeAlters (store : Store) (h : Handle) (x : Summary) :
    Alters (· = h) store (store.write h x) := by
  refine ⟨fun g live => ?_, fun g y held different => ?_⟩
  · rw [liveIff] at live ⊢
    simpa [write] using live
  · have apart : h.index ≠ g.index := fun same =>
      different (by cases g; cases h; exact congrArg _ same.symm)
    simpa [read?, write, Array.getElem?_setIfInBounds_ne apart] using held

theorem updateAlters (store : Store) (h : Handle) (value : Datum) :
    Alters (· = h) store (store.update h value).2 := by
  unfold update
  split
  · exact writeAlters store h _
  · exact keepsAlters (keepsSelf Store.read? store)

end Works
end Store

structure Fresh (before after : Store) (entries : List (Int × Handle)) : Prop where
  keeps : Reading.Keeps Store.read? before after
  new : ∀ e ∈ entries, ¬ before.Live e.2
  live : ∀ e ∈ entries, after.Live e.2

structure Made (before after : Store) (entries : List (Int × Handle))
    (contents : List (Int × Summary)) : Prop extends Fresh before after entries where
  reads : entries.map (Prod.map id after.read) = contents

section Made
variable {before mid after : Store} {entries : List (Int × Handle)}
  {contents : List (Int × Summary)}

theorem freshNil (store : Store) : Fresh store store [] :=
  ⟨keepsSelf Store.read? store, by simp, by simp⟩

theorem freshCons {key : Int} {h : Handle} (keeps : Reading.Keeps Store.read? before mid)
    (new : ¬ before.Live h) (live : mid.Live h) (fresh : Fresh mid after entries) :
    Fresh before after ((key, h) :: entries) := by
  refine ⟨keepsTrans keeps fresh.keeps, ?_, ?_⟩ <;> rw [List.forall_mem_cons]
  · exact ⟨new, fun e member live => fresh.new e member (Store.keepsLive keeps live)⟩
  · exact ⟨Store.keepsLive fresh.keeps live, fresh.live⟩

theorem madeNil (store : Store) : Made store store [] [] := ⟨freshNil store, rfl⟩

theorem madeCons {key : Int} {h : Handle} {x : Summary}
    (keeps : Reading.Keeps Store.read? before mid) (new : ¬ before.Live h)
    (held : mid.read? h = some x) (made : Made mid after entries contents) :
    Made before after ((key, h) :: entries) ((key, x) :: contents) := by
  refine ⟨freshCons keeps new ⟨x, held⟩ made.toFresh, ?_⟩
  simp [made.reads, Store.read, made.keeps h x held]

theorem readsKept (keeps : Reading.Keeps Store.read? before after)
    (live : ∀ e ∈ entries, before.Live e.2) :
    entries.map (Prod.map id after.read) = entries.map (Prod.map id before.read) :=
  List.map_congr_left fun e member => Prod.ext rfl (Store.keepsRead keeps (live e member))

theorem copyAllMade (mode : Mode) {store : Store} (live : ∀ e ∈ entries, store.Live e.2) :
    Made store ((SummaryOps.stored mode).copyAll entries store).2
      ((SummaryOps.stored mode).copyAll entries store).1
      (entries.map (Prod.map id store.read)) := by
  induction entries generalizing store with
  | nil => exact madeNil store
  | cons e rest ih =>
    obtain ⟨key, h⟩ := e
    rw [List.forall_mem_cons] at live
    have keeps := Store.allocKeeps store (store.read h)
    have made := ih fun e member => Store.keepsLive keeps (live.2 e member)
    rw [readsKept keeps live.2] at made
    exact madeCons keeps (Store.newDead store (store.read h)) (Store.readNew store _) made

end Made

end KeySampling
