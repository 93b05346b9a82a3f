import KeySampling.Summary.Store
import Mathlib.Logic.Basic

/-! What an operation on shared summaries does to the store: a new summary takes a cell that no
handle referred to, and folding a value changes one cell. -/
namespace KeySampling

def Summary.Folds (mode : Mode) (values : List Datum) (x : Summary) : Prop :=
  ∃ numbers : List Binary64, values.map Datum.toBinary64 = numbers.map Except.ok ∧
    x = ⟨numbers.foldl mode.fold mode.neutral, mode⟩

theorem Summary.foldsNil (mode : Mode) : Summary.Folds mode [] (.fresh mode) := ⟨[], rfl, rfl⟩

theorem Summary.foldsSnoc {mode : Mode} {values : List Datum} {value : Datum} {x y : Summary}
    (folds : Summary.Folds mode values x) (ok : x.update value = .ok y) :
    Summary.Folds mode (values ++ [value]) y := by
  obtain ⟨numbers, converted, rfl⟩ := folds
  unfold Summary.update at ok
  cases read : value.toBinary64 with
  | error f => simp [read, Except.map] at ok
  | ok number =>
    simp only [read, Except.map, Except.ok.injEq] at ok
    refine ⟨numbers ++ [number], by simp [converted, read], ?_⟩
    rw [← ok, List.foldl_append]
    rfl

namespace Store

theorem readOld {store : Store} {h : Handle} {x : Summary} (old : store.read? h = some x)
    (y : Summary) : (store.alloc y).2.read? h = some x := by
  have inside : h.index < store.cells.size := (Array.getElem?_eq_some_iff.mp old).1
  simp only [read?] at old
  simp [alloc, read?, Array.getElem?_push, Nat.ne_of_lt inside, old]

theorem readNew (store : Store) (y : Summary) :
    (store.alloc y).2.read? (store.alloc y).1 = some y := by
  simp [alloc, read?]

theorem newUnread (store : Store) (y : Summary) : store.read? (store.alloc y).1 = none := by
  simp [alloc, read?]

theorem handleOld {store : Store} {h : Handle} {x : Summary} (old : store.read? h = some x)
    (y : Summary) : h ≠ (store.alloc y).1 := by
  rintro rfl
  simp [newUnread] at old

theorem foldRead {mode : Mode} {store store' : Store} {h h' : Handle} {value : Datum} {x : Summary}
    (old : store.read? h = some x)
    (ok : (SummaryOps.stored mode).fold h value store = (.ok h', store')) :
    h' = h ∧ (∃ y, x.update value = .ok y ∧ store'.read? h = some y) ∧
      ∀ g, g ≠ h → store'.read? g = store.read? g := by
  have inside : h.index < store.cells.size := (Array.getElem?_eq_some_iff.mp old).1
  have held : store.read h = x := by simp [read, old]
  simp only [SummaryOps.stored, update, held] at ok
  cases folded : x.update value with
  | error f => simp [folded] at ok
  | ok y =>
    simp only [folded, Prod.mk.injEq, Except.ok.injEq] at ok
    obtain ⟨rfl, rfl⟩ := ok
    refine ⟨rfl, ⟨y, rfl, by simp [write, read?, inside]⟩, ?_⟩
    intro g different
    have apart : h.index ≠ g.index := by
      intro same
      exact different (by cases g; cases h; exact congrArg _ same.symm)
    simp [write, read?, apart]

end Store
end KeySampling
