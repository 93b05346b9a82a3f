import KeySampling.Summary.Operations
/-! Summaries that can be shared. A handle refers to a cell of a store; whoever holds the
handle sees every later change of the cell. New summaries and copies get new cells. -/
namespace KeySampling

structure Handle where
  index : Nat
  deriving DecidableEq, Repr

structure Store where
  cells : Array Summary
  deriving DecidableEq, Repr

namespace Store

def empty : Store := ⟨#[]⟩

def read? (s : Store) (h : Handle) : Option Summary := s.cells[h.index]?

/-- A handle that the store never gave out reads as a fresh summary. -/
def read (s : Store) (h : Handle) : Summary := (s.read? h).getD (.fresh .sum)

def write (s : Store) (h : Handle) (x : Summary) : Store := ⟨s.cells.setIfInBounds h.index x⟩

def alloc (s : Store) (x : Summary) : Handle × Store := (⟨s.cells.size⟩, ⟨s.cells.push x⟩)

def update (s : Store) (h : Handle) (value : Datum) : Except Fault Summary × Store :=
  match (s.read h).update value with
  | .ok x => (.ok x, s.write h x)
  | .error f => (.error f, s)

/-- A handle is the same as itself, whatever its cell holds. -/
def same (s : Store) (a b : Handle) : Bool :=
  decide (a = b) || (s.read a).same (s.read b)

end Store

def SummaryOps.stored (mode : Mode) : SummaryOps Store Handle where
  fresh s := s.alloc (.fresh mode)
  fold h value s :=
    match s.update h value with
    | (.ok _, s) => (.ok h, s)
    | (.error f, s) => (.error f, s)
  copy h s := s.alloc (s.read h)

def Policy.stored (f : Summary → Summary → Summary) : Policy Store Handle :=
  fun a b s => s.alloc (f (s.read a) (s.read b))

end KeySampling
