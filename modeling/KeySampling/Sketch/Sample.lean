import KeySampling.Census
/-! What any sketch shows to its readers: its census and its entries in iteration order.
Entries are keys, or keys with summaries. A census may disagree with the entries: a sketch is
taken at its word. -/
namespace KeySampling

structure Sample (α : Type) where
  census : Census
  entries : List α
  deriving DecidableEq, Repr

/-- A fingerprint of the iteration order: keys in order as digits to the base 31, and their
sum, both modulo 2^64. -/
structure Fingerprint where
  order : Int
  sum : Int
  deriving DecidableEq, Repr

def Fingerprint.ofKeys (keys : List Int) : Fingerprint :=
  keys.foldl (fun f key =>
    ⟨(f.order * 31 + key) % 18446744073709551616, (f.sum + key) % 18446744073709551616⟩) ⟨0, 0⟩

def totalValue (values : List Binary64) : Binary64 := values.foldl Binary64.add (.zero false)

end KeySampling
