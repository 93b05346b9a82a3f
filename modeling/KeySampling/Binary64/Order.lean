import KeySampling.Binary64.Basic
/-! Comparison of binary64 numbers: by exact value, the two zeros equal, the infinities at
the ends, and nothing below, above or equal to the NaN. `smaller` and `larger` keep their
first argument unless the second is strictly better. -/
namespace KeySampling.Binary64

def lt : Binary64 → Binary64 → Bool
  | .finite x, .finite y => decide (x.toRat < y.toRat)
  | .finite _, .infinite negative => !negative
  | .infinite negative, .finite _ => negative
  | .infinite a, .infinite b => a && !b
  | .nan, _ => false
  | _, .nan => false

def eqv : Binary64 → Binary64 → Bool
  | .finite x, .finite y => decide (x.toRat = y.toRat)
  | .infinite a, .infinite b => a == b
  | _, _ => false

def le (x y : Binary64) : Bool := x.lt y || x.eqv y

def smaller (x y : Binary64) : Binary64 := if y.lt x then y else x

def larger (x y : Binary64) : Binary64 := if x.lt y then y else x

end KeySampling.Binary64
