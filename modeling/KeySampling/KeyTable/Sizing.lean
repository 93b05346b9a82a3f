import KeySampling.Parameters
import KeySampling.Datum.Encoding
import KeySampling.Datum.Number
import KeySampling.Binary64.Arithmetic
/-! How large a table must be. -/
namespace KeySampling

def ceilingPow2 (n : Int) : Nat := if n ≤ 1 then 1 else pow2 ((n - 1).toNat.log2 + 1)

namespace KeyTable

def exponent (lg : Int) : Except Fault Nat :=
  if lg < 0 then .error .negativeShift
  else if lg ≤ largestExponent then .ok lg.toNat
  else .error .tooLarge

theorem exponentNat (n : Nat) :
    exponent n = if n ≤ largestExponent then .ok n else .error .tooLarge := by
  rw [exponent, if_neg (by omega)]
  by_cases small : n ≤ largestExponent <;> simp [small]

/-- The exponent of the smallest table of at least `2^least` slots that a number of keys
leaves at most three quarters full. The quotient is taken in binary64. -/
def lgFor (count : Int) (least : Int) : Except Fault Nat :=
  match Binary64.ofInt? count with
  | .error f => .error f
  | .ok keys =>
      match (keys.div tableLoad.toBinary64).ceil? with
      | none => .error .tooLarge
      | some slots =>
          match exponent least with
          | .error f => .error f
          | .ok least => .ok (max (ceilingPow2 slots).log2 least)

end KeyTable
end KeySampling
