import KeySampling.Parameters
import KeySampling.Datum.Number
import KeySampling.Binary64.Arithmetic
/-! What a sketch reveals about the set it samples: its threshold theta, how many keys it
retains, and whether the set is known to be empty. From these come the estimated number of
distinct items and its bounds of one to three standard deviations. -/
namespace KeySampling

structure Census where
  theta : Int
  retained : Int
  empty : Bool
  deriving DecidableEq, Repr

namespace Census

def probability (c : Census) : Except Fault Binary64 := Binary64.quotient c.theta maxTheta

def isSampled (c : Census) : Bool := decide (c.theta < maxTheta) && !c.empty

def estimate (c : Census) : Except Fault Binary64 := do
  if c.empty then return .zero false
  let p ← c.probability
  if p.isZero then return .zero false
  return (← Binary64.ofInt? c.retained).div p

/-- The binomial deviation of the estimate. With no retained key, one stands in, so that the
upper bound stays open. -/
def deviation (c : Census) : Except Fault Binary64 := do
  let p ← c.probability
  if p.isZero then return .zero false
  let count ← Binary64.ofInt? (max c.retained 1)
  return (count.mul (Binary64.one.sub p)).sqrt.div p

def deviations (count : Int) : Except Fault Binary64 :=
  if count = 1 ∨ count = 2 ∨ count = 3 then .ok (.ofInt count) else .error .badDeviationCount

/-- The number of standard deviations that a datum asks for; 0, which is none that may be
asked for, when it is no integer. -/
def deviationCount : Datum → Int
  | .int n => n
  | .bool b => if b then 1 else 0
  | .float x =>
      match x.toRat? with
      | some q => if q.den = 1 then q.num else 0
      | none => 0
  | _ => 0

def lowerBound (c : Census) (count : Int) : Except Fault Binary64 := do
  let k ← deviations count
  if c.isSampled then
    let bound := (← c.estimate).sub (k.mul (← c.deviation))
    return (← Binary64.ofInt? c.retained).larger bound
  else Binary64.ofInt? c.retained

def upperBound (c : Census) (count : Int) : Except Fault Binary64 := do
  let k ← deviations count
  if c.isSampled then return (← c.estimate).add (k.mul (← c.deviation))
  else Binary64.ofInt? c.retained

structure Bracket where
  lower : Binary64
  upper : Binary64
  deriving DecidableEq, Repr

def bracket (c : Census) (count : Int) : Except Fault Bracket := do
  let lower ← c.lowerBound count
  return ⟨lower, ← c.upperBound count⟩

structure Bounds where
  estimate : Binary64
  one : Bracket
  two : Bracket
  three : Bracket
  deriving DecidableEq, Repr

def bounds (c : Census) : Except Fault Bounds := do
  let estimate ← c.estimate
  let one ← c.bracket 1
  let two ← c.bracket 2
  return ⟨estimate, one, two, ← c.bracket 3⟩

def length (c : Census) : Except Fault Int :=
  if c.retained < 0 then .error .negativeLength
  else if c.retained < 9223372036854775808 then .ok c.retained
  else .error .tooLarge

end Census
end KeySampling
