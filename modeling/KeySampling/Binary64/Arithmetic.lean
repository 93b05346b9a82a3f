import KeySampling.Binary64.Basic
/-! Addition, multiplication, division and square root. Each finite case is the exact
rational result, rounded once; the rest follows the usual rules for infinities and NaN. -/
namespace KeySampling.Binary64

def neg : Binary64 → Binary64
  | .nan => .nan
  | .infinite negative => .infinite (!negative)
  | .finite x => .finite { x with negative := !x.negative }

def add : Binary64 → Binary64 → Binary64
  | .finite x, .finite y =>
      let sum := x.toRat + y.toRat
      if sum = 0 then zero (x.negative && y.negative) else ofRat sum
  | .infinite a, .infinite b => if a = b then .infinite a else .nan
  | .infinite a, .finite _ => .infinite a
  | .finite _, .infinite b => .infinite b
  | .nan, _ => .nan
  | _, .nan => .nan

def sub (x y : Binary64) : Binary64 := add x y.neg

def isNegative : Binary64 → Bool
  | .nan => false
  | .infinite negative => negative
  | .finite x => x.negative

def mul (x y : Binary64) : Binary64 :=
  let negative := x.isNegative != y.isNegative
  match x, y with
  | .finite a, .finite b => round negative (a.magnitude * b.magnitude)
  | .nan, _ => .nan
  | _, .nan => .nan
  | x, y => if x.isZero || y.isZero then .nan else .infinite negative

def div (x y : Binary64) : Binary64 :=
  let negative := x.isNegative != y.isNegative
  match x, y with
  | .nan, _ => .nan
  | _, .nan => .nan
  | .infinite _, .infinite _ => .nan
  | .infinite _, .finite _ => .infinite negative
  | .finite _, .infinite _ => zero negative
  | .finite a, .finite b =>
      if b.significand = 0 then
        if a.significand = 0 then .nan else .infinite negative
      else round negative (a.magnitude / b.magnitude)

/-- A rational that rounds as the square root of `significand * 2^exponent` does: the root
cut off after at least 56 bits, with one further bit set when something was cut off. -/
def rootWitness (significand : Nat) (exponent : Int) : Rat :=
  let shift : Nat := 110 + (exponent % 2).toNat
  let radicand := significand * pow2 shift
  let root := radicand.sqrt
  let half := (exponent - shift) / 2
  if root * root = radicand then scaled root half
  else scaled (2 * root + 1) (half - 1)

def sqrt : Binary64 → Binary64
  | .finite x =>
      if x.significand = 0 then .finite x
      else if x.negative then .nan
      else round false (rootWitness x.significand x.exponent)
  | .infinite false => .infinite false
  | _ => .nan

def ceil? (x : Binary64) : Option Int := x.toRat?.map Rat.ceil

def truncate? (x : Binary64) : Option Int :=
  x.toRat?.map fun q => if q < 0 then -(-q).floor else q.floor

end KeySampling.Binary64
