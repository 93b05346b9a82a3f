import KeySampling.Binary64.Basic
/-! The shortest decimal that reads back as a given number. Candidates of one, two, up to
seventeen digits are the two neighbours of the exact value on that decimal grid; the first
grid with a candidate in the rounding interval wins, then the nearer candidate, then the
even one. -/
namespace KeySampling.Decimal

structure Scientific where
  digits : Nat
  exponent : Int
  deriving DecidableEq, Repr

def pow10 : Nat → Nat
  | 0 => 1
  | n + 1 => 10 * pow10 n

def scaled10 (n : Nat) : Int → Rat
  | .ofNat k => ((n * pow10 k : Nat) : Rat)
  | .negSucc k => mkRat n (pow10 (k + 1))

def Scientific.toRat (s : Scientific) : Rat := scaled10 s.digits s.exponent

def digitCount (n : Nat) : Nat := (Nat.toDigits 10 n).length

def floorLog10 (q : Rat) : Int :=
  let guess : Int := (digitCount q.num.natAbs : Int) - (digitCount q.den : Int)
  if scaled10 1 guess ≤ q then guess else guess - 1

/-- The rationals that round to a number: its ends belong to it iff the significand is even. -/
structure Interval where
  low : Rat
  high : Rat
  closed : Bool

def Interval.contains (i : Interval) (q : Rat) : Bool :=
  if i.closed then decide (i.low ≤ q) && decide (q ≤ i.high)
  else decide (i.low < q) && decide (q < i.high)

def Interval.around (x : Binary64.Finite) : Interval :=
  let value := x.magnitude
  let narrow := x.significand == 4503599627370496 && decide (-1074 < x.exponent)
  { low := value - scaled 1 (if narrow then x.exponent - 2 else x.exponent - 1)
    high := value + scaled 1 (x.exponent - 1)
    closed := x.significand % 2 == 0 }

def onGrid (i : Interval) (value : Rat) (exponent : Int) : Option Scientific :=
  let below := (value / scaled10 1 exponent).floor.toNat
  let down : Scientific := ⟨below, exponent⟩
  let up : Scientific := ⟨below + 1, exponent⟩
  match i.contains down.toRat, i.contains up.toRat with
  | false, false => none
  | true, false => some down
  | false, true => some up
  | true, true =>
      let toDown := value - down.toRat
      let toUp := up.toRat - value
      if toDown < toUp then some down
      else if toUp < toDown then some up
      else some (if below % 2 = 0 then down else up)

def search (i : Interval) (value : Rat) (leading : Int) : Nat → Nat → Scientific
  | 0, _ => ⟨0, 0⟩
  | tries + 1, places =>
      match onGrid i value (leading - places) with
      | some s => s
      | none => search i value leading tries (places + 1)

def Scientific.strip : Nat → Scientific → Scientific
  | 0, s => s
  | n + 1, s =>
      if s.digits % 10 = 0 then strip n ⟨s.digits / 10, s.exponent + 1⟩ else s

def shortest (x : Binary64.Finite) : Scientific :=
  if x.significand = 0 then ⟨0, 0⟩
  else (search (.around x) x.magnitude (floorLog10 x.magnitude) 17 0).strip 17

end KeySampling.Decimal
