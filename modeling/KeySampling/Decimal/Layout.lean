import KeySampling.Decimal.Shortest
/-! How a number is written: positional when its decimal exponent is from -4 to 15, with
`.0` when integral, otherwise one leading digit and an exponent of at least two digits. -/
namespace KeySampling.Decimal

structure Layout where
  leastPositional : Int
  mostPositional : Int
  exponentDigits : Nat

def layout : Layout := ⟨-4, 15, 2⟩

def zeros (n : Nat) : String := String.ofList (List.replicate n '0')

def positional (digits : List Char) (point : Int) : String :=
  if point ≤ 0 then "0." ++ zeros (-point).toNat ++ String.ofList digits
  else if (digits.length : Int) ≤ point then
    String.ofList digits ++ zeros (point.toNat - digits.length) ++ ".0"
  else String.ofList (digits.take point.toNat) ++ "." ++ String.ofList (digits.drop point.toNat)

def exponentText (l : Layout) (e : Int) : String :=
  let digits := toString e.natAbs
  (if e < 0 then "-" else "+") ++ zeros (l.exponentDigits - digits.length) ++ digits

def exponential (l : Layout) (digits : List Char) (e : Int) : String :=
  let tail := digits.drop 1
  String.ofList (digits.take 1) ++ (if tail.isEmpty then "" else "." ++ String.ofList tail) ++
    "e" ++ exponentText l e

def Scientific.text (l : Layout) (s : Scientific) : String :=
  let digits := Nat.toDigits 10 s.digits
  let e := s.exponent + digits.length - 1
  if l.leastPositional ≤ e ∧ e ≤ l.mostPositional then positional digits (e + 1)
  else exponential l digits e

end KeySampling.Decimal

namespace KeySampling

def Binary64.text : Binary64 → String
  | .nan => "nan"
  | .infinite negative => if negative then "-inf" else "inf"
  | .finite x => (if x.negative then "-" else "") ++ (Decimal.shortest x).text Decimal.layout

end KeySampling
