/-! Binary floating-point numbers of 64 bits. A finite number is a sign, an integer
significand below 2^53 and an exponent in -1074..971; there is one NaN. Arithmetic elsewhere
is exact rational arithmetic followed by `Binary64.round`, which goes to the nearest number,
ties to the even significand. -/
namespace KeySampling

def pow2 (n : Nat) : Nat := 1 <<< n

theorem pow2Zero : pow2 0 = 1 := rfl

theorem pow2Succ (n : Nat) : pow2 (n + 1) = 2 * pow2 n := by
  simp only [pow2, Nat.shiftLeft_succ]

theorem pow2Pos (n : Nat) : 0 < pow2 n := by
  induction n with
  | zero => decide
  | succ n ih => rw [pow2Succ]; omega

def scaled (n : Int) : Int → Rat
  | .ofNat k => ((n * (pow2 k : Int) : Int) : Rat)
  | .negSucc k => mkRat n (pow2 (k + 1))

namespace Binary64

def Canonical (significand : Nat) (exponent : Int) : Prop :=
  significand < 9007199254740992 ∧ -1074 ≤ exponent ∧ exponent ≤ 971 ∧
    (4503599627370496 ≤ significand ∨ exponent = -1074)
instance (m e) : Decidable (Canonical m e) := by unfold Canonical; infer_instance

structure Finite where
  negative : Bool
  significand : Nat
  exponent : Int
  canonical : Canonical significand exponent
  deriving DecidableEq, Repr

namespace Finite

def magnitude (x : Finite) : Rat := scaled x.significand x.exponent

def toRat (x : Finite) : Rat :=
  scaled (if x.negative then -(x.significand : Int) else x.significand) x.exponent

end Finite
end Binary64

inductive Binary64 where
  | nan
  | infinite (negative : Bool)
  | finite (x : Binary64.Finite)
  deriving DecidableEq, Repr

namespace Binary64

def zero (negative : Bool) : Binary64 := .finite ⟨negative, 0, -1074, by decide⟩

/-- Parts that are out of range can only be too large: they make an infinity. -/
def ofParts (negative : Bool) (significand : Nat) (exponent : Int) : Binary64 :=
  if h : Canonical significand exponent then .finite ⟨negative, significand, exponent, h⟩
  else .infinite negative

def floorLog2 (q : Rat) : Int :=
  let guess : Int := (q.num.natAbs.log2 : Int) - (q.den.log2 : Int)
  if scaled 1 guess ≤ q then guess else guess - 1

def nearestEven (q : Rat) : Nat :=
  let n := q.num.toNat / q.den
  let rest := 2 * (q.num.toNat % q.den)
  if rest < q.den then n
  else if q.den < rest then n + 1
  else n + n % 2

def lastPlace (q : Rat) : Int := max (-1074) (floorLog2 q - 52)

def round (negative : Bool) (magnitude : Rat) : Binary64 :=
  if magnitude = 0 then zero negative
  else
    let e := lastPlace magnitude
    let m := nearestEven (magnitude * scaled 1 (-e))
    if m = 9007199254740992 then ofParts negative 4503599627370496 (e + 1)
    else ofParts negative m e

def ofRat (q : Rat) : Binary64 := round (decide (q < 0)) q.abs

def ofInt (n : Int) : Binary64 := ofRat n

def ofQuotient (n d : Int) : Binary64 := ofRat ((n : Rat) / (d : Rat))

def one : Binary64 := ofInt 1

def isFinite : Binary64 → Bool
  | .finite _ => true
  | _ => false

def isZero : Binary64 → Bool
  | .finite x => x.significand == 0
  | _ => false

def toRat? : Binary64 → Option Rat
  | .finite x => some x.toRat
  | _ => none

end Binary64
end KeySampling
