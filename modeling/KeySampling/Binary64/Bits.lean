import KeySampling.Binary64.Basic
/-! The interchange form: one sign bit, eleven exponent bits, fifty-two fraction bits. -/
namespace KeySampling.Binary64

/-- Reads the low 64 bits; every NaN pattern reads as the one NaN. -/
def ofBits (bits : Nat) : Binary64 :=
  let negative := bits / 9223372036854775808 % 2 == 1
  let exponent := bits / 4503599627370496 % 2048
  let fraction := bits % 4503599627370496
  if exponent = 2047 then
    if fraction = 0 then .infinite negative else .nan
  else if exponent = 0 then ofParts negative fraction (-1074)
  else ofParts negative (4503599627370496 + fraction) (exponent - 1075)

def signBit (negative : Bool) : Nat := if negative then 9223372036854775808 else 0

def toBits : Binary64 → Nat
  | .nan => 9221120237041090560
  | .infinite negative => signBit negative + 9218868437227405312
  | .finite x =>
      let biased := if x.significand < 4503599627370496 then 0 else (x.exponent + 1075).toNat
      signBit x.negative + biased * 4503599627370496 + x.significand % 4503599627370496

end KeySampling.Binary64
