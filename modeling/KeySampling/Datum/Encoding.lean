import KeySampling.Datum.Printer
import KeySampling.Fault
/-! The bytes of an item, as they are hashed. -/
namespace KeySampling

def littleEndian : Nat → Nat → List UInt8
  | 0, _ => []
  | count + 1, n => UInt8.ofNat (n % 256) :: littleEndian count (n / 256)

theorem littleEndianLength (count n : Nat) : (littleEndian count n).length = count := by
  induction count generalizing n with
  | zero => rfl
  | succ count ih => simp [littleEndian, ih]

def fitsSigned64 (n : Int) : Bool :=
  decide (-9223372036854775808 ≤ n) && decide (n < 9223372036854775808)

/-- A text is encoded in UTF-8, bytes stand for themselves, and an integer of 64 bits is
written in two's complement. All else is hashed by its written form. -/
def Datum.encode : Datum → Except Fault (List UInt8)
  | .text codes =>
      match Text.utf8 codes with
      | some encoded => .ok encoded
      | Option.none => .error .loneSurrogate
  | .bytes content => .ok content
  | .buffer content => .ok content
  | .int value =>
      if fitsSigned64 value then .ok (littleEndian 8 (value % 18446744073709551616).toNat)
      -- As many digits as it takes: writing an integer is assumed never to fail.
      else .ok (Text.stringBytes (Datum.int value).write)
  | d => .ok (Text.stringBytes d.write)

end KeySampling
