/-! UTF-8. A text is a list of code points and may hold a lone surrogate, which has no
encoding. -/
namespace KeySampling.Text

def codes (s : String) : List Nat := s.toList.map Char.toNat

def isSurrogate (c : Nat) : Bool := decide (0xd800 ≤ c) && decide (c < 0xe000)

def byte (n : Nat) : UInt8 := UInt8.ofNat n

def continuation (n : Nat) : UInt8 := byte (0x80 + n % 64)

def utf8Char (c : Nat) : List UInt8 :=
  if c < 0x80 then [byte c]
  else if c < 0x800 then [byte (0xc0 + c / 64), continuation c]
  else if c < 0x10000 then [byte (0xe0 + c / 4096), continuation (c / 64), continuation c]
  else [byte (0xf0 + c / 262144), continuation (c / 4096), continuation (c / 64), continuation c]

def utf8 (text : List Nat) : Option (List UInt8) :=
  if text.any isSurrogate then none else some (text.flatMap utf8Char)

def stringBytes (s : String) : List UInt8 := s.toList.flatMap fun c => utf8Char c.toNat

end KeySampling.Text
