/-! MurmurHash3 for 128 bits in its x64 form, over natural numbers: every sum and product is
taken modulo 2^64, so both halves stay below it. -/
namespace KeySampling.Hash

def word (n : Nat) : Nat := n % 18446744073709551616

theorem wordBound (n : Nat) : word n < 18446744073709551616 :=
  Nat.mod_lt n (by decide)

def rotate (x bits : Nat) : Nat := word ((x <<< bits) ||| (x >>> (64 - bits)))

def scramble (k : Nat) : Nat :=
  let k := k ^^^ (k >>> 33)
  let k := word (k * 0xff51afd7ed558ccd)
  let k := k ^^^ (k >>> 33)
  let k := word (k * 0xc4ceb9fe1a85ec53)
  k ^^^ (k >>> 33)

def ofBytes : List UInt8 → Nat
  | [] => 0
  | b :: rest => b.toNat + 256 * ofBytes rest

structure State where
  first : Nat
  second : Nat
  deriving DecidableEq, Repr

def lowTerm (k : Nat) : Nat :=
  word (rotate (word (k * 0x87c37b91114253d5)) 31 * 0x4cf5ad432745937f)

def highTerm (k : Nat) : Nat :=
  word (rotate (word (k * 0x4cf5ad432745937f)) 33 * 0x87c37b91114253d5)

def State.mix (s : State) (low high : Nat) : State :=
  let first := s.first ^^^ lowTerm low
  let first := word (rotate first 27 + s.second)
  let first := word (first * 5 + 0x52dce729)
  let second := s.second ^^^ highTerm high
  let second := word (rotate second 31 + first)
  let second := word (second * 5 + 0x38495ab5)
  ⟨first, second⟩

def State.mixBlocks (s : State) : Nat → List UInt8 → State × List UInt8
  | 0, bytes => (s, bytes)
  | blocks + 1, bytes =>
      (s.mix (ofBytes (bytes.take 8)) (ofBytes ((bytes.drop 8).take 8))).mixBlocks
        blocks (bytes.drop 16)

def State.mixTail (s : State) (tail : List UInt8) : State :=
  let second :=
    if 8 < tail.length then s.second ^^^ highTerm (ofBytes (tail.drop 8)) else s.second
  let first :=
    if 0 < tail.length then s.first ^^^ lowTerm (ofBytes (tail.take 8)) else s.first
  ⟨first, second⟩

def State.finish (s : State) (length : Nat) : State :=
  let first := s.first ^^^ length
  let second := s.second ^^^ length
  let first := word (first + second)
  let second := word (second + first)
  let first := scramble first
  let second := scramble second
  let first := word (first + second)
  let second := word (second + first)
  ⟨first, second⟩

theorem finishBound (s : State) (length : Nat) :
    (s.finish length).first < 18446744073709551616 ∧
      (s.finish length).second < 18446744073709551616 :=
  ⟨wordBound _, wordBound _⟩

/-- Both words start from the low 64 bits of the seed. -/
def murmur128 (bytes : List UInt8) (seed : Int) : State :=
  let start := (seed % 18446744073709551616).toNat
  let (s, tail) := State.mixBlocks ⟨start, start⟩ (bytes.length / 16) bytes
  (s.mixTail tail).finish bytes.length

theorem murmurBound (bytes : List UInt8) (seed : Int) :
    (murmur128 bytes seed).first < 18446744073709551616 ∧
      (murmur128 bytes seed).second < 18446744073709551616 :=
  finishBound _ _

end KeySampling.Hash
