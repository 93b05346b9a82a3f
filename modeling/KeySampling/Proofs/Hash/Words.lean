import KeySampling.SamplingKey
import Mathlib.Data.Nat.Bitwise

/-! MurmurHash3 in its published form, over machine words: sums and products wrap around, blocks
are read word by word from their positions, and the last bytes go into their registers one by one,
from the highest down, in a switch whose cases fall through. The form over numbers agrees with it
on all byte strings and seeds. -/
namespace KeySampling.Hash

@[ext]
structure Words where
  first : UInt64
  second : UInt64
  deriving DecidableEq, Repr

namespace Words

def rotate (x bits : UInt64) : UInt64 := (x <<< bits) ||| (x >>> (64 - bits))

def scramble (k : UInt64) : UInt64 :=
  let k := k ^^^ (k >>> 33)
  let k := k * 0xff51afd7ed558ccd
  let k := k ^^^ (k >>> 33)
  let k := k * 0xc4ceb9fe1a85ec53
  k ^^^ (k >>> 33)

def lowTerm (k : UInt64) : UInt64 := rotate (k * 0x87c37b91114253d5) 31 * 0x4cf5ad432745937f

def highTerm (k : UInt64) : UInt64 := rotate (k * 0x4cf5ad432745937f) 33 * 0x87c37b91114253d5

def mix (s : Words) (low high : UInt64) : Words :=
  let first := s.first ^^^ lowTerm low
  let first := rotate first 27 + s.second
  let first := first * 5 + 0x52dce729
  let second := s.second ^^^ highTerm high
  let second := rotate second 31 + first
  let second := second * 5 + 0x38495ab5
  ⟨first, second⟩

def finish (s : Words) (length : UInt64) : Words :=
  let first := s.first ^^^ length
  let second := s.second ^^^ length
  let first := first + second
  let second := second + first
  let first := scramble first
  let second := scramble second
  let first := first + second
  let second := second + first
  ⟨first, second⟩

def byteAt (bytes : List UInt8) (position : Nat) : UInt64 := (bytes[position]?.getD 0).toUInt64

def wordFrom (bytes : List UInt8) (position : Nat) : Nat → UInt64
  | 0 => 0
  | width + 1 => byteAt bytes position ||| (wordFrom bytes (position + 1) width <<< 8)

def mixBlocks (s : Words) (bytes : List UInt8) (blocks : Nat) : Words :=
  (List.range blocks).foldl
    (fun s i => s.mix (wordFrom bytes (16 * i) 8) (wordFrom bytes (16 * i + 8) 8)) s

end Words

structure Registers extends Words where
  low : UInt64
  high : UInt64

namespace Registers

/-- The case of one byte in the switch. The lowest byte of a register is its last, so its case
closes the register. -/
def takeByte (tail : List UInt8) (r : Registers) (i : Nat) : Registers :=
  if i < 8 then
    let low := r.low ^^^ (Words.byteAt tail i <<< UInt64.ofNat (8 * i))
    if i = 0 then { r with low := low, first := r.first ^^^ Words.lowTerm low }
    else { r with low := low }
  else
    let high := r.high ^^^ (Words.byteAt tail i <<< UInt64.ofNat (8 * (i - 8)))
    if i = 8 then { r with high := high, second := r.second ^^^ Words.highTerm high }
    else { r with high := high }

def fallThrough (tail : List UInt8) : Nat → Registers → Registers
  | 0, r => r
  | i + 1, r => fallThrough tail i (r.takeByte tail i)

end Registers

namespace Words

def murmur128 (bytes : List UInt8) (seed : UInt64) : Words :=
  let blocks := bytes.length / 16
  let s := mixBlocks ⟨seed, seed⟩ bytes blocks
  let r := Registers.fallThrough (bytes.drop (16 * blocks)) (bytes.length % 16) ⟨s, 0, 0⟩
  r.toWords.finish (.ofNat bytes.length)

def toState (s : Words) : State := ⟨s.first.toNat, s.second.toNat⟩

theorem wordNat (n : Nat) : word n = (UInt64.ofNat n).toNat := by
  rw [UInt64.toNat_ofNat', word]

theorem rotateValue (x : UInt64) {bits : UInt64} (inside : 0 < bits.toNat ∧ bits.toNat < 64) :
    (rotate x bits).toNat =
      x.toNat <<< bits.toNat % 2 ^ 64 ||| x.toNat >>> (64 - bits.toNat) := by
  have shift : (64 - bits).toNat = 64 - bits.toNat :=
    UInt64.toNat_sub_of_le _ _ (UInt64.le_iff_toNat_le.mpr (Nat.le_of_lt inside.2))
  rw [rotate, UInt64.toNat_or, UInt64.toNat_shiftLeft, UInt64.toNat_shiftRight, shift,
    Nat.mod_eq_of_lt inside.2, Nat.mod_eq_of_lt (a := 64 - _) (by omega)]

theorem rotateNat (x bits : UInt64) (inside : 0 < bits.toNat ∧ bits.toNat < 64) :
    Hash.rotate x.toNat bits.toNat = (rotate x bits).toNat := by
  have low := Nat.lt_of_le_of_lt (Nat.shiftRight_le x.toNat (64 - bits.toNat)) x.toNat_lt
  rw [rotateValue x inside, Hash.rotate, word, show (18446744073709551616 : Nat) = 2 ^ 64 from rfl,
    Nat.or_mod_two_pow, Nat.mod_eq_of_lt low]

theorem xorNat (a b : Nat) : UInt64.ofNat (a ^^^ b) = .ofNat a ^^^ .ofNat b := by
  apply UInt64.toNat_inj.mp
  rw [UInt64.toNat_xor, UInt64.toNat_ofNat', UInt64.toNat_ofNat', UInt64.toNat_ofNat',
    Nat.xor_mod_two_pow]

theorem shiftNat (k : UInt64) : k.toNat >>> 33 = (k >>> 33).toNat := by
  rw [UInt64.toNat_shiftRight]
  rfl

theorem scrambleNat (k : UInt64) : Hash.scramble k.toNat = (scramble k).toNat := by
  simp only [Hash.scramble, scramble, wordNat, shiftNat, ← UInt64.toNat_xor, UInt64.ofNat_mul,
    UInt64.ofNat_toNat]
  rfl

theorem lowTermNat (k : Nat) : Hash.lowTerm k = (lowTerm (.ofNat k)).toNat := by
  have turned (x : UInt64) : Hash.rotate x.toNat 31 = (rotate x 31).toNat :=
    rotateNat x 31 (by decide)
  simp only [Hash.lowTerm, lowTerm, wordNat, turned, UInt64.ofNat_mul, UInt64.ofNat_toNat]
  rfl

theorem highTermNat (k : Nat) : Hash.highTerm k = (highTerm (.ofNat k)).toNat := by
  have turned (x : UInt64) : Hash.rotate x.toNat 33 = (rotate x 33).toNat :=
    rotateNat x 33 (by decide)
  simp only [Hash.highTerm, highTerm, wordNat, turned, UInt64.ofNat_mul, UInt64.ofNat_toNat]
  rfl

theorem mixNat (s : Words) (low high : Nat) :
    s.toState.mix low high = (s.mix (.ofNat low) (.ofNat high)).toState := by
  have turnedFirst (x : UInt64) : Hash.rotate x.toNat 27 = (rotate x 27).toNat :=
    rotateNat x 27 (by decide)
  have turnedSecond (x : UInt64) : Hash.rotate x.toNat 31 = (rotate x 31).toNat :=
    rotateNat x 31 (by decide)
  simp only [State.mix, mix, toState, lowTermNat, highTermNat, ← UInt64.toNat_xor, turnedFirst,
    turnedSecond, wordNat, UInt64.ofNat_add, UInt64.ofNat_mul, UInt64.ofNat_toNat]
  rfl

theorem finishNat (s : Words) (length : Nat) :
    s.toState.finish length = (s.finish (.ofNat length)).toState := by
  simp only [State.finish, finish, toState, wordNat, UInt64.ofNat_add, xorNat,
    UInt64.ofNat_toNat, scrambleNat]

end Words

section Bytes

theorem ofBytesBound (bytes : List UInt8) : ofBytes bytes < 256 ^ bytes.length := by
  induction bytes with
  | nil => decide
  | cons b rest ih =>
    have bound := b.toNat_lt
    simp only [ofBytes, List.length_cons, Nat.pow_succ]
    omega

theorem dropBytes (bytes : List UInt8) (i : Nat) :
    ofBytes (bytes.drop i) = (bytes[i]?.getD 0).toNat + 256 * ofBytes (bytes.drop (i + 1)) := by
  rcases Nat.lt_or_ge i bytes.length with inside | outside
  · rw [List.drop_eq_getElem_cons inside, List.getElem?_eq_getElem inside]
    rfl
  · rw [List.drop_eq_nil_of_le outside, List.drop_eq_nil_of_le (Nat.le_succ_of_le outside),
      List.getElem?_eq_none outside]
    rfl

theorem lastLength (bytes : List UInt8) :
    (bytes.drop (16 * (bytes.length / 16))).length = bytes.length % 16 := by
  rw [List.length_drop]
  omega

end Bytes

namespace Words

theorem byteAtNat (bytes : List UInt8) (position : Nat) :
    (byteAt bytes position).toNat = (bytes[position]?.getD 0).toNat :=
  UInt8.toNat_toUInt64 _

theorem wordFromNat {bytes : List UInt8} {width : Nat} (narrow : width ≤ 8) (position : Nat) :
    (wordFrom bytes position width).toNat = ofBytes ((bytes.drop position).take width) := by
  induction width generalizing position with
  | zero => rfl
  | succ width ih =>
    have above := ih (by omega) (position + 1)
    have small : ofBytes ((bytes.drop (position + 1)).take width) < 2 ^ 56 := by
      have length : ((bytes.drop (position + 1)).take width).length ≤ 7 :=
        (List.length_take_le _ _).trans (by omega)
      exact (ofBytesBound _).trans_le (Nat.pow_le_pow_right (by decide) length)
    have byte := (bytes[position]?.getD 0).toNat_lt
    have split : ofBytes ((bytes.drop position).take (width + 1)) =
        (bytes[position]?.getD 0).toNat +
          256 * ofBytes ((bytes.drop (position + 1)).take width) := by
      rw [List.take_drop, List.take_drop, dropBytes, List.getElem?_take_of_lt (by omega),
        show position + 1 + width = position + (width + 1) by omega]
    rw [wordFrom, UInt64.toNat_or, UInt64.toNat_shiftLeft, byteAtNat, above, split,
      show (8 : UInt64).toNat % 64 = 8 from rfl, Nat.shiftLeft_eq, Nat.mod_eq_of_lt (by omega),
      Nat.or_comm, Nat.mul_comm, ← Nat.two_pow_add_eq_or_of_lt byte]
    omega

theorem wordFromDrop (bytes : List UInt8) (skipped position width : Nat) :
    wordFrom (bytes.drop skipped) position width = wordFrom bytes (skipped + position) width := by
  induction width generalizing position with
  | zero => rfl
  | succ width ih => simp only [wordFrom, byteAt, List.getElem?_drop, ih, Nat.add_assoc]

-- The loop is opened by its recursor: comparing its two sides further would unfold `mix`.
theorem mixBlocksSucc (s : State) (bytes : List UInt8) (blocks : Nat) :
    s.mixBlocks (blocks + 1) bytes =
      (s.mix (ofBytes (bytes.take 8)) (ofBytes ((bytes.drop 8).take 8))).mixBlocks blocks
        (bytes.drop 16) := by
  delta State.mixBlocks
  with_reducible rfl

theorem mixBlocksNat (s : Words) (bytes : List UInt8) (blocks : Nat) :
    s.toState.mixBlocks blocks bytes =
      ((s.mixBlocks bytes blocks).toState, bytes.drop (16 * blocks)) := by
  induction blocks generalizing s bytes with
  | zero => rfl
  | succ blocks ih =>
    have low : ofBytes (bytes.take 8) = (wordFrom bytes 0 8).toNat := by
      rw [wordFromNat (by decide), List.drop_zero]
    have high : ofBytes ((bytes.drop 8).take 8) = (wordFrom bytes 8 8).toNat := by
      rw [wordFromNat (by decide)]
    have rest : (s.mix (wordFrom bytes 0 8) (wordFrom bytes 8 8)).mixBlocks (bytes.drop 16) blocks =
        s.mixBlocks bytes (blocks + 1) := by
      have next (i : Nat) : 16 * i.succ = 16 + 16 * i := by omega
      simp only [mixBlocks, wordFromDrop, List.range_succ_eq_map, List.foldl_cons, List.foldl_map,
        next, Nat.add_assoc, Nat.mul_zero, Nat.zero_add]
    rw [mixBlocksSucc, low, high, mixNat, UInt64.ofNat_toNat, UInt64.ofNat_toNat, ih, rest,
      List.drop_drop, Nat.mul_succ, Nat.add_comm 16]

end Words

namespace Registers
open Words

theorem xorDisjoint {i b : Nat} (small : b < 2 ^ i) (a : Nat) :
    2 ^ i * a ^^^ b = 2 ^ i * a + b := by
  apply Nat.eq_of_testBit_eq
  intro j
  rw [Nat.testBit_xor, Nat.testBit_two_pow_mul, Nat.testBit_two_pow_mul_add a small]
  rcases Nat.lt_or_ge j i with below | above
  · simp [below, Nat.not_le.mpr below]
  · have clear : b.testBit j = false :=
      Nat.testBit_lt_two_pow (small.trans_le (Nat.pow_le_pow_right (by decide) above))
    simp [above, Nat.not_lt.mpr above, clear]

theorem putByteNat {bytes : List UInt8} {k : UInt64} {i : Nat} (inside : i < 8)
    (held : k.toNat = 256 ^ (i + 1) * ofBytes (bytes.drop (i + 1))) :
    (k ^^^ (byteAt bytes i <<< UInt64.ofNat (8 * i))).toNat = 256 ^ i * ofBytes (bytes.drop i) := by
  have byte := (bytes[i]?.getD 0).toNat_lt
  have bits (n : Nat) : (256 : Nat) ^ n = 2 ^ (8 * n) := by rw [Nat.pow_mul]
  have shift : (UInt64.ofNat (8 * i)).toNat % 64 = 8 * i := by
    rw [UInt64.toNat_ofNat']
    omega
  have small : (bytes[i]?.getD 0).toNat * 2 ^ (8 * i) < 2 ^ (8 * (i + 1)) := by
    rw [Nat.mul_succ, Nat.pow_add, Nat.mul_comm]
    exact Nat.mul_lt_mul_of_pos_left byte (Nat.two_pow_pos _)
  have fits : (2 : Nat) ^ (8 * (i + 1)) ≤ 2 ^ 64 := Nat.pow_le_pow_right (by decide) (by omega)
  rw [UInt64.toNat_xor, UInt64.toNat_shiftLeft, shift, byteAtNat, Nat.shiftLeft_eq,
    Nat.mod_eq_of_lt (by omega), held, bits, xorDisjoint small, dropBytes bytes i, bits,
    Nat.mul_succ, Nat.pow_add, Nat.mul_add, Nat.add_comm, Nat.mul_assoc,
    Nat.mul_comm _ (2 ^ (8 * i))]

theorem putLastByte {bytes : List UInt8} {k : UInt64}
    (held : k.toNat = 256 ^ 1 * ofBytes (bytes.drop 1)) :
    k ^^^ (byteAt bytes 0 <<< UInt64.ofNat (8 * 0)) = .ofNat (ofBytes bytes) := by
  rw [← UInt64.ofNat_toNat (x := _ ^^^ _), putByteNat (by decide) held, Nat.pow_zero, Nat.one_mul,
    List.drop_zero]

theorem lowCases (tail : List UInt8) {i : Nat} (started : 0 < i) (inside : i ≤ 8) {r : Registers}
    (held : r.low.toNat = 256 ^ i * ofBytes ((tail.take 8).drop i)) :
    (r.fallThrough tail i).toWords =
      ⟨r.first ^^^ Words.lowTerm (.ofNat (ofBytes (tail.take 8))), r.second⟩ := by
  induction i generalizing r with
  | zero => contradiction
  | succ i ih =>
    have same : byteAt (tail.take 8) i = byteAt tail i := by
      rw [byteAt, List.getElem?_take_of_lt (by omega), byteAt]
    unfold fallThrough takeByte
    rw [if_pos (by omega)]
    cases i with
    | zero =>
      have last := putLastByte held
      rw [same] at last
      simp only [fallThrough, if_true, last]
    | succ i =>
      have put := putByteNat (by omega) held
      rw [same] at put
      rw [if_neg (by omega)]
      exact ih (by omega) (by omega) put

theorem highCases (tail : List UInt8) {j : Nat} (started : 0 < j) (inside : j ≤ 8) {r : Registers}
    (held : r.high.toNat = 256 ^ j * ofBytes ((tail.drop 8).drop j)) :
    ∃ high, r.fallThrough tail (8 + j) = fallThrough tail 8
      ⟨⟨r.first, r.second ^^^ Words.highTerm (.ofNat (ofBytes (tail.drop 8)))⟩, r.low, high⟩ := by
  induction j generalizing r with
  | zero => contradiction
  | succ j ih =>
    have same : byteAt (tail.drop 8) j = byteAt tail (8 + j) := by
      rw [byteAt, List.getElem?_drop, byteAt]
    have step : r.fallThrough tail (8 + (j + 1)) =
        (r.takeByte tail (8 + j)).fallThrough tail (8 + j) := rfl
    rw [step, takeByte, if_neg (by omega), Nat.add_sub_cancel_left]
    cases j with
    | zero =>
      have last := putLastByte held
      rw [same] at last
      exact ⟨_, by rw [if_pos rfl, last]⟩
    | succ j =>
      have put := putByteNat (by omega) held
      rw [same] at put
      rw [if_neg (by omega)]
      exact ih (by omega) (by omega) put

theorem tailNat (s : Words) (tail : List UInt8) (short : tail.length < 16) :
    s.toState.mixTail tail = (fallThrough tail tail.length ⟨s, 0, 0⟩).toWords.toState := by
  have first (k : Nat) : s.first.toNat ^^^ Hash.lowTerm k =
      (s.first ^^^ Words.lowTerm (.ofNat k)).toNat := by rw [lowTermNat, UInt64.toNat_xor]
  have second (k : Nat) : s.second.toNat ^^^ Hash.highTerm k =
      (s.second ^^^ Words.highTerm (.ofNat k)).toNat := by rw [highTermNat, UInt64.toNat_xor]
  have ended (bytes : List UInt8) (n : Nat) (length : bytes.length ≤ n) :
      (0 : UInt64).toNat = 256 ^ n * ofBytes (bytes.drop n) := by
    rw [List.drop_eq_nil_of_le length]
    rfl
  unfold State.mixTail
  rcases Nat.lt_or_ge 8 tail.length with long | long
  · obtain ⟨j, same⟩ : ∃ j, tail.length = 8 + j := ⟨tail.length - 8, by omega⟩
    have above := ended (tail.drop 8) j (by rw [List.length_drop]; omega)
    have below := ended (tail.take 8) 8 (List.length_take_le _ _)
    obtain ⟨high, entered⟩ := highCases tail (by omega) (by omega) (r := ⟨s, 0, 0⟩) above
    rw [if_pos long, if_pos (by omega), same, entered, lowCases tail (by decide) (by decide) below]
    simp only [toState, first, second]
  rcases Nat.eq_zero_or_pos tail.length with empty | nonempty
  · rw [if_neg (by omega), if_neg (by omega), empty]
    rfl
  · have below := ended (tail.take 8) tail.length (List.length_take_le' _ _)
    rw [if_neg (by omega), if_pos nonempty, lowCases tail nonempty long (r := ⟨s, 0, 0⟩) below]
    simp only [toState, first]

end Registers

namespace Words

theorem murmurStages (bytes : List UInt8) (seed : Int) :
    Hash.murmur128 bytes seed =
      ((mixBlocks ⟨.ofInt seed, .ofInt seed⟩ bytes (bytes.length / 16)).toState.mixTail
        (bytes.drop (16 * (bytes.length / 16)))).finish bytes.length := by
  have start : (seed % 18446744073709551616).toNat = (UInt64.ofInt seed).toNat := by
    rw [UInt64.ofInt, UInt64.toNat_ofNat']
    omega
  have blocks := mixBlocksNat ⟨.ofInt seed, .ofInt seed⟩ bytes (bytes.length / 16)
  rw [toState] at blocks
  rw [Hash.murmur128, start, blocks]

theorem murmurWords (bytes : List UInt8) (seed : Int) :
    Hash.murmur128 bytes seed = (murmur128 bytes (.ofInt seed)).toState := by
  have short : bytes.length % 16 < 16 := Nat.mod_lt _ (by decide)
  rw [murmurStages, Registers.tailNat _ _ (lastLength bytes ▸ short), finishNat, lastLength]
  rfl

end Words

/-- The hash of every byte string, of whatever length, under every seed is the published one, so
both its words are below 2^64, and a sampling key is the first of them less its lowest bit. -/
theorem murmurPublished (bytes : List UInt8) (seed : Int) :
    murmur128 bytes seed = (Words.murmur128 bytes (.ofInt seed)).toState ∧
    (murmur128 bytes seed).first < 2 ^ 64 ∧ (murmur128 bytes seed).second < 2 ^ 64 ∧
    (∀ item, samplingKey item seed = item.encode.map fun content =>
      (((Words.murmur128 content (.ofInt seed)).first >>> 1).toNat : Int)) ∧
    ((Words.murmur128 bytes (.ofInt seed)).first >>> 1).toNat < 2 ^ 63 := by
  refine ⟨Words.murmurWords bytes seed, (murmurBound bytes seed).1, (murmurBound bytes seed).2,
    fun item => ?_, ?_⟩
  · unfold samplingKey hashItem
    cases item.encode with
    | error f => rfl
    | ok content =>
      simp [Words.murmurWords, Words.toState, Except.map, Nat.shiftRight_eq_div_pow]
  · have bound := (Words.murmur128 bytes (.ofInt seed)).first.toNat_lt
    rw [UInt64.toNat_shiftRight, show (1 : UInt64).toNat % 64 = 1 from rfl,
      Nat.shiftRight_eq_div_pow]
    omega

-- Two blocks and twelve bytes more.
example : Words.murmur128 "The quick brown fox jumps over the lazy dog.".toUTF8.toList 0 =
    ⟨0xcd99481f9ee902c9, 0x695da1a38987b6e7⟩ := by decide +kernel

end KeySampling.Hash
