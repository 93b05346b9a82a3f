import KeySampling.Proofs.Hash.Words
import Mathlib.Data.Set.Function

/-! No input byte is lost in mixing. Each stage of the hash is a permutation of the words it works
on, and for a given state the block that goes in can be told from the state that comes out. Hence
byte strings of one length that differ within one block of sixteen have different hashes. -/
namespace KeySampling.Hash
namespace Words
open Function

theorem mulInjective {c : UInt64} (inverse : UInt64) (unit : c * inverse = 1) :
    Injective fun k : UInt64 => k * c := by
  intro x y same
  have back (k : UInt64) : k * c * inverse = k := by rw [UInt64.mul_assoc, unit, UInt64.mul_one]
  rw [← back x, ← back y]
  exact congrArg (· * inverse) same

theorem rotateBits {bits : UInt64} (inside : 0 < bits.toNat ∧ bits.toNat < 64) (x : UInt64) :
    (rotate x bits).toBitVec = x.toBitVec.rotateLeft bits.toNat := by
  apply BitVec.eq_of_toNat_eq
  rw [UInt64.toNat_toBitVec, rotateValue x inside, BitVec.toNat_rotateLeft,
    Nat.mod_eq_of_lt inside.2, UInt64.toNat_toBitVec]

theorem turnBack {r : Nat} (inside : 0 < r ∧ r < 64) (x : BitVec 64) :
    (x.rotateLeft r).rotateLeft (64 - r) = x := by
  ext i h
  have there : r % 64 = r := Nat.mod_eq_of_lt inside.2
  have back : (64 - r) % 64 = 64 - r := Nat.mod_eq_of_lt (by omega)
  simp only [BitVec.getElem_rotateLeft, there, back]
  rcases Nat.lt_or_ge i (64 - r) with low | high
  · rw [dif_pos low, dif_neg (by omega)]
    congr 1
    omega
  · rw [dif_neg (by omega), dif_pos (by omega)]
    congr 1
    omega

theorem rotateInjective {bits : UInt64} (inside : 0 < bits.toNat ∧ bits.toNat < 64) :
    Injective fun x => rotate x bits := by
  intro x y same
  apply UInt64.toBitVec_inj.mp
  have turned := congrArg UInt64.toBitVec same
  simp only [rotateBits inside] at turned
  rw [← turnBack inside x.toBitVec, turned, turnBack inside]

theorem shiftXorInjective : Injective fun k : UInt64 => k ^^^ (k >>> 33) := by
  -- Done twice, it shifts by 66 places, which leaves nothing.
  have twice (k : UInt64) : (k ^^^ (k >>> 33)) ^^^ ((k ^^^ (k >>> 33)) >>> 33) = k := by
    apply UInt64.toBitVec_inj.mp
    ext i h
    simp [BitVec.getLsbD_of_ge k.toBitVec (33 + (33 + i)) (by omega)]
  intro x y same
  simp only at same
  rw [← twice x, ← twice y, same]

theorem scrambleInjective : Injective scramble :=
  shiftXorInjective.comp <| (mulInjective 0x9cb4b2f8129337db (by decide)).comp <|
    shiftXorInjective.comp <| (mulInjective 0x4f74430c22a54005 (by decide)).comp shiftXorInjective

theorem lowTermInjective : Injective lowTerm :=
  (mulInjective 0xa81e14edd9de2c7f (by decide)).comp <|
    (rotateInjective (by decide)).comp (mulInjective 0xa98409e882ce4d7d (by decide))

theorem highTermInjective : Injective highTerm :=
  (mulInjective 0xa98409e882ce4d7d (by decide)).comp <|
    (rotateInjective (by decide)).comp (mulInjective 0xa81e14edd9de2c7f (by decide))

theorem scaleInjective (c : UInt64) : Injective fun k : UInt64 => k * 5 + c := by
  intro x y same
  exact mulInjective 0xcccccccccccccccd (by decide) ((UInt64.add_left_inj c).mp same)

theorem mixBack {s t : Words} {low high low' high' : UInt64}
    (same : s.mix low high = t.mix low' high') :
    rotate (s.first ^^^ lowTerm low) 27 + s.second =
        rotate (t.first ^^^ lowTerm low') 27 + t.second ∧
      s.second ^^^ highTerm high = t.second ^^^ highTerm high' := by
  simp only [mix, Words.mk.injEq] at same
  obtain ⟨first, second⟩ := same
  -- What the first word comes to is added to the second, where it can now be cancelled.
  have sum := scaleInjective _ first
  rw [sum] at second
  have turned := (UInt64.add_left_inj _).mp (scaleInjective _ second)
  exact ⟨sum, rotateInjective (by decide) turned⟩

theorem mixStateInjective (low high : UInt64) : Injective fun s : Words => s.mix low high := by
  intro s t same
  obtain ⟨sum, second⟩ := mixBack same
  have right : s.second = t.second := (UInt64.xor_left_inj _).mp second
  rw [right] at sum
  have turned := (UInt64.add_left_inj _).mp sum
  have left : s.first = t.first :=
    (UInt64.xor_left_inj _).mp (rotateInjective (by decide) turned)
  exact Words.ext left right

theorem mixBlockInjective (s : Words) {low high low' high' : UInt64}
    (same : s.mix low high = s.mix low' high') : low = low' ∧ high = high' := by
  obtain ⟨sum, second⟩ := mixBack same
  have turned := (UInt64.add_left_inj _).mp sum
  have first := rotateInjective (by decide) turned
  exact ⟨lowTermInjective ((UInt64.xor_right_inj _).mp first),
    highTermInjective ((UInt64.xor_right_inj _).mp second)⟩

theorem sumsInjective {a b c d : UInt64} (first : a + b = c + d)
    (second : b + (a + b) = d + (c + d)) : a = c ∧ b = d := by
  rw [first] at second
  have right := (UInt64.add_left_inj _).mp second
  rw [right] at first
  exact ⟨(UInt64.add_left_inj _).mp first, right⟩

theorem finishInjective (length : UInt64) : Injective fun s : Words => s.finish length := by
  intro s t same
  simp only [finish, Words.mk.injEq] at same
  obtain ⟨first, second⟩ := sumsInjective same.1 same.2
  obtain ⟨left, right⟩ := sumsInjective (scrambleInjective first) (scrambleInjective second)
  exact Words.ext ((UInt64.xor_left_inj _).mp left) ((UInt64.xor_left_inj _).mp right)

theorem toStateInjective : Injective toState := by
  intro s t same
  simp only [toState, State.mk.injEq, UInt64.toNat_inj] at same
  exact Words.ext same.1 same.2

end Words

section Bytes
open Function Words
variable {xs ys : List UInt8}

theorem ofBytesInjective (length : xs.length = ys.length) (same : ofBytes xs = ofBytes ys) :
    xs = ys := by
  induction xs generalizing ys with
  | nil => exact (List.eq_nil_of_length_eq_zero length.symm).symm
  | cons x xs ih =>
    cases ys with
    | nil => contradiction
    | cons y ys =>
      have low := x.toNat_lt
      have low' := y.toNat_lt
      simp only [ofBytes, List.length_cons] at same length
      have head : x = y := UInt8.toNat_inj.mp (by omega)
      have rest : xs = ys := ih (by omega) (by omega)
      rw [head, rest]

def SameBlock (xs ys : List UInt8) (block : Nat) : Prop :=
  wordFrom xs (16 * block) 8 = wordFrom ys (16 * block) 8 ∧
    wordFrom xs (16 * block + 8) 8 = wordFrom ys (16 * block + 8) 8

theorem wordFromSame {position width : Nat}
    (alike : ∀ i, position ≤ i → i < position + width → xs[i]? = ys[i]?) :
    wordFrom xs position width = wordFrom ys position width := by
  induction width generalizing position with
  | zero => rfl
  | succ width ih =>
    have rest : wordFrom xs (position + 1) width = wordFrom ys (position + 1) width :=
      ih fun i above below => alike i (by omega) (by omega)
    rw [wordFrom, wordFrom, rest, byteAt, byteAt, alike position (by omega) (by omega)]

theorem sameBytes {position : Nat} (length : xs.length = ys.length)
    (same : wordFrom xs position 8 = wordFrom ys position 8) {i : Nat} (above : position ≤ i)
    (below : i < position + 8) : xs[i]? = ys[i]? := by
  have numbers := congrArg UInt64.toNat same
  rw [wordFromNat (by decide), wordFromNat (by decide)] at numbers
  have slices := ofBytesInjective (by simp [length]) numbers
  have shifted : position + (i - position) = i := by omega
  calc xs[i]? = ((xs.drop position).take 8)[i - position]? := by
        rw [List.getElem?_take_of_lt (by omega), List.getElem?_drop, shifted]
    _ = ((ys.drop position).take 8)[i - position]? := by rw [slices]
    _ = ys[i]? := by rw [List.getElem?_take_of_lt (by omega), List.getElem?_drop, shifted]

theorem mixBlocksSnoc (s : Words) (bytes : List UInt8) (blocks : Nat) :
    s.mixBlocks bytes (blocks + 1) = (s.mixBlocks bytes blocks).mix
      (wordFrom bytes (16 * blocks) 8) (wordFrom bytes (16 * blocks + 8) 8) := by
  simp only [Words.mixBlocks, List.range_succ, List.foldl_append, List.foldl_cons, List.foldl_nil]

theorem mixBlocksSame (s : Words) {blocks : Nat} (alike : ∀ i < blocks, SameBlock xs ys i) :
    s.mixBlocks xs blocks = s.mixBlocks ys blocks := by
  induction blocks with
  | zero => simp only [Words.mixBlocks, List.range_zero, List.foldl_nil]
  | succ blocks ih =>
    obtain ⟨low, high⟩ := alike blocks (by omega)
    rw [mixBlocksSnoc, mixBlocksSnoc, ih fun i inside => alike i (by omega), low, high]

theorem mixBlocksApart (s : Words) {blocks block : Nat} (inside : block < blocks)
    (alike : ∀ i, i ≠ block → SameBlock xs ys i)
    (same : s.mixBlocks xs blocks = s.mixBlocks ys blocks) : SameBlock xs ys block := by
  induction blocks with
  | zero => contradiction
  | succ blocks ih =>
    rw [mixBlocksSnoc, mixBlocksSnoc] at same
    by_cases last : block = blocks
    · -- The block in question is the last one, and the same state has come to it.
      subst last
      rw [mixBlocksSame s fun i before => alike i (by omega)] at same
      exact mixBlockInjective _ same
    · obtain ⟨low, high⟩ := alike blocks (Ne.symm last)
      rw [low, high] at same
      exact ih (by omega) (mixStateInjective _ _ same)

theorem wordInjective (length : xs.length = ys.length) (narrow : xs.length ≤ 8)
    (same : UInt64.ofNat (ofBytes xs) = .ofNat (ofBytes ys)) : xs = ys := by
  have fits : 256 ^ xs.length ≤ 2 ^ 64 := Nat.pow_le_pow_right (by decide) narrow
  have left := (ofBytesBound xs).trans_le fits
  have right := (ofBytesBound ys).trans_le (length ▸ fits)
  have numbers := congrArg UInt64.toNat same
  rw [UInt64.toNat_ofNat', UInt64.toNat_ofNat', Nat.mod_eq_of_lt left,
    Nat.mod_eq_of_lt right] at numbers
  exact ofBytesInjective length numbers

theorem tailInjective {s : State} (length : xs.length = ys.length) (short : xs.length < 16)
    (same : s.mixTail xs = s.mixTail ys) : xs = ys := by
  unfold State.mixTail at same
  rw [← length, State.mk.injEq] at same
  obtain ⟨first, second⟩ := same
  have low : xs.take 8 = ys.take 8 := by
    rcases Nat.eq_zero_or_pos xs.length with empty | nonempty
    · have left : xs = [] := List.eq_nil_of_length_eq_zero empty
      have right : ys = [] := List.eq_nil_of_length_eq_zero (length ▸ empty)
      rw [left, right]
    · rw [if_pos nonempty, if_pos nonempty, Nat.xor_right_inj, lowTermNat, lowTermNat] at first
      have terms := lowTermInjective (UInt64.toNat_inj.mp first)
      exact wordInjective (by simp [length]) (List.length_take_le _ _) terms
  have high : xs.drop 8 = ys.drop 8 := by
    rcases Nat.lt_or_ge 8 xs.length with long | ended
    · rw [if_pos long, if_pos long, Nat.xor_right_inj, highTermNat, highTermNat] at second
      have terms := highTermInjective (UInt64.toNat_inj.mp second)
      exact wordInjective (by simp [length]) (by rw [List.length_drop]; omega) terms
    · rw [List.drop_eq_nil_of_le ended, List.drop_eq_nil_of_le (length ▸ ended)]
  rw [← List.take_append_drop 8 xs, low, high, List.take_append_drop]

theorem tailStateInjective (tail : List UInt8) : Injective fun s : State => s.mixTail tail := by
  intro s t same
  unfold State.mixTail at same
  simp only [State.mk.injEq] at same
  obtain ⟨first, second⟩ := same
  have left : s.first = t.first := by
    split at first
    · exact Nat.xor_left_inj.mp first
    · exact first
  have right : s.second = t.second := by
    split at second
    · exact Nat.xor_left_inj.mp second
    · exact second
  cases s
  cases t
  exact congr (congrArg State.mk left) right

theorem stagesBack {seed : Int} (length : xs.length = ys.length)
    (same : Hash.murmur128 xs seed = Hash.murmur128 ys seed) :
    (mixBlocks ⟨.ofInt seed, .ofInt seed⟩ xs (xs.length / 16)).toState.mixTail
        (xs.drop (16 * (xs.length / 16))) =
      (mixBlocks ⟨.ofInt seed, .ofInt seed⟩ ys (ys.length / 16)).toState.mixTail
        (ys.drop (16 * (ys.length / 16))) := by
  have short (bytes : List UInt8) : (bytes.drop (16 * (bytes.length / 16))).length < 16 := by
    rw [lastLength]
    exact Nat.mod_lt _ (by decide)
  rw [murmurStages, murmurStages, Registers.tailNat _ _ (short xs),
    Registers.tailNat _ _ (short ys), finishNat, finishNat, length] at same
  rw [Registers.tailNat _ _ (short xs), Registers.tailNat _ _ (short ys), length,
    finishInjective _ (toStateInjective same)]

theorem blocksAlike {block : Nat} (alike : ∀ i, i / 16 ≠ block → xs[i]? = ys[i]?) {other : Nat}
    (apart : other ≠ block) : SameBlock xs ys other :=
  ⟨wordFromSame fun i above below => alike i (by omega),
    wordFromSame fun i above below => alike i (by omega)⟩

theorem wholeBlockRead {seed : Int} {block : Nat} (length : xs.length = ys.length)
    (alike : ∀ i, i / 16 ≠ block → xs[i]? = ys[i]?) (inside : block < xs.length / 16)
    (same : Hash.murmur128 xs seed = Hash.murmur128 ys seed) : xs = ys := by
  have rest : xs.drop (16 * (xs.length / 16)) = ys.drop (16 * (xs.length / 16)) := by
    apply List.ext_getElem?
    intro i
    rw [List.getElem?_drop, List.getElem?_drop]
    exact alike _ (by omega)
  have stages := stagesBack length same
  rw [← length, rest] at stages
  have states := toStateInjective (tailStateInjective _ stages)
  obtain ⟨low, high⟩ := mixBlocksApart _ inside (fun _ => blocksAlike alike) states
  apply List.ext_getElem?
  intro i
  rcases Nat.lt_or_ge i (16 * block) with before | after
  · exact alike i (by omega)
  rcases Nat.lt_or_ge i (16 * block + 8) with lower | upper
  · exact sameBytes length low after lower
  rcases Nat.lt_or_ge i (16 * block + 8 + 8) with upper' | beyond
  · exact sameBytes length high upper upper'
  · exact alike i (by omega)

theorem lastBlockRead {seed : Int} {block : Nat} (length : xs.length = ys.length)
    (alike : ∀ i, i / 16 ≠ block → xs[i]? = ys[i]?) (outside : xs.length / 16 ≤ block)
    (same : Hash.murmur128 xs seed = Hash.murmur128 ys seed) : xs = ys := by
  have stages := stagesBack length same
  rw [← length, mixBlocksSame _ fun i before => blocksAlike alike (by omega)] at stages
  have rest := tailInjective (by simp [length]) (by rw [lastLength]; omega) stages
  apply List.ext_getElem?
  intro i
  rcases Nat.lt_or_ge i (16 * (xs.length / 16)) with before | after
  · exact alike i (by omega)
  · obtain ⟨j, rfl⟩ := Nat.exists_eq_add_of_le after
    rw [← List.getElem?_drop, rest, List.getElem?_drop]

theorem blockRead {seed : Int} {block : Nat} (length : xs.length = ys.length)
    (apart : ∀ i, xs[i]? ≠ ys[i]? → i / 16 = block)
    (same : Hash.murmur128 xs seed = Hash.murmur128 ys seed) : xs = ys := by
  have alike (i : Nat) (other : i / 16 ≠ block) : xs[i]? = ys[i]? :=
    Decidable.byContradiction fun differs => other (apart i differs)
  rcases Nat.lt_or_ge block (xs.length / 16) with inside | outside
  · exact wholeBlockRead length alike inside same
  · exact lastBlockRead length alike outside same

theorem shortRead {seed : Int} (length : xs.length = ys.length) (short : xs.length ≤ 16)
    (same : Hash.murmur128 xs seed = Hash.murmur128 ys seed) : xs = ys := by
  have apart (i : Nat) (differs : xs[i]? ≠ ys[i]?) : i / 16 = 0 := by
    rcases Nat.lt_or_ge i 16 with inside | outside
    · exact Nat.div_eq_of_lt inside
    · rw [List.getElem?_eq_none (by omega), List.getElem?_eq_none (by omega)] at differs
      contradiction
  exact blockRead length apart same

end Bytes

theorem ofBytesLittleEndian (count n : Nat) : ofBytes (littleEndian count n) = n % 256 ^ count := by
  induction count generalizing n with
  | zero => rw [Nat.pow_zero, Nat.mod_one]; rfl
  | succ count ih =>
    have low : (UInt8.ofNat (n % 256)).toNat = n % 256 := by
      rw [UInt8.toNat_ofNat', Nat.mod_mod]
    rw [littleEndian, ofBytes, ih, low, Nat.pow_succ']
    exact (Nat.mod_mul ..).symm

theorem littleEndianInjective {m n : Int} (low : fitsSigned64 m) (high : fitsSigned64 n)
    (same : littleEndian 8 (m % 2 ^ 64).toNat = littleEndian 8 (n % 2 ^ 64).toNat) : m = n := by
  have numbers := congrArg ofBytes same
  rw [ofBytesLittleEndian, ofBytesLittleEndian] at numbers
  simp only [fitsSigned64, Bool.and_eq_true, decide_eq_true_eq] at low high
  omega

theorem hashInteger {n : Int} (fits : fitsSigned64 n) (seed : Int) :
    hashItem (.int n) seed = .ok (murmur128 (littleEndian 8 (n % 2 ^ 64).toNat) seed) := by
  have encoded : (Datum.int n).encode = .ok (littleEndian 8 (n % 2 ^ 64).toNat) := if_pos fits
  rw [hashItem, encoded]

/-- Strings of one length that differ in a single block, a whole one or the last bytes, have
different hashes; so have all different strings of one length up to a block, and all different
integers of 64 bits. -/
theorem murmurApart (seed : Int) :
    (∀ xs ys : List UInt8, xs.length = ys.length → xs ≠ ys →
      (∃ block, ∀ i, xs[i]? ≠ ys[i]? → i / 16 = block) → murmur128 xs seed ≠ murmur128 ys seed) ∧
    (∀ length ≤ 16, Set.InjOn (murmur128 · seed) {xs | xs.length = length}) ∧
    Set.InjOn (fun n => hashItem (.int n) seed) {n | fitsSigned64 n} := by
  refine ⟨?blocks, ?short, ?integers⟩
  case blocks =>
    rintro xs ys length differ ⟨block, apart⟩ same
    exact differ (blockRead length apart same)
  case short =>
    rintro length short xs rfl ys length same
    exact shortRead length.symm short same
  case integers =>
    intro m low n high same
    simp only [hashInteger low, hashInteger high, Except.ok.injEq] at same
    have width (k : Nat) : (littleEndian 8 k).length = 8 := littleEndianLength 8 k
    have bytes := shortRead ((width _).trans (width _).symm) (by rw [width]; decide) same
    exact littleEndianInjective low high bytes

theorem murmurApartMiddle :
    murmur128 ((List.replicate 40 0).set 20 1) 9001 ≠ murmur128 (List.replicate 40 0) 9001 ∧
    murmur128 [0, 7] (-1) ≠ murmur128 [7, 0] (-1) ∧
    hashItem (.int 0) 9001 ≠ hashItem (.int (-1)) 9001 := by
  have second (i : Nat) (differs : ((List.replicate 40 (0 : UInt8)).set 20 1)[i]? ≠
      (List.replicate 40 0)[i]?) : i / 16 = 1 := by
    rcases eq_or_ne 20 i with rfl | other
    · rfl
    · exact absurd (List.getElem?_set_ne other) differs
  refine ⟨(murmurApart 9001).1 _ _ (by decide) (by decide) ⟨1, second⟩, fun same => ?_,
    fun same => ?_⟩
  · have swapped := (murmurApart (-1)).2.1 2 (by decide) rfl rfl same
    contradiction
  · have zero := (murmurApart 9001).2.2 (by decide) (by decide) same
    contradiction

end KeySampling.Hash
