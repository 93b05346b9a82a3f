import KeySampling.Decimal.Shortest
import KeySampling.Text.Blank
import KeySampling.Text.DecimalDigit
import KeySampling.Text.Utf8
/-! Reading a number from text: blanks around it, an optional sign, then `inf`, `infinity` or
`nan` in any case, or digits with an optional point and exponent. A single underscore may
stand between two digits. Texts may use the digits and blanks of any script. The result is
the number nearest to the exact decimal value. -/
namespace KeySampling.Decimal
open KeySampling.Text

def isDigit (c : Nat) : Bool := decide (48 ≤ c) && decide (c < 58)

def underscore : Nat := 95

/-- Drops underscores, refusing one that does not stand between two digits. The first
argument is the code point before the list. -/
def dropUnderscores : Nat → List Nat → Option (List Nat)
  | before, [] => if before = underscore then none else some []
  | before, c :: rest =>
      if c = underscore then
        if isDigit before then dropUnderscores c rest else none
      else if before = underscore ∧ isDigit c = false then none
      else (dropUnderscores c rest).map (c :: ·)

def splitSign : List Nat → Bool × List Nat
  | 43 :: rest => (false, rest)
  | 45 :: rest => (true, rest)
  | rest => (false, rest)

def lower (c : Nat) : Nat := if 65 ≤ c ∧ c ≤ 90 then c + 32 else c

def ofDigits (digits : List Nat) : Nat := digits.foldl (fun n c => 10 * n + (c - 48)) 0

def exponent? : List Nat → Option Int
  | [] => some 0
  | c :: rest =>
      if c = 69 ∨ c = 101 then
        let (negative, digits) := splitSign rest
        if digits.isEmpty || !digits.all isDigit then none
        else some (if negative then -(ofDigits digits : Int) else ofDigits digits)
      else none

structure Written where
  digits : List Nat
  exponent : Int
  deriving DecidableEq, Repr

def unsigned? (text : List Nat) : Option Written :=
  let whole := text.takeWhile isDigit
  let (places, rest) := match text.dropWhile isDigit with
    | 46 :: rest => (rest.takeWhile isDigit, rest.dropWhile isDigit)
    | rest => ([], rest)
  if whole.isEmpty && places.isEmpty then none
  else (exponent? rest).map fun e => ⟨whole ++ places, e - places.length⟩

/-- The nearest number. Values of 10^310 and more, and those below 10^-330, are recognised
by their size alone. -/
def Written.round (negative : Bool) (d : Written) : Binary64 :=
  let significant := d.digits.dropWhile fun c => c == 48
  let size := significant.length + d.exponent
  if significant.isEmpty then .zero negative
  else if 310 < size then .infinite negative
  else if size < -330 then .zero negative
  else .round negative (scaled10 (ofDigits significant) d.exponent)

def number? (text : List Nat) : Option Binary64 :=
  let (negative, body) := splitSign text
  let word := body.map lower
  if word = codes "inf" ∨ word = codes "infinity" then some (.infinite negative)
  else if word = codes "nan" then some .nan
  else (unsigned? body).map (Written.round negative)

def ofAscii (text : List Nat) : Option Binary64 :=
  (dropUnderscores 0 (trim isAsciiBlank text)).bind number?

/-- The ASCII code point that stands for a blank or digit of any script; a question mark,
which no number holds, for anything else outside ASCII. -/
def asciiForm (c : Nat) : Nat :=
  if c < 127 then c
  else if isBlank c then 32
  else match digitValue? c with
    | some d => 48 + d
    | none => 63

def ofText (text : List Nat) : Option Binary64 := ofAscii (text.map asciiForm)

def ofBytes (bytes : List UInt8) : Option Binary64 := ofAscii (bytes.map UInt8.toNat)

end KeySampling.Decimal
