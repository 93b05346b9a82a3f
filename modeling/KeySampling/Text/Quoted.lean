import KeySampling.Text.Printable
import KeySampling.Text.Utf8
/-! Quoted texts, byte strings and buffers. The mark is a single quote unless the content has
single quotes and no double ones. Backslash, the mark and what is not printable are escaped; a
buffer escapes its single quotes under either mark. -/
namespace KeySampling.Text

def singleQuote : Nat := 39
def doubleQuote : Nat := 34
def backslash : Nat := 92

def quoteMark (content : List Nat) : Nat :=
  if content.contains singleQuote && !content.contains doubleQuote then doubleQuote
  else singleQuote

def hex : Nat → Nat → List Char
  | 0, _ => []
  | width + 1, n => hex width (n / 16) ++ [Nat.digitChar (n % 16)]

def escape (letter : Char) (digits : List Char) : List Char :=
  Char.ofNat backslash :: letter :: digits

def commonEscape? (mark c : Nat) : Option (List Char) :=
  if c = backslash ∨ c = mark then some (escape (Char.ofNat c) [])
  else if c = 9 then some (escape 't' [])
  else if c = 10 then some (escape 'n' [])
  else if c = 13 then some (escape 'r' [])
  else none

def quotedChar (mark c : Nat) : List Char :=
  match commonEscape? mark c with
  | some e => e
  | none =>
      if isPrintable c then [Char.ofNat c]
      else if c < 0x100 then escape 'x' (hex 2 c)
      else if c < 0x10000 then escape 'u' (hex 4 c)
      else escape 'U' (hex 8 c)

def quotedByte (mark c : Nat) : List Char :=
  match commonEscape? mark c with
  | some e => e
  | none => if c < 32 ∨ 127 ≤ c then escape 'x' (hex 2 c) else [Char.ofNat c]

def quotedBufferByte (mark c : Nat) : List Char :=
  if c = singleQuote then escape (Char.ofNat c) [] else quotedByte mark c

def enclose (content : List Nat) (write : Nat → Nat → List Char) : String :=
  let mark := quoteMark content
  let quote := Char.ofNat mark
  String.ofList (quote :: content.flatMap (write mark) ++ [quote])

def quoted (text : List Nat) : String := enclose text quotedChar

def quotedBytes (bytes : List UInt8) : String :=
  "b" ++ enclose (bytes.map UInt8.toNat) quotedByte

def quotedBuffer (bytes : List UInt8) : String :=
  "b" ++ enclose (bytes.map UInt8.toNat) quotedBufferByte

end KeySampling.Text
