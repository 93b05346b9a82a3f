/-! Blank code points. Number texts are trimmed of the six ASCII blanks and of the
separators outside ASCII; the four ASCII information separators are not trimmed. -/
namespace KeySampling.Text

def isAsciiBlank (c : Nat) : Bool := c == 32 || decide (9 ≤ c) && decide (c ≤ 13)

def wideBlanks : List Nat :=
  [0x85, 0xa0, 0x1680, 0x2000, 0x2001, 0x2002, 0x2003, 0x2004, 0x2005, 0x2006, 0x2007,
    0x2008, 0x2009, 0x200a, 0x2028, 0x2029, 0x202f, 0x205f, 0x3000]

def isBlank (c : Nat) : Bool := isAsciiBlank c || wideBlanks.contains c

def trim (blank : Nat → Bool) (text : List Nat) : List Nat :=
  ((text.dropWhile blank).reverse.dropWhile blank).reverse

end KeySampling.Text
