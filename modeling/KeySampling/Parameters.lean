import KeySampling.Binary64.Basic
/-! The numbers that fix how sketches and tables behave. -/
namespace KeySampling

def version : String := "0.1.0"

/-- The largest threshold, 2^63 - 1: every key below it is sampled. -/
def maxTheta : Int := 9223372036854775807

def defaultSeed : Int := 9001

def defaultLgNominal : Nat := 12
def defaultNominal : Int := 4096

def leastLgTable : Nat := 4
def leastNominal : Nat := 16

/-- The eight-byte slots of a larger table would not fit into a 64-bit address space. -/
def largestLgTable : Nat := 59

/-- More keys than any memory holds. -/
def mostKeys : Nat := 72057594037927936

/-- A larger power of two has more bits than can be counted. They come in digits of thirty, each
of four bytes, and with a header of 24 bytes the size of all has to be a signed 64-bit number. -/
def largestExponent : Nat := 30 * ((9223372036854775807 - 24) / 4 - 1)

def startLgTable : Nat := 5
def growthLg : Nat := 3

def strideBits : Nat := 7
def strideMask : Nat := 127

structure Load where
  part : Nat
  whole : Nat
  deriving DecidableEq, Repr

def Load.exceededBy (l : Load) (count capacity : Nat) : Bool :=
  decide (l.part * capacity < l.whole * count)

def Load.toBinary64 (l : Load) : Binary64 := .ofQuotient l.part l.whole

def tableLoad : Load := ⟨3, 4⟩

def growLoad : Load := ⟨1, 2⟩

def rebuildLoad : Load := ⟨15, 16⟩

end KeySampling
