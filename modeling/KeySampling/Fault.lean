/-! What can go wrong, by cause, and the wording of each. -/
namespace KeySampling

inductive Fault where
  /-- A text with a lone surrogate has no encoding, so it cannot be hashed. -/
  | loneSurrogate
  /-- A number does not fit where it is to be stored or converted. -/
  | tooLarge
  | divisionByZero
  | outOfRange
  | notNumeric (kind : String)
  | unreadable (quoted : String)
  | unordered (kind : String)
  | unknownMode (quoted : String)
  | negativeShift
  | negativeLength
  | fewNominalEntries (least : Nat)
  | badProbability
  | badErrorRate
  | badDeviationCount
  | lengthMismatch (keys summaries : Nat)
  | notTupleSketch (kind : String)
  | notThetaSketch (kind : String)
  | nothingIntersected
  | countMismatch (compacted tracked : Nat)
  | fullTable
  | keyNeitherFoundNorPlaced
  | endlessProbe
  | missingSummary
  deriving DecidableEq, Repr

def Fault.message : Fault → String
  | loneSurrogate => "surrogates not allowed"
  | tooLarge => "number too large"
  | divisionByZero => "division by zero"
  | outOfRange => "index out of range"
  | notNumeric kind =>
      "float() argument must be a string or a real number, not '" ++ kind ++ "'"
  | unreadable quoted => "could not convert string to float: " ++ quoted
  | unordered kind => "'<' not supported between instances of 'int' and '" ++ kind ++ "'"
  | unknownMode quoted => quoted ++ " is not a valid Mode"
  | negativeShift => "negative shift count"
  | negativeLength => "__len__() should return >= 0"
  | fewNominalEntries least => "Nominal entries must be at least " ++ toString least
  | badProbability => "Sampling probability must be between 0 and 1"
  | badErrorRate => "Relative error must be between 0 and 1"
  | badDeviationCount => "num_std_dev must be 1, 2 or 3"
  | lengthMismatch keys summaries =>
      "Keys and summaries must have the same length: " ++ toString keys ++ " and " ++
        toString summaries
  | notTupleSketch kind =>
      "update() expects a TupleSketch, got " ++ kind ++ "; use update_theta() for theta sketches"
  | notThetaSketch kind => "update_theta() expects a ThetaSketch, got " ++ kind
  | nothingIntersected => "get_result() with no intervening intersections is not a legal result"
  | countMismatch compacted tracked =>
      "Compacted " ++ toString compacted ++ " entries but tracked " ++ toString tracked
  | fullTable => "No empty slot in table"
  | keyNeitherFoundNorPlaced => "Key not found and no empty slot in table"
  | endlessProbe => "probe does not end"
  | missingSummary => "retained key without a summary"

end KeySampling
