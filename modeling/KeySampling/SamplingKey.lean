import KeySampling.Datum.Encoding
import KeySampling.Hash.Murmur
import KeySampling.Parameters
/-! Sampling keys. An item's key is the top 63 bits of its hash, so keys are spread evenly
over 0..2^63-1 and keeping those below a threshold keeps a uniform sample. -/
namespace KeySampling

def hashItem (item : Datum) (seed : Int) : Except Fault Hash.State :=
  match item.encode with
  | .ok bytes => .ok (Hash.murmur128 bytes seed)
  | .error f => .error f

def samplingKey (item : Datum) (seed : Int) : Except Fault Int :=
  match hashItem item seed with
  | .ok h => .ok (h.first / 2 : Nat)
  | .error f => .error f

theorem samplingKeyRange {item seed key} (h : samplingKey item seed = .ok key) :
    0 ≤ key ∧ key ≤ maxTheta := by
  unfold samplingKey hashItem at h
  cases encoded : item.encode with
  | error f => simp [encoded] at h
  | ok bytes =>
    simp only [encoded, Except.ok.injEq] at h
    have bound := (Hash.murmurBound bytes seed).1
    unfold maxTheta
    omega

end KeySampling
