import KeySampling.Summary.Basic
/-! What a sketch may do with its summaries. Summaries of type σ live in a world ω, which
every operation receives and returns: plain values need none of it, references need the
store that holds what they refer to. -/
namespace KeySampling

structure SummaryOps (ω σ : Type) where
  fresh : ω → σ × ω
  /-- A value that cannot be folded leaves the summary as it was. -/
  fold : σ → Datum → ω → Except Fault σ × ω
  copy : σ → ω → σ × ω

/-- How an intersection joins the retained summary of a key with the incoming one. -/
abbrev Policy (ω σ : Type) := σ → σ → ω → σ × ω

namespace SummaryOps
variable {ω σ τ : Type}

def keysOnly : SummaryOps ω Unit where
  fresh w := ((), w)
  fold _ _ w := (.ok (), w)
  copy _ w := ((), w)

def values (mode : Mode) : SummaryOps ω Summary where
  fresh w := (.fresh mode, w)
  fold s value w := (s.update value, w)
  copy s w := (s, w)

def beside (ops : SummaryOps ω σ) : SummaryOps (ω × τ) σ where
  fresh w :=
    let (s, v) := ops.fresh w.1
    (s, v, w.2)
  fold s value w :=
    let (r, v) := ops.fold s value w.1
    (r, v, w.2)
  copy s w :=
    let (c, v) := ops.copy s w.1
    (c, v, w.2)

def copyAll (ops : SummaryOps ω σ) : List (Int × σ) → ω → List (Int × σ) × ω
  | [], w => ([], w)
  | (key, s) :: rest, w =>
      let (c, w) := ops.copy s w
      let (rest, w) := ops.copyAll rest w
      ((key, c) :: rest, w)

end SummaryOps

namespace Policy
variable {ω σ τ : Type}

def ofFunction (f : σ → σ → σ) : Policy ω σ := fun a b w => (f a b, w)

def beside (policy : Policy ω σ) : Policy (ω × τ) σ := fun a b w =>
  let (r, v) := policy a b w.1
  (r, v, w.2)

def recorded (policy : Policy ω σ) (view : σ → ω → τ) : Policy (ω × Array (τ × τ)) σ :=
  fun a b w =>
    let call := (view a w.1, view b w.1)
    let (r, v) := policy a b w.1
    (r, v, w.2.push call)

end Policy
end KeySampling
