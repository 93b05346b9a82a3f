import KeySampling.Datum.Number
import KeySampling.Binary64.Arithmetic
/-! A summary is one number kept beside a sampling key. Its mode says how values are folded
into it and where it starts, so that the first value sets it in every mode. -/
namespace KeySampling

inductive Mode where
  | sum
  | min
  | max
  | alwaysOne
  deriving DecidableEq, Repr

namespace Mode

def all : List Mode := [sum, min, max, alwaysOne]

def name : Mode → String
  | sum => "SUM"
  | min => "MIN"
  | max => "MAX"
  | alwaysOne => "ALWAYS_ONE"

def label : Mode → String
  | sum => "sum"
  | min => "min"
  | max => "max"
  | alwaysOne => "always_one"

def ofName? (name : String) : Option Mode := all.find? fun m => m.name == name

def ofLabel (d : Datum) : Except Fault Mode :=
  let found := match d with
    | .text codes => all.find? fun m => Text.codes m.label == codes
    | _ => none
  match found with
  | some m => .ok m
  | none => .error (.unknownMode d.write)

def fold : Mode → Binary64 → Binary64 → Binary64
  | sum, a, b => a.add b
  | min, a, b => a.smaller b
  | max, a, b => a.larger b
  | alwaysOne, _, _ => .one

def neutral : Mode → Binary64
  | sum => .zero false
  | min => .infinite false
  | max => .infinite true
  | alwaysOne => .one

end Mode

structure Summary where
  value : Binary64
  mode : Mode
  deriving DecidableEq, Repr

namespace Summary

def fresh (mode : Mode) : Summary := ⟨mode.neutral, mode⟩

def ofValue (value : Datum) (mode : Mode) : Except Fault Summary :=
  match value with
  | .none => .ok (fresh mode)
  | d => d.toBinary64.map (⟨·, mode⟩)

def update (s : Summary) (value : Datum) : Except Fault Summary :=
  value.toBinary64.map fun x => ⟨s.mode.fold s.value x, s.mode⟩

def same (a b : Summary) : Bool := a.value.eqv b.value && decide (a.mode = b.mode)

def combine (mode : Mode) (a b : Summary) : Summary := ⟨mode.fold a.value b.value, mode⟩

def difference (a b : Summary) : Summary := ⟨a.value.sub b.value, a.mode⟩

def text (s : Summary) : String :=
  "DoubleSummary(value=" ++ s.value.text ++ ", mode=" ++ s.mode.name ++ ")"

end Summary
end KeySampling
