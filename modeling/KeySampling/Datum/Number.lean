import KeySampling.Datum.Printer
import KeySampling.Decimal.Reading
import KeySampling.Binary64.Order
import KeySampling.Fault
/-! Data as numbers: conversion to binary64, and the range checks on fractions. -/
namespace KeySampling

def Binary64.ofInt? (n : Int) : Except Fault Binary64 :=
  let x := Binary64.ofInt n
  if x.isFinite then .ok x else .error .tooLarge

def Binary64.quotient (n d : Int) : Except Fault Binary64 :=
  if d = 0 then .error .divisionByZero
  else
    let x := Binary64.ofQuotient n d
    if x.isFinite then .ok x else .error .tooLarge

namespace Datum

def toBinary64 (d : Datum) : Except Fault Binary64 :=
  let read (x : Option Binary64) : Except Fault Binary64 :=
    match x with
    | some x => .ok x
    | Option.none => .error (.unreadable d.write)
  match d with
  | .bool value => .ok (.ofInt (if value then 1 else 0))
  | .int value => Binary64.ofInt? value
  | .float value => .ok value
  | .text codes => read (Decimal.ofText codes)
  | .bytes content => read (Decimal.ofBytes content)
  | .buffer content => read (Decimal.ofBytes content)
  | d => .error (.notNumeric d.kind)

def isFraction (oneAllowed : Bool) : Datum → Except Fault Bool
  | .bool value => .ok (value && oneAllowed)
  | .int value => .ok (decide (value = 1) && oneAllowed)
  | .float value =>
      .ok ((Binary64.zero false).lt value &&
        (value.lt .one || oneAllowed && value.eqv .one))
  | d => .error (.unordered d.kind)

end Datum
end KeySampling
