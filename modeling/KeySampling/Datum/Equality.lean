import KeySampling.Datum.Basic
import KeySampling.Binary64.Order
/-! Equality of data by value. Numbers agree when their exact values do, whatever their kind;
bytes agree with a buffer of the same content; a tuple and a list never agree. -/
namespace KeySampling.Datum

def integer? : Datum → Option Int
  | .bool value => some (if value then 1 else 0)
  | .int value => some value
  | _ => Option.none

def content? : Datum → Option (List UInt8)
  | .bytes content => some content
  | .buffer content => some content
  | _ => Option.none

def sameScalar (a b : Datum) : Bool :=
  match a.integer?, b.integer?, a.content?, b.content? with
  | some m, some n, _, _ => decide (m = n)
  | _, _, some x, some y => decide (x = y)
  | some m, Option.none, _, _ =>
      match b with
      | .float y => decide (y.toRat? = some (m : Rat))
      | _ => false
  | Option.none, some n, _, _ =>
      match a with
      | .float x => decide (x.toRat? = some (n : Rat))
      | _ => false
  | _, _, _, _ => false

mutual

def same : Datum → Datum → Bool
  | .none, .none => true
  | .float x, .float y => x.eqv y
  | .text x, .text y => decide (x = y)
  | .tuple xs, .tuple ys => sameAll xs ys
  | .list xs, .list ys => sameAll xs ys
  | a, b => sameScalar a b

def sameAll : List Datum → List Datum → Bool
  | [], [] => true
  | a :: as, b :: bs => same a b && sameAll as bs
  | _, _ => false

end

end KeySampling.Datum
