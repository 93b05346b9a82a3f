import KeySampling.Binary64.Basic
/-! The values a stream may hold, as items or as the values that come with them. A text is a
list of code points. A buffer is a byte string that can change. -/
namespace KeySampling

inductive Datum where
  | none
  | bool (value : Bool)
  | int (value : Int)
  | float (value : Binary64)
  | text (codes : List Nat)
  | bytes (content : List UInt8)
  | buffer (content : List UInt8)
  | tuple (items : List Datum)
  | list (items : List Datum)

instance : Inhabited Datum := ⟨.none⟩

def Datum.kind : Datum → String
  | none => "NoneType"
  | bool _ => "bool"
  | int _ => "int"
  | float _ => "float"
  | text _ => "str"
  | bytes _ => "bytes"
  | buffer _ => "bytearray"
  | tuple _ => "tuple"
  | list _ => "list"

end KeySampling
