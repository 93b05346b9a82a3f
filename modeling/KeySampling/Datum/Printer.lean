import KeySampling.Datum.Basic
import KeySampling.Decimal.Layout
import KeySampling.Text.Quoted
/-! The written form of a datum. Items that have no bytes of their own are hashed by it, so it
is stable: one datum, one text. An integer may have any number of digits. Runtimes can be set up
with a limit on them, which is assumed to be off, so that writing never fails. -/
namespace KeySampling.Datum

def commaSeparated (texts : List String) : String := ", ".intercalate texts

mutual

def write : Datum → String
  | .none => "None"
  | .bool value => if value then "True" else "False"
  | .int value => toString value
  | .float value => value.text
  | .text codes => Text.quoted codes
  | .bytes content => Text.quotedBytes content
  | .buffer content => "bytearray(" ++ Text.quotedBuffer content ++ ")"
  | .tuple items =>
      "(" ++ commaSeparated (writeAll items) ++ (if items.length = 1 then ",)" else ")")
  | .list items => "[" ++ commaSeparated (writeAll items) ++ "]"

def writeAll : List Datum → List String
  | [] => []
  | d :: rest => write d :: writeAll rest

end

end KeySampling.Datum
