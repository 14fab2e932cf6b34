import TagFilter.Subscription.Basic
import TagFilter.Text.Lines

/-! # Subscription files

One record to a line: the report URI, the pattern, and a weight that may be left
out and is then zero. Blanks around lines and fields do not count. Empty lines
and lines that begin with a number sign are passed over. Of several records for
one pattern the last counts.
-/
namespace TagFilter

structure Record where
  uri : List Char
  pattern : Pattern
  weight : Weight
  deriving DecidableEq, Repr

namespace Record

def isSkipped (line : List Char) : Bool := line = [] || line.head? = some '#'

def make (uri : List Char) (pattern : Pattern) (weight : Weight) : Except RecordFault Record :=
  if uri = [] then .error .emptyUri
  else if pattern = [] then .error .emptyPattern
  else .ok ⟨uri, pattern, weight⟩

/-- Reads the record of a trimmed line. A weight is looked at before the other
fields. -/
def ofLine (line : List Char) : Except RecordFault Record :=
  match (Text.fields ',' line).map Text.trim with
  | [uri, pattern] => make uri pattern Weight.zero
  | [uri, pattern, weight] =>
    match Decimal.readLiteral weight with
    | .ok value => make uri pattern value
    | .error fault => .error (.badWeight weight fault)
  | fields => .error (.fieldCount fields.length)

end Record

namespace Subscriptions

/-- Adds the record of a numbered line, if it holds one. -/
def addLine (subs : Subscriptions) (numbered : Nat × List Char) :
    Except FilterError Subscriptions :=
  let line := Text.trim numbered.2
  if Record.isSkipped line then .ok subs
  else
    match Record.ofLine line with
    | .ok record => insert record.pattern (String.ofList record.uri) record.weight subs
    | .error fault => .error (.source (.record numbered.1 fault))

def ofCsvChars (text : List Char) : Except FilterError Subscriptions :=
  (Text.numbered text).foldlM addLine .nil

def ofCsv (text : String) : Except FilterError Subscriptions := ofCsvChars text.toList

/-- Reads the bytes of a file, or fails as the file did. -/
def ofFile (contents : Except FileFault (List UInt8)) : Except FilterError Subscriptions :=
  match contents.bind FileFault.readText with
  | .ok text => ofCsv text
  | .error fault => .error (.source (.file fault))

end Subscriptions
end TagFilter
