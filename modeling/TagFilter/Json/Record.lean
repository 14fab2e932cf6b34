import TagFilter.Json.Number
import TagFilter.Json.Reader

/-! # Records in JSON

A record is an object with known members, in any order, or an array of the
values of its fields in their fixed order. Unknown members of an object are
passed over, and a known one may stand there only once. Values nest to a limited
depth: each object or array that is entered uses up one level.
-/
namespace TagFilter.Json

/-- How many objects and arrays may be entered from outside to inside. -/
def depthLimit : Nat := 127

namespace Value

def text? : Value → Option String
  | .text content => content
  | _ => none

def bool? : Value → Option Bool
  | .bool b => some b
  | _ => none

def nat? (limit : Nat) : Value → Option Nat
  | .number literal => natural? limit literal
  | _ => none

def float? : Value → Option Float
  | .number literal => real? literal
  | _ => none

/-- An optional text: null stands for none. -/
def textOption? : Value → Option (Option String)
  | .null => some none
  | .text (some content) => some (some content)
  | _ => none

/-- The values of the named fields of a record, none where a field is left out.
An array has them in order and no others after them. -/
def fields? (names : List String) : Value → Option (List (Option Value))
  | .array items =>
    if items.length ≤ names.length then
      some (items.map some ++ List.replicate (names.length - items.length) none)
    else none
  | .object members =>
    if members.all fun (key, _) => key.isSome then
      names.mapM fun name =>
        match members.filter fun (key, _) => key = some name with
        | [] => some none
        | [(_, value)] => some (some value)
        | _ => none
    else none
  | _ => none

/-- The name of a case that has no fields. -/
def caseName? : Value → Option String
  | .text content => content
  | .object [(key, .null)] => key
  | _ => none

end Value
end TagFilter.Json
