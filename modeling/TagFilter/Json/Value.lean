import TagFilter.Decimal.Rendering

/-! # JSON values

Values with their members in the order in which they are written, numbers as
they are written, and two ways of writing a value: on one line, or with one
member to a line and two blanks for each level.
-/
namespace TagFilter.Json

/-- A string with half of a surrogate pair in its escapes stands for no text. -/
inductive Value where
  | null
  | bool (b : Bool)
  | number (literal : List Char)
  | text (content : Option String)
  | array (items : List Value)
  | object (members : List (Option String × Value))

namespace Value

def ofText (content : String) : Value := .text (some content)

def ofTextOption : Option String → Value
  | some content => ofText content
  | none => .null

def ofNat (n : Nat) : Value := .number (Nat.toDigits 10 n)

/-- A number that is not finite has no form of its own. -/
def ofFloat (value : Float) : Value :=
  let w := Weight.ofFloat value
  if w.isFinite then .number (Decimal.render Decimal.reportStyle w) else .null

def record (members : List (String × Value)) : Value :=
  .object (members.map fun (key, value) => (some key, value))

/-- A character inside quotes. -/
def escaped (c : Char) : List Char :=
  if c = '"' ∨ c = '\\' then ['\\', c]
  else if c = '\x08' then ['\\', 'b']
  else if c = '\x0c' then ['\\', 'f']
  else if c = '\n' then ['\\', 'n']
  else if c = '\r' then ['\\', 'r']
  else if c = '\t' then ['\\', 't']
  else if c.toNat < 32 then
    ['\\', 'u', '0', '0'] ++ (if c.toNat < 16 then ['0'] else []) ++ Nat.toDigits 16 c.toNat
  else [c]

def quoted (content : Option String) : List Char :=
  ['"'] ++ (content.getD "").toList.flatMap escaped ++ ['"']

/-- Brackets around items that are separated by commas. -/
def bracketed (opening closing : Char) (items : List (List Char)) : List Char :=
  [opening] ++ List.intercalate [','] items ++ [closing]

mutual

def compactChars : Value → List Char
  | .null => ['n', 'u', 'l', 'l']
  | .bool b => if b then ['t', 'r', 'u', 'e'] else ['f', 'a', 'l', 's', 'e']
  | .number literal => literal
  | .text content => quoted content
  | .array items => bracketed '[' ']' (compactItems items)
  | .object members => bracketed '\x7b' '\x7d' (compactMembers members)

def compactItems : List Value → List (List Char)
  | [] => []
  | item :: rest => compactChars item :: compactItems rest

def compactMembers : List (Option String × Value) → List (List Char)
  | [] => []
  | (key, value) :: rest => (quoted key ++ [':'] ++ compactChars value) :: compactMembers rest

end

def newline (level : Nat) : List Char := '\n' :: List.replicate (2 * level) ' '

/-- Brackets around items that stand on lines of their own one level deeper. -/
def spread (opening closing : Char) (level : Nat) (items : List (List Char)) : List Char :=
  match items with
  | [] => [opening, closing]
  | items =>
    [opening] ++ newline (level + 1) ++ List.intercalate (',' :: newline (level + 1)) items ++
      newline level ++ [closing]

mutual

def prettyChars (level : Nat) : Value → List Char
  | .array items => spread '[' ']' level (prettyItems (level + 1) items)
  | .object members => spread '\x7b' '\x7d' level (prettyMembers (level + 1) members)
  | .null => compactChars .null
  | .bool b => compactChars (.bool b)
  | .number literal => literal
  | .text content => quoted content

def prettyItems (level : Nat) : List Value → List (List Char)
  | [] => []
  | item :: rest => prettyChars level item :: prettyItems level rest

def prettyMembers (level : Nat) : List (Option String × Value) → List (List Char)
  | [] => []
  | (key, value) :: rest =>
    (quoted key ++ [':', ' '] ++ prettyChars level value) :: prettyMembers level rest

end

def compact (value : Value) : String := String.ofList value.compactChars

def pretty (value : Value) : String := String.ofList (value.prettyChars 0)

end Value
end TagFilter.Json
