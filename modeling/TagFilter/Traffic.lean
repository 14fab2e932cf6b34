import TagFilter.Error
import TagFilter.Pattern
import TagFilter.Text.Hex
import TagFilter.Text.Lines

/-! # Traffic files

Identifiers to replay, one to a line in hexadecimal digits. Blanks around lines
do not count; empty lines and lines that begin with a number sign are passed
over. The first line that cannot be read is named by its number in the file.
-/
namespace TagFilter.Traffic

/-- A line that is no identifier. -/
structure Fault where
  line : Nat
  digits : List Char
  fault : Text.HexError
  deriving DecidableEq, Repr

def Fault.failure (f : Fault) : Failure where
  contexts := ["line " ++ toString f.line ++ ": bad hex " ++ Text.Quoted.chars f.digits]
  chain := [f.fault.message]

def isSkipped (line : List Char) : Bool := line = [] || line.head? = some '#'

def readLine (numbered : Nat × List Char) : Except Fault Identifier :=
  match Text.Hex.decode (Text.Utf8.encode (String.ofList numbered.2)) with
  | .ok id => .ok id
  | .error fault => .error ⟨numbered.1, numbered.2, fault⟩

/-- The trimmed lines that are not passed over, with their numbers. -/
def contentLines (text : List Char) : List (Nat × List Char) :=
  ((Text.numbered text).map fun (number, line) => (number, Text.trim line)).filter
    fun (_, line) => !isSkipped line

def parseChars (text : List Char) : Except Fault (List Identifier) :=
  (contentLines text).mapM readLine

def parse (text : String) : Except Fault (List Identifier) := parseChars text.toList

/-- Reads the bytes of a file that is shown to operators under a name. -/
def ofFile (name : String) (contents : Except FileFault (List UInt8)) :
    Except Failure (List Identifier) :=
  match contents.bind FileFault.readText with
  | .error fault => .error ⟨["Failed to read traffic file " ++ name], [fault.message]⟩
  | .ok text =>
    match parse text with
    | .ok ids => .ok ids
    | .error fault => .error (fault.failure.within ("Invalid traffic file " ++ name))

end TagFilter.Traffic
