import TagFilter.Decimal.Literal
import TagFilter.Engine.Kind
import TagFilter.Lifecycle
import TagFilter.Pattern
import TagFilter.Text.Quoted
import TagFilter.Text.Utf8

/-! # Errors

The causes of failure, and the text an operator sees for each.
-/
namespace TagFilter

/-- Why a stored engine cannot be read. -/
inductive BlobFault where
  | endOfData
  | shortText
  | badText (fault : Text.Utf8Fault)
  | badOption (tag : UInt8)
  deriving DecidableEq, Repr

def BlobFault.message : BlobFault → String
  | endOfData => "io error: unexpected end of file"
  | shortText => "io error: "
  | badText fault => "string is not valid utf8: " ++ fault.message
  | badOption tag => "tag for enum is not valid, found " ++ toString tag.toNat

inductive ConfigFault where
  | unknownEngine (name : String)
  | noEngines
  | repeatedEngine (kind : EngineKind)
  | zeroInterval
  | zeroCapacity
  deriving DecidableEq, Repr

def ConfigFault.message : ConfigFault → String
  | unknownEngine name => "unknown engine " ++ Text.Quoted.string name
  | noEngines => "at least one engine must be enabled"
  | repeatedEngine kind => "engine " ++ kind.name ++ " enabled twice"
  | zeroInterval => "stat_interval_secs cannot be 0"
  | zeroCapacity => "channel_capacity cannot be 0"

/-- Why a file cannot be used. -/
inductive FileFault where
  | missing
  | notText
  | other (reason : String)
  deriving DecidableEq, Repr

def FileFault.message : FileFault → String
  | missing => "No such file or directory (os error 2)"
  | notText => "stream did not contain valid UTF-8"
  | other reason => reason

/-- The text that the bytes of a file stand for. -/
def FileFault.readText (bytes : List UInt8) : Except FileFault String :=
  match Text.Utf8.decode bytes with
  | .ok text => .ok text
  | .error _ => .error .notText

/-- What is wrong with one record of a subscription file. -/
inductive RecordFault where
  | badWeight (field : List Char) (fault : Decimal.LiteralFault)
  | fieldCount (count : Nat)
  | emptyUri
  | emptyPattern
  deriving DecidableEq, Repr

def RecordFault.message : RecordFault → String
  | badWeight field fault => "bad weight " ++ Text.Quoted.chars field ++ ": " ++ fault.message
  | fieldCount count => "expected 2 or 3 fields, found " ++ toString count
  | emptyUri => "empty report URI"
  | emptyPattern => "empty pattern"

inductive SourceFault where
  | file (fault : FileFault)
  | record (line : Nat) (fault : RecordFault)
  deriving DecidableEq, Repr

def SourceFault.message : SourceFault → String
  | file fault => "I/O error: " ++ fault.message
  | record line fault => "Line " ++ toString line ++ ": " ++ fault.message

inductive FilterError where
  | invalidPattern (pattern : Pattern) (found : Char) (position : Nat)
  | emptyPattern
  | emptyFilterSet
  | noOverlap (head tail : Nat)
  | notFound (pattern : Pattern) (uri : String)
  | typeMismatch (expected found : String)
  | serialization (fault : BlobFault)
  | invalidTransition (state : EngineState) (event : LifecycleEvent)
  | noEngineReady
  | engineNotRegistered (kind : EngineKind)
  | invalidConfig (fault : ConfigFault)
  | source (fault : SourceFault)
  deriving DecidableEq, Repr

namespace FilterError

def message : FilterError → String
  | invalidPattern pattern found position =>
    "Invalid pattern " ++ Text.Quoted.chars pattern ++ ": unexpected character " ++
      Text.Quoted.char found ++ " at bit " ++ toString position
  | emptyPattern => "Empty subscription pattern"
  | emptyFilterSet => "Cannot compose an empty filter set"
  | noOverlap head tail =>
    "Filters do not overlap: head byte " ++ toString head ++ " >= tail byte " ++ toString tail
  | notFound pattern uri =>
    "Subscription not found: " ++ String.ofList pattern ++ " -> " ++ uri
  | typeMismatch expected found =>
    "Engine blob type mismatch: expected " ++ expected ++ ", found " ++ found
  | serialization fault => "Serialization error: " ++ fault.message
  | invalidTransition state event =>
    "Invalid transition: " ++ event.name ++ " is not accepted in state " ++ state.name
  | noEngineReady => "No engine is ready to serve searches"
  | engineNotRegistered kind => "Engine not registered: " ++ kind.name
  | invalidConfig fault => "Invalid configuration: " ++ fault.message
  | source fault => "Subscription source error: " ++ fault.message

/-- The messages of an error and of what lies behind it, outermost first. -/
def chain : FilterError → List String
  | source (.file fault) =>
    [message (.source (.file fault)), (SourceFault.file fault).message, fault.message]
  | source fault => [message (.source fault), fault.message]
  | error => [error.message]

end FilterError

/-- The error of an operation, with what was being attempted, outermost first. -/
structure Failure where
  contexts : List String
  chain : List String
  deriving DecidableEq, Repr

namespace Failure

def ofError (error : FilterError) : Failure := ⟨[], error.chain⟩

def within (context : String) (f : Failure) : Failure := ⟨context :: f.contexts, f.chain⟩

def message (f : Failure) : String := ": ".intercalate (f.contexts ++ f.chain)

end Failure

/-- A pattern is accepted when it has no character that may not stand in it. -/
def Pattern.validate (wildcards : Bool) (p : Pattern) : Except FilterError Unit :=
  match p.firstRefused wildcards with
  | some (found, position) => .error (.invalidPattern p found position)
  | none => .ok ()

end TagFilter
