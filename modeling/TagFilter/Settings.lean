import TagFilter.Config
import TagFilter.Text.Lines

/-! # Settings

What the service is told through variables. A variable that is not set leaves
the default in place.
-/
namespace TagFilter

/-- The values of variables by name. -/
abbrev Variables := String → Option String

/-- Why a text is no number of sixty-four bits. -/
inductive NumberFault where
  | empty
  | badDigit
  | tooLarge
  deriving DecidableEq, Repr

def NumberFault.message : NumberFault → String
  | .empty => "cannot parse integer from empty string"
  | .badDigit => "invalid digit found in string"
  | .tooLarge => "number too large to fit in target type"

namespace Settings

/-- Digits from left to right: the first fault counts. -/
def readDigits (value : Nat) : List Char → Except NumberFault Nat
  | [] => .ok value
  | c :: rest =>
    if Decimal.isDigit c then
      let next := 10 * value + (c.toNat - 48)
      if next < Json.wordLimit then readDigits next rest else .error .tooLarge
    else .error .badDigit

/-- A number may have a plus sign in front of its digits. -/
def readNumber : List Char → Except NumberFault Nat
  | [] => .error .empty
  | ['+'] => .error .badDigit
  | '+' :: digits => readDigits 0 digits
  | digits => readDigits 0 digits

/-- A flag is set by the number one or the word true in any letter case. -/
def isSet (flag : String) : Bool :=
  flag = "1" || flag.toList.map Char.toLower = "true".toList

end Settings

structure Settings where
  subscriptions : String
  traffic : Option String
  localityOut : Option String
  engines : List EngineKind
  statIntervalSecs : Nat
  shadowSearch : Bool
  deriving DecidableEq, Repr

namespace Settings

/-- Engine names between commas; empty names are passed over. -/
def readEngines (names : String) : Except Failure (List EngineKind) :=
  (((Text.fields ',' names.toList).map Text.trim).filter (· ≠ [])).mapM fun name =>
    match EngineKind.ofName? (String.ofList name) with
    | some kind => .ok kind
    | none =>
      .error ((Failure.ofError (.invalidConfig (.unknownEngine (String.ofList name)))).within
        "FC_ENGINES")

def readInterval (secs : String) : Except Failure Nat :=
  match readNumber secs.toList with
  | .ok value => .ok value
  | .error fault =>
    .error ⟨["FC_STAT_INTERVAL_SECS=" ++ Text.Quoted.string secs], [fault.message]⟩

/-- The variables that are looked at. -/
def variableNames : List String :=
  ["FC_SUBSCRIPTIONS", "FC_TRAFFIC", "FC_LOCALITY_OUT", "FC_ENGINES", "FC_STAT_INTERVAL_SECS",
    "FC_SHADOW_SEARCH"]

def ofVariables (given : Variables) : Except Failure Settings := do
  let engines ← match given "FC_ENGINES" with
    | some names => readEngines names
    | none => .ok EngineKind.all
  let interval ← match given "FC_STAT_INTERVAL_SECS" with
    | some secs => readInterval secs
    | none => .ok 5
  return {
    subscriptions := (given "FC_SUBSCRIPTIONS").getD "subscriptions.csv"
    traffic := given "FC_TRAFFIC"
    localityOut := given "FC_LOCALITY_OUT"
    engines := engines
    statIntervalSecs := interval
    shadowSearch := ((given "FC_SHADOW_SEARCH").map isSet).getD false }

def toJson (s : Settings) : Json.Value :=
  .record
    [("subscriptions", .ofText s.subscriptions),
      ("traffic", .ofTextOption s.traffic),
      ("locality_out", .ofTextOption s.localityOut),
      ("engines", .array (s.engines.map fun kind => .ofText kind.name)),
      ("stat_interval_secs", .ofNat s.statIntervalSecs),
      ("shadow_search", .bool s.shadowSearch)]

def coordinatorConfig (s : Settings) : Except Failure Config :=
  let draft : ConfigDraft := {
    engines := some s.engines
    statIntervalSecs := some s.statIntervalSecs
    shadowSearch := some s.shadowSearch }
  match draft.build with
  | .ok config => .ok config
  | .error error => .error ((Failure.ofError error).within "Invalid coordinator configuration")

end Settings

/-- How log output is to look. -/
structure LogSettings where
  serviceName : String
  level : String
  asJson : Bool
  deriving DecidableEq, Repr

namespace LogSettings

def ofVariables (given : Variables) : LogSettings where
  serviceName := (given "FC_SERVICE_NAME").getD "fc-runtime"
  level := (given "FC_LOG_LEVEL" <|> given "RUST_LOG").getD "info"
  asJson := ((given "FC_JSON_LOGS").map Settings.isSet).getD false

def forService (name : String) (given : Variables) : LogSettings :=
  { ofVariables given with serviceName := name }

end LogSettings
end TagFilter
