import TagFilter.Session
import TagFilter.Traffic

/-! # Command line

The program takes its settings from the environment, builds the engines, replays
the traffic file if there is one, and writes the locality report if one is asked
for. Then it waits for a line of input, reports the last statistics window and
ends. A failure is reported on the error stream.
-/
namespace TagFilter.Program

/-- How many nanoseconds the first engine is given. -/
def patience : Nat := 60000000000

def readVariables : IO Variables := do
  let found ← Settings.variableNames.filterMapM fun name => do
    return (← IO.getEnv name).map fun value => (name, value)
  return fun name => found.lookup name

def faultOf : IO.Error → FileFault
  | .noFileOrDirectory _ _ _ => .missing
  | error => .other (toString error)

def readBytes (name : String) : IO (Except FileFault (List UInt8)) := do
  try
    return .ok (← IO.FS.readBinFile name).toList
  catch error => return .error (faultOf error)

def writeText (name text : String) : IO (Except Failure Unit) := do
  try
    IO.FS.writeFile name text
    return .ok ()
  catch error => return .error (Session.writeFailure name (faultOf error))

/-- The failure of an operation that can fail with an error. -/
def lifted {α : Type} (answer : Except FilterError α) : Except Failure α :=
  answer.mapError Failure.ofError

def summaryText (r : ReplaySummary) : String :=
  "Traffic replayed events=" ++ toString r.events ++ " matched=" ++ toString r.matched ++
    " reports=" ++ toString r.reports

/-- Replays the traffic of the settings. The times of these searches are not
counted. -/
def replay (settings : Settings) (session : Session) : ExceptT Failure IO Session := do
  match settings.traffic with
  | none => return session
  | some name =>
    let ids ← ExceptT.mk (return Traffic.ofFile name (← readBytes name))
    let (answer, session) := session.replay ids fun _ => 0
    let summary ← ExceptT.mk (return lifted answer)
    liftM (IO.println (summaryText summary))
    match settings.localityOut with
    | none => return session
    | some out =>
      let text ← ExceptT.mk (return lifted (session.localityText ids))
      ExceptT.mk (writeText out text)
      return session

def waitForLine : IO Unit := do
  let input ← IO.getStdin
  let _ ← input.getLine

/-- Prints the events of a statistics window, one to a line. -/
def reportWindow (c : Coordinator) : IO Unit :=
  c.publishStats.events.forM fun event => IO.println event.toJson.compact

def serve : ExceptT Failure IO Unit := do
  let settings ← ExceptT.mk (return Settings.ofVariables (← readVariables))
  let contents ← liftM (readBytes settings.subscriptions)
  let loaded ← ExceptT.mk (return Session.load settings contents)
  let (answer, started) := loaded.start
  ExceptT.mk (return lifted answer)
  let session := started.settle
  let kind ← ExceptT.mk (return session.awaitEngine patience)
  liftM (IO.println ("Serving searches engine=" ++ kind.name))
  let session ← replay settings session
  liftM (waitForLine *> reportWindow session.service.coordinator)

end TagFilter.Program

def main : IO UInt32 := do
  match ← TagFilter.Program.serve.run with
  | .ok () => return 0
  | .error failure =>
    IO.eprintln ("Error: " ++ failure.message)
    return 1
