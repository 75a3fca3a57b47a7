import StackScript.CommandLine.Report
import StackScript.CommandLine.Scan

namespace StackScript
namespace CommandLine

def fetch (file : Option String) : IO (Except SourceError String) := do
  try
    let bytes ←
      match file with
      | some name => IO.FS.readBinFile name
      | none      => do (← IO.getStdin).readBinToEnd
    match String.fromUTF8? bytes with
    | some text => return .ok text
    | none      => return .error .notText
  catch
    -- A directory can be opened but not read, and an error on reading names no file.
    | .inappropriateType none ..     => return .error .directory
    | .inappropriateType (some _) .. => return .error .notDirectory
    | .noFileOrDirectory ..          => return .error .missing
    | e                              => throw e

def readEnvironment : IO Environment := do
  let keys := [Environment.stackSizeKey, Environment.callDepthKey, Environment.evaluationsKey,
    Logging.filterKey]
  let found ← keys.filterMapM fun key => do return (← IO.getEnv key).map (key, ·)
  return fun key => found.lookup key

def Report.print (r : Report) (env : Environment) : IO UInt32 := do
  for line in r.progress do
    IO.println line
    if r.pause ≠ 0 then
      IO.sleep r.pause.toUInt32
  for line in r.errors (.plain fun _ => "") env do
    IO.eprintln line
  for line in r.results do
    IO.println line
  return r.status.toUInt32

-- The run is kept between the two looks at the clock, which a pure value would not be.
def reportTimed (a : Arguments) (env : Environment) (text : String) : IO Report := do
  let started ← IO.monoNanosNow
  let run ← IO.lazyPure fun _ => (Session.ofSource (a.limits env) text).drain
  let ended ← IO.monoNanosNow
  return a.reportOn env ⟨ended - started⟩ run

end CommandLine
end StackScript

open StackScript.CommandLine in
def main (args : List String) : IO UInt32 := do
  let env ← readEnvironment
  match Scan.read args with
  | .error refusal => (Report.refused refusal).print env
  | .ok a          =>
    match ← fetch a.source? with
    | .error e => (Report.unread e).print env
    | .ok text => (← reportTimed a env text).print env
