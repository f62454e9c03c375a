import Lifespan.CommandLine

namespace Lifespan.CommandLine

def attempt {α : Type} (x : IO α) : IO (Option α) := do
  match ← x.toBaseIO with
  | .ok a => return some a
  | .error _ => return none

def lineText : Level × String → String
  | (level, message) => "[" ++ level.text ++ "] " ++ message

/-- Events go to standard error at the chosen level, and all of them to the log file. -/
def fileHost : Host IO where
  create path := do return (← attempt (IO.FS.writeFile path "")).isSome
  read path := attempt (IO.FS.readFile path)
  log o events := do
    for line in Event.linesUpTo o.level events do
      IO.eprintln (lineText line)
    if let some path := o.logFile then
      let lines := (Event.linesUpTo .trace events).map fun line => lineText line ++ "\n"
      let _ ← attempt (IO.FS.writeFile path (String.join lines))

def usageText : String := "error: invalid arguments, try --help"

def finish : Outcome → IO UInt32
  | .printed lines => do
    for line in lines do
      IO.println line
    return 0
  | .misused => do
    IO.eprintln usageText
    return 1
  | .noLogFile => do
    IO.eprintln "Error: unable to create the log file"
    return 1
  | .failed e => do
    IO.eprintln ("Error: " ++ e.message)
    return 1

end Lifespan.CommandLine

def main (args : List String) : IO UInt32 := do
  Lifespan.CommandLine.finish (← Lifespan.CommandLine.run Lifespan.CommandLine.fileHost args)
