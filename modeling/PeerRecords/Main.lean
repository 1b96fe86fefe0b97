import PeerRecords.CommandLine

/-
  The program: reads the files that its arguments name and prints what the command prints.
-/

namespace PeerRecords

open CommandLine

/-- The file of a path. -/
def readFile (path : String) : IO File := do
  try
    let content ← IO.FS.readBinFile path
    return ⟨path, some content.toList⟩
  catch _ => return ⟨path, none⟩

/-- The command of a list of arguments. -/
def readCommand : List String → IO (Option Command)
  | ["fmt", path] => return some (.fmt (← readFile path))
  | ["cid", path] => return some (.cid (← readFile path))
  | ["replay", script] => return some (.replay (← readFile script) none)
  | ["replay", script, "--config", config] =>
    return some (.replay (← readFile script) (some (← readFile config)))
  | ["replay", "--config", config, script] =>
    return some (.replay (← readFile script) (some (← readFile config)))
  | _ => return none

end PeerRecords

/-- Runs the command and ends with 0, with 1 if it stopped, or with 2 if there is none. -/
def main (args : List String) : IO UInt32 := do
  match ← PeerRecords.readCommand args with
  | none =>
    IO.eprintln "usage: fmt FILE | cid FILE | replay SCRIPT [--config FILE]"
    return 2
  | some command =>
    let outcome := PeerRecords.CommandLine.run command
    IO.print outcome.printed
    match outcome.failure with
    | none => return 0
    | some failure =>
      IO.eprintln s!"Error: {failure.message}"
      return 1
