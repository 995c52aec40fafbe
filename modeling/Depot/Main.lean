import Depot.Command.Run
import Depot.Disk

/-!
# The command line

`main` runs a command on the disk of the machine. What it fetched or found goes to standard output
and the text of a failure to standard error.
-/

namespace Depot

/-- The variables in the octets that the system shows of an environment. -/
def Environment.ofOctets (bs : Bytes) : Environment :=
  (Text.splitOn 0 bs).filterMap fun entry => do
    let name ← Text.decode? (entry.takeWhile (· != Command.equals))
    let value ← (entry.dropWhile (· != Command.equals)).tail?
    return (name, value)

/-- The environment of this process, as far as the system shows it. -/
def Environment.ofProcess : IO Environment :=
  tryCatch (do return .ofOctets (← IO.FS.readBinFile "/proc/self/environ").toList) fun _ =>
    return []

end Depot

open Depot in
/-- Runs a command. -/
def main (args : List String) : IO UInt32 := do
  let environment ← Environment.ofProcess
  let outcome ← Disk.perform (Command.run environment (args.map Text.encode))
  (← IO.getStdout).write ⟨outcome.output.octets.toArray⟩
  if let some text := outcome.failure then
    IO.eprintln ("ERROR Command failed error=" ++ text)
  return UInt32.ofNat outcome.status
