import MethodJit.CommandLine

/-!
# The program

Reads the files that the arguments name, and prints what the command gives.
-/

namespace MethodJit

/-- The contents of a file that can be read. -/
def readFile? (name : String) : IO (Option (List UInt8)) := do
  try
    let bytes ← IO.FS.readBinFile name
    pure (some bytes.toList)
  catch _ => pure none

/-- The contents of files with their names. -/
def readFiles (names : List String) : IO (List (String × List UInt8)) := do
  let read (name : String) : IO (Option (String × List UInt8)) := do
    pure ((← readFile? name).map fun bs => (name, bs))
  names.filterMapM read

/-- More steps and nested calls than a run can take. -/
def ample : Nat := 1000000000000

end MethodJit

open MethodJit

def main (args : List String) : IO UInt32 := do
  let names := match Options.parse args with
    | .ok o => o.inputs
    | .error _ => []
  let files ← readFiles names
  let result := CommandLine.run ample ample (fun name => files.lookup name) args
  (← IO.getStdout).putStr result.output
  (← IO.getStderr).putStr result.errors
  pure (UInt32.ofNat result.exit)
