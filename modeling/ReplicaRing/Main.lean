import ReplicaRing.CommandLine
import Std.Time.DateTime.Timestamp

/-!
# The program

Reads the files that the arguments name, runs the command and prints what it comes to.
-/

open ReplicaRing

/-- The content of a file, if it can be read. -/
def readContent (path : String) : IO (Option ByteArray) :=
  try
    return some (← IO.FS.readBinFile path)
  catch _ =>
    return none

def main (args : List String) : IO UInt32 := do
  let now ← Std.Time.Timestamp.now
  let created := UInt64.ofNat now.toMillisecondsSinceUnixEpoch.toInt.toNat
  let files := ((CommandLine.Arguments.ofList? args).map CommandLine.Arguments.files).getD []
  let contents ← files.mapM fun path => return (path, ← readContent path)
  let result := CommandLine.run (fun path => (contents.lookup path).join) created args
  IO.print result.output
  IO.eprint result.complaint
  return result.status
