/-
The command.

Files are read and written here and nowhere else.  The programs that a directory keeps are in
one file in it, which is missing until the first of them is kept.
-/
import KernelForge.CommandLine.Request

namespace KernelForge.CommandLine

/-- Why a file could not be read. -/
def readFault (path : String) : IO.Error → Fault
  | .noFileOrDirectory .. => .plain ("open " ++ path ++ ": no such file or directory")
  | .permissionDenied .. => .plain ("open " ++ path ++ ": permission denied")
  | .inappropriateType .. => .plain ("read " ++ path ++ ": is a directory")
  | e => .plain ("read " ++ path ++ ": " ++ toString e)

/-- The file in which a directory keeps its programs. -/
def programsFile (dir : String) : String := dir ++ "/programs"

/-- The files of the system that the command runs on. -/
def systemFiles : Files IO where
  read path := do
    try
      return .ok (← IO.FS.readFile path)
    catch e => return .error (readFault path e)
  load dir := do
    try
      return .ofText (← IO.FS.readFile (programsFile dir))
    catch _ => return {}
  keep dir store := do
    IO.FS.createDirAll dir
    IO.FS.writeFile (programsFile dir) store.text

end KernelForge.CommandLine

open KernelForge CommandLine in
/-- Does what the command line asks for, and fails when that fails. -/
def main (args : List String) : IO UInt32 := do
  let report ← execute systemFiles args
  IO.print report.output
  match report.fault? with
  | none => return 0
  | some f =>
    IO.eprintln (programName ++ ": " ++ f.message)
    return 1
