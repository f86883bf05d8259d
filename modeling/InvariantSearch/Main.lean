import InvariantSearch.CommandLine.Run
import InvariantSearch.Solver.Notation

/-!
# The program

Reads the files a command line names and the solver's answers, which come from
standard input, and lets `run` decide everything else.
-/

namespace InvariantSearch

/-- The files that a run reads, and those that it writes. -/
def namedFiles (words : List String) : List String × List String :=
  match Options.read words with
  | .ok (.run o) =>
    ([o.file, o.checkpoint].filter (· ≠ ""), [o.logFile, o.search.checkpoint].filter (· ≠ ""))
  | _ => ([], [])

def roundLimit : Nat := 1000000000

/-- Reads what lies under a name, if anything does. What can be opened and not
be read is a directory. -/
def loadFile (disk : Disk) (name : String) : IO Disk := do
  let p := Place.ofName name
  match ← (IO.FS.Handle.mk name .read).toBaseIO with
  | .error _ => return disk
  | .ok handle =>
    match ← handle.readToEnd.toBaseIO with
    | .error _ => return disk.addDirectory p
    | .ok content => return disk.addFile p content

/-- Notes the directories that files can be written to, which a trial shows. -/
def findDirectories (disk : Disk) (names : List String) : IO Disk :=
  names.foldlM (fun disk (name : String) => do
    let aside := Checkpoint.asideName name
    try
      IO.FS.writeFile aside ""
      IO.FS.removeFile aside
      return disk.addDirectory (Place.ofName name).up
    catch _ => return disk) disk

def storeFiles (before after : Disk) : IO Unit :=
  after.files.forM fun (p, content) => do
    if before.files.lookup p ≠ some content then IO.FS.writeFile p.render content

/-- Runs a command line with answers from standard input. -/
def serve (words : List String) : IO UInt32 := do
  let (read, written) := namedFiles words
  let disk ← read.foldlM loadFile .empty
  let disk ← findDirectories disk written
  match Script.read (← (← IO.getStdin).readToEnd) with
  | .error fault => do
    IO.eprintln (atLine "<script>" fault.line fault.value.message)
    return UInt32.ofNat ExitStatus.error.code
  | .ok script => do
    let a := run roundLimit script disk words
    IO.print a.output
    IO.eprint a.complaints
    storeFiles disk a.disk
    match a.status with
    | some status => return UInt32.ofNat status.code
    | none => do
      IO.eprintln Error.unanswered.message
      return UInt32.ofNat ExitStatus.error.code

end InvariantSearch

def main (words : List String) : IO UInt32 := InvariantSearch.serve words
