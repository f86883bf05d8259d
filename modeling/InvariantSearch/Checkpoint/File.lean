import InvariantSearch.Checkpoint.Reader
import InvariantSearch.Storage.Disk

/-!
# Checkpoints in files

A checkpoint is written aside and then moved to its place, so that an old one
is replaced as a whole. What was written aside stays when the move fails.
-/

namespace InvariantSearch

namespace Checkpoint

/-- The name under which a checkpoint is written before it is moved. -/
def asideName (name : String) : String := name ++ ".tmp"

def save (p : Program) (s : SearchState) (name : String) : EStateM CheckpointFault Disk Unit := do
  let aside := asideName name
  match (← get).create? aside with
  | none => throw (.unwritable aside)
  | some (number, d) =>
    set (d.write number 0 (render p s))
    match (← get).move? aside name with
    | none => throw (.immovable aside name)
    | some d => set d

def loadedLine (source : String) (s : SearchState) : String :=
  "Loaded checkpoint " ++ source ++ ": " ++ toString s.frames.length ++ " frames, " ++
    toString s.obligations.length ++ " obligations\n"

def load (p : Program) (name : String) (d : Disk) : Except CheckpointFault SearchState :=
  match d.read? name with
  | some text => read p name text
  | none => .error (.unreadable name)

end Checkpoint

end InvariantSearch
