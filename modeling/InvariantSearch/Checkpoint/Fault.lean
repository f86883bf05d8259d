import InvariantSearch.Search.State

/-!
# What can be wrong with a checkpoint
-/

namespace InvariantSearch

/-- Why an s-expression is not the checkpoint of a program. -/
inductive DecodeFault where
  | read (fault : Fault)
  | notCheckpoint
  | notEntry (keyword got : String)
  | malformedEntry (keyword : String)
  | outOfRange (what digits : String)
  | unknownKind (word : String)
  | notVariables
  | malformedVariable
  | unknownSort (name : String)
  | notConjuncts
  | malformedConjunct
  | version (found supported : Nat)
  | otherProgram (found expected : Nat)
  | fewFrames
  /-- A predicate of a frame is missing in the frame before. -/
  | notContained (frame : Nat) (predicate : Formula)
  | noFrame (obligation frame : Nat)
  | parentAbove (obligation : Nat)
  | parentFrame (obligation frame parent : Nat)
  | parentKind (obligation : Nat) (may parentMay : Bool)
  | unknownTransition (obligation : Nat) (name : String)
  deriving DecidableEq

def DecodeFault.message : DecodeFault → String
  | .read fault => fault.message
  | .notCheckpoint => "Not a checkpoint"
  | .notEntry keyword got => "Expected a \"" ++ keyword ++ "\" entry, got \"" ++ got ++ "\""
  | .malformedEntry keyword => "Malformed \"" ++ keyword ++ "\" entry"
  | .outOfRange what digits => what ++ " out of range: " ++ digits
  | .unknownKind word => "Unknown conjunct kind \"" ++ word ++ "\""
  | .notVariables => "Expected a list of diagram variables"
  | .malformedVariable => "Malformed diagram variable"
  | .unknownSort name => "Unknown sort \"" ++ name ++ "\""
  | .notConjuncts => "Expected a list of diagram conjuncts"
  | .malformedConjunct => "Malformed diagram conjunct"
  | .version found supported =>
    "Checkpoint format version " ++ toString found ++ " is not supported, expected version " ++
      toString supported
  | .otherProgram found expected =>
    "Checkpoint was written for a different program (fingerprint " ++ toString found ++
      ", expected " ++ toString expected ++ ")"
  | .fewFrames => "Checkpoint has fewer than two frames"
  | .notContained frame predicate =>
    "Frame " ++ toString frame ++ " is not contained in frame " ++ toString (frame - 1) ++
      ": " ++ predicate.render
  | .noFrame obligation frame =>
    "Obligation " ++ toString obligation ++ " refers to frame " ++ toString frame
  | .parentAbove obligation =>
    "Obligation " ++ toString obligation ++ " has a parent above it on the stack"
  | .parentFrame obligation frame parent =>
    "Obligation " ++ toString obligation ++ " at frame " ++ toString frame ++
      " has its parent at frame " ++ toString parent
  | .parentKind obligation may parentMay =>
    "Obligation " ++ toString obligation ++ " is a " ++ Obligation.kindWord may ++
      " obligation under a " ++ Obligation.kindWord parentMay ++ " obligation"
  | .unknownTransition obligation name =>
    "Obligation " ++ toString obligation ++ " refers to unknown transition \"" ++ name ++ "\""

/-- Why a text or a file is no usable checkpoint. -/
inductive CheckpointFault where
  /-- The text does not hold exactly one s-expression. -/
  | count (source : String) (found : Nat)
  | located (source : String) (fault : Located DecodeFault)
  /-- A formula does not fit the program. -/
  | formula (fault : SortFault)
  | unreadable (file : String)
  | unwritable (file : String)
  /-- What was written aside does not get to its place. -/
  | immovable (aside file : String)
  deriving DecidableEq

def CheckpointFault.message : CheckpointFault → String
  | .count source found =>
    source ++ ": expected exactly one checkpoint, found " ++ toString found ++
      " top level expressions"
  | .located source fault =>
    "Invalid checkpoint: " ++ atLine source fault.line fault.value.message
  | .formula fault => "Invalid checkpoint: " ++ fault.message
  | .unreadable file => "Could not open checkpoint \"" ++ file ++ "\""
  | .unwritable file => "Could not open \"" ++ file ++ "\" for writing"
  | .immovable aside file => "Could not move \"" ++ aside ++ "\" to \"" ++ file ++ "\""

end InvariantSearch
