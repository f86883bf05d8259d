import InvariantSearch.CommandLine.Arguments
import InvariantSearch.Search.Basic

/-!
# Options of a run

`Options.read` turns the words of a command line into what a run needs to know.
Faults are reported in a fixed order: first those of the words themselves, then
the subcommand, the program file, and the values of options one by one.
-/

namespace InvariantSearch

/-- What a run is to do. -/
inductive Subcommand where
  /-- Search for an inductive invariant. -/
  | search
  /-- Verify that the invariants are inductive. -/
  | verify
  /-- Look for a violation of safety within a number of steps. -/
  | bounded
  /-- Verify the theorems. -/
  | theorems
  /-- Only read the program. -/
  | typecheck
  deriving DecidableEq, Repr

namespace Subcommand

def word : Subcommand → String
  | .search => "updr"
  | .verify => "verify"
  | .bounded => "bmc"
  | .theorems => "theorem"
  | .typecheck => "typecheck"

def every : List Subcommand := [.search, .verify, .bounded, .theorems, .typecheck]

def ofWord? (word : String) : Option Subcommand := every.find? fun c => c.word == word

end Subcommand

/-- What a run needs to know. -/
structure Options where
  subcommand : Subcommand
  file : String
  /-- Whether the result is printed as JSON. -/
  json : Bool
  /-- The number of steps of a bounded check. -/
  depth : Nat
  /-- The checkpoint to go on from; none when empty. -/
  checkpoint : String
  /-- What the names of state symbols start with. -/
  label : String
  /-- The invariants to verify; all when empty. -/
  invariants : NameSet
  /-- The transitions to verify invariants over; all when empty. -/
  transitions : NameSet
  /-- The file of the log; standard output when empty. -/
  logFile : String
  compression : Compression
  /-- The topics of the log, by tag. -/
  topics : NameSet
  prover : ProverOptions
  search : SearchOptions
  deriving DecidableEq, Repr

/-- What a command line asks for. -/
inductive Request where
  | help
  | run (options : Options)
  deriving DecidableEq, Repr

namespace Options

def forms : List OptionForm := [
  ⟨"help", some 'h', .flag⟩,
  ⟨"safety", none, .one⟩,
  ⟨"json", none, .flag⟩,
  ⟨"depth", some 'd', .one⟩,
  ⟨"max-iterations", none, .one⟩,
  ⟨"checkpoint-in", none, .one⟩,
  ⟨"checkpoint-out", none, .one⟩,
  ⟨"push-frame-zero", none, .one⟩,
  ⟨"obligation-order", none, .one⟩,
  ⟨"use-unsat-cores", none, .one⟩,
  ⟨"simplify-diagram", none, .one⟩,
  ⟨"concretize-cex", none, .one⟩,
  ⟨"smoke-test", none, .flag⟩,
  ⟨"block-may-cexs", none, .flag⟩,
  ⟨"assert-inductive-trace", none, .flag⟩,
  ⟨"check-invariant", none, .many⟩,
  ⟨"check-transition", none, .many⟩,
  ⟨"minimize-models", none, .one⟩,
  ⟨"key-prefix", none, .one⟩,
  ⟨"timeout", none, .one⟩,
  ⟨"seed", none, .one⟩,
  ⟨"query-retries", none, .one⟩,
  ⟨"cpu-limit", some 't', .one⟩,
  ⟨"mem-limit", some 'm', .one⟩,
  ⟨"mem-ceiling", none, .one⟩,
  ⟨"log-file", none, .one⟩,
  ⟨"log-compression", none, .one⟩,
  ⟨"log-opts", none, .many⟩,
  ⟨"subcommand", none, .one⟩,
  ⟨"input-file", none, .one⟩]

/-- How an option is shown in the help. -/
def helpLine (form : OptionForm) : String :=
  "  " ++ (match form.letter with
    | some letter => "-" ++ String.singleton letter ++ " [ --" ++ form.name ++ " ]"
    | none => "--" ++ form.name) ++ (if form.arity = .flag then "" else " arg") ++ "\n"

def help : String :=
  "Usage: fopdr <" ++ String.intercalate "|" (Subcommand.every.map Subcommand.word) ++
    "> <program-file> [options]\nAllowed Options:\n" ++ String.join (forms.map helpLine) ++ "\n"

/-- A subcommand, from its word. -/
def readSubcommand (word : String) : Except UsageFault Subcommand :=
  match Subcommand.ofWord? word with
  | some subcommand => .ok subcommand
  | none => .error (if word = "" then .noSubcommand else .unknownSubcommand word)

/-- The word at a position, unless an option gives it. -/
def positional (a : Arguments) (option : String) (index : Nat) : Except UsageFault String :=
  a.value option (a.positional[index]?.getD "")

def ofArguments (a : Arguments) : Except UsageFault Request := do
  if 2 < a.positional.length then throw .extraWord
  let depth ← a.number "depth" 4 UInt32.size
  let maxIterations ← a.number "max-iterations" 0 UInt32.size
  let timeout ← a.number "timeout" 0 UInt32.size
  let seed ← a.number "seed" 0 UInt32.size
  let retries ← a.number "query-retries" 2 UInt32.size
  let _ ← a.number "cpu-limit" 0 UInt64.size
  let _ ← a.number "mem-limit" 0 UInt64.size
  let _ ← a.number "mem-ceiling" 0 UInt64.size
  let safetyName ← a.value "safety" ""
  let checkpointIn ← a.value "checkpoint-in" ""
  let checkpointOut ← a.value "checkpoint-out" ""
  let label ← a.value "key-prefix" ""
  let logFile ← a.value "log-file" ""
  let pushFrameZero ← a.value "push-frame-zero" "if_trivial"
  let order ← a.value "obligation-order" "deepest"
  let compression ← a.value "log-compression" "none"
  let useCores ← a.value "use-unsat-cores" "true"
  let simplifyDiagrams ← a.value "simplify-diagram" "true"
  let minimizeModels ← a.value "minimize-models" "true"
  let concretize ← a.value "concretize-cex" "true"
  let word ← positional a "subcommand" 0
  let file ← positional a "input-file" 1
  if a.has "help" then return .help
  let subcommand ← readSubcommand word
  if file = "" then throw .noFile
  let pushFrameZero ← Arguments.choice PushFrameZero.ofWord? "push-frame-zero" pushFrameZero
  let order ← Arguments.choice ObligationOrder.ofWord? "obligation-order" order
  let compression ← Arguments.choice Compression.ofWord? "log-compression" compression
  let useCores ← Arguments.switch "use-unsat-cores" useCores
  let simplifyDiagrams ← Arguments.switch "simplify-diagram" simplifyDiagrams
  let minimizeModels ← Arguments.switch "minimize-models" minimizeModels
  let invariants := NameSet.ofList (a.values "check-invariant")
  let transitions := NameSet.ofList (a.values "check-transition")
  if subcommand ≠ .verify ∧ !(invariants.isEmpty && transitions.isEmpty) then throw .onlyVerify
  let concretize ← Arguments.switch "concretize-cex" concretize
  return .run {
    subcommand, file, depth, label, invariants, transitions, logFile, compression
    json := a.has "json"
    checkpoint := checkpointIn
    topics := .ofList (a.values "log-opts")
    prover := { ProverOptions.standard with
      timeout := .ofNat timeout, seed, retries, minimizeModels }
    search := {
      order, pushFrameZero, useCores, simplifyDiagrams, concretize, maxIterations, safetyName
      blockMay := a.has "block-may-cexs"
      smokeTest := a.has "smoke-test"
      assertInductive := a.has "assert-inductive-trace"
      checkpoint := checkpointOut } }

def read (words : List String) : Except UsageFault Request := do
  ofArguments (← Arguments.ofWords forms words)

end Options

end InvariantSearch
