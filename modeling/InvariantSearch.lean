import InvariantSearch.Time.Basic
import InvariantSearch.Main
import InvariantSearch.Proofs.CommandLine.Recheck
import InvariantSearch.Proofs.Session.Interrupts
import InvariantSearch.Proofs.Session.Retries
import InvariantSearch.Proofs.Session.Invariance
import InvariantSearch.Proofs.Session.Restriction
import InvariantSearch.Proofs.Program.Calls
import InvariantSearch.Proofs.Search.Queries
import InvariantSearch.Proofs.Search.Scopes
import InvariantSearch.Proofs.Search.Acceptance
import InvariantSearch.Proofs.Search.Pruning
import InvariantSearch.Proofs.Search.Progress
import InvariantSearch.Proofs.Checkpoint.Numbers
import InvariantSearch.Proofs.Search.StepNames
import InvariantSearch.Proofs.Meaning.Substitution
import InvariantSearch.Proofs.Program.Order
import InvariantSearch.Proofs.Time.Arithmetic
