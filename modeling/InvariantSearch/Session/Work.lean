import InvariantSearch.Session.Basic

/-!
# Work in a session

Computations that keep some state of their own beside a session.
-/

namespace InvariantSearch

/-- Computations in a session with a state `σ` besides. What a failing
computation did stays done. -/
abbrev WorkM (σ : Type) := EStateM Error (Session × σ)

namespace WorkM

variable {σ τ α : Type}

def inSession (act : SessionM α) : WorkM σ α := fun (s, t) =>
  match act s with
  | .ok a s => .ok a (s, t)
  | .error e s => .error e (s, t)

def session : WorkM σ Session := fun (s, t) => .ok s (s, t)

def own : WorkM σ σ := fun (s, t) => .ok t (s, t)

def update (f : σ → σ) : WorkM σ Unit := fun (s, t) => .ok () (s, f t)

def inPart (part : τ → σ) (replace : σ → τ → τ) (act : WorkM σ α) : WorkM τ α := fun (s, t) =>
  match act (s, part t) with
  | .ok a (s, u) => .ok a (s, replace u t)
  | .error e (s, u) => .error e (s, replace u t)

/-- Works from a state on, and hands out the state it leaves, also where it
fails. -/
def startingWith (t : σ) (act : WorkM σ α) : SessionM (Except Error α × σ) := fun s =>
  match act (s, t) with
  | .ok a (s, t) => .ok (.ok a, t) s
  | .error e (s, t) => .ok (.error e, t) s

def logging (f : Log → Log) : WorkM σ Unit := inSession (Session.logging f)

end WorkM

namespace Session

/-- Sets up a query in a scope of its own and works out its answer there. Only
errors of the set-up stop the caller; one while the answer is worked out is a
result, so that the caller can tell that the query was asked. -/
def pose {α β : Type} (e : Encoding) (setUp : SessionM α) (answer : α → SessionM β) :
    SessionM (Except Error β) :=
  query e do
    let a ← setUp
    attempt (answer a)

end Session

end InvariantSearch
