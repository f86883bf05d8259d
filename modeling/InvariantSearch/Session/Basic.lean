import InvariantSearch.Session.Prover

/-!
# Sessions

A session is a prover that knows a program: its axioms are asserted once and
for all, and states of the program are encoded for it.

* `Session.query` opens a scope for a computation, in which the derived
  relations of every state have their definitions.
* `Session.minimalModel` makes the universes of a model small, sort by sort in
  the order of their declarations.
-/

namespace InvariantSearch

/-- A program and a prover for it. -/
structure Session where
  program : Program
  /-- What stands before the keys of states. -/
  label : String
  prover : Prover
  /-- The lists of keys for which encodings were made. -/
  encodings : List (List String)

/-- Computations in a session. What a failing computation did stays done. -/
abbrev SessionM := EStateM Error Session

/-- Runs a computation, and keeps the error it may end with. -/
def attempt {σ α : Type} (act : EStateM Error σ α) : EStateM Error σ (Except Error α) := fun s =>
  match act s with
  | .ok a s => .ok (.ok a) s
  | .error e s => .ok (.error e) s

def liftExcept {σ ε α : Type} (f : ε → Error) (r : Except ε α) : EStateM Error σ α :=
  match r with
  | .ok a => pure a
  | .error e => throw (f e)

namespace Session

/-! ## Parts of a session -/

def proving {α : Type} (act : ProverM α) : SessionM α := fun s =>
  match act s.prover with
  | .ok a prover => .ok a { s with prover }
  | .error e prover => .error e { s with prover }

def encoding {α : Type} (act : Fresh α) : SessionM α := fun s =>
  match act s.prover.fresh with
  | .ok a fresh => .ok a { s with prover := { s.prover with fresh } }
  | .error e fresh => .error (.encoding e) { s with prover := { s.prover with fresh } }

def logging (f : Log → Log) : SessionM Unit := proving (Prover.logging f)

def overKeys (keys : List String) : SessionM Encoding := do
  if keys.isEmpty then throw (.encoding .noKeys)
  modify fun s =>
    { s with encodings := if s.encodings.contains keys then s.encodings else keys :: s.encodings }
  let s ← get
  return ⟨s.program, s.label, keys⟩

/-- The encoding over the first states of a run. -/
def overSteps (count : Nat) : SessionM Encoding := overKeys (stepKeys count)

/-! ## Encoding -/

/-- A formula in a state, with terms for its free variables. -/
def encodeWith (e : Encoding) (f : Formula) (index : Nat) (scope : Scope) : SessionM Term := do
  let t ← encoding (e.encode f index scope)
  logging fun log => log.framedEntry .lowering fun _ =>
    "Formula: " ++ f.render ++ "\nAt key: " ++ (e.keys[index]?).getD "" ++
      "\nLowered: " ++ t.render ++ "\n"
  return t

def encode (e : Encoding) (f : Formula) (index : Nat) : SessionM Term :=
  encodeWith e f index []

def transition (e : Encoding) (t : Transition) (index : Nat) : SessionM Term := do
  let term ← encoding (e.transition t index)
  logging fun log => log.framedEntry .lowering fun _ =>
    "Transition: " ++ t.name ++ "\nFrom key: " ++ (e.keys[index]?).getD "" ++
      "\nLowered: " ++ term.render ++ "\n"
  return term

def stutter (e : Encoding) (index : Nat) : SessionM Term :=
  encoding (e.frameCondition .empty index)

/-- Some transition leads from a state to the next one; or nothing changes,
where that is allowed. -/
def anyTransition (e : Encoding) (index : Nat) (mayStutter : Bool) : SessionM Term := do
  let steps ← e.program.transitions.mapM fun t => transition e t index
  if mayStutter then
    let rest ← stutter e index
    return Term.disj (steps ++ [rest])
  else return Term.disj steps

/-- The definitions of derived relations, mutable or immutable ones. -/
def definitions (p : Program) (isMutable : Bool) : List Formula :=
  (p.symbols.filter fun s => s.isMutable == isMutable).filterMap Symbol.definition?

/-- What holds in all states: the axioms, and the definitions of immutable
derived relations. -/
def axioms (e : Encoding) : SessionM (List Term) :=
  (e.program.axioms.map NamedFormula.formula ++ definitions e.program false).mapM fun f =>
    encode e f 0

/-- The definitions of mutable derived relations in a state. -/
def derived (e : Encoding) (index : Nat) : SessionM (List Term) :=
  (definitions e.program true).mapM fun f => encode e f index

/-! ## Asking -/

def assert (t : Term) : SessionM Unit := proving (Prover.assert t)

/-- Asserts terms in order. -/
def assertAll (ts : List Term) : SessionM Unit := ts.forM assert

def check (assumptions : List Term) (question : Question) : SessionM Bool :=
  proving (Prover.check assumptions question)

/-- Runs a computation in a scope of its own, which is closed however the
computation ends. -/
def inScope {α : Type} (act : SessionM α) : SessionM α := fun s =>
  match Prover.push s.prover with
  | .error e prover => .error e { s with prover }
  | .ok _ prover =>
    match act { s with prover } with
    | .ok a s => (proving (Prover.close 1) *> pure a) s
    | .error e s => (proving (Prover.close 1) *> throw e) s

/-- Runs a computation in a scope in which derived relations have their
definitions. -/
def query {α : Type} (e : Encoding) (act : SessionM α) : SessionM α :=
  inScope do
    (List.range e.keys.length).forM fun index => do
      let terms ← derived e index
      assertAll terms
    act

/-- A session of a program, with its axioms asserted. -/
def start (p : Program) (label : String) (prover : Prover) : EStateM.Result Error Session Unit :=
  let s : Session := ⟨p, label, prover, []⟩
  if p.validated then
    (do
      let e ← overSteps 1
      let terms ← axioms e
      assertAll terms : SessionM Unit) s
  else .error .notValidated s

/-! ## Small models -/

/-- How a trial with a smaller universe ends. -/
inductive Trial where
  | tooSmall
  | fits (model : SolverModel)
  | undecided

/-- Asks whether a sort can do with `size` elements. -/
def trySize (e : Encoding) (assumptions : List Term) (question : Question) (sort : String)
    (size : Nat) : SessionM Trial :=
  inScope do
    let bound ← encoding (e.cardinalityBound sort size)
    assert bound
    match ← attempt (check assumptions (.bounded question sort size)) with
    | .ok true => do
      let m ← proving Prover.model
      return .fits m
    | .ok false => return .tooSmall
    | .error (.inconclusive cause) =>
      if cause.interrupted then throw (.inconclusive cause)
      else do
        logging fun log => log.entry .queries fun _ =>
          "Not minimizing sort " ++ sort ++ ": " ++ cause.message ++ "\n"
        return .undecided
    | .error error => throw error

/-- The first of some sizes that a sort can do with, and a model that shows
it. Gives up when a question is not decided. -/
def smallest (e : Encoding) (assumptions : List Term) (question : Question) (sort : String) :
    List Nat → SessionM (Option (Nat × SolverModel))
  | [] => return none
  | size :: sizes => do
    match ← trySize e assumptions question sort size with
    | .fits m => return some (size, m)
    | .undecided => return none
    | .tooSmall => smallest e assumptions question sort sizes

def minimizeSort (e : Encoding) (assumptions : List Term) (question : Question)
    (m : SolverModel) (sort : String) : SessionM SolverModel := do
  let solverSort ← liftExcept .encoding (e.sort sort)
  let size := (m.elements solverSort).length
  if size = 0 then return m
  let found ← smallest e assumptions question sort (List.range' 1 (size - 1))
  let (bound, m) := found.getD (size, m)
  logging fun log => log.entry .queries fun _ =>
    "Universe of sort " ++ sort ++ " in the model of " ++ question.description ++ ": " ++
      toString bound ++ " of " ++ toString size ++ " elements\n"
  let term ← encoding (e.cardinalityBound sort bound)
  assert term
  return m

/-- The model of the last query, made small where the options ask for it. -/
def minimalModel (e : Encoding) (assumptions : List Term) (question : Question) :
    SessionM SolverModel := do
  let m ← proving Prover.model
  if (← get).prover.options.minimizeModels then
    inScope (e.program.sorts.foldlM (minimizeSort e assumptions question) m)
  else return m

def readModel (e : Encoding) (m : SolverModel) : SessionM Trace :=
  liftExcept .readback (e.readModel m)

/-- The trace of a small model of the last query. -/
def minimalTrace (e : Encoding) (assumptions : List Term) (question : Question) :
    SessionM Trace := do
  let m ← minimalModel e assumptions question
  readModel e m

def diagram (t : Trace) (index : Nat) (simplify : Bool) : SessionM Diagram := do
  let d ← liftExcept .diagram (Diagram.ofTrace (← get).program t index simplify)
  logging fun log => log.framedEntry .diagrams fun _ =>
    "Diagram of state " ++ toString index ++ ":\n" ++ d.render false ++ "\n"
  return d

end Session

end InvariantSearch
