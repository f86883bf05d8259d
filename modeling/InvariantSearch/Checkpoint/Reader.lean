import InvariantSearch.Checkpoint.Fault
import InvariantSearch.Checkpoint.Writer

/-!
# Reading checkpoints

`Checkpoint.read` accepts the checkpoint of a program. Every formula is checked
against the program again, and so is what a search that goes on relies on:

* there are at least two frames, and each is contained in the one before;
* each obligation belongs to a frame, and its parent lies below it on the
  stack, one frame higher and of the same kind;
* transitions are those of the program, or the stutter step.
-/

namespace InvariantSearch

namespace Checkpoint

/-- Decoding fails at a line, or with a formula that does not fit. -/
inductive Failure where
  | located (fault : Located DecodeFault)
  | formula (fault : SortFault)

/-- A step of decoding. -/
abbrev Decoded (α : Type) := Except Failure α

def fail {α : Type} (e : Sexpr) (fault : DecodeFault) : Decoded α :=
  .error (.located ⟨e.line, fault⟩)

def lift {α : Type} (r : Except (Located Fault) α) : Decoded α :=
  r.mapError fun fault => .located ⟨fault.line, .read fault.value⟩

/-! ## Atoms -/

def atom (what : String) (e : Sexpr) : Decoded String := lift (e.expectAtom what)

def digitsValue (digits : String) : Nat :=
  digits.toList.foldl (fun n c => 10 * n + (c.toNat - 48)) 0

def isDigits (text : String) : Bool :=
  !text.isEmpty && text.toList.all fun c => 48 ≤ c.toNat && c.toNat ≤ 57

/-- A number below 2^64. -/
def number (what : String) (e : Sexpr) : Decoded UInt64 := do
  let digits ← atom what e
  if !isDigits digits then fail e (.read (.expected what digits))
  else if digitsValue digits < UInt64.size then return .ofNat (digitsValue digits)
  else fail e (.outOfRange what digits)

/-- The position of a parent: -1 for a root, else a number below 2^31. -/
def parentIndex (what : String) (e : Sexpr) : Decoded Int := do
  let digits ← atom what e
  if digits = "-1" then return Obligation.root
  let n ← number what e
  if n.toNat < UInt32.size / 2 then return n.toNat else fail e (.outOfRange what digits)

def choice (yes no : String) (e : Sexpr) : Decoded Bool := do
  let what := "\"" ++ yes ++ "\" or \"" ++ no ++ "\""
  let word ← atom what e
  if word = yes then return true
  else if word = no then return false
  else fail e (.read (.expected what word))

def conjunctKind (e : Sexpr) : Decoded ConjunctKind := do
  let word ← atom "a conjunct kind" e
  match ConjunctKind.ofWord? word with
  | some kind => return kind
  | none => fail e (.unknownKind word)

/-! ## Entries -/

def isEntry (keyword : String) : Sexpr → Bool
  | .list _ (.atom _ word :: _) => word == keyword
  | _ => false

/-- The arguments of an entry of a keyword, of which there are `count` if that
is given. -/
def entry (keyword : String) (count : Option Nat) (e : Sexpr) : Decoded (List Sexpr) :=
  match e with
  | .list _ (.atom _ word :: args) =>
    if word ≠ keyword then fail e (.notEntry keyword e.render)
    else if count.any (· ≠ args.length) then fail e (.malformedEntry keyword)
    else .ok args
  | _ => fail e (.notEntry keyword e.render)

/-- The number that is the only argument of an entry. -/
def numberEntry (keyword what : String) (e : Sexpr) : Decoded UInt64 := do
  match ← entry keyword (some 1) e with
  | [arg] => number what arg
  | _ => fail e (.malformedEntry keyword)

/-- A predicate: a formula about one state. -/
def predicate (p : Program) (e : Sexpr) : Decoded Formula := do
  let f ← lift (Formula.ofSexpr e)
  (p.check f .singleState).mapError .formula
  return f

def predicates (p : Program) (keyword : String) (e : Sexpr) : Decoded (List Formula) := do
  (← entry keyword none e).mapM (predicate p)

def diagramVar (p : Program) (e : Sexpr) : Decoded Var := do
  match e with
  | .list _ [name, sort] =>
    let sort ← atom "a sort name" sort
    if !p.hasSort sort then fail e (.unknownSort sort)
    return ⟨← atom "a variable name" name, sort⟩
  | _ => fail e .malformedVariable

/-- A literal of a diagram, closed under the diagram's variables. -/
def diagramConjunct (p : Program) (vars : List Var) (e : Sexpr) : Decoded Conjunct := do
  match e with
  | .list _ [kind, on, formula] =>
    let f ← lift (Formula.ofSexpr formula)
    (p.check (Formula.thereIs vars f) .singleState).mapError .formula
    let kind ← conjunctKind kind
    let on ← choice "on" "off" on
    return ⟨kind, on, f⟩
  | _ => fail e .malformedConjunct

def listItems (fault : DecodeFault) (e : Sexpr) : Decoded (List Sexpr) :=
  match e with
  | .list _ items => .ok items
  | .atom _ _ => fail e fault

/-- An obligation. Only the last 32 bits of a frame's number count. -/
def obligation (p : Program) (e : Sexpr) : Decoded Obligation := do
  match ← entry "obligation" (some 6) e with
  | [frame, parent, kind, transition, vars, conjuncts] =>
    let frame ← number "a frame index" frame
    let parent ← parentIndex "a parent index" parent
    let may ← choice "may" "must" kind
    let transition ← atom "a transition name" transition
    let vars ← (← listItems .notVariables vars).mapM (diagramVar p)
    let conjuncts ← (← listItems .notConjuncts conjuncts).mapM (diagramConjunct p vars)
    return {
      frame := frame.toUInt32.toNat
      diagram := ⟨vars, conjuncts⟩
      transition := if transition = noTransition then "" else transition
      parent, may }
  | _ => fail e (.malformedEntry "obligation")

/-! ## Structure -/

/-- The first predicate of a frame that is missing in the frame before, with
the number of the frame. `index` is the number of the first frame listed. -/
def notContained? (index : Nat) : List (List Formula) → Option (Nat × Formula)
  | lower :: upper :: rest =>
    match upper.find? (fun f => !lower.contains f) with
    | some f => some (index + 1, f)
    | none => notContained? (index + 1) (upper :: rest)
  | _ => none

/-- What is wrong with the parent of the obligation at a position. -/
def parentFault? (s : SearchState) (index : Nat) (o : Obligation) : Option DecodeFault :=
  match o.parent? with
  | none => none
  | some position =>
    if index ≤ position then some (.parentAbove index)
    else
      match s.obligations[position]? with
      | none => some (.parentAbove index)
      | some parent =>
        if o.frame + 1 ≠ parent.frame then some (.parentFrame index o.frame parent.frame)
        else if o.may ≠ parent.may then some (.parentKind index o.may parent.may)
        else none

/-- What is wrong with the transition of the obligation at a position. -/
def transitionFault? (p : Program) (index : Nat) (o : Obligation) : Option DecodeFault :=
  if o.transition = "" ∨ o.transition = stutterName ∨ (p.transition? o.transition).isSome then none
  else some (.unknownTransition index o.transition)

def obligationFault? (p : Program) (s : SearchState) (index : Nat) (o : Obligation) :
    Option DecodeFault :=
  if s.frames.length ≤ o.frame then some (.noFrame index o.frame)
  else (parentFault? s index o).or (transitionFault? p index o)

def stateFault? (p : Program) (s : SearchState) : Option DecodeFault :=
  if s.frames.length < 2 then some .fewFrames
  else
    match notContained? 0 s.frames with
    | some (frame, f) => some (.notContained frame f)
    | none =>
      (s.obligations.mapIdx fun index o => obligationFault? p s index o).findSome? id

/-! ## Checkpoints -/

def ofSexpr (p : Program) (e : Sexpr) : Decoded SearchState := do
  match e with
  | .list _ (.atom _ word :: version :: print :: counters :: log :: rest) =>
    if word ≠ header then fail e .notCheckpoint
    let found ← numberEntry "version" "a version" version
    if found.toNat ≠ formatVersion then fail version (.version found.toNat formatVersion)
    let found ← numberEntry "fingerprint" "a fingerprint" print
    if found ≠ p.fingerprint then
      fail print (.otherProgram found.toNat p.fingerprint.toNat)
    match ← entry "counters" (some 3) counters with
    | [learned, distinct, iterations] =>
      let learned ← number "a counter" learned
      let distinct ← number "a counter" distinct
      let iterations ← number "a counter" iterations
      let log ← predicates p "log" log
      let frames ← (rest.takeWhile (isEntry "frame")).mapM (predicates p "frame")
      let obligations ← (rest.dropWhile (isEntry "frame")).mapM (obligation p)
      let s : SearchState := { frames, log, learned, distinct, iterations, obligations }
      match stateFault? p s with
      | some fault => fail e fault
      | none => return s
    | _ => fail counters (.malformedEntry "counters")
  | _ => fail e .notCheckpoint

/-- Reads the checkpoint of a program from a text, which is known by the name
of its source. -/
def read (p : Program) (source text : String) : Except CheckpointFault SearchState :=
  match Sexpr.readAll text with
  | .error fault => .error (.located source ⟨fault.line, .read fault.value⟩)
  | .ok [e] =>
    (ofSexpr p e).mapError fun failure =>
      match failure with
      | .located fault => .located source fault
      | .formula fault => .formula fault
  | .ok items => .error (.count source items.length)

end Checkpoint

end InvariantSearch
