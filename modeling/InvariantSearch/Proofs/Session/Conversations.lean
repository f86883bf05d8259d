import InvariantSearch.Proofs.Session.Answers
import InvariantSearch.Proofs.Session.Prover

/-!
# Two conversations with a solver

Two provers that are in the same situation, up to the numbering of fresh constants,
ask the same and go on alike when they are answered alike. What they said before, how
much time the solver was told to take, and what was counted or logged makes no
difference.

* `Prover.Twins` — the same options, the same interrupts, and assertions and future
  answers that are alike.
* `Prover.Steady` — what a single prover keeps: all that is asserted but in the
  innermost scopes, as many as `depth` says.
* `Prover.pairing` — two provers side by side. They stay twins, each stays steady, and
  the queries that they ask are alike.

Main result: `Prover.check_twins`.
-/

namespace InvariantSearch

open Pairing

/-- Two errors are the same, up to the numbers of fresh constants that they name. -/
inductive Error.Alike (R : Nat → Nat → Prop) : Error → Error → Prop
  | same (e : Error) : Alike R e e
  | model {fault fault' : ModelFault} (h : fault.Alike R fault') :
      Alike R (.readback (.model fault)) (.readback (.model fault'))

theorem Renumbering.alike_error (N : Renumbering) (e : Error) : e.Alike N.Pairs e := .same e

/-- Two queries are the same up to numbers: they ask the same question, with the same assertions
in each scope and the same assumptions. -/
structure Query.Alike (R : Nat → Nat → Prop) (q q' : Query) : Prop where
  question : q'.question = q.question
  assertions : List.Forall₂ (List.Forall₂ (Term.Alike R)) q.assertions q'.assertions
  assumptions : List.Forall₂ (Term.Alike R) q.assumptions q'.assumptions

theorem Query.Alike.eq {q q' : Query} (h : q.Alike Eq q') : q' = q := by
  have hTerms : ∀ ts ts' : List Term, List.Forall₂ (Term.Alike Eq) ts ts' → ts = ts' := by
    intro ts ts' h
    rw [← List.forall₂_eq_eq_eq]
    exact h.imp fun _ _ ht => (Term.eq_of_alike ht).symm
  have hScopes : q.assertions = q'.assertions := by
    rw [← List.forall₂_eq_eq_eq]
    exact h.assertions.imp hTerms
  cases q
  cases q'
  rw [Query.mk.injEq]
  exact ⟨h.question, hScopes.symm, (hTerms _ _ h.assumptions).symm⟩

/-- Two queries are alike, and so are their answers. -/
structure AskAlike (R : Nat → Nat → Prop) (declared : String → Prop)
    (ask ask' : Query × Option Answer) : Prop where
  query : ask.1.Alike R ask'.1
  answer : Option.Rel (Answer.Alike R declared) ask.2 ask'.2

/-! ## Logs -/

namespace Log

theorem directories_write (log : Log) (text : String) :
    (log.write text).disk.directories = log.disk.directories := by
  unfold write
  split <;> rfl

/-- A change of the log that leaves all directories alone. -/
def Calm (f : Log → Log) : Prop := ∀ log, (f log).disk.directories = log.disk.directories

theorem calm_entry (topic : Topic) (text : Unit → String) :
    Calm fun log => log.entry topic text := by
  intro log
  show (if log.shows topic then log.write (text ()) else log).disk.directories = _
  split
  · exact directories_write log _
  · rfl

theorem calm_framedEntry (topic : Topic) (text : Unit → String) :
    Calm fun log => log.framedEntry topic text := by
  intro log
  show (if log.shows topic then log.write _ else log).disk.directories = _
  split
  · exact directories_write log _
  · rfl

theorem calm_progress (text : Unit → String) : Calm fun log => log.progress text := by
  intro log
  show (if log.silent then log else log.write (text ())).disk.directories = _
  split
  · rfl
  · exact directories_write log _

end Log

namespace Prover

variable {assumptions assumptions' : List Term} {query query' : Query}

/-! ## Twins -/

/-- Two provers in the same situation, up to the numbering of fresh constants. -/
structure Twins (N : Renumbering) (declared : String → Prop) (p p' : Prover) : Prop where
  options : p'.options = p.options
  heeds : p'.heedsInterrupts = p.heedsInterrupts
  interrupted : p'.interrupted = p.interrupted
  canceled : p'.canceled = p.canceled
  stopRequested : p'.stopRequested = p.stopRequested
  /-- The constants that will be made are paired in order. -/
  fresh : ∀ j, N.Pairs (p.fresh + j) (p'.fresh + j)
  inForce : List.Forall₂ (List.Forall₂ (Term.Alike N.Pairs)) p.inForce p'.inForce
  script : p.script.Alike N.Pairs declared p'.script
  /-- What is asked alike after the scripts is answered alike. -/
  solver : ∀ {q q' : Query}, q.Alike N.Pairs q' →
    Option.Rel (Answer.Alike N.Pairs declared) (p.solver q) (p'.solver q')
  directories : p'.log.disk.directories = p.log.disk.directories

theorem twins_self (declared : String → Prop) (p : Prover) : Twins .same declared p p where
  options := rfl
  heeds := rfl
  interrupted := rfl
  canceled := rfl
  stopRequested := rfl
  fresh _ := rfl
  inForce := List.forall₂_same.mpr fun _ _ => List.forall₂_same.mpr fun t _ =>
    Term.alike_self (fun _ => rfl) t
  script := p.script.alike_self declared
  solver hq := by
    rw [Query.Alike.eq hq]
    cases p.solver _ with
    | none => exact .none
    | some a => exact .some (a.alike_self declared)
  directories := rfl

/-- A prover keeps its options, uses numbers only once, and keeps all that is asserted but in the
innermost scopes. -/
structure Steady (depth : Nat) (p q : Prover) : Prop where
  options : q.options = p.options
  heeds : q.heedsInterrupts = p.heedsInterrupts
  solver : q.solver = p.solver
  directories : q.log.disk.directories = p.log.disk.directories
  fresh : p.fresh ≤ q.fresh
  count : q.inForce.length = p.inForce.length
  outer : q.inForce.drop depth = p.inForce.drop depth

theorem Steady.refl (depth : Nat) (p : Prover) : p.Steady depth p :=
  ⟨rfl, rfl, rfl, rfl, Nat.le_refl _, rfl, rfl⟩

theorem Steady.trans {depth : Nat} {p q r : Prover} (h : p.Steady depth q) (h' : q.Steady depth r) :
    p.Steady depth r :=
  ⟨h'.options.trans h.options, h'.heeds.trans h.heeds, h'.solver.trans h.solver,
    h'.directories.trans h.directories, Nat.le_trans h.fresh h'.fresh, h'.count.trans h.count,
    h'.outer.trans h.outer⟩

/-- How two provers go on: each is steady, and they ask alike. Where no answer interrupts the
first, none will. -/
structure Onward (N : Renumbering) (declared : String → Prop) (depth : Nat)
    (p p' q q' : Prover) : Prop where
  left : p.Steady depth q
  right : p'.Steady depth q'
  quiet : p.Mute → q.Mute
  asks : ∃ new new', q.asks = new ++ p.asks ∧ q'.asks = new' ++ p'.asks ∧
    List.Forall₂ (AskAlike N.Pairs declared) new new'

/-- Two provers side by side. -/
def pairing (N : Renumbering) (declared : String → Prop) (depth : Nat) : Pairing Error Prover where
  Twins := Twins N declared
  Alike := Error.Alike N.Pairs
  Leads := Onward N declared depth
  alike_refl := N.alike_error
  refl p p' := ⟨.refl depth p, .refl depth p', id, [], [], rfl, rfl, .nil⟩
  trans := by
    intro p p' q q' r r' h h'
    refine ⟨h.left.trans h'.left, h.right.trans h'.right, fun hp => h'.quiet (h.quiet hp), ?_⟩
    obtain ⟨new, new', hAsks, hAsks', hNew⟩ := h.asks
    obtain ⟨newer, newer', hAsked, hAsked', hNewer⟩ := h'.asks
    refine ⟨newer ++ new, newer' ++ new', ?_, ?_, List.rel_append hNewer hNew⟩
    · rw [hAsked, hAsks, List.append_assoc]
    · rw [hAsked', hAsks', List.append_assoc]

/-! ## Steps that make no difference -/

variable {N : Renumbering} {declared : String → Prop} {depth : Nat} {p p' q q' : Prover}
  {α β : Type}

theorem Twins.of_idle (h : Twins N declared p p') (hq : p.Idle q) (hq' : p'.Idle q')
    (hFresh : ∀ j, N.Pairs (q.fresh + j) (q'.fresh + j))
    (hForce : List.Forall₂ (List.Forall₂ (Term.Alike N.Pairs)) q.inForce q'.inForce) :
    Twins N declared q q' where
  options := by rw [hq.options, hq'.options, h.options]
  heeds := by rw [hq.heeds, hq'.heeds, h.heeds]
  interrupted := by rw [hq.interrupted, hq'.interrupted, h.interrupted]
  canceled := by rw [hq.canceled, hq'.canceled, h.canceled]
  stopRequested := by rw [hq.stopRequested, hq'.stopRequested, h.stopRequested]
  fresh := hFresh
  inForce := hForce
  script := by
    rw [hq.script, hq'.script]
    exact h.script
  solver := by
    rw [hq.solver, hq'.solver]
    exact h.solver
  directories := by rw [hq.directories, hq'.directories, h.directories]

theorem Same.steady (h : p.Same q) (depth : Nat) : p.Steady depth q :=
  ⟨h.options, h.heeds, h.solver, h.directories, Nat.le_of_eq h.fresh.symm, by rw [h.inForce],
    by rw [h.inForce]⟩

theorem Twins.of_same (h : Twins N declared p p') (hq : p.Same q) (hq' : p'.Same q') :
    Twins N declared q q' := by
  refine h.of_idle hq.toIdle hq'.toIdle ?_ ?_
  · rw [hq.fresh, hq'.fresh]
    exact h.fresh
  · rw [hq.inForce, hq'.inForce]
    exact h.inForce

theorem ensures_of_same {act : ProverM α} {act' : ProverM β} {a : α} {b : β}
    {Q : α → β → Prover → Prover → Prop} (hRun : act p = .ok a q) (hRun' : act' p' = .ok b q')
    (hq : p.Same q) (hq' : p'.Same q') (hQ : Q a b q q') :
    (pairing N declared depth).Ensures act act' p p' Q :=
  ensures_of_ok hRun hRun' fun h => ⟨h.of_same hq hq',
    ⟨hq.steady depth, hq'.steady depth, hq.toIdle.mute, [], [], hq.asks, hq'.asks, .nil⟩, hQ⟩

theorem same_logging {f : Log → Log} (hf : Log.Calm f) (p : Prover) :
    p.Same { p with log := f p.log } :=
  ⟨⟨rfl, rfl, rfl, rfl, rfl, rfl, rfl, hf p.log, rfl⟩, rfl, rfl, rfl, rfl⟩

theorem logging_twins {f f' : Log → Log} (hf : Log.Calm f) (hf' : Log.Calm f') :
    (pairing N declared depth).Ensures (logging f) (logging f') p p' fun _ _ q q' =>
      p.Same q ∧ p'.Same q' :=
  ensures_of_same rfl rfl (same_logging hf p) (same_logging hf' p')
    ⟨same_logging hf p, same_logging hf' p'⟩

/-- What the solver is told about time makes no difference, whether it was told so before or
not. -/
theorem setTimeout_twins (milliseconds milliseconds' : UInt32) :
    (pairing N declared depth).Ensures (setTimeout milliseconds) (setTimeout milliseconds') p p'
      fun _ _ q q' => p.Same q ∧ p'.Same q' := by
  have hSame := (same_tell milliseconds p).1
  have hSame' := (same_tell milliseconds' p').1
  exact ensures_of_same (setTimeout_eq_tell _ p) (setTimeout_eq_tell _ p') hSame hSame'
    ⟨hSame, hSame'⟩

/-! ## Assertions and constants -/

theorem steady_assertIn (t : Term) (p : Prover) : p.Steady 1 (assertIn t p) := by
  obtain ⟨scope, scopes, hForce⟩ := exists_inForce p
  have hIdle := idle_assertIn t p
  refine ⟨hIdle.options, hIdle.heeds, hIdle.solver, hIdle.directories,
    Nat.le_of_eq (fresh_assertIn t p).symm, ?_, ?_⟩
  · rw [inForce_assertIn t p hForce, hForce]
    rfl
  · rw [inForce_assertIn t p hForce, hForce]
    rfl

theorem Twins.assertIn (h : Twins N declared p p') {t t' : Term} (ht : Term.Alike N.Pairs t t') :
    Twins N declared (assertIn t p) (assertIn t' p') := by
  obtain ⟨scope, scopes, hBefore⟩ := exists_inForce p
  obtain ⟨scope', scopes', hBefore'⟩ := exists_inForce p'
  have hForce := h.inForce
  rw [hBefore, hBefore'] at hForce
  cases hForce with
  | cons hScope hScopes =>
    refine h.of_idle (idle_assertIn t p) (idle_assertIn t' p') ?_ ?_
    · rw [fresh_assertIn, fresh_assertIn]
      exact h.fresh
    · rw [inForce_assertIn t p hBefore, inForce_assertIn t' p' hBefore']
      exact .cons (.cons ht hScope) hScopes

theorem assert_twins {t t' : Term} (ht : Term.Alike N.Pairs t t') :
    (pairing N declared 1).Relates Eq (assert t) (assert t') := by
  intro p p'
  have hLog : ∀ t : Term, Log.Calm fun log =>
      log.framedEntry .assertions fun _ => "Asserting:\n" ++ t.render ++ "\n" :=
    fun t => Log.calm_framedEntry _ _
  refine (logging_twins (hLog t) (hLog t')).bind fun _ _ q q' _ _ => ?_
  refine (ensures_of_same rfl rfl ⟨⟨rfl, rfl, rfl, rfl, rfl, rfl, rfl, rfl, rfl⟩, rfl, rfl, rfl, rfl⟩
    ⟨⟨rfl, rfl, rfl, rfl, rfl, rfl, rfl, rfl, rfl⟩, rfl, rfl, rfl, rfl⟩ trivial :
      (pairing N declared 1).Ensures (record (.assert t)) (record (.assert t')) q q'
        fun _ _ _ _ => True).bind fun _ _ r r' _ _ => ?_
  refine ensures_of_ok rfl rfl fun h => ⟨h.assertIn ht, ?_, rfl⟩
  exact ⟨steady_assertIn t r, steady_assertIn t' r', (idle_assertIn t r).mute, [], [],
    (idle_assertIn t r).asks, (idle_assertIn t' r').asks, .nil⟩

theorem indicator_twins (name : String) :
    (pairing N declared depth).Relates (SolverConst.Matches N.Pairs) (indicator name)
      (indicator name) := by
  intro p p'
  refine ensures_of_ok rfl rfl fun h => ⟨?_, ?_, ?_⟩
  · refine { h with fresh := fun j => ?_ }
    have hNext := h.fresh (1 + j)
    rwa [← Nat.add_assoc, ← Nat.add_assoc] at hNext
  · exact ⟨⟨rfl, rfl, rfl, rfl, Nat.le_succ _, rfl, rfl⟩,
      ⟨rfl, rfl, rfl, rfl, Nat.le_succ _, rfl, rfl⟩, fun hp => { hp with }, [], [], rfl, rfl, .nil⟩
  · exact ⟨rfl, h.fresh 0, beforeNul name, rfl, rfl⟩

/-! ## Scopes -/

theorem Twins.opened (h : Twins N declared p p') : Twins N declared p.opened p'.opened :=
  { h with inForce := .cons .nil h.inForce }

theorem Steady.inForce_closed (h : p.opened.Steady 1 q) :
    q.closed.inForce = q.inForce.drop 1 ∧ q.inForce.drop 1 = p.inForce := by
  refine ⟨?_, h.outer⟩
  have hCount : q.scopes.length + 1 = p.scopes.length + 1 + 1 := by
    simpa [Prover.inForce, Prover.opened] using h.count
  show q.scopes.drop 1 ++ [q.base] = (q.scopes ++ [q.base]).drop 1
  cases hScopes : q.scopes with
  | nil =>
    rw [hScopes] at hCount
    simp at hCount
  | cons scope scopes => rfl

theorem Steady.closed (h : p.opened.Steady 1 q) (depth : Nat) : p.Steady depth q.closed := by
  have hForce := h.inForce_closed.1.trans h.inForce_closed.2
  exact ⟨h.options, h.heeds, h.solver, h.directories, h.fresh, by rw [hForce], by rw [hForce]⟩

theorem Onward.closed (h : p.opened.Onward N declared 1 p'.opened q q') (depth : Nat) :
    p.Onward N declared depth p' q.closed q'.closed :=
  ⟨h.left.closed depth, h.right.closed depth, fun hp => { h.quiet { hp with } with }, h.asks⟩

theorem Twins.closed (h : Twins N declared q q')
    (hLeads : p.opened.Onward N declared 1 p'.opened q q') :
    Twins N declared q.closed q'.closed := by
  refine { h with inForce := ?_ }
  rw [hLeads.left.inForce_closed.1, hLeads.right.inForce_closed.1]
  exact List.forall₂_drop 1 h.inForce

/-! ## Queries -/

/-- Two provers have just been answered alike. -/
structure Answered (N : Renumbering) (declared : String → Prop)
    (assumptions assumptions' : List Term) (q q' : Prover) : Prop where
  last : q.last.Alike N.Pairs declared q'.last
  assumptions : q.lastAssumptions = assumptions
  assumptions' : q'.lastAssumptions = assumptions'

theorem Answered.of_same (h : Answered N declared assumptions assumptions' p p') (hq : p.Same q)
    (hq' : p'.Same q') : Answered N declared assumptions assumptions' q q' := by
  refine ⟨?_, hq.lastAssumptions.trans h.assumptions, hq'.lastAssumptions.trans h.assumptions'⟩
  rw [hq.last, hq'.last]
  exact h.last

theorem Twins.next (h : Twins N declared p p') (hQuery : query.Alike N.Pairs query') :
    (p.next? query = none ∧ p'.next? query' = none) ∨
      ∃ a a' rest rest', p.next? query = some (a, rest) ∧ p'.next? query' = some (a', rest') ∧
        a.Alike N.Pairs declared a' ∧ rest.Alike N.Pairs declared rest' := by
  unfold next?
  rcases h.script.next with ⟨hNone, hNone'⟩ | ⟨a, a', rest, rest', hSome, hSome', ha⟩
  · -- the scripts are at their end, and the solvers are asked
    rw [hNone, hNone']
    have hAnswer := h.solver hQuery
    generalize p.solver query = answer at hAnswer ⊢
    generalize p'.solver query' = answer' at hAnswer ⊢
    cases hAnswer with
    | none => exact .inl ⟨rfl, rfl⟩
    | some ha => exact .inr ⟨_, _, _, _, rfl, rfl, ha, h.script⟩
  · rw [hSome, hSome']
    exact .inr ⟨a, a', rest, rest', rfl, rfl, ha⟩

theorem ask_twins (hQuery : query.Alike N.Pairs query') :
    (pairing N declared depth).Ensures (ask query) (ask query') p p' fun v v' q q' =>
      v.Alike N.Pairs declared v' ∧
        Answered N declared query.assumptions query'.assumptions q q' := by
  intro h
  rw [ask_eq, ask_eq]
  rcases h.next hQuery with ⟨hNone, hNone'⟩ | ⟨a, a', rest, rest', hSome, hSome', ha, hRest⟩
  · -- neither of them is answered
    rw [hNone, hNone']
    refine ⟨{ h with }, ⟨?_, ?_, fun hp => { hp with }, [(query, none)], [(query', none)], rfl, rfl,
      ?_⟩, .same _⟩
    · exact ⟨rfl, rfl, rfl, rfl, Nat.le_refl _, rfl, rfl⟩
    · exact ⟨rfl, rfl, rfl, rfl, Nat.le_refl _, rfl, rfl⟩
    · exact .cons ⟨hQuery, .none⟩ .nil
  · -- answers that are alike interrupt alike
    rw [hSome, hSome']
    dsimp only
    rw [ha.interrupts, h.heeds]
    refine ⟨⟨h.options, rfl, ?_, ?_, ?_, h.fresh, h.inForce, hRest, h.solver, h.directories⟩,
      ⟨?_, ?_, fun hp => ?_, [(query, some a)], [(query', some a')], ?_, ?_, ?_⟩, ha.verdict,
      ha.verdict, rfl, rfl⟩
    · dsimp only
      rw [h.interrupted]
    · dsimp only
      rw [h.canceled]
    · dsimp only
      rw [h.stopRequested]
    · exact ⟨rfl, rfl, rfl, rfl, Nat.le_refl _, rfl, rfl⟩
    · exact ⟨rfl, h.heeds.symm, rfl, rfl, Nat.le_refl _, rfl, rfl⟩
    · obtain ⟨hScript, hHeard⟩ := hp.next hSome
      refine ⟨hScript, hp.solver, ?_, ?_, ?_⟩
      all_goals
        dsimp only
        rw [hHeard]
      exacts [hp.interrupted, hp.canceled, hp.stopRequested]
    · cases a.interrupts && p.heedsInterrupts <;> rfl
    · cases a.interrupts && p.heedsInterrupts <;> rfl
    · exact .cons ⟨hQuery, .some ha⟩ .nil

theorem attempt_twins_of_next (hQuery : query.Alike N.Pairs query')
    {milliseconds : UInt32} {retries : Nat}
    (hNext : ∀ milliseconds fewer, retries = fewer + 1 → ∀ p p' : Prover,
      (pairing N declared depth).Ensures (attempt query milliseconds fewer)
        (attempt query' milliseconds fewer) p p' fun b b' q q' =>
          b' = b ∧ Answered N declared query.assumptions query'.assumptions q q') :
    (pairing N declared depth).Ensures (attempt query milliseconds retries)
      (attempt query' milliseconds retries) p p' fun b b' q q' =>
        b' = b ∧ Answered N declared query.assumptions query'.assumptions q q' := by
  rw [attempt, attempt]
  refine (ask_twins hQuery).bind fun v v' q q' _ hv => ?_
  obtain ⟨hVerdict, hAnswered⟩ := hv
  refine ensures_of_twins fun hTwins => ?_
  refine ensures_get_bind ?_
  refine (logging_twins (Log.calm_entry _ _) (Log.calm_entry _ _)).bind fun _ _ r r' _ hSame => ?_
  have hAnswered := hAnswered.of_same hSame.1 hSame.2
  -- a verdict settles the query, once the timeout is what it was
  have hSettle : ∀ b : Bool, (pairing N declared depth).Ensures
      (do
        setTimeout q.options.timeout
        return b)
      (do
        setTimeout q'.options.timeout
        return b) r r' fun b b' q q' =>
          b' = b ∧ Answered N declared query.assumptions query'.assumptions q q' := by
    intro b
    refine (setTimeout_twins _ _).bind fun _ _ u u' _ hu => ensures_pure ?_
    exact ⟨rfl, hAnswered.of_same hu.1 hu.2⟩
  cases hVerdict with
  | sat _ => exact hSettle true
  | unsat _ => exact hSettle false
  | unknown reason =>
    dsimp only
    rw [hQuery.question]
    refine ensures_ite (by rw [hTwins.interrupted]) (fun _ => ?_) fun _ => ?_
    · refine (setTimeout_twins _ _).bind fun _ _ u u' _ _ => ?_
      exact ensures_throw (.same _)
    · cases retries with
      | zero =>
        refine (setTimeout_twins _ _).bind fun _ _ u u' _ _ => ?_
        exact ensures_throw (.same _)
      | succ retries =>
        -- the retry is counted, which twins need not agree on
        refine (ensures_of_same rfl rfl
          ⟨⟨rfl, rfl, rfl, rfl, rfl, rfl, rfl, rfl, rfl⟩, rfl, rfl, rfl, rfl⟩
          ⟨⟨rfl, rfl, rfl, rfl, rfl, rfl, rfl, rfl, rfl⟩, rfl, rfl, rfl, rfl⟩ trivial :
            (pairing N declared depth).Ensures (modify _) (modify _) r r'
              fun _ _ _ _ => True).bind fun _ _ u u' _ _ => ?_
        refine (logging_twins (Log.calm_progress _) (Log.calm_progress _)).bind
          fun _ _ w w' _ _ => ?_
        refine (setTimeout_twins _ _).bind fun _ _ x x' _ _ => ?_
        exact hNext _ retries rfl x x'

theorem attempt_twins (hQuery : query.Alike N.Pairs query')
    (milliseconds : UInt32) (retries : Nat) :
    (pairing N declared depth).Ensures (attempt query milliseconds retries)
      (attempt query' milliseconds retries) p p' fun b b' q q' =>
        b' = b ∧ Answered N declared query.assumptions query'.assumptions q q' := by
  induction retries generalizing p p' milliseconds with
  | zero => exact attempt_twins_of_next hQuery fun _ _ h => by cases h
  | succ retries ih =>
    refine attempt_twins_of_next hQuery fun milliseconds fewer h p p' => ?_
    cases h
    exact ih milliseconds

theorem failIfCanceled_twins (query : String) :
    (pairing N declared depth).Ensures (failIfCanceled query) (failIfCanceled query) p p'
      fun _ _ q q' => q = p ∧ q' = p' := by
  refine ensures_of_twins fun hTwins => ?_
  refine ensures_get_bind ?_
  refine ensures_ite (by rw [hTwins.canceled]) (fun _ => ?_) fun _ => ?_
  · exact ensures_throw (.same _)
  · exact ensures_pure ⟨rfl, rfl⟩

/-- **Twins ask the same query, and are answered alike.** -/
theorem check_twins (hAssumptions : List.Forall₂ (Term.Alike N.Pairs) assumptions assumptions')
    (question : Question) :
    (pairing N declared depth).Ensures (check assumptions question) (check assumptions' question)
      p p' fun b b' q q' => b' = b ∧ Answered N declared assumptions assumptions' q q' := by
  refine (failIfCanceled_twins _).bind fun _ _ q q' _ hSame => ?_
  obtain ⟨rfl, rfl⟩ := hSame
  refine ensures_of_twins fun hTwins => ?_
  refine ensures_get_bind ?_
  refine ensures_ite (by rw [hTwins.interrupted]) (fun _ => ?_) fun _ => ?_
  · exact ensures_throw (.same _)
  · refine (setTimeout_twins _ _).bind fun _ _ r r' _ _ => ?_
    have hQuery : Query.Alike N.Pairs ⟨question, q.inForce, assumptions⟩
        ⟨question, q'.inForce, assumptions'⟩ := ⟨rfl, hTwins.inForce, hAssumptions⟩
    rw [hTwins.options]
    exact attempt_twins hQuery _ _

theorem model_twins (h : Answered N declared assumptions assumptions' p p') :
    (pairing N declared depth).Ensures model model p p' fun m m' q q' =>
      m.Alike N.Pairs declared m' ∧ q = p ∧ q' = p' := by
  refine ensures_get_bind ?_
  have hLast := h.last
  revert hLast
  generalize p.last = last
  generalize p'.last = last'
  intro hLast
  cases hLast with
  | sat hm => exact ensures_pure ⟨hm, rfl, rfl⟩
  | unsat core => exact ensures_throw (.same _)
  | unknown reason => exact ensures_throw (.same _)

theorem core_twins (h : Answered N declared assumptions assumptions' p p') :
    (pairing N declared depth).Ensures core core p p' fun terms terms' _ _ =>
      ∃ positions, terms = coreTerms assumptions positions ∧
        terms' = coreTerms assumptions' positions := by
  refine ensures_get_bind ?_
  obtain ⟨hLast, hAssumptions, hAssumptions'⟩ := h
  rw [hAssumptions, hAssumptions']
  revert hLast
  generalize p.last = last
  generalize p'.last = last'
  intro hLast
  cases hLast with
  | sat hm => exact ensures_throw (.same _)
  | unsat core =>
    cases core with
    | none => exact ensures_pure ⟨none, rfl, rfl⟩
    | some positions => exact ensures_pure ⟨some positions, rfl, rfl⟩
  | unknown reason => exact ensures_throw (.same _)

end Prover

end InvariantSearch
