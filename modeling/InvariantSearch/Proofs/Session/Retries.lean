import InvariantSearch.Proofs.Session.Interrupts

/-!
# Attempts at queries

How often a query is asked, and how much time the solver has for it, over all orders of calls.

* `Prover.timeLimit` and `Prover.attempts` — what a record tells: the time limit that the solver
  has, and the attempts that were made, each with the limit that was in force.
* `Prover.Patient` — what becomes of a query: how many attempts are made at it, with which limits,
  and why there is no other one.
* `Prover.Punctual` — the solver has the limit that the prover remembers, and all answers are
  counted. One attempt keeps that (`Hears.punctual`), a query does (`attempt_spends`), and so does
  any number of calls (`after_punctual`).

Main result: `check_patient`.
-/

namespace InvariantSearch

open Discipline

open List hiding get modify

variable {timeout : UInt32}

/-- Every query that was counted ended in one of three ways. -/
def QueryStats.Balanced (s : QueryStats) : Prop := s.queries = s.sat + s.unsat + s.unknown

namespace Prover

/-! ## Time limits on record -/

/-- The time limit that the solver has by a record, newest event first. At first it has none. -/
def timeLimit : List Event → UInt32
  | [] => noLimit
  | .timeout limit :: _ => limit
  | _ :: events => timeLimit events

/-- An attempt at a query: the time limit of the solver, and the answer. -/
structure Attempt where
  query : Query
  limit : UInt32
  answer : Option Answer
  deriving DecidableEq

/-- The attempts on a record, newest first. -/
def attempts : List Event → List Attempt
  | [] => []
  | .check query answer :: events => ⟨query, timeLimit events, answer⟩ :: attempts events
  | _ :: events => attempts events

/-- The milliseconds that there are for an attempt after some others: twice as many each time, as
far as that can be told. Where 0 is set there is no limit. -/
def allowance (timeout : UInt32) (made : Nat) : Nat :=
  if timeout = 0 then noLimit.toNat else min (timeout.toNat * 2 ^ made) noLimit.toNat

/-- An attempt came back undecided, and nobody interrupted it. -/
def Attempt.Fruitless (heeds : Bool) (a : Attempt) : Prop :=
  ∃ why interrupts, a.answer = some ⟨.unknown why, interrupts⟩ ∧ (interrupts && heeds) = false

/-- Why no other attempt is made after the last one: it settled the query, it was interrupted, or
there were as many as there may be. -/
def Ends (heeds : Bool) (retries : Nat) (tries : List Attempt) :
    EStateM.Result Error Prover Bool → Prop
  | .ok found _ => ∃ a answer, tries.getLast? = some a ∧ a.answer = some answer ∧
      Settles found answer.verdict
  | .error (.inconclusive cause) _ => ∃ a why interrupts, tries.getLast? = some a ∧
      a.answer = some ⟨.unknown why, interrupts⟩ ∧ cause.interrupted = (interrupts && heeds) ∧
      (cause.interrupted = false → tries.length = retries + 1)
  | .error _ _ => ∃ a, tries.getLast? = some a ∧ a.answer = none

/-- The attempts at a query, oldest first, with what became of it. -/
structure Patient (limits : Nat → Nat) (heeds : Bool) (retries : Nat) (query : Query)
    (tries : List Attempt) (result : EStateM.Result Error Prover Bool) : Prop where
  limited : ∀ k a, tries[k]? = some a → a.query = query ∧ a.limit.toNat = limits k
  bounded : tries.length ≤ retries + 1
  fruitless : ∀ a ∈ tries.dropLast, a.Fruitless heeds
  ends : Ends heeds retries tries result

variable {options : ProverOptions} {heeds : Bool} {query : Query} {answer : Answer} {p q : Prover}
  {made : Nat} {milliseconds : UInt32}

/-! ## Arithmetic of limits -/

theorem toNat_wire (h : milliseconds.toNat = min (timeout.toNat * 2 ^ made) noLimit.toNat) :
    (wire milliseconds).toNat = allowance timeout made := by
  unfold wire allowance
  by_cases hTimeout : timeout = 0
  · have hNone : milliseconds = 0 := by
      rw [hTimeout, UInt32.toNat_zero, Nat.zero_mul, Nat.zero_min] at h
      exact UInt32.toNat_inj.mp h
    rw [if_pos hNone, if_pos hTimeout]
  · -- doubling does not come back to 0, which would lift the limit
    have hPositive : 0 < timeout.toNat * 2 ^ made := by
      refine Nat.mul_pos (Nat.pos_of_ne_zero fun hZero => hTimeout ?_) (Nat.two_pow_pos made)
      exact UInt32.toNat_inj.mp hZero
    have hSome : milliseconds ≠ 0 := by
      rintro rfl
      rw [UInt32.toNat_zero] at h
      have hNoLimit : 0 < noLimit.toNat := by decide
      omega
    rw [if_neg hSome, if_neg hTimeout, h]

theorem toNat_doubled (milliseconds : UInt32) :
    (doubled milliseconds).toNat = min (milliseconds.toNat * 2) noLimit.toNat := by
  have hNoLimit : noLimit.toNat = 4294967295 := by decide
  have hHalf : (noLimit / 2).toNat = 2147483647 := by decide
  unfold doubled
  split_ifs with h <;> rw [UInt32.lt_iff_toNat_lt, hHalf] at h
  · omega
  · rw [UInt32.toNat_mul]
    have hTwo : (2 : UInt32).toNat = 2 := by decide
    rw [hTwo, Nat.mod_eq_of_lt (by omega)]
    omega

theorem toNat_doubled_of_eq (h : milliseconds.toNat = min (timeout.toNat * 2 ^ made) noLimit.toNat) :
    (doubled milliseconds).toNat = min (timeout.toNat * 2 ^ (made + 1)) noLimit.toNat := by
  rw [toNat_doubled, h, Nat.pow_succ, ← Nat.mul_assoc]
  omega

/-! ## Steps -/

/-- The solver has the time limit that the prover remembers, and all answers are counted. -/
structure Punctual (options : ProverOptions) (heeds : Bool) (p : Prover) : Prop where
  options_eq : p.options = options
  heeds_eq : p.heedsInterrupts = heeds
  told : timeLimit p.events = wire p.timeout
  counted : p.stats.Balanced

theorem Punctual.tell (h : p.Punctual options heeds) (milliseconds : UInt32) :
    (p.tell milliseconds).Punctual options heeds ∧ (p.tell milliseconds).timeout = milliseconds ∧
      attempts (p.tell milliseconds).events = attempts p.events ∧
      (p.tell milliseconds).interrupted = p.interrupted ∧
      ∀ query answer, .check query answer ∈ (p.tell milliseconds).events ↔
        .check query answer ∈ p.events := by
  unfold Prover.tell
  split_ifs with hSame
  · exact ⟨h, hSame, rfl, rfl, fun _ _ => Iff.rfl⟩
  · exact ⟨⟨h.options_eq, h.heeds_eq, rfl, h.counted⟩, rfl, rfl, rfl, fun _ _ => by simp⟩

theorem Hears.punctual (h : p.Hears query answer q) (hp : p.Punctual options heeds) :
    q.Punctual options heeds := by
  refine ⟨h.options.trans hp.options_eq, h.heeds.trans hp.heeds_eq, ?_, ?_⟩
  · rw [h.events, h.timeout, ← hp.told]
    split <;> rfl
  · have hCounted := hp.counted
    obtain ⟨_, hStats⟩ := h.stats
    unfold QueryStats.Balanced at hCounted ⊢
    rw [hStats]
    cases answer.verdict.outcome <;> simp only [QueryStats.count] <;> omega

theorem Hears.attempts (h : p.Hears query answer q) :
    attempts q.events = ⟨query, timeLimit p.events, some answer⟩ :: attempts p.events := by
  rw [h.events]
  split <;> rfl

/-! ## Queries -/

section Patient

variable {limits : Nat → Nat} {retries : Nat} {a : Attempt} {tries : List Attempt}
  {result : EStateM.Result Error Prover Bool}

theorem patient_singleton (hQuery : a.query = query) (hLimit : a.limit.toNat = limits 0)
    (hEnds : Ends heeds retries [a] result) : Patient limits heeds retries query [a] result := by
  refine ⟨fun k b hb => ?_, Nat.le_add_left _ _, fun _ hb => (by cases hb), hEnds⟩
  cases k with
  | zero =>
    cases hb
    exact ⟨hQuery, hLimit⟩
  | succ k => cases hb

theorem Ends.ne_nil (h : Ends heeds retries tries result) : tries ≠ [] := by
  rintro rfl
  unfold Ends at h
  split at h
  · obtain ⟨_, _, hLast, -⟩ := h
    cases hLast
  · obtain ⟨_, _, _, hLast, -⟩ := h
    cases hLast
  · obtain ⟨_, hLast, -⟩ := h
    cases hLast

theorem Ends.cons (h : Ends heeds retries tries result) :
    Ends heeds (retries + 1) (a :: tries) result := by
  obtain ⟨b, rest, rfl⟩ := exists_cons_of_ne_nil h.ne_nil
  unfold Ends at h ⊢
  rw [getLast?_cons_cons]
  split at h
  · exact h
  · obtain ⟨last, why, interrupts, hLast, hAnswer, hCause, hLength⟩ := h
    exact ⟨last, why, interrupts, hLast, hAnswer, hCause,
      fun hFree => congrArg Nat.succ (hLength hFree)⟩
  · exact h

theorem Patient.cons (h : Patient (fun k => limits (k + 1)) heeds retries query tries result)
    (hQuery : a.query = query) (hLimit : a.limit.toNat = limits 0) (ha : a.Fruitless heeds) :
    Patient limits heeds (retries + 1) query (a :: tries) result := by
  refine ⟨fun k b hb => ?_, Nat.succ_le_succ h.bounded, ?_, h.ends.cons⟩
  · cases k with
    | zero =>
      cases hb
      exact ⟨hQuery, hLimit⟩
    | succ k => exact h.limited k b hb
  · rw [dropLast_cons_of_ne_nil h.ends.ne_nil]
    exact forall_mem_cons.mpr ⟨ha, h.fruitless⟩

end Patient

/-- Between queries the solver has the time limit of the options, if all were answered. -/
def Rested (options : ProverOptions) (p : Prover) : Prop :=
  (∃ query, .check query none ∈ p.events) ∨ p.timeout = options.timeout

/-- What becomes of a query that is put to the solver. -/
def Spends (options : ProverOptions) (heeds : Bool) (made retries : Nat) (query : Query)
    (p : Prover) (result : EStateM.Result Error Prover Bool) : Prop :=
  (left result).Punctual options heeds ∧ (left result).Rested options ∧
    ∃ tries, attempts (left result).events = tries.reverse ++ attempts p.events ∧
      Patient (fun k => allowance options.timeout (made + k)) heeds retries query tries result

/-- **A query is asked with twice the time each time, until an attempt settles it, is interrupted,
or is the last one that there may be.** -/
theorem attempt_spends {p : Prover} {made : Nat} (query : Query) (retries : Nat)
    (hp : p.Punctual options heeds) (hFree : p.interrupted = false)
    (hTimeout : p.timeout.toNat = min (options.timeout.toNat * 2 ^ made) noLimit.toNat) :
    Spends options heeds made retries query p (attempt query p.timeout retries p) := by
  have hLimit : (timeLimit p.events).toNat = allowance options.timeout (made + 0) := by
    rw [hp.told]
    exact toNat_wire hTimeout
  rcases attempt_cases query p.timeout retries p with hRun | ⟨answer, q, hHears, hFollows⟩
  · rw [hRun]
    exact ⟨⟨hp.options_eq, hp.heeds_eq, hp.told, hp.counted⟩, .inl ⟨query, mem_cons_self⟩,
      [⟨query, timeLimit p.events, none⟩], rfl, patient_singleton rfl hLimit ⟨_, rfl, rfl⟩⟩
  have hq := hHears.punctual hp
  have hInterrupted : q.interrupted = (answer.interrupts && heeds) := by
    rw [hHears.interrupted, hp.heeds_eq, hFree, Bool.or_false]
  have hEnd : ∀ {result}, left result = q.tell q.options.timeout →
      Ends heeds retries [⟨query, timeLimit p.events, some answer⟩] result →
        Spends options heeds made retries query p result := by
    intro result hLeft hEnds
    obtain ⟨hPunctual, hReset, hAttempts, -⟩ := hq.tell q.options.timeout
    rw [Spends, hLeft]
    exact ⟨hPunctual, .inr (hReset.trans (congrArg _ hq.options_eq)), [_],
      hAttempts.trans hHears.attempts, patient_singleton rfl hLimit hEnds⟩
  obtain ⟨verdict, interrupts⟩ := answer
  generalize attempt query p.timeout retries p = result at hFollows ⊢
  cases hFollows with
  | settled hSettles => exact hEnd rfl ⟨_, _, rfl, rfl, hSettles⟩
  | interrupted hVerdict hOn =>
    obtain rfl : verdict = _ := hVerdict
    exact hEnd rfl ⟨_, _, interrupts, rfl, rfl, hOn.symm.trans hInterrupted, fun h => (by cases h)⟩
  | exhausted hVerdict hOff =>
    obtain rfl : verdict = _ := hVerdict
    exact hEnd rfl ⟨_, _, interrupts, rfl, rfl, hOff.symm.trans hInterrupted, fun _ => rfl⟩
  | @again retries why hVerdict hOff =>
    -- the limit that the prover remembers tells how many attempts were made
    obtain rfl : verdict = _ := hVerdict
    obtain ⟨hPunctual, hTold, hAttempts, hSame, -⟩ := hq.tell (doubled p.timeout)
    have hDoubled := toNat_doubled_of_eq hTimeout
    have hNext := attempt_spends query retries hPunctual (hSame.trans hOff) (hTold ▸ hDoubled)
    rw [hTold] at hNext
    obtain ⟨hLeft, hRested, tries, hTries, hPatient⟩ := hNext
    refine ⟨hLeft, hRested, ⟨query, timeLimit p.events, some ⟨.unknown why, interrupts⟩⟩ :: tries,
      ?_, Patient.cons ?_ rfl hLimit ⟨why, interrupts, rfl, hInterrupted.symm.trans hOff⟩⟩
    · rw [hTries, hAttempts, hHears.attempts, reverse_cons, append_assoc]
      rfl
    · simpa only [Nat.add_assoc, Nat.add_comm 1] using hPatient
termination_by retries

/-- **A query is refused, or the solver is told its time limit and asked.** -/
theorem check_spends (hp : p.Punctual options heeds) (assumptions : List Term)
    (question : Question) :
    p.Refuses (check assumptions question) ∨
      Spends options heeds 0 options.retries ⟨question, p.inForce, assumptions⟩ p
        (check assumptions question p) := by
  by_cases hHeld : p.canceled = true ∨ p.interrupted = true
  · exact .inl (refuses_check hHeld assumptions question)
  obtain ⟨hCanceled, hInterrupted⟩ := not_or.mp hHeld
  refine .inr ?_
  obtain ⟨hPunctual, hTold, hAttempts, hSame, -⟩ := hp.tell options.timeout
  have hFree : (p.tell options.timeout).interrupted = false := by
    rw [hSame]
    simpa using hInterrupted
  have hFirst : (p.tell options.timeout).timeout.toNat =
      min (options.timeout.toNat * 2 ^ 0) noLimit.toNat := by
    rw [hTold, Nat.pow_zero, Nat.mul_one, Nat.min_eq_left]
    exact Nat.le_of_lt_succ options.timeout.toNat_lt
  have hSpends := attempt_spends ⟨question, p.inForce, assumptions⟩ options.retries hPunctual hFree
    hFirst
  rw [check_eq, if_neg hCanceled, if_neg hInterrupted]
  rw [hp.options_eq]
  rw [hTold] at hSpends
  obtain ⟨hLeft, hAfter, tries, hTries, hPatient⟩ := hSpends
  exact ⟨hLeft, hAfter, tries, hTries.trans (hAttempts ▸ rfl), hPatient⟩

/-! ## All orders of calls -/

/-- Nothing is told about time, and nothing is counted. -/
structure Timeless (p q : Prover) : Prop where
  options : q.options = p.options
  heeds : q.heedsInterrupts = p.heedsInterrupts
  timeout : q.timeout = p.timeout
  stats : q.stats = p.stats
  limit : timeLimit q.events = timeLimit p.events
  events : p.events <:+ q.events

theorem Timeless.keeps (h : p.Timeless q) (hp : p.Punctual options heeds)
    (hRested : p.Rested options) : q.Punctual options heeds ∧ q.Rested options := by
  refine ⟨⟨h.options.trans hp.options_eq, h.heeds.trans hp.heeds_eq, ?_, ?_⟩, ?_⟩
  · rw [h.limit, h.timeout, hp.told]
  · rw [h.stats]
    exact hp.counted
  · refine hRested.imp ?_ h.timeout.trans
    rintro ⟨query, hQuery⟩
    exact ⟨query, h.events.subset hQuery⟩

theorem Call.run_timeless (call : Call)
    (hCall : ∀ assumptions question, call ≠ .check assumptions question) :
    p.Timeless (left (call.run p)) := by
  have hSame : p.Timeless p := ⟨rfl, rfl, rfl, rfl, rfl, suffix_refl _⟩
  cases call with
  | push =>
    show p.Timeless (left (Prover.push p))
    rw [push_eq_ite]
    split_ifs
    · exact hSame
    · exact ⟨rfl, rfl, rfl, rfl, rfl, suffix_cons _ _⟩
  | pop count =>
    show p.Timeless (left ((if p.scopes.length < count then _ else _ : ProverM Unit) p))
    split_ifs
    · exact hSame
    · exact ⟨rfl, rfl, rfl, rfl, rfl, suffix_cons _ _⟩
  | assert t =>
    show p.Timeless (assertIn t _)
    unfold assertIn
    split <;> exact ⟨rfl, rfl, rfl, rfl, rfl, suffix_cons _ _⟩
  | check assumptions question => exact absurd rfl (hCall assumptions question)
  | interrupt =>
    show p.Timeless (left (Prover.interrupt p))
    rw [interrupt_eq]
    split_ifs
    · exact ⟨rfl, rfl, rfl, rfl, rfl, suffix_cons _ _⟩
    · exact ⟨rfl, rfl, rfl, rfl, rfl, suffix_refl _⟩
  | clearInterrupt => exact ⟨rfl, rfl, rfl, rfl, rfl, suffix_refl _⟩

/-- **Every call leaves the time limit that it found.** -/
theorem Call.run_punctual (call : Call) (hp : p.Punctual options heeds)
    (hRested : p.Rested options) :
    (left (call.run p)).Punctual options heeds ∧ (left (call.run p)).Rested options := by
  by_cases hCheck : ∃ assumptions question, call = .check assumptions question
  · obtain ⟨assumptions, question, rfl⟩ := hCheck
    have hLeft : left ((Call.check assumptions question).run p) =
        left (Prover.check assumptions question p) := by
      show left (EStateM.map _ _ p) = _
      rw [EStateM.map]
      cases Prover.check assumptions question p <;> rfl
    rw [hLeft]
    rcases check_spends hp assumptions question with hRefuses | ⟨hPunctual, hAfter, -⟩
    · rw [hRefuses.left_eq]
      exact ⟨hp, hRested⟩
    · exact ⟨hPunctual, hAfter⟩
  · have hOther : ∀ assumptions question, call ≠ .check assumptions question :=
      fun assumptions question hEq => hCheck ⟨assumptions, question, hEq⟩
    exact (call.run_timeless hOther).keeps hp hRested

/-- **Any number of calls does.** -/
theorem after_punctual (calls : List Call) (hp : p.Punctual options heeds)
    (hRested : p.Rested options) :
    (p.after calls).Punctual options heeds ∧ (p.after calls).Rested options := by
  induction calls generalizing p with
  | nil => exact ⟨hp, hRested⟩
  | cons call calls ih =>
    obtain ⟨hPunctual, hAfter⟩ := call.run_punctual hp hRested
    exact ih hPunctual hAfter

theorem start_punctual (options : ProverOptions) (script : Script) (heeds : Bool) (log : Log) :
    (start options script heeds log).Punctual options heeds := by
  refine ⟨rfl, rfl, ?_, rfl⟩
  show timeLimit (if options.timeout = 0 then _ else _) = wire options.timeout
  unfold wire
  split_ifs <;> rfl

theorem mem_events_of_attempts {events : List Event} {a : Attempt} (ha : a ∈ attempts events) :
    .check a.query a.answer ∈ events := by
  induction events with
  | nil => cases ha
  | cons event events ih =>
    cases event with
    | check query answer =>
      rcases mem_cons.mp ha with rfl | ha
      · exact mem_cons_self
      · exact mem_cons_of_mem _ (ih ha)
    | _ => exact mem_cons_of_mem _ (ih ha)

theorem Ends.of_answered {retries : Nat} {tries : List Attempt}
    {result : EStateM.Result Error Prover Bool} (h : Ends heeds retries tries result)
    (hAnswered : ∀ a ∈ tries, a.answer ≠ none) :
    (∃ found, result = .ok found (left result)) ∨
      ∃ cause, result = .error (.inconclusive cause) (left result) := by
  unfold Ends at h
  split at h
  · exact .inl ⟨_, rfl⟩
  · exact .inr ⟨_, rfl⟩
  · obtain ⟨a, hLast, hNone⟩ := h
    exact absurd hNone (hAnswered a (mem_of_getLast? hLast))

/-- **Queries are asked with patience.** After any calls, a query that is not refused because of an
interrupt is asked once, and again as often as the options allow, with twice the time each time.
All attempts but the last one come back undecided. That one settles the query, or it is interrupted,
or there may be no other. As long as every query is answered, it ends in a verdict or is
inconclusive, the solver has the time limit that it had at first, and all answers are counted. -/
theorem check_patient (options : ProverOptions) (script : Script) (heeds : Bool) (log : Log)
    (calls : List Call) (assumptions : List Term) (question : Question) :
    let p := (start options script heeds log).after calls
    let result := check assumptions question p
    (∀ query, .check query none ∉ (left result).events) →
      (∃ tries, attempts (left result).events = tries.reverse ++ attempts p.events ∧
        (p.Refuses (check assumptions question) ∧ tries = [] ∨
          Patient (allowance options.timeout) heeds options.retries
            ⟨question, p.inForce, assumptions⟩ tries result)) ∧
      ((∃ found, result = .ok found (left result)) ∨
        ∃ cause, result = .error (.inconclusive cause) (left result)) ∧
      (timeLimit (left result).events).toNat = allowance options.timeout 0 ∧
      p.stats.Balanced ∧ (left result).stats.Balanced := by
  intro p result hAnswered
  obtain ⟨hp, hRested⟩ : p.Punctual options heeds ∧ p.Rested options :=
    after_punctual calls (start_punctual options script heeds log) (.inr rfl)
  have hReset : (left result).Punctual options heeds → (left result).Rested options →
      (timeLimit (left result).events).toNat = allowance options.timeout 0 := by
    intro hPunctual hAfter
    have hTimeout := hAfter.resolve_left (not_exists.mpr hAnswered)
    rw [hPunctual.told, hTimeout]
    refine toNat_wire ?_
    rw [Nat.pow_zero, Nat.mul_one, Nat.min_eq_left]
    exact Nat.le_of_lt_succ options.timeout.toNat_lt
  rcases check_spends hp assumptions question with
    hRefuses | ⟨hPunctual, hAfter, tries, hTries, hPatient⟩
  · have hLeft : left result = p := hRefuses.left_eq
    obtain ⟨cause, hRun, -⟩ := id hRefuses
    rw [hLeft] at hReset ⊢
    exact ⟨⟨[], rfl, .inl ⟨hRefuses, rfl⟩⟩, .inr ⟨cause, hRun⟩, hReset hp hRested, hp.counted,
      hp.counted⟩
  · refine ⟨⟨tries, hTries, .inr ?_⟩, hPatient.ends.of_answered fun a ha hNone => ?_,
      hReset hPunctual hAfter, hp.counted, hPunctual.counted⟩
    · simpa only [Nat.zero_add] using hPatient
    · have hIn : a ∈ attempts (left result).events := by
        rw [hTries]
        exact mem_append_left _ (mem_reverse.mpr ha)
      exact hAnswered a.query (hNone ▸ mem_events_of_attempts hIn)

/-- A query is given up after three attempts, where the time cannot be doubled beyond what can be
told. The next one starts with the limit that there was at first, and is settled when it is asked
again. -/
theorem check_patient_saturated :
    let undecided : Answer := ⟨.unknown "timeout", false⟩
    let script : Script :=
      ⟨[undecided, undecided, undecided, undecided, ⟨.unsat none, false⟩], none⟩
    let p := (start ⟨3000000000, 0, 2, true, true⟩ script true (.new .empty)).after
      [.check [] "agreement"]
    let result := check [] "agreement" p
    (∀ query, .check query none ∉ (left result).events) ∧
      (attempts (left result).events).map Attempt.limit =
        [4294967295, 3000000000, 4294967295, 4294967295, 3000000000] ∧
      (timeLimit (left result).events).toNat = 3000000000 ∧ (left result).stats.Balanced ∧
      ∃ tries, tries.length = 2 ∧
        Patient (allowance 3000000000) true 2 ⟨"agreement", p.inForce, []⟩ tries result := by
  intro undecided script p result
  have hAttempts : attempts (left result).events =
      [⟨⟨"agreement", [[]], []⟩, 4294967295, some ⟨.unsat none, false⟩⟩,
        ⟨⟨"agreement", [[]], []⟩, 3000000000, some undecided⟩] ++ attempts p.events := by
    decide +kernel
  have hLimits : (attempts (left result).events).map Attempt.limit =
      [4294967295, 3000000000, 4294967295, 4294967295, 3000000000] := by decide +kernel
  have hAnswers : none ∉ (left result).asks.map Prod.snd := by decide +kernel
  have hAnswered : ∀ query, .check query none ∉ (left result).events := fun query h =>
    hAnswers (mem_map.mpr ⟨_, mem_asks.mpr h, rfl⟩)
  obtain ⟨⟨tries, hTries, hPatient⟩, -, hLimit, -, hBalanced⟩ :=
    check_patient ⟨3000000000, 0, 2, true, true⟩ script true (.new .empty) [.check [] "agreement"]
      [] "agreement" hAnswered
  have hReverse := append_cancel_right (hTries.symm.trans hAttempts)
  have hLength : tries.length = 2 := by
    rw [← length_reverse, hReverse]
    rfl
  refine ⟨hAnswered, hLimits, hLimit, hBalanced, tries, hLength, hPatient.resolve_left ?_⟩
  rintro ⟨-, rfl⟩
  cases hLength

end Prover

end InvariantSearch
