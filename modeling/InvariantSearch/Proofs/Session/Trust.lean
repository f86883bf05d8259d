import InvariantSearch.Proofs.Session.Prover

/-!
# Work that rests on answers

What computations with a prover keep to, whatever the solver answers. Nothing that is recorded is
lost, and nothing that is asserted is taken back. How they fail depends on what is trusted in.

* `Trust` — what is trusted of the answers after some record, and whether what is asked for is there
  to be asked for. Three kinds of trust are used:
  `Trust.recording` trusts in no more than that answers are on record,
  `Trust.since` in answers that settle their queries and have some property, and
  `Trust.calm` in answers that come without an interrupt.
* `Trust.onProver` — the discipline of computations with a prover.

Main result: `Prover.check_ensures`. A query is settled by an answer that is as trusted, or fails for
want of one.
-/

namespace InvariantSearch

open Discipline

open List hiding get modify

variable {error : Error} {query : Query}

namespace Discipline

variable {ε σ α : Type} {d d' : Discipline ε σ} {act : EStateM ε σ α} {s : σ}
  {Q Q' : α → σ → Prop}

theorem Ensures.run (h : d.Ensures act s Q) :
    d.Ensures act s fun a t => act s = .ok a t ∧ Q a t := by
  unfold Ensures at h ⊢
  cases hRun : act s with
  | ok a t =>
    rw [hRun] at h
    exact ⟨h.1, rfl, h.2⟩
  | error e t =>
    rw [hRun] at h
    exact h

theorem Ensures.and (h : d.Ensures act s Q) (h' : d'.Ensures act s Q') :
    d.Ensures act s fun a t => Q a t ∧ d'.Leads s t ∧ Q' a t :=
  h.run.imp fun _ _ _ hQ => ⟨hQ.2, h'.ok hQ.1⟩

end Discipline

/-! ## Trust -/

/-- An answer settles its query, and comes without an interrupt. -/
def Decisive (ask : Query × Option Answer) : Prop :=
  ∃ verdict, ask.2 = some ⟨verdict, false⟩ ∧ verdict.outcome ≠ .unknown

/-- What is trusted in. -/
structure Trust where
  /-- The answers before count for nothing. -/
  record : List (Query × Option Answer)
  /-- The answers since are like this. -/
  Good : Query × Option Answer → Prop
  /-- All that is asked for is there to be asked for. -/
  Sure : Prop
  /-- The missteps that are made nevertheless. -/
  Excuses : Error → Prop
  /-- Nothing fails while answers are as trusted. -/
  Firm : Prop
  /-- The errors that are met with nevertheless. -/
  Spares : Error → Prop
  sure : Firm → Sure
  answered : Firm → ∀ ask, Good ask → ∃ verdict, ask.2 = some ⟨verdict, false⟩ ∧
    (verdict.outcome = .unknown → ∀ query reason, Spares (.inconclusive ⟨query, reason, false⟩))

namespace Trust

/-- Trust in nothing but the record itself. A run through more states than can be counted may be
refused. -/
def recording (final : List (Query × Option Answer)) (Sure : Prop) (states : Nat) : Trust where
  record := []
  Good ask := ask ∈ final
  Sure := Sure
  Excuses error := UInt32.size ≤ states ∧ ∃ count steps, error = .traceQuery count steps
  Firm := False
  Spares _ := True
  sure := False.elim
  answered := False.elim

/-- Trust in all answers after a record. -/
def since (record : List (Query × Option Answer)) (Good : Query × Option Answer → Prop)
    (decisive : ∀ {ask}, Good ask → Decisive ask) : Trust where
  record := record
  Good := Good
  Sure := True
  Excuses _ := False
  Firm := True
  Spares _ := False
  sure _ := trivial
  answered _ _ hGood := by
    obtain ⟨verdict, hVerdict, hSettled⟩ := decisive hGood
    exact ⟨verdict, hVerdict, fun hUnknown => absurd hUnknown hSettled⟩

variable (T : Trust)

/-- All answers since were as trusted. -/
def Kept (asks : List (Query × Option Answer)) : Prop :=
  ∀ new, asks = new ++ T.record → ∀ ask ∈ new, T.Good ask

/-- A verdict on a query is as trusted. -/
def Tells (query : Query) (verdict : Verdict) : Prop :=
  ∃ interrupts, T.Good (query, some ⟨verdict, interrupts⟩)

/-- What was asked since belongs to what is trusted in, and a prover can be asked again. -/
structure Sound (p : Prover) : Prop where
  begun : T.record <:+ p.asks
  ready : T.Firm → T.Kept p.asks → p.interrupted = false ∧ p.canceled = false

/-- How computations fail. -/
structure Fails (error : Error) (p : Prover) : Prop where
  noSelfCheck : error.isSelfCheck = false
  noMisstep : T.Sure → error.isMisstep = true → T.Excuses error
  spared : T.Firm → T.Kept p.asks → T.Spares error

/-- How a prover goes on: nothing recorded is lost, nothing asserted is taken back, numbers are used
once, and it can still be asked. If it is `fixed` then it asserts nothing. -/
structure Goes (fixed : Bool) (p q : Prover) : Prop where
  events : p.events <:+ q.events
  adds : ∃ ts, p.Adds ts q ∧ (fixed = true → ts = [])
  fresh : T.Sure → p.fresh ≤ q.fresh
  sound : T.Sound p → T.Sound q

/-- What computations with a prover keep to. -/
def onProver (fixed : Bool) : Discipline Error Prover where
  Leads := T.Goes fixed
  Fails := T.Fails
  refl _ := ⟨suffix_refl _, ⟨[], Prover.adds_nil rfl, fun _ => rfl⟩, fun _ => Nat.le_refl _, id⟩
  trans := by
    rintro p q r h h'
    obtain ⟨ts, hts, hNone⟩ := h.adds
    obtain ⟨us, hus, hNone'⟩ := h'.adds
    refine ⟨h.events.trans h'.events, ⟨ts ++ us, hts.trans hus, fun hFixed => ?_⟩,
      fun hSure => Nat.le_trans (h.fresh hSure) (h'.fresh hSure), fun hs => h'.sound (h.sound hs)⟩
    rw [hNone hFixed, hNone' hFixed, append_nil]

variable {T} {fixed : Bool} {p q : Prover}

theorem kept_of_suffix {asks asks' : List (Query × Option Answer)} (h : asks <:+ asks')
    (hKept : T.Kept asks') : T.Kept asks := by
  intro new hNew ask hAsk
  obtain ⟨more, rfl⟩ := h
  exact hKept (more ++ new) (by rw [hNew, append_assoc]) ask (mem_append_right _ hAsk)

theorem Sound.good {ask : Query × Option Answer} (h : T.Sound p)
    (hKept : T.Kept (ask :: p.asks)) : T.Good ask := by
  obtain ⟨new, hNew⟩ := h.begun
  exact hKept (ask :: new) (by rw [cons_append, hNew]) ask mem_cons_self

theorem Goes.kept (h : T.Goes fixed p q) (hKept : T.Kept q.asks) : T.Kept p.asks :=
  kept_of_suffix (h.events.filterMap _) hKept

theorem Goes.inForce (h : T.Goes fixed p q) {t : Term} (ht : p.InForce t) : q.InForce t := by
  obtain ⟨ts, hts, -⟩ := h.adds
  exact (hts.inForce_iff t).mpr (Or.inr ht)

theorem Goes.base (h : T.Goes fixed p q) : p.base <:+ q.base := by
  obtain ⟨ts, hts, -⟩ := h.adds
  exact hts.base

theorem Goes.inForce_eq (h : T.Goes true p q) : q.inForce = p.inForce := by
  obtain ⟨ts, hts, hNone⟩ := h.adds
  obtain rfl := hNone rfl
  exact hts.eq

theorem asked_le (h : p.events <:+ q.events) : p.asked ≤ q.asked := h.sublist.countP_le

theorem goes_of_eq (hEvents : p.events <:+ q.events) (hAsks : q.asks = p.asks)
    (hForce : q.inForce = p.inForce) (hFresh : T.Sure → p.fresh ≤ q.fresh)
    (hReady : T.Firm → p.interrupted = false ∧ p.canceled = false →
      q.interrupted = false ∧ q.canceled = false) : T.Goes fixed p q := by
  refine ⟨hEvents, ⟨[], Prover.adds_nil hForce, fun _ => rfl⟩, hFresh, fun h => ⟨?_, ?_⟩⟩
  · rw [hAsks]
    exact h.begun
  · rw [hAsks]
    exact fun hFirm hKept => hReady hFirm (h.ready hFirm hKept)

theorem goes_of_same (h : p.Same q) (hEvents : p.events <:+ q.events) : T.Goes fixed p q := by
  refine goes_of_eq hEvents h.asks h.inForce (fun _ => Nat.le_of_eq h.fresh.symm) fun _ hReady => ?_
  rw [h.interrupted, h.canceled]
  exact hReady

/-- An error that no answer is to blame for is met with only where something is asked for that
there is not. -/
theorem fails_of_not_sure (hSelf : error.isSelfCheck = false) (h : ¬ T.Sure) : T.Fails error p :=
  ⟨hSelf, fun hSure => absurd hSure h, fun hFirm => absurd (T.sure hFirm) h⟩

theorem fails_of_answer (hSelf : error.isSelfCheck = false) (hMisstep : error.isMisstep = false)
    (h : T.Firm → T.Kept p.asks → T.Spares error) : T.Fails error p :=
  ⟨hSelf, fun _ h => absurd (hMisstep.symm.trans h) Bool.false_ne_true, h⟩

theorem Fails.later (h : T.Fails error p) (hGoes : T.Goes fixed p q) : T.Fails error q :=
  ⟨h.noSelfCheck, h.noMisstep, fun hFirm hKept => h.spared hFirm (hGoes.kept hKept)⟩

theorem sound_recording (final : List (Query × Option Answer)) (Sure : Prop) (states : Nat)
    (p : Prover) : (recording final Sure states).Sound p :=
  ⟨nil_suffix, False.elim⟩

theorem kept_recording (Sure : Prop) (states : Nat) (p : Prover) :
    (recording p.asks Sure states).Kept p.asks := by
  rintro new hNew ask hAsk
  rw [show (recording p.asks Sure states).record = [] from rfl, append_nil] at hNew
  exact hNew ▸ hAsk

theorem sound_since (hRecord : T.record = p.asks)
    (hReady : p.interrupted = false ∧ p.canceled = false) : T.Sound p :=
  ⟨hRecord ▸ suffix_refl _, fun _ _ => hReady⟩

theorem kept_since (hRecord : T.record = p.asks) (h : ∀ ask ∈ p.asksSince q, T.Good ask) :
    T.Kept q.asks := by
  intro new hNew ask hAsk
  refine h ask ?_
  rw [Prover.asksSince, hNew, hRecord, length_append, Nat.add_sub_cancel, take_left]
  exact hAsk

end Trust

/-! ## Small steps -/

namespace Prover

variable {T : Trust} {fixed : Bool} {p q : Prover}

theorem modify_ensures {f : Prover → Prover} (hEvents : (f p).events = p.events)
    (hForce : (f p).inForce = p.inForce) (hFresh : p.fresh ≤ (f p).fresh)
    (hInterrupted : (f p).interrupted = p.interrupted) (hCanceled : (f p).canceled = p.canceled) :
    (T.onProver fixed).Ensures (modify f) p fun _ q => q = f p := by
  refine ensures_modify (Trust.goes_of_eq (hEvents ▸ suffix_refl _) ?_ hForce (fun _ => hFresh)
    fun _ hReady => ?_)
  · rw [asks, asks, hEvents]
  · rw [hInterrupted, hCanceled]
    exact hReady

theorem logging_ensures (f : Log → Log) :
    (T.onProver fixed).Ensures (logging f) p fun _ q => q = { p with log := f p.log } :=
  modify_ensures rfl rfl (Nat.le_refl _) rfl rfl

theorem onDisk_ensures {ε α : Type} {f : ε → Error} (hSelf : ∀ e, (f e).isSelfCheck = false)
    (hMisstep : ∀ e, (f e).isMisstep = false) (hFirm : ¬ T.Firm) (act : EStateM ε Disk α) :
    (T.onProver fixed).Ensures (onDisk f act) p fun _ _ => True := by
  have hGoes : ∀ disk, T.Goes fixed p { p with log := { p.log with disk } } := fun _ =>
    Trust.goes_of_eq (suffix_refl _) rfl rfl (fun _ => Nat.le_refl _) fun _ => id
  unfold Ensures onDisk
  cases act p.log.disk with
  | ok a disk => exact ⟨hGoes disk, trivial⟩
  | error e disk =>
    exact ⟨hGoes disk, Trust.fails_of_answer (hSelf e) (hMisstep e) fun h => absurd h hFirm⟩

theorem assert_ensures (t : Term) :
    (T.onProver false).Ensures (assert t) p fun _ q => q.fresh = p.fresh ∧ p.Adds [t] q := by
  refine (logging_ensures _).bind fun _ q _ hq => ?_
  have hRecord : (T.onProver false).Ensures (record (.assert t)) q fun _ r =>
      r = { q with events := .assert t :: q.events } :=
    ensures_modify (Trust.goes_of_eq (suffix_cons _ _) rfl rfl (fun _ => Nat.le_refl _) fun _ => id)
  refine hRecord.bind fun _ r _ hr => ?_
  have hIdle := idle_assertIn t r
  have hEvents : (assertIn t r).events = r.events := by
    unfold assertIn
    split <;> rfl
  have hGoes : T.Goes false r (assertIn t r) := by
    refine ⟨hEvents ▸ suffix_refl _, ⟨[t], adds_assertIn t r, fun h => by cases h⟩,
      fun _ => Nat.le_of_eq (fresh_assertIn t r).symm, fun h => ⟨?_, ?_⟩⟩
    · rw [hIdle.asks]
      exact h.begun
    · rw [hIdle.asks, hIdle.interrupted, hIdle.canceled]
      exact h.ready
  refine Ensures.imp (ensures_modify hGoes) fun _ u _ hu => ?_
  subst hu hr hq
  exact ⟨fresh_assertIn t _, (adds_assertIn t _).after rfl⟩

theorem indicator_ensures (name : String) :
    (T.onProver fixed).Ensures (indicator name) p fun c q =>
      c.sort = .bool ∧ c.number = p.fresh ∧ q.fresh = p.fresh + 1 ∧ q.inForce = p.inForce := by
  refine ensures_get ?_
  refine (modify_ensures rfl rfl (Nat.le_succ _) rfl rfl).bind fun _ r _ hr => ensures_pure ?_
  subst hr
  exact ⟨rfl, rfl, rfl, rfl⟩

theorem clearInterrupt_ensures :
    (T.onProver fixed).Ensures
      (do
        modify fun p => { p with stopRequested := false }
        clearInterrupt) p fun _ _ => True := by
  refine (modify_ensures rfl rfl (Nat.le_refl _) rfl rfl).bind fun _ q _ _ => ?_
  have hGoes : T.Goes fixed q { q with interrupted := false } :=
    Trust.goes_of_eq (suffix_refl _) rfl rfl (fun _ => Nat.le_refl _) fun _ hReady => ⟨rfl, hReady.2⟩
  exact Ensures.imp (ensures_modify hGoes) fun _ _ _ _ => trivial

theorem requestStop_ensures (hFirm : ¬ T.Firm) :
    (T.onProver fixed).Ensures requestStop p fun _ _ => True := by
  have hStep : ∀ {f : Prover → Prover} (p : Prover), p.events <:+ (f p).events →
      (f p).asks = p.asks → (f p).inForce = p.inForce → (f p).fresh = p.fresh →
      (T.onProver fixed).Ensures (modify f) p fun _ _ => True := fun p hEvents hAsks hForce hFresh =>
    Ensures.imp (ensures_modify (Trust.goes_of_eq hEvents hAsks hForce
      (fun _ => Nat.le_of_eq hFresh.symm) fun h => absurd h hFirm)) fun _ _ _ _ => trivial
  refine (hStep p (suffix_refl _) rfl rfl rfl).bind fun _ q _ _ => ?_
  refine (hStep q (suffix_refl _) rfl rfl rfl).bind fun _ r _ _ => ?_
  refine ensures_get (ensures_ite (fun _ => ?_) fun _ => ensures_pure trivial)
  refine (hStep r (suffix_refl _) rfl rfl rfl).bind fun _ v _ _ => ?_
  exact hStep v (suffix_cons _ _) rfl rfl rfl

/-! ## Queries -/

/-- What is known when a query was answered. -/
structure Heard (T : Trust) (p : Prover) (query : Query) (q : Prover) : Prop where
  assumptions : q.lastAssumptions = query.assumptions
  tells : T.Kept q.asks → T.Tells query q.last
  asked : p.asked < q.asked
  inForce : q.inForce = p.inForce

theorem Hears.goes {answer : Answer} (h : p.Hears query answer q) (hp : T.Sound p) :
    T.Goes fixed p q ∧ Heard T p query q := by
  obtain ⟨verdict, interrupts⟩ := answer
  have hGood : T.Kept q.asks → T.Good (query, some ⟨verdict, interrupts⟩) := by
    rw [h.asks]
    exact hp.good
  have hAsked : p.asked < q.asked := by
    refine Nat.lt_of_lt_of_le ?_ h.events_suffix.sublist.countP_le
    rw [countP_cons_of_pos rfl]
    exact Nat.lt_succ_self _
  refine ⟨⟨(suffix_cons _ _).trans h.events_suffix, ⟨[], adds_nil h.inForce, fun _ => rfl⟩,
    fun _ => Nat.le_of_eq h.fresh.symm, fun _ => ⟨h.asks ▸ hp.begun.trans (suffix_cons _ _),
      fun hFirm hKept => ?_⟩⟩, h.lastAssumptions, fun hKept => ?_, hAsked, h.inForce⟩
  · obtain ⟨_, hSome, -⟩ := T.answered hFirm _ (hGood hKept)
    cases hSome
    have hReady := hp.ready hFirm (Trust.kept_of_suffix (suffix_cons _ _) (h.asks ▸ hKept))
    rw [h.interrupted, h.canceled, Bool.false_and, Bool.false_or, Bool.false_or]
    exact hReady
  · rw [h.last]
    exact ⟨interrupts, hGood hKept⟩

theorem Heard.tell (h : Heard T p query q) (milliseconds : UInt32) :
    Heard T p query (q.tell milliseconds) := by
  obtain ⟨hSame, hEvents⟩ := same_tell milliseconds q
  refine ⟨hSame.lastAssumptions.trans h.assumptions, fun hKept => ?_,
    Nat.lt_of_lt_of_le h.asked (Trust.asked_le hEvents), hSame.inForce.trans h.inForce⟩
  rw [hSame.last]
  exact h.tells (hSame.asks ▸ hKept)

theorem Heard.before {o : Prover} (h : Heard T p query q) (hForce : p.inForce = o.inForce)
    (hEvents : o.events <:+ p.events) : Heard T o query q :=
  ⟨h.assumptions, h.tells, Nat.lt_of_le_of_lt (Trust.asked_le hEvents) h.asked,
    h.inForce.trans hForce⟩

theorem Heard.fails {why : String} (h : Heard T p query q) (hq : T.Sound q)
    (hLast : q.last = .unknown why) {cause : Inconclusive}
    (hCause : cause.interrupted = q.interrupted) : T.Fails (.inconclusive cause) q := by
  refine Trust.fails_of_answer rfl rfl fun hFirm hKept => ?_
  obtain ⟨description, reason, interrupted⟩ := cause
  obtain ⟨interrupts, hGood⟩ := h.tells hKept
  obtain ⟨verdict, hVerdict, hSpared⟩ := T.answered hFirm _ hGood
  rw [hLast] at hVerdict
  cases hVerdict
  obtain rfl : interrupted = false := hCause.trans (hq.ready hFirm hKept).1
  exact hSpared rfl description reason

theorem attempt_ensures {p : Prover} (hp : T.Sound p) (query : Query) (milliseconds : UInt32)
    (retries : Nat) :
    (T.onProver fixed).Ensures (attempt query milliseconds retries) p fun b q =>
      Settles b q.last ∧ Heard T p query q := by
  unfold Ensures
  rcases attempt_cases query milliseconds retries p with hRun | ⟨answer, q, hHears, hFollows⟩
  · rw [hRun]
    refine ⟨⟨suffix_cons _ _, ⟨[], adds_nil rfl, fun _ => rfl⟩, fun _ => Nat.le_refl _, fun _ =>
      ⟨hp.begun.trans (suffix_cons _ _), fun hFirm hKept => ?_⟩⟩, Trust.fails_of_answer rfl rfl ?_⟩
    · exact hp.ready hFirm (Trust.kept_of_suffix (suffix_cons _ _) hKept)
    · intro hFirm hKept
      obtain ⟨_, hNone, -⟩ := T.answered hFirm _ (hp.good hKept)
      cases hNone
  obtain ⟨hpq, hHeard⟩ : T.Goes fixed p q ∧ Heard T p query q := hHears.goes hp
  have hTell : ∀ milliseconds, T.Goes fixed q (q.tell milliseconds) := fun milliseconds =>
    Trust.goes_of_same (same_tell milliseconds q).1 (same_tell milliseconds q).2
  have hTold : ∀ milliseconds, T.Goes fixed p (q.tell milliseconds) := fun milliseconds =>
    (T.onProver fixed).trans hpq (hTell milliseconds)
  generalize attempt query milliseconds retries p = result at hFollows ⊢
  cases hFollows with
  | settled hSettles =>
    refine ⟨hTold _, ?_, hHeard.tell _⟩
    rw [(same_tell _ q).1.last, hHears.last]
    exact hSettles
  | interrupted hVerdict hOn =>
    exact ⟨hTold _, (hHeard.fails (hpq.sound hp) (hHears.last.trans hVerdict) hOn.symm).later
      (hTell _)⟩
  | exhausted hVerdict hOff =>
    exact ⟨hTold _, (hHeard.fails (hpq.sound hp) (hHears.last.trans hVerdict) hOff.symm).later
      (hTell _)⟩
  | again hVerdict hOff =>
    have hForce := (same_tell (doubled milliseconds) q).1.inForce.trans hHears.inForce
    exact ((attempt_ensures ((hTold _).sound hp) query (doubled milliseconds) _).imp
      fun b r _ hr => ⟨hr.1, hr.2.before hForce (hTold _).events⟩).after (hTold _)
termination_by retries

/-- **A query is settled**, unless an answer is not as trusted. -/
theorem check_ensures (hp : T.Sound p) (assumptions : List Term) (question : Question) :
    (T.onProver fixed).Ensures (check assumptions question) p fun b q =>
      Settles b q.last ∧ Heard T p ⟨question, p.inForce, assumptions⟩ q := by
  have hFails : ∀ cause, (p.canceled = true ∨ p.interrupted = true) →
      T.Fails (.inconclusive cause) p := by
    intro cause hNot
    refine Trust.fails_of_answer rfl rfl fun hFirm hKept => ?_
    have hReady := hp.ready hFirm hKept
    simp [hReady] at hNot
  unfold Ensures
  rw [check_eq]
  by_cases hCanceled : p.canceled = true
  · rw [if_pos hCanceled]
    exact ⟨(T.onProver fixed).refl p, hFails _ (.inl hCanceled)⟩
  rw [if_neg hCanceled]
  by_cases hInterrupted : p.interrupted = true
  · rw [if_pos hInterrupted]
    exact ⟨(T.onProver fixed).refl p, hFails _ (.inr hInterrupted)⟩
  rw [if_neg hInterrupted]
  obtain ⟨hSame, hEvents⟩ := same_tell p.options.timeout p
  have hGoes : T.Goes fixed p (p.tell p.options.timeout) := Trust.goes_of_same hSame hEvents
  exact ((attempt_ensures (hGoes.sound hp) _ _ _).imp fun b q _ hq =>
    ⟨hq.1, hq.2.before hSame.inForce hEvents⟩).after hGoes

theorem model_ensures {m : SolverModel} (h : p.last = .sat m) :
    (T.onProver fixed).Ensures model p fun m' q => m' = m ∧ q = p := by
  refine ensures_get ?_
  rw [h]
  exact ensures_pure ⟨rfl, rfl⟩

theorem core_ensures {core : Option (List Nat)} (h : p.last = .unsat core) :
    (T.onProver fixed).Ensures Prover.core p fun terms q =>
      terms = coreTerms p.lastAssumptions core ∧ q = p := by
  refine ensures_get ?_
  rw [h]
  cases core <;> exact ensures_pure ⟨rfl, rfl⟩

end Prover

end InvariantSearch
