import InvariantSearch.Proofs.Encoding.Resolution
import InvariantSearch.Proofs.Encoding.Steps
import InvariantSearch.Proofs.Meaning.Names
import InvariantSearch.Proofs.Session.Trust
import InvariantSearch.Session.Work

/-!
# What work in a session keeps to

A session goes on as its prover does, and keeps its program. All that is worked out in a scope is
asserted on top of what was in force before, and is gone when the scope is closed.

* `Session.Told` — a question got a verdict. This is a fact about the record, so it outlives the
  scope that the question was asked in.
* `Trust.onSession` — the discipline of computations in a session.
* `Session.Guards` — terms that are asserted under indicators.

Main results: one account for each function. `inScope_ensures` and `pose_ensures` say what is left
of work in a scope, `check_ensures` what a query comes to.
-/

namespace InvariantSearch

open Discipline

open List hiding get modify

variable {f : Formula} {q : Question} {v : Verdict} {Sure : Prop} {states index : Nat}
  {act : SessionM α} {step : SessionM Term} {indices : List Nat} {ts : List Term}
  {Q : α → Session → Prop}

/-! ## Computations of terms -/

namespace Encoding

variable {e : Encoding} {index : Nat}

/-- A computation of terms succeeds, whatever number it starts with. -/
def Total {α : Type} (act : Fresh α) : Prop := ∀ n, ∃ a n', act n = .ok a n'

theorem total_of_gives {α : Type} {act : Fresh α} {P : α → Prop} (h : Gives act P) : Total act :=
  fun n => (h n).imp fun _ ⟨n', hRun, _⟩ => ⟨n', hRun⟩

theorem total_encode (hChecked : e.program.Checked) (hf : f.Resolves e.program [])
    (hIndex : index < e.keys.length) : Total (e.encode f index []) :=
  total_of_gives (encode_of_resolves hChecked.symbols hIndex hf (hasTerms_nil []))

theorem total_step (hChecked : e.program.Checked) {way : Option Transition}
    (hWay : way ∈ Generalizer.ways e.program) (hIndex : index < e.keys.length)
    (hNext : nextState index < e.keys.length) : Total (e.step index way) := by
  cases way with
  | none => exact total_of_gives (frameCondition_total hChecked.symbols hIndex hNext .empty)
  | some r =>
    have hr : r ∈ e.program.transitions := by simpa [Generalizer.ways] using hWay
    exact total_of_gives
      (transition_total hChecked.symbols (hChecked.transitions r hr) hIndex hNext)

theorem rises_step (way : Option Transition) : rising.Keeps (e.step index way) := by
  cases way with
  | none => exact rises_frameCondition _ _
  | some r => exact rises_transition _ _

end Encoding

namespace Session

variable {s t u : Session}

/-! ## Records -/

/-- The record of a session goes on in another one. -/
def RecordedIn (s t : Session) : Prop := s.prover.events <:+ t.prover.events

/-- A question got a verdict. -/
def Told (s : Session) (q : Question) (v : Verdict) : Prop :=
  ∃ query answer, s.prover.Recorded query answer ∧ query.question = q ∧ answer.verdict = v

theorem Told.of_recordedIn (h : s.Told q v) (hst : s.RecordedIn t) : t.Told q v := by
  obtain ⟨query, answer, hRecorded, h⟩ := h
  exact ⟨query, answer, hst.subset hRecorded, h⟩

/-- The questions that were answered, newest first. -/
def verdicts (s : Session) : List (Question × Verdict) :=
  s.prover.events.filterMap fun
    | .check query (some answer) => some (query.question, answer.verdict)
    | _ => none

theorem Told.mem_verdicts (h : s.Told q v) : (q, v) ∈ s.verdicts := by
  obtain ⟨query, answer, hRecorded, rfl, rfl⟩ := h
  exact mem_filterMap.mpr ⟨_, hRecorded, rfl⟩

/-- How many queries were asked in a session. -/
def asked (s : Session) : Nat := s.prover.asked

theorem RecordedIn.asked_le (h : s.RecordedIn t) : s.asked ≤ t.asked := Trust.asked_le h

/-- A session is a later one of the same program. Scopes may have been opened and closed, and
other questions asked. -/
structure Continues (s t : Session) : Prop where
  program : t.program = s.program
  label : t.label = s.label
  recorded : s.RecordedIn t
  base : s.prover.base <:+ t.prover.base

theorem Continues.refl (s : Session) : s.Continues s := ⟨rfl, rfl, suffix_refl _, suffix_refl _⟩

theorem Continues.trans (h : s.Continues t) (h' : t.Continues u) : s.Continues u :=
  ⟨h'.program.trans h.program, h'.label.trans h.label, h.recorded.trans h'.recorded,
    h.base.trans h'.base⟩

end Session

/-! ## Going on -/

namespace Trust

/-- How a session goes on. If it is `fixed` then nothing is asserted. -/
structure Proceeds (T : Trust) (fixed : Bool) (s t : Session) : Prop where
  program : t.program = s.program
  label : t.label = s.label
  prover : T.Goes fixed s.prover t.prover

/-- **What work in a session keeps to.** -/
def onSession (T : Trust) (fixed : Bool) : Discipline Error Session where
  Leads := T.Proceeds fixed
  Fails error s := T.Fails error s.prover
  refl s := ⟨rfl, rfl, (T.onProver fixed).refl s.prover⟩
  trans h h' := ⟨h'.program.trans h.program, h'.label.trans h.label,
    (T.onProver fixed).trans h.prover h'.prover⟩

variable {T : Trust} {fixed : Bool} {s t : Session}

theorem Proceeds.recordedIn (h : T.Proceeds fixed s t) : s.RecordedIn t := h.prover.events

theorem Proceeds.continues (h : T.Proceeds fixed s t) : s.Continues t :=
  ⟨h.program, h.label, h.recordedIn, h.prover.base⟩

theorem Proceeds.sound (h : T.Proceeds fixed s t) (hs : T.Sound s.prover) : T.Sound t.prover :=
  h.prover.sound hs

theorem Proceeds.kept (h : T.Proceeds fixed s t) (hKept : T.Kept t.prover.asks) :
    T.Kept s.prover.asks := h.prover.kept hKept

theorem ensures_recording {α : Type} {act : SessionM α}
    {Q : List (Query × Option Answer) → α → Session → Prop}
    (h : ∀ final, ((recording final Sure states).onSession fixed).Ensures act s (Q final)) :
    ((recording [] Sure states).onSession fixed).Ensures act s fun a t => Q t.prover.asks a t := by
  have hLeads : ∀ {final t}, (recording final Sure states).Proceeds fixed s t →
      (recording [] Sure states).Proceeds fixed s t := fun h =>
    ⟨h.program, h.label, h.prover.events, h.prover.adds, h.prover.fresh,
      fun _ => sound_recording _ _ _ _⟩
  unfold Ensures at h ⊢
  cases hRun : act s with
  | ok a t =>
    simp only [hRun] at h
    exact ⟨hLeads (h t.prover.asks).1, (h t.prover.asks).2⟩
  | error error t =>
    simp only [hRun] at h
    exact ⟨hLeads (h []).1, (h []).2⟩

theorem exists_recorded {query : Query} {verdict : Verdict}
    (h : (recording s.prover.asks Sure states).Kept s.prover.asks → (recording s.prover.asks Sure
      states).Tells query verdict) :
    ∃ answer, s.prover.Recorded query answer ∧ answer.verdict = verdict := by
  obtain ⟨interrupts, hGood⟩ := h (kept_recording _ _ _)
  exact ⟨⟨verdict, interrupts⟩, Prover.mem_asks.mp hGood, rfl⟩

end Trust

/-! ## Small steps -/

namespace Session

open Encoding

variable {T : Trust} {fixed : Bool} {s : Session} {e : Encoding} {α β : Type}

theorem proving_ensures {act : ProverM α} {Q : α → Prover → Prop}
    (h : (T.onProver fixed).Ensures act s.prover Q) :
    (T.onSession fixed).Ensures (proving act) s fun a t => Q a t.prover := by
  unfold Ensures at h ⊢
  unfold proving
  cases hRun : act s.prover with
  | ok a q =>
    rw [hRun] at h
    exact ⟨⟨rfl, rfl, h.1⟩, h.2⟩
  | error e q =>
    rw [hRun] at h
    exact ⟨⟨rfl, rfl, h.1⟩, h.2⟩

theorem logging_ensures (f : Log → Log) :
    (T.onSession fixed).Ensures (logging f) s fun _ t =>
      t.prover = { s.prover with log := f s.prover.log } :=
  proving_ensures (Prover.logging_ensures f)

/-- Something is worked out with the next numbers, and nothing is asserted. -/
structure Lowers (s : Session) (act : Fresh α) (a : α) (t : Session) : Prop where
  run : act s.prover.fresh = .ok a t.prover.fresh
  inForce : t.prover.inForce = s.prover.inForce

theorem encoding_ensures {act : Fresh α} (hTotal : T.Sure → Total act) (hRises : rising.Keeps act) :
    (T.onSession fixed).Ensures (encoding act) s (s.Lowers act) := by
  have hGoes : ∀ n, (T.Sure → s.prover.fresh ≤ n) →
      T.Proceeds fixed s { s with prover := { s.prover with fresh := n } } := fun n hn =>
    ⟨rfl, rfl, Trust.goes_of_eq (suffix_refl _) rfl rfl hn fun _ => id⟩
  unfold Ensures encoding
  cases hRun : act s.prover.fresh with
  | ok a n => exact ⟨hGoes n fun _ => hRises.ok hRun, hRun, rfl⟩
  | error fault n =>
    have hNot : ¬ T.Sure := by
      intro hSure
      obtain ⟨a, n', hOk⟩ := hTotal hSure s.prover.fresh
      rw [hOk] at hRun
      cases hRun
    exact ⟨hGoes n fun hSure => absurd hSure hNot, Trust.fails_of_not_sure rfl hNot⟩

theorem lowering_ensures {act : Fresh Term} (hTotal : T.Sure → Total act) (hRises : rising.Keeps act)
    (f : Term → Log → Log) :
    (T.onSession fixed).Ensures (do
      let term ← encoding act
      logging (f term)
      return term) s (s.Lowers act) := by
  refine (encoding_ensures hTotal hRises).bind fun term t _ ht => ?_
  refine (logging_ensures _).bind fun _ u _ hu => ensures_pure ⟨?_, ?_⟩
  · rw [hu]
    exact ht.run
  · rw [hu]
    exact ht.inForce

theorem overSteps_ensures {count : Nat} (h : T.Sure → 0 < count) :
    (T.onSession fixed).Ensures (overSteps count) s fun e t =>
      e = ⟨s.program, s.label, stepKeys count⟩ ∧ t.prover = s.prover := by
  refine ensures_ite (fun hEmpty => ensures_throw (Trust.fails_of_not_sure rfl fun hSure => ?_))
    fun _ => ?_
  · have hKeys : stepKeys count ≠ [] := by
      simpa [stepKeys] using Nat.pos_iff_ne_zero.mp (h hSure)
    exact hKeys (isEmpty_iff.mp hEmpty)
  · have hLeads : ∀ encodings, T.Proceeds fixed s { s with encodings } :=
      fun _ => ⟨rfl, rfl, (T.onProver fixed).refl _⟩
    refine Ensures.bind (ensures_modify (hLeads _)) fun _ t _ ht => ?_
    refine ensures_get (ensures_pure ?_)
    rw [ht]
    exact ⟨rfl, rfl⟩

/-! ## Encoding -/

/-- A term encodes a formula in a state. -/
def Encodes (e : Encoding) (f : Formula) (index : Nat) (t : Term) : Prop :=
  ∃ n n', e.encode f index [] n = .ok t n'

theorem Lowers.encodes {term : Term} {t : Session} (h : s.Lowers (e.encode f index []) term t) :
    Encodes e f index term := ⟨_, _, h.run⟩

theorem encodeWith_ensures {scope : Scope} (hTotal : T.Sure → Total (e.encode f index scope)) :
    (T.onSession fixed).Ensures (encodeWith e f index scope) s
      (s.Lowers (e.encode f index scope)) :=
  lowering_ensures hTotal (rises_encode _ _ _) _

theorem encode_ensures (hTotal : T.Sure → Total (e.encode f index [])) :
    (T.onSession fixed).Ensures (encode e f index) s (s.Lowers (e.encode f index [])) :=
  encodeWith_ensures hTotal

theorem transition_ensures {r : Transition} (hTotal : T.Sure → Total (e.step index (some r))) :
    (T.onSession fixed).Ensures (transition e r index) s (s.Lowers (e.step index (some r))) :=
  lowering_ensures hTotal (rises_transition _ _) _

theorem stutter_ensures (hTotal : T.Sure → Total (e.step index none)) :
    (T.onSession fixed).Ensures (stutter e index) s (s.Lowers (e.step index none)) :=
  encoding_ensures hTotal (rises_frameCondition _ _)

theorem sorted_of_mem_definitions {p : Program} (hChecked : p.Checked) {isMutable : Bool}
    (hf : f ∈ definitions p isMutable) :
    p.Sorted (if isMutable then .singleState else .immutableOnly) f := by
  simp only [definitions, mem_filterMap, mem_filter, beq_iff_eq] at hf
  obtain ⟨x, ⟨hx, rfl⟩, hf⟩ := hf
  exact (hChecked.symbols x hx).definition f hf

theorem encodeAll_ensures {fs : List Formula}
    (hTotal : T.Sure → ∀ f ∈ fs, Total (e.encode f index [])) :
    (T.onSession fixed).Ensures (fs.mapM fun f => encode e f index) s fun ts t =>
      Forall₂ (Encodes e · index ·) fs ts ∧ t.prover.inForce = s.prover.inForce := by
  induction fs generalizing s with
  | nil =>
    rw [mapM_nil]
    exact ensures_pure ⟨.nil, rfl⟩
  | cons f fs ih =>
    rw [mapM_cons]
    refine (encode_ensures fun hSure => hTotal hSure f mem_cons_self).bind fun term t _ ht => ?_
    refine (ih fun hSure g hg => hTotal hSure g (mem_cons_of_mem _ hg)).bind fun ts u _ hu => ?_
    exact ensures_pure ⟨.cons ht.encodes hu.1, hu.2.trans ht.inForce⟩

/-! ## Asserting -/

theorem assert_ensures (t : Term) :
    (T.onSession false).Ensures (assert t) s fun _ u =>
      u.prover.fresh = s.prover.fresh ∧ s.prover.Adds [t] u.prover :=
  proving_ensures (Prover.assert_ensures t)

theorem assertAll_ensures (ts : List Term) :
    (T.onSession false).Ensures (assertAll ts) s fun _ u => s.prover.Adds ts u.prover := by
  induction ts generalizing s with
  | nil => exact ensures_pure (Prover.adds_nil rfl)
  | cons t ts ih =>
    exact (assert_ensures t).bind fun _ u _ hu => ih.imp fun _ w _ hw => hu.2.trans hw

theorem lowerAndAssert_ensures {lower : Fresh Term}
    (h : (T.onSession false).Ensures step s (s.Lowers lower)) :
    (T.onSession false).Ensures (do
      let term ← step
      assert term) s fun _ t => ∃ term n, lower s.prover.fresh = .ok term n ∧
        t.prover.fresh = n ∧ s.prover.Adds [term] t.prover := by
  refine h.bind fun term t _ ht => ?_
  exact (assert_ensures term).imp fun _ u _ hu =>
    ⟨term, _, ht.run, hu.1, hu.2.after ht.inForce⟩

/-- Terms are the definitions of the derived relations in some states, state by state. -/
def AreDefinitions (e : Encoding) (indices : List Nat) (ts : List Term) : Prop :=
  Forall₂ (fun place t => Encodes e place.2 place.1 t)
    (indices.flatMap fun index => (definitions e.program true).map (Prod.mk index)) ts

theorem AreDefinitions.all (h : AreDefinitions e indices ts) (hIndex : index ∈ indices)
    (hf : f ∈ definitions e.program true) : ∃ t ∈ ts, Encodes e f index t :=
  exists_right_of_forall₂ h (mem_flatMap.mpr ⟨index, hIndex, mem_map_of_mem hf⟩)

theorem AreDefinitions.only (h : AreDefinitions e indices ts) {t : Term} (ht : t ∈ ts) :
    ∃ index ∈ indices, ∃ f ∈ definitions e.program true, Encodes e f index t := by
  obtain ⟨place, hPlace, hEncodes⟩ := exists_left_of_forall₂ h ht
  obtain ⟨index, hIndex, hPlace⟩ := mem_flatMap.mp hPlace
  obtain ⟨f, hf, rfl⟩ := mem_map.mp hPlace
  exact ⟨index, hIndex, f, hf, hEncodes⟩

/-! ## Indicators -/

/-- A term under an indicator. -/
structure Guard where
  indicator : SolverConst
  literal : Term

/-- What is asserted of a term under an indicator. -/
def Guard.term (g : Guard) : Term := .imp g.indicator.term g.literal

theorem Guard.satisfies_term (g : Guard) {M : SolverStructure} :
    M.Satisfies g.term ↔ (M.Satisfies g.indicator.term → M.Satisfies g.literal) := by
  rw [SolverStructure.Satisfies, Guard.term, SolverStructure.value, SolverStructure.truthOf_eq_true]
  exact Iff.rfl

/-- Lets an indicator imply what is worked out. -/
def guarded (label : String) (step : SessionM Term) (f : SolverConst → β) : SessionM β := do
  let indicator ← proving (Prover.indicator label)
  let term ← step
  assert (.imp indicator.term term)
  return f indicator

/-- Terms for some things, each under an indicator of its own. All that is fresh in them is
numbered from `n` on, and indicators up to `n'`. -/
structure Guards {ω : Type} (lower : ω → Fresh Term) (n n' : Nat) (guards : List (ω × Guard)) :
    Prop where
  le : n ≤ n'
  literals : ∀ g ∈ guards, ∃ k k', n ≤ k ∧ lower g.1 k = .ok g.2.literal k'
  indicators : ∀ g ∈ guards, g.2.indicator.sort = .bool ∧ n ≤ g.2.indicator.number ∧
    g.2.indicator.number < n'
  nodup : (guards.map fun g => g.2.indicator.number).Nodup

section Guards

variable {ω : Type} {lower : ω → Fresh Term} {n n' n'' : Nat} {guards more : List (ω × Guard)}

theorem guards_nil (lower : ω → Fresh Term) (hn : n ≤ n') : Guards lower n n' [] :=
  ⟨hn, fun _ h => (by cases h), fun _ h => (by cases h), nodup_nil⟩

theorem Guards.append (h : Guards lower n n' guards) (h' : Guards lower n' n'' more) :
    Guards lower n n'' (guards ++ more) := by
  have hn := h.le
  have hn' := h'.le
  refine ⟨Nat.le_trans hn hn', forall_mem_append.mpr ⟨h.literals, fun g hg => ?_⟩,
    forall_mem_append.mpr ⟨fun g hg => ?_, fun g hg => ?_⟩, ?_⟩
  · obtain ⟨k, k', hk, hLower⟩ := h'.literals g hg
    exact ⟨k, k', Nat.le_trans hn hk, hLower⟩
  · exact (h.indicators g hg).imp_right fun hg => ⟨hg.1, by omega⟩
  · exact (h'.indicators g hg).imp_right fun hg => ⟨by omega, hg.2⟩
  · rw [map_append]
    refine h.nodup.append h'.nodup fun i hi hi' => ?_
    obtain ⟨g, hg, rfl⟩ := mem_map.mp hi
    obtain ⟨g', hg', hEq⟩ := mem_map.mp hi'
    have hLess := (h.indicators g hg).2.2
    have hLess' := (h'.indicators g' hg').2.1
    have hEq : g'.2.indicator.number = g.2.indicator.number := hEq
    omega

theorem guarded_ensures (lower : ω → Fresh Term) (a : ω) (hRises : rising.Keeps (lower a))
    (hStep : ∀ t, (T.onSession false).Ensures step t (t.Lowers (lower a))) (label : String)
    (f : SolverConst → β) :
    (T.onSession false).Ensures (guarded label step f) s fun b t => ∃ g,
      Guards lower s.prover.fresh t.prover.fresh [(a, g)] ∧ b = f g.indicator ∧
        s.prover.Adds [g.term] t.prover := by
  refine (proving_ensures (Prover.indicator_ensures label)).bind fun c t _ ht => ?_
  obtain ⟨hSort, hNumber, hFresh, hForce⟩ := ht
  refine (hStep t).bind fun term u _ hu => ?_
  refine (assert_ensures _).bind fun _ v _ hv => ensures_pure ⟨⟨c, term⟩, ?_, rfl, ?_⟩
  · have hLess : t.prover.fresh ≤ u.prover.fresh := hRises.ok hu.run
    rw [hv.1]
    refine ⟨by omega, forall_mem_singleton.mpr ⟨_, _, ?_, hu.run⟩,
      forall_mem_singleton.mpr ⟨hSort, Nat.le_of_eq hNumber.symm, ?_⟩, nodup_singleton _⟩
    · omega
    · show c.number < _
      omega
  · exact hv.2.after (hu.inForce.trans hForce)

theorem guards_ensures (lower : ω → Fresh Term) (f : ω → SolverConst → β) (tag : α → ω)
    {act : α → SessionM β} (as : List α)
    (hAct : ∀ a ∈ as, ∀ s, (T.onSession false).Ensures (act a) s fun b t => ∃ g,
      Guards lower s.prover.fresh t.prover.fresh [(tag a, g)] ∧ b = f (tag a) g.indicator ∧
        s.prover.Adds [g.term] t.prover) :
    (T.onSession false).Ensures (as.mapM act) s fun bs t => ∃ guards : List (ω × Guard),
      Guards lower s.prover.fresh t.prover.fresh guards ∧ guards.map Prod.fst = as.map tag ∧
        bs = guards.map (fun g => f g.1 g.2.indicator) ∧
        s.prover.Adds (guards.map fun g => g.2.term) t.prover := by
  induction as generalizing s with
  | nil =>
    rw [mapM_nil]
    exact ensures_pure ⟨[], guards_nil _ (Nat.le_refl _), rfl, rfl, Prover.adds_nil rfl⟩
  | cons a as ih =>
    obtain ⟨hHead, hTail⟩ := forall_mem_cons.mp hAct
    rw [mapM_cons]
    refine (hHead s).bind fun b t hst hb => ?_
    obtain ⟨g, hGuard, rfl, hAdds⟩ := hb
    refine (ih hTail).bind fun bs u htu hbs => ensures_pure ?_
    obtain ⟨guards, hGuards, hTags, rfl, hAdds'⟩ := hbs
    exact ⟨(tag a, g) :: guards, hGuard.append hGuards, congrArg (tag a :: ·) hTags, rfl,
      hAdds.trans hAdds'⟩

end Guards

/-! ## Queries and scopes -/

/-- **A query in a session is settled**, unless an answer is not as trusted. -/
theorem check_ensures (hs : T.Sound s.prover) (assumptions : List Term) (question : Question) :
    (T.onSession fixed).Ensures (check assumptions question) s fun b t =>
      Prover.Settles b t.prover.last ∧
        Prover.Heard T s.prover ⟨question, s.prover.inForce, assumptions⟩ t.prover :=
  proving_ensures (Prover.check_ensures hs assumptions question)

/-- A session with a new scope. -/
def opened (s : Session) : Session := { s with prover := s.prover.opened }

/-- A session without its innermost scope. -/
def closed (s : Session) : Session := { s with prover := s.prover.closed }

/-- **What was asserted in a scope is gone with it**, however the work in the scope ends. -/
theorem inScope_ensures (hs : T.Sound s.prover)
    (h : T.Sound s.opened.prover → (T.onSession false).Ensures act s.opened fun a t => Q a t.closed) :
    (T.onSession fixed).Ensures (inScope act) s fun a t =>
      Q a t ∧ t.prover.inForce = s.prover.inForce := by
  have hOpened : T.Sound s.opened.prover := ⟨hs.begun, hs.ready⟩
  have hForce : ∀ t, T.Proceeds false s.opened t →
      t.closed.prover.inForce = s.prover.inForce := by
    intro t ht
    obtain ⟨ts, hAdds, -⟩ := ht.prover.adds
    exact Prover.inForce_closed (p := s.prover) hAdds.inForce_opened
  have hLeads : ∀ t, T.Proceeds false s.opened t → T.Proceeds fixed s t.closed := by
    intro t ht
    refine ⟨ht.program, ht.label, ?_, ⟨[], Prover.adds_nil (hForce t ht), fun _ => rfl⟩,
      ht.prover.fresh, fun _ => ⟨(ht.sound hOpened).begun, (ht.sound hOpened).ready⟩⟩
    exact ((suffix_cons _ _).trans ht.prover.events).trans (suffix_cons _ _)
  unfold Ensures inScope
  rw [Prover.push_eq_ite]
  by_cases hCanceled : s.prover.canceled = true
  · rw [if_pos hCanceled]
    refine ⟨(T.onSession fixed).refl s, Trust.fails_of_answer rfl rfl fun hFirm hKept => ?_⟩
    have hReady := hs.ready hFirm hKept
    simp [hReady] at hCanceled
  · rw [if_neg hCanceled]
    have hAct := h hOpened
    unfold Ensures at hAct
    dsimp only
    rw [show ({ s with prover := s.prover.opened } : Session) = s.opened from rfl]
    cases hRun : act s.opened with
    | ok a t =>
      rw [hRun] at hAct
      exact ⟨hLeads t hAct.1, hAct.2, hForce t hAct.1⟩
    | error error t =>
      rw [hRun] at hAct
      exact ⟨hLeads t hAct.1, hAct.2.noSelfCheck, hAct.2.noMisstep, hAct.2.spared⟩

/-- The first step in the scope of a query: the derived relations get their definitions in every
state. -/
def define (e : Encoding) : SessionM Unit :=
  (range e.keys.length).forM fun index => do
    let terms ← derived e index
    assertAll terms

theorem query_eq (e : Encoding) (act : SessionM α) :
    query e act = inScope (define e >>= fun _ => act) := rfl

theorem defineIn_ensures (hChecked : T.Sure → e.program.Checked) (indices : List Nat)
    (hIndices : ∀ index ∈ indices, index < e.keys.length) :
    (T.onSession false).Ensures (indices.forM fun index => do
      let terms ← derived e index
      assertAll terms) s fun _ t =>
        ∃ ts, s.prover.Adds ts t.prover ∧ AreDefinitions e indices ts := by
  induction indices generalizing s with
  | nil => exact ensures_pure ⟨[], Prover.adds_nil rfl, .nil⟩
  | cons index indices ih =>
    obtain ⟨hIndex, hRest⟩ := forall_mem_cons.mp hIndices
    have hFirst : (T.onSession false).Ensures (do
        let terms ← derived e index
        assertAll terms) s fun _ t => ∃ ts, s.prover.Adds ts t.prover ∧
          Forall₂ (Encodes e · index ·) (definitions e.program true) ts := by
      refine (encodeAll_ensures fun hSure f hf => ?_).bind fun ts t _ ht => ?_
      · have hSorted := sorted_of_mem_definitions (hChecked hSure) hf
        exact total_encode (hChecked hSure) (hSorted.resolves (by simp)) hIndex
      · exact (assertAll_ensures ts).imp fun _ u _ hu => ⟨ts, hu.after ht.2, ht.1⟩
    refine hFirst.bind fun _ t _ ht => ?_
    obtain ⟨ts, hts, hEncodes⟩ := ht
    refine (ih hRest).imp fun _ u _ hu => ?_
    obtain ⟨us, hus, hAre⟩ := hu
    exact ⟨ts ++ us, hts.trans hus, rel_append (forall₂_map_left_iff.mpr hEncodes) hAre⟩

/-- **Work in the scope of a query** finds the definitions of derived relations asserted, on top of
what was in force before. -/
theorem query_ensures (hs : T.Sound s.prover) (hChecked : T.Sure → e.program.Checked)
    (h : ∀ ts t, AreDefinitions e (range e.keys.length) ts → t.prover.inForce = ts.reverse ::
      s.prover.inForce → T.Proceeds false s.opened t → T.Sound t.prover → (T.onSession
      false).Ensures act t fun a u => Q a u.closed) :
    (T.onSession fixed).Ensures (query e act) s fun a t =>
      Q a t ∧ t.prover.inForce = s.prover.inForce := by
  rw [query_eq]
  refine inScope_ensures hs fun hOpened => ?_
  refine (defineIn_ensures hChecked _ fun _ h => mem_range.mp h).bind fun _ t hst ht => ?_
  obtain ⟨ts, hAdds, hAre⟩ := ht
  exact h ts t hAre hAdds.inForce_opened hst (hst.sound hOpened)

/-- **An answer that is worked out in a scope of its own fails for want of trust only.** -/
theorem pose_ensures {setUp : SessionM α} {answer : α → SessionM β} {P : α → Session → Prop}
    {Q : β → Session → Prop} (hs : T.Sound s.prover) (hChecked : T.Sure → e.program.Checked)
    (hSetUp : ∀ ts t, AreDefinitions e (range e.keys.length) ts →
      t.prover.inForce = ts.reverse :: s.prover.inForce → T.Proceeds false s.opened t →
      (T.onSession false).Ensures setUp t P)
    (hAnswer : ∀ a t, T.Proceeds false s.opened t → T.Sound t.prover → P a t →
      (T.onSession false).Ensures (answer a) t fun b u => Q b u.closed) :
    (T.onSession fixed).Ensures (pose e setUp answer) s fun r t =>
      (∀ b, r = .ok b → Q b t) ∧ (∀ error, r = .error error → T.Fails error t.prover) := by
  refine (query_ensures hs hChecked fun ts t hAre hForce hst ht => ?_).imp fun _ _ _ h => h.1
  refine (hSetUp ts t hAre hForce hst).bind fun a u htu ha => ?_
  have hsu := (T.onSession false).trans hst htu
  refine ((hAnswer a u hsu (htu.sound ht) ha).attempt fun _ h => h).imp fun r v _ hv =>
    ⟨hv.1, fun error hError => ?_⟩
  have hFails := hv.2 error hError
  exact ⟨hFails.noSelfCheck, hFails.noMisstep, hFails.spared⟩

end Session

end InvariantSearch
