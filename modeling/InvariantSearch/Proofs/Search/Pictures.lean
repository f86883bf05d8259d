import InvariantSearch.Proofs.Encoding.DiagramSorts
import InvariantSearch.Proofs.Search.Generalization
import InvariantSearch.Proofs.Session.Models

/-!
# What the traces of a search picture

A search takes the states it works on from traces: a violation in the last frame, a
predecessor of an obligation, or a state that keeps a predicate from being pushed. Each
trace was read from a model of a query in which the condition of a frame was asserted.

* `Session.NamesApart` — no two elements of a model get one name when it is read.
* `Trace.Portrays` — a trace tells states of the program completely.

Main result: `Pictures.portrays`. Where models are true and names apart, such a trace tells
states of the program, the first one meets the condition, and the step goes as it was asked.
-/

namespace InvariantSearch

namespace Session

variable {s : Session}

/-- No two elements of a model that was given get one name when the model is read. -/
def NamesApart (s : Session) : Prop :=
  ∀ query answer m, s.prover.Recorded query answer → answer.verdict = .sat m →
    ∀ t, Encoding.readModel ⟨s.program, s.label, stepKeys query.question.states⟩ m = .ok t →
      (t.universes.flatMap Prod.snd).Nodup

/-- Whether names are apart can be computed. -/
instance (s : Session) : Decidable s.NamesApart :=
  decidable_of_iff
    (∀ entry ∈ s.models, ∀ t ∈ (Encoding.readModel
      ⟨s.program, s.label, stepKeys entry.1.question.states⟩ entry.2).toOption,
        (t.universes.flatMap Prod.snd).Nodup)
    ⟨fun h query answer m hRecorded hVerdict t ht =>
      h (query, m) (mem_models.mpr ⟨_, hRecorded, hVerdict⟩) t (by rw [ht]; rfl),
      fun h entry hEntry t ht => by
        obtain ⟨answer, hRecorded, hVerdict⟩ := mem_models.mp hEntry
        refine h entry.1 answer entry.2 hRecorded hVerdict t ?_
        cases hRead : Encoding.readModel
            ⟨s.program, s.label, stepKeys entry.1.question.states⟩ entry.2 with
        | error fault =>
          rw [hRead] at ht
          cases ht
        | ok read =>
          rw [hRead] at ht
          cases ht
          rfl⟩

theorem NamesApart.of_recordedIn {t : Session} (h : t.NamesApart) (hst : s.RecordedIn t)
    (hProgram : t.program = s.program) (hLabel : t.label = s.label) : s.NamesApart := by
  intro query answer m hRecorded hVerdict
  rw [← hProgram, ← hLabel]
  exact h query answer m (hst.subset hRecorded) hVerdict

end Session

/-- A trace tells some states of a program completely. -/
structure Trace.Portrays (p : Program) (states : Nat) (t : Trace) : Prop where
  inhabits : t.domain.Inhabits p
  sorts : ∀ entry ∈ t.universes, p.hasSort entry.1 = true
  tabulates : ∀ index < states, t.Tabulates p index
  isState : ∀ index < states, IsState p (t.meaning p index)

namespace Session

variable {s : Session} {p : Program} {label : String} {base : List Term} {states : Nat}
  {f : Formula} {step : Option Transition} {trace : Trace}

/-- **A true picture shows states of the program.** The condition holds in the first one, and the
transition leads from there to the second one. -/
theorem Pictures.portrays (h : s.Pictures p label base states f step trace)
    (hFaithful : s.Faithful) (hApart : s.NamesApart) (hProgram : s.program = p)
    (hLabel : s.label = label) (hProper : Proper p) (hBase : Assumes p label base)
    (hStates : 0 < states) (hWord : states ≤ UInt32.size) (hf : p.Sorted .singleState f) :
    trace.Portrays p states ∧ f.HoldsIn (trace.meaning p 0) ∧
      ∀ r ∈ p.transitions, step = some r → 1 < states →
        Takes p r (trace.meaning p 0) (trace.meaning p 1) := by
  subst hProgram hLabel
  have hFits := h.fits
  obtain ⟨m, needed, read, hm, hNeeded, hDefines, ⟨u, hu, hEncodes⟩, hStep, hRead, names, rfl⟩ := h
  have hKeys : (stepKeys states).length = states := by simp [stepKeys]
  have hDisplays := (hm.displays hFaithful hStates hProper hRead).rename names
  have hNames : (read.universes.flatMap Prod.snd).Nodup := by
    obtain ⟨query, answer, hRecorded, hVerdict, rfl, -⟩ := hm
    exact hApart query answer m hRecorded hVerdict read hRead
  have hTabulates : ∀ index < states, read.Tabulates s.program index := fun index hIndex =>
    Encoding.tabulates_of_readModel hProper.declared.nodup_names hProper.declared.nodup_sorts
      hProper.declared.sort_ne_bool hProper.checked.symbols hRead hNames (hKeys.symm ▸ hIndex)
  refine ⟨⟨hDisplays.reads.inhabits hDisplays.complete hProper.declared.sort_ne_bool,
    fun entry hEntry => List.contains_iff_mem.mpr (hFits.1 entry hEntry), fun index hIndex => ?_,
    fun index hIndex => ?_⟩, ?_, fun r hr hSome hTwo => ?_⟩
  · -- the tables are those of the trace that was read
    have hTold := hTabulates index hIndex
    exact ⟨⟨hTold.lists.sorts, hTold.lists.ne_bool, hTold.lists.names⟩, hTold.inRange, hTold.once,
      fun i hi => (hTold.covers i hi).imp fun x hx => ⟨hx.1, ⟨hx.2.symbol, hx.2.once, hx.2.total,
        hx.2.values⟩⟩⟩
  · exact hDisplays.isState hProper hBase hNeeded hDefines (hKeys.symm ▸ hIndex)
  · exact hDisplays.holdsIn hProper hf ⟨u, hDisplays.satisfied u hu, hEncodes⟩
  · obtain ⟨v, hv, hTerm⟩ := hStep r hSome
    exact hDisplays.goes hProper (hKeys.symm ▸ hTwo) (hKeys.symm ▸ hWord)
      (List.mem_cons_of_mem none (List.mem_map_of_mem hr)) (hDisplays.satisfied v hv) hTerm

end Session

end InvariantSearch
