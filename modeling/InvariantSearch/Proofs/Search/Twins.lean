import InvariantSearch.Proofs.Checkpoint.Saving
import InvariantSearch.Proofs.Meaning.Clause
import InvariantSearch.Proofs.Session.Twins
import InvariantSearch.Proofs.Search.Moves

/-!
# Two searches of one program

A search reads nothing but its options, its state and its session. So two searches
with the same options and states, in sessions that are twins, ask alike and end alike.
What they have counted so far makes no difference.

* `WorkM.pairing` — two computations with a state of their own beside their sessions.
* `SearchState.Distinct` — nothing is listed twice in a frame or in the log.
* `Search.Twins` — the same options and safety, the same state, which is distinct.

Main result: `Search.run_twins`.
-/

namespace InvariantSearch

open Pairing Log List Pairing.Even

open Session hiding logging_twins

/-! ## Work beside a session -/

namespace WorkM

variable {N : Renumbering} {p : Program} {label : String} {σ τ α β : Type} {T : σ → σ → Prop}
  {R : α → β → Prop}

/-- Two sessions side by side, each with a state besides. All scopes stay as they are. -/
def pairing (N : Renumbering) (p : Program) (label : String) (T : σ → σ → Prop) :
    Pairing Error (Session × σ) where
  Twins x x' := Session.Twins N p label x.1 x'.1 ∧ T x.2 x'.2
  Alike := Error.Alike N.Pairs
  Leads x x' y y' := (Session.pairing N p label 0).Leads x.1 x'.1 y.1 y'.1
  alike_refl := N.alike_error
  refl x x' := (Session.pairing N p label 0).refl x.1 x'.1
  trans h h' := (Session.pairing N p label 0).trans h h'

theorem inSession_twins {act : SessionM α} {act' : SessionM β}
    (h : (Session.pairing N p label 0).Relates R act act') :
    (pairing N p label T).Relates R (inSession act) (inSession act') := by
  rintro ⟨s, x⟩ ⟨s', x'⟩ hx
  have hEnds := h s s' hx.1
  unfold inSession
  dsimp only
  cases hRun : act s <;> cases hRun' : act' s' <;> rw [hRun, hRun'] at hEnds
  · exact ⟨⟨hEnds.1, hx.2⟩, hEnds.2.1, hEnds.2.2⟩
  · exact hEnds.elim
  · exact hEnds.elim
  · exact ⟨⟨hEnds.1, hx.2⟩, hEnds.2.1, hEnds.2.2⟩

theorem session_twins : (pairing N p label T).Relates (Session.Twins N p label) session session :=
  fun x x' hx => ⟨hx, (pairing N p label T).refl x x', hx.1⟩

theorem own_twins : (pairing N p label T).Relates T own own :=
  fun x x' hx => ⟨hx, (pairing N p label T).refl x x', hx.2⟩

theorem update_twins {f f' : σ → σ} (h : ∀ x x', T x x' → T (f x) (f' x')) :
    (pairing N p label T).Relates Eq (update f) (update f') :=
  fun x x' hx => ⟨⟨hx.1, h _ _ hx.2⟩, (pairing N p label T).refl x x', rfl⟩

theorem inPart_twins {U : τ → τ → Prop} {part : τ → σ} {replace : σ → τ → τ}
    (hPart : ∀ y y', U y y' → T (part y) (part y'))
    (hReplace : ∀ y y' x x', U y y' → T x x' → U (replace x y) (replace x' y'))
    {act : WorkM σ α} {act' : WorkM σ β} (h : (pairing N p label T).Relates R act act') :
    (pairing N p label U).Relates R (inPart part replace act) (inPart part replace act') := by
  rintro ⟨s, y⟩ ⟨s', y'⟩ hy
  have hEnds := h (s, part y) (s', part y') ⟨hy.1, hPart _ _ hy.2⟩
  unfold inPart
  dsimp only
  cases hRun : act (s, part y) <;> cases hRun' : act' (s', part y') <;> rw [hRun, hRun'] at hEnds
  · exact ⟨⟨hEnds.1.1, hReplace _ _ _ _ hy.2 hEnds.1.2⟩, hEnds.2.1, hEnds.2.2⟩
  · exact hEnds.elim
  · exact hEnds.elim
  · exact ⟨⟨hEnds.1.1, hReplace _ _ _ _ hy.2 hEnds.1.2⟩, hEnds.2.1, hEnds.2.2⟩

theorem logging_twins {f f' : Log → Log} (hf : Calm f) (hf' : Calm f') :
    (pairing N p label T).Relates Eq (logging f) (logging f') :=
  inSession_twins (Session.logging_twins hf hf')

theorem logging_even {f : Log → Log} (hf : Calm f) : (pairing N p label T).Even (logging f) :=
  logging_twins hf hf

end WorkM

/-! ## Generalizing -/

namespace Generalizer

open WorkM

variable {N : Renumbering} {p : Program} {label : String} {cores : Bool}

/-- Two generalizers that use cores, or do not. -/
def Twins (cores : Bool) (g g' : Generalizer) : Prop := g.useCores = cores ∧ g'.useCores = cores

theorem count_twins (f f' : GeneralizerStats → GeneralizerStats) :
    (pairing N p label (Twins cores)).Relates Eq (count f) (count f') :=
  update_twins fun _ _ h => h

/-- Two terms are constants that are paired. -/
def IndicatorAlike (N : Renumbering) (t t' : Term) : Prop :=
  ∃ i i' : SolverConst, t = i.term ∧ t' = i'.term ∧ i.Matches N.Pairs i'

/-- Two literals stand at the same position, with indicators that are paired. -/
def LiteralAlike (N : Renumbering) (l l' : Nat × Term) : Prop :=
  l'.1 = l.1 ∧ IndicatorAlike N l.2 l'.2

theorem wayTerm_twins (e : Encoding) (way : Option Transition) :
    (Session.pairing N p label 1).Relates (Term.Alike N.Pairs) (wayTerm e way) (wayTerm e way) := by
  cases way with
  | none => exact stutter_twins e 0
  | some r => exact transition_twins e r 0

theorem assertLiterals_twins (e : Encoding) (d : Diagram) {scope scope' : Scope}
    (hScope : Encoding.ScopeAlike N.Pairs scope scope') :
    (Session.pairing N p label 1).Relates (Forall₂ (LiteralAlike N))
      (assertLiterals e scope d) (assertLiterals e scope' d) := by
  refine relates_mapM (forall₂_same.mpr fun (c, index) _ => ?_)
  refine (proving_relates (Prover.indicator_twins _)).bind fun i i' hi => ?_
  refine (encodeWith_twins e c.formula 1 hScope).bind fun t t' ht => ?_
  refine (assert_twins (.imp hi.term ht)).bind fun _ _ _ => relates_pure ?_
  exact ⟨rfl, i, i', rfl, rfl, hi⟩

theorem assertStep_twins (e : Encoding) (frame : Formula) (d : Diagram) (way : Option Transition) :
    (Session.pairing N p label 1).Relates (Forall₂ (LiteralAlike N)) (assertStep e frame d way)
      (assertStep e frame d way) := by
  refine (encode_twins e frame 0).bind fun before before' hBefore => ?_
  refine (assert_twins hBefore).bind fun _ _ _ => ?_
  refine (wayTerm_twins e way).bind fun step step' hStep => ?_
  refine (assert_twins hStep).bind fun _ _ _ => ?_
  refine (encoding_twins (R := fun S (r r' : List SolverConst × Scope) =>
      Encoding.ScopeAlike S r.2 r'.2)
    (fun _ _ hPairs _ _ h => h.mono hPairs) fun n n' => ?_).bind fun r r' hr => ?_
  · exact (Encoding.bindVars_alike .nil d.vars).imp fun _ _ _ _ h => h.2
  · exact assertLiterals_twins e d hr

theorem coreTerms_alike {ts ts' : List Term} (h : Forall₂ (IndicatorAlike N) ts ts')
    (positions : Option (List Nat)) : Forall₂ (IndicatorAlike N)
      (Prover.coreTerms ts positions) (Prover.coreTerms ts' positions) := by
  cases positions with
  | none => exact h
  | some positions =>
    show Forall₂ _ (positions.filterMap fun i => ts[i]?) (positions.filterMap fun i => ts'[i]?)
    induction positions with
    | nil => exact .nil
    | cons i positions ih =>
      rw [filterMap_cons, filterMap_cons]
      by_cases hi : i < ts.length
      · have hi' : i < ts'.length := h.length_eq ▸ hi
        rw [getElem?_eq_getElem hi, getElem?_eq_getElem hi']
        exact .cons (h.get hi hi') ih
      · have hi' : ¬ i < ts'.length := h.length_eq ▸ hi
        rw [getElem?_eq_none (Nat.le_of_not_lt hi),
          getElem?_eq_none (Nat.le_of_not_lt hi')]
        exact ih

/-- Indicators are told apart by their numbers, so they are found in lists that are alike. -/
theorem contains_alike {t t' : Term} (ht : IndicatorAlike N t t') {ts ts' : List Term}
    (h : Forall₂ (IndicatorAlike N) ts ts') : ts'.contains t' = ts.contains t := by
  rw [Bool.eq_iff_iff, contains_iff_mem, contains_iff_mem]
  induction h with
  | nil => simp
  | cons hu _ ih =>
    obtain ⟨i, i', rfl, rfl, hi⟩ := ht
    obtain ⟨j, j', rfl, rfl, hj⟩ := hu
    rw [mem_cons, mem_cons, ih, N.term_eq_iff hi hj]

theorem corePositions_alike {literals literals' : List (Nat × Term)}
    (h : Forall₂ (LiteralAlike N) literals literals') (positions : Option (List Nat)) :
    corePositions literals' (Prover.coreTerms (literals'.map Prod.snd) positions) =
      corePositions literals (Prover.coreTerms (literals.map Prod.snd) positions) := by
  have hMatch : Forall₂ (IndicatorAlike N) (literals.map Prod.snd)
      (literals'.map Prod.snd) := by
    rw [forall₂_map_left_iff, forall₂_map_right_iff]
    exact h.imp fun _ _ hl => hl.2
  generalize hTerms : Prover.coreTerms (literals.map Prod.snd) positions = terms
  generalize hTerms' : Prover.coreTerms (literals'.map Prod.snd) positions = terms'
  have hCore : Forall₂ (IndicatorAlike N) terms terms' := by
    rw [← hTerms, ← hTerms']
    exact coreTerms_alike hMatch positions
  unfold corePositions
  -- the core is of all the literals, so it stays as it is while the induction takes them one by one
  clear hMatch hTerms hTerms'
  induction h with
  | nil => rfl
  | @cons l l' _ _ hl _ ih =>
    have hSame : terms'.contains l'.2 = terms.contains l.2 := contains_alike hl.2 hCore
    rw [filter_cons, filter_cons, hSame]
    cases terms.contains l.2 with
    | true => exact congrArg₂ cons hl.1 ih
    | false => exact ih

theorem askWay_twins (question : Question) (wanted : Wanted) (way : Option Transition)
    {literals literals' : List (Nat × Term)}
    (h : Forall₂ (LiteralAlike N) literals literals') :
    (Session.pairing N p label 1).Relates Eq
      (askWay ⟨p, label, stepKeys 2⟩ question wanted way literals)
      (askWay ⟨p, label, stepKeys 2⟩ question wanted way literals') := by
  have hAssumptions : Forall₂ (Term.Alike N.Pairs) (literals.map Prod.snd)
      (literals'.map Prod.snd) := by
    rw [forall₂_map_left_iff, forall₂_map_right_iff]
    refine h.imp fun l l' hl => ?_
    obtain ⟨-, i, i', ht, ht', hi⟩ := hl
    rw [ht, ht']
    exact hi.term
  intro s s'
  refine (check_twins hAssumptions question).bind fun b b' t t' _ hb => ?_
  obtain ⟨rfl, hAnswered⟩ := hb
  refine ensures_ite Iff.rfl (fun _ => ?_) fun _ => ?_
  · refine ensures_ite Iff.rfl (fun _ => ?_) fun _ => ensures_pure rfl
    refine (minimalTrace_twins hAssumptions 2 question hAnswered).bind
      fun trace _ _ _ _ hTrace => ?_
    exact ensures_pure (by rw [hTrace])
  · refine ensures_ite Iff.rfl (fun _ => ?_) fun _ => ensures_pure rfl
    refine (proving_twins (Prover.core_twins hAnswered)).bind
      fun core core' _ _ _ hCore => ?_
    obtain ⟨positions, rfl, rfl⟩ := hCore
    exact ensures_pure (by rw [corePositions_alike h positions])

theorem tryWay_twins (frame : Formula) (d : Diagram) (context : String) (wanted : Wanted)
    (way : Option Transition) :
    (pairing N p label (Twins cores)).Even
      (tryWay ⟨p, label, stepKeys 2⟩ frame d context wanted way) := by
  refine (inSession_twins (pose_twins _ (assertStep_twins _ frame d way)
    fun literals literals' h => askWay_twins _ wanted way h)).bind fun r r' hr => ?_
  refine (count_twins _ _).bind fun _ _ _ => ?_
  exact relates_liftExcept hr

theorem tryWays_twins (frame : Formula) (d : Diagram) (context : String) (wanted : Wanted)
    (ways : List (Option Transition)) (core : List Nat) :
    (pairing N p label (Twins cores)).Even
      (tryWays ⟨p, label, stepKeys 2⟩ frame d context wanted ways core) := by
  induction ways generalizing core with
  | nil => exact even_pure _
  | cons way ways ih =>
    refine (tryWay_twins frame d context wanted way).bind fun answer => ?_
    cases answer.predecessor with
    | some found => exact even_pure _
    | none => exact ih _

theorem predecessor_twins (frame : Formula) (d : Diagram) (context : String) (wanted : Wanted) :
    (pairing N p label (Twins cores)).Even (predecessor frame d context wanted) := by
  refine Pairing.Relates.bind (inSession_twins (overSteps_twins 2)) fun e e' he => ?_
  obtain ⟨rfl, rfl⟩ := he
  exact (tryWays_twins frame d context wanted _ []).bind fun _ => even_pure _

theorem keepToCores_twins (frame : Formula) (context : String) (rounds : Nat) (d : Diagram) :
    (pairing N p label (Twins cores)).Even (keepToCores frame context rounds d) := by
  induction rounds generalizing d with
  | zero => exact even_pure d
  | succ rounds ih =>
    refine (predecessor_twins frame d context ⟨false, true⟩).bind fun answer => ?_
    refine even_ite (even_throw _) ?_
    refine bind (count_twins _ _) fun _ => ?_
    refine (logging_even (calm_entry _ _)).bind fun _ => ?_
    exact even_ite (even_pure d) (ih _)

theorem dropLiteral_twins (frame : Formula) (context : String) (d : Diagram) (position : Nat) :
    (pairing N p label (Twins cores)).Even (dropLiteral frame context d position) := by
  refine even_ite (even_pure d) ?_
  refine Pairing.Relates.bind own_twins fun g g' hg => ?_
  rw [hg.1, hg.2]
  refine (predecessor_twins frame _ context ⟨false, cores⟩).bind fun answer => ?_
  refine even_ite (even_pure d) ?_
  refine bind (count_twins _ _) fun _ => ?_
  refine (logging_even (calm_entry _ _)).bind fun _ => ?_
  refine even_ite ?_ (even_pure _)
  exact bind (count_twins _ _) fun _ => even_pure _

theorem generalize_twins (d : Diagram) (frame : Formula) (context : String) :
    (pairing N p label (Twins cores)).Even (generalize d frame context) := by
  -- literals are dropped one by one with or without cores, and only the counts and lines differ
  have hDrop : ∀ (kept : Diagram) (f : Diagram → GeneralizerStats → GeneralizerStats)
      (g : Diagram → Log → Log), (∀ small, Calm (g small)) →
      (pairing N p label (Twins cores)).Even (do
        let small ← (range kept.conjuncts.length).foldlM (dropLiteral frame context) kept
        count (f small)
        logging (g small)
        return small) := by
    intro kept f g hg
    refine bind (even_foldlM (fun position _ d' =>
      dropLiteral_twins frame context d' position) kept) fun small => ?_
    refine bind (count_twins _ _) fun _ => ?_
    refine (logging_even (hg small)).bind fun _ => ?_
    exact even_pure small
  refine bind (count_twins _ _) fun _ => ?_
  refine Pairing.Relates.bind own_twins fun g g' hg => ?_
  rw [hg.1, hg.2]
  refine even_ite ?_ ?_
  · refine (keepToCores_twins frame context _ d).bind fun kept => ?_
    exact hDrop kept _ _ fun _ => calm_framedEntry _ _
  · exact hDrop d _ _ fun _ => calm_framedEntry _ _

end Generalizer

/-! ## Checkpoints -/

theorem Prover.onDisk_twins {N : Renumbering} {declared : String → Prop} {depth : Nat} {ε α : Type}
    {act : EStateM ε Disk α} (h : (Disk.pairing ε).Even act) (f : ε → Error) :
    (pairing N declared depth).Even (onDisk f act) := by
  intro q q' hq
  have hEnds := h q.log.disk q'.log.disk hq.directories
  have hTwins : ∀ disk disk' : Disk, disk'.directories = disk.directories →
      disk.directories = q.log.disk.directories →
      Twins N declared { q with log := { q.log with disk := disk } }
        { q' with log := { q'.log with disk := disk' } } ∧ q.Onward N declared depth q'
      { q with log := { q.log with disk := disk } }
      { q' with log := { q'.log with disk := disk' } } := fun disk disk' hDisk hKept =>
    ⟨{ hq with directories := hDisk },
      ⟨rfl, rfl, rfl, hKept, Nat.le_refl _, rfl, rfl⟩, ⟨rfl, rfl, rfl,
        (hDisk.trans hKept).trans hq.directories.symm, Nat.le_refl _, rfl, rfl⟩,
      fun h => { h with }, [], [], rfl, rfl, .nil⟩
  unfold onDisk
  cases hRun : act q.log.disk <;> cases hRun' : act q'.log.disk <;> rw [hRun, hRun'] at hEnds
  · obtain ⟨hDisk, hKept, hab⟩ := hEnds
    obtain ⟨hNow, hLeads⟩ := hTwins _ _ hDisk hKept
    exact ⟨hNow, hLeads, hab⟩
  · exact hEnds.elim
  · exact hEnds.elim
  · obtain ⟨hDisk, hKept, hFault⟩ := hEnds
    obtain ⟨hNow, hLeads⟩ := hTwins _ _ hDisk hKept
    have hSame : _ = _ := hFault
    exact ⟨hNow, hLeads, hSame ▸ .same _⟩

/-! ## States that list nothing twice -/

/-- Nothing is listed twice in a frame or in the log. -/
structure SearchState.Distinct (s : SearchState) : Prop where
  frames : ∀ frame ∈ s.frames, frame.Nodup
  log : s.log.Nodup

namespace SearchState.Distinct

variable {s : SearchState}

theorem empty : SearchState.empty.Distinct := ⟨fun _ h => (by cases h), nodup_nil⟩

theorem addFrame (h : s.Distinct) : s.addFrame.Distinct := by
  refine ⟨fun frame hFrame => ?_, h.log⟩
  rcases mem_append.mp hFrame with hOld | hNew
  · exact h.frames frame hOld
  · rw [mem_singleton.mp hNew]
    exact nodup_nil

theorem addToFrame (h : s.Distinct) (f : Formula) (index : Nat) :
    (s.addToFrame f index).Distinct := by
  refine ⟨fun frame hFrame => ?_, h.log⟩
  obtain ⟨i, hi⟩ := mem_iff_getElem?.mp hFrame
  have hOld : (s.frames.modify index (insertNew f))[i]? = some frame := hi
  rw [getElem?_modify] at hOld
  obtain ⟨old, hIn, rfl⟩ := Option.map_eq_some_iff.mp hOld
  have hNodup := h.frames old (mem_of_getElem? hIn)
  split
  · exact nodup_insertNew hNodup
  · exact hNodup

theorem learn (h : s.Distinct) (f : Formula) (index : Nat) : (s.learn f index).Distinct := by
  refine ⟨fun frame hFrame => ?_, nodup_insertNew h.log⟩
  obtain ⟨i, hi⟩ := mem_iff_getElem?.mp hFrame
  have hOld : (s.frames.mapIdx fun i frame => if i ≤ index then insertNew f frame else frame)[i]? =
    some frame := hi
  rw [getElem?_mapIdx] at hOld
  obtain ⟨old, hIn, rfl⟩ := Option.map_eq_some_iff.mp hOld
  have hNodup := h.frames old (mem_of_getElem? hIn)
  split
  · exact nodup_insertNew hNodup
  · exact hNodup

theorem simplify (h : s.Distinct) : s.simplify.Distinct := by
  refine ⟨fun frame hFrame => ?_, h.log⟩
  obtain ⟨i, hi⟩ := mem_iff_getElem?.mp hFrame
  have hSifted : (siftFrames s.frames)[i]? = some frame := hi
  rw [getElem?_siftFrames] at hSifted
  obtain ⟨old, hIn, rfl⟩ := Option.map_eq_some_iff.mp hSifted
  exact (h.frames old (mem_of_getElem? hIn)).sublist (siftFrame_sublist _ [] old)

theorem pushObligation (h : s.Distinct) (top : Obligation) : (s.pushObligation top).Distinct :=
  ⟨h.frames, h.log⟩

theorem popObligation (h : s.Distinct) : s.popObligation.Distinct := ⟨h.frames, h.log⟩

theorem discardChain (h : s.Distinct) : s.discardChain.Distinct := ⟨h.frames, h.log⟩

theorem nodup_distinctFormulas (fs : List Formula) : (distinctFormulas fs).Nodup := by
  suffices hFrom : ∀ kept : List Formula, kept.Nodup →
      (fs.foldl (fun kept f => insertNew f kept) kept).Nodup from hFrom [] nodup_nil
  induction fs with
  | nil => exact fun _ h => h
  | cons f fs ih => exact fun kept h => ih _ (nodup_insertNew h)

theorem normalize (s : SearchState) : s.normalize.Distinct := by
  refine ⟨fun frame hFrame => ?_, nodup_distinctFormulas s.log⟩
  obtain ⟨old, -, rfl⟩ := mem_map.mp hFrame
  exact nodup_distinctFormulas old

end SearchState.Distinct

/-! ## Searching -/

namespace Search

open WorkM

/-- Two searches with the options, the safety and the use of cores that another one has, and in the
same state. -/
structure Twins (o f f' : Search) : Prop where
  options : f.options = o.options
  safety : f.safety = o.safety
  properties : f.properties = o.properties
  cores : f.generalizer.useCores = o.generalizer.useCores
  options' : f'.options = o.options
  safety' : f'.safety = o.safety
  properties' : f'.properties = o.properties
  cores' : f'.generalizer.useCores = o.generalizer.useCores
  state : f'.state = f.state
  distinct : f.state.Distinct

/-- Two such searches side by side. -/
abbrev both (N : Renumbering) (p : Program) (label : String) (o : Search) :
    Pairing Error (Session × Search) := pairing N p label (Twins o)

variable {N : Renumbering} {p : Program} {label : String} {depth : Nat} {o : Search}

/-! ### Parts of a search -/

theorem change_twins {g : SearchState → SearchState} (hg : ∀ s, s.Distinct → (g s).Distinct) :
    (both N p label o).Even (change g) := by
  refine update_twins fun f f' h => ?_
  exact { h with state := congrArg g h.state, distinct := hg _ h.distinct }

theorem count_twins (g g' : SearchStats → SearchStats) :
    (both N p label o).Relates Eq (count g) (count g') :=
  update_twins fun _ _ h => { h with }

theorem inGeneralizer_twins {α : Type} {act : WorkM Generalizer α}
    (h : (pairing N p label (Generalizer.Twins o.generalizer.useCores)).Even act) :
    (both N p label o).Even (inGeneralizer act) :=
  inPart_twins (fun _ _ hf => ⟨hf.cores, hf.cores'⟩)
    (fun _ _ _ _ hf hg => { hf with cores := hg.1, cores' := hg.2 }) h

theorem ofState_twins {α β : Type} {R : α → β → Prop} {next : Search → SearchM α}
    {next' : Search → SearchM β}
    (h : ∀ f f', Twins o f f' → (both N p label o).Relates R (next f) (next' f')) :
    (both N p label o).Relates R (own >>= next) (own >>= next') :=
  own_twins.bind h

theorem ofProgram_twins {α β : Type} {R : α → β → Prop} {next : Session → SearchM α}
    {next' : Session → SearchM β}
    (h : ∀ s s', s.program = p → s'.program = p →
      (both N p label o).Relates R (next s) (next' s')) :
    (both N p label o).Relates R (session >>= next) (session >>= next') :=
  session_twins.bind fun s s' hs => h s s' hs.program hs.program'

theorem currentFormula_twins (index : Nat) :
    (both N p label o).Even (currentFormula index) := by
  refine ofProgram_twins fun s s' hs hs' => ofState_twins fun f f' hf => ?_
  rw [hs, hs', hf.state]
  exact even_liftExcept _ _

theorem diagramOf_twins (t : Trace) (index : Nat) :
    (both N p label o).Even (diagramOf t index) := by
  refine ofState_twins fun f f' hf => ?_
  rw [hf.options, hf.options']
  exact inSession_twins (diagram_twins t index _)

/-! ### Counterexamples -/

theorem findTrace_twins (constraints : List (Option Formula)) (names : List String)
    (description : String) :
    (Session.pairing N p label depth).Even (Session.findTrace constraints names description) :=
  (sightTrace_twins constraints names description).bind fun _ _ h =>
    settle_twins (fun _ _ => id) h

theorem findViolation_twins (property : Formula) (steps : Nat) :
    (Session.pairing N p label depth).Even (Session.findViolation property steps) :=
  findTrace_twins _ _ _

theorem concretize_twins (safety : Formula) (states : List Formula) (transitions : List String) :
    (Session.pairing N p label depth).Even (concretize safety states transitions) := by
  refine (findTrace_twins _ _ _).bind fun found => ?_
  cases found with
  | some t => exact even_pure _
  | none =>
    refine (findViolation_twins safety _).bind fun found => ?_
    cases found with
    | some t => exact even_pure _
    | none => exact even_pure _

theorem counterexample_twins : (both N p label o).Even counterexample := by
  refine ofState_twins fun f f' hf => ?_
  rw [hf.options, hf.options', hf.safety, hf.safety', hf.state]
  have hEnd : ∀ (ending : Option Trace × String) (g : Option Trace × String → Ending),
      (both N p label o).Even (do
        change fun state => { state with obligations := [] }
        return g ending) := by
    intro ending g
    have hClear : ∀ state : SearchState, state.Distinct →
        ({ state with obligations := [] } : SearchState).Distinct := fun _ h => ⟨h.frames, h.log⟩
    exact (change_twins hClear).bind fun _ => even_pure _
  refine even_ite ?_ ?_
  · exact bind (inSession_twins (concretize_twins _ _ _)) fun ending =>
      hEnd ending fun ending => (.disproved ⟨_, _, ending.1⟩, ending.2)
  · exact (even_pure _).bind fun ending => hEnd ending fun ending =>
      (.disproved ⟨_, _, ending.1⟩, ending.2)

/-! ### Blocking -/

theorem smokeTest_twins (predicate : Formula) (index : Nat) :
    (both N p label o).Even (smokeTest predicate index) := by
  refine bind (count_twins _ _) fun _ => ?_
  refine bind (inSession_twins (findViolation_twins predicate index)) fun found => ?_
  cases found with
  | some t => exact even_throw _
  | none => exact even_pure ()

theorem learn_twins (predicate : Formula) (index : Nat) :
    (both N p label o).Even (learn predicate index) :=
  bind (change_twins fun _ h => h.learn predicate index) fun _ =>
    logging_even (calm_entry _ _)

theorem processTop_twins (position : Nat) (top : Obligation) :
    (both N p label o).Even (processTop position top) := by
  refine (currentFormula_twins _).bind fun before => ?_
  refine (inGeneralizer_twins (Generalizer.predecessor_twins before top.diagram _ _)).bind
    fun answer => ?_
  cases answer.predecessor with
  | some found =>
    obtain ⟨transition, trace⟩ := found
    refine (diagramOf_twins _ 0).bind fun d => ?_
    refine (change_twins fun _ h => h.pushObligation _).bind fun _ => ?_
    refine bind (count_twins _ _) fun _ => ?_
    exact logging_even (calm_entry _ _)
  | none =>
    refine (inGeneralizer_twins (Generalizer.generalize_twins top.diagram before _)).bind
      fun small => ?_
    refine (learn_twins _ _).bind fun _ => ofState_twins fun f f' hf => ?_
    rw [hf.options, hf.options']
    have hPop : (both N p label o).Even (change SearchState.popObligation) :=
      change_twins fun _ h => h.popObligation
    exact even_ite ((smokeTest_twins _ _).bind fun _ => hPop) hPop

theorem discardMay_twins : (both N p label o).Even discardMay := by
  refine (logging_even (calm_entry _ _)).bind fun _ => ?_
  exact (change_twins fun _ h => h.discardChain).bind fun _ => count_twins _ _

theorem processObligations_twins (fuel : Nat) :
    (both N p label o).Even (processObligations fuel) := by
  induction fuel with
  | zero => exact even_throw _
  | succ fuel ih =>
    refine ofState_twins fun f f' hf => ?_
    rw [hf.state]
    dsimp only
    cases f.state.obligations.getLast? with
    | none => exact even_pure none
    | some top =>
      refine even_ite (even_ite ?_ ?_) ?_
      · exact discardMay_twins.bind fun _ => ih
      · exact counterexample_twins.bind fun _ => even_pure _
      · exact (processTop_twins _ top).bind fun _ => ih

theorem findBadState_twins (index : Nat) (property : Formula) :
    (both N p label o).Even (findBadState index property) := by
  refine Pairing.Relates.bind (inSession_twins (overSteps_twins 1)) fun e e' he => ?_
  obtain ⟨rfl, rfl⟩ := he
  refine (currentFormula_twins index).bind fun formula => ?_
  refine Pairing.Relates.bind (R := Agree Eq (Error.Alike N.Pairs))
    (inSession_twins (pose_twins (R := Eq) _ ?_ fun _ _ _ => ?_)) fun r r' hr => ?_
  · refine (encode_twins _ formula 0).bind fun states states' hStates => ?_
    refine (assert_twins hStates).bind fun _ _ _ => ?_
    refine (encode_twins _ _ 0).bind fun bad bad' hBad => ?_
    exact assert_twins hBad
  · intro s s'
    refine (check_twins .nil _).bind fun b b' t t' _ hb => ?_
    obtain ⟨rfl, hAnswered⟩ := hb
    refine ensures_ite Iff.rfl (fun _ => ?_) fun _ => ensures_pure rfl
    refine (minimalTrace_twins .nil 1 _ hAnswered).bind fun trace _ _ _ _ hTrace => ?_
    exact ensures_pure (congrArg some hTrace)
  · exact (count_twins _ _).bind fun _ _ _ => relates_liftExcept hr

theorem blockProperty_twins (index : Nat) (property : Formula) (fuel : Nat) :
    (both N p label o).Even (blockProperty index property fuel) := by
  induction fuel with
  | zero => exact even_throw _
  | succ fuel ih =>
    refine (findBadState_twins index property).bind fun found => ?_
    cases found with
    | none => exact even_pure none
    | some bad =>
      refine (diagramOf_twins bad 0).bind fun d => ?_
      refine (change_twins fun _ h => h.pushObligation _).bind fun _ => ?_
      refine bind (count_twins _ _) fun _ => ?_
      refine (logging_even (calm_framedEntry _ _)).bind fun _ => ?_
      refine (processObligations_twins fuel).bind fun ended => ?_
      cases ended with
      | some ending => exact even_pure _
      | none => exact ih

theorem blockProperties_twins (fuel index : Nat) (properties : List Formula) :
    (both N p label o).Even (blockProperties fuel index properties) := by
  induction properties with
  | nil => exact even_pure none
  | cons property properties ih =>
    refine (blockProperty_twins index property fuel).bind fun ended => ?_
    cases ended with
    | some ending => exact even_pure _
    | none => exact ih

theorem blockBadStates_twins (fuel : Nat) :
    (both N p label o).Even (blockBadStates fuel) := by
  refine ofState_twins fun f f' hf => ?_
  rw [hf.options, hf.options', hf.safety, hf.safety', hf.properties, hf.properties', hf.state]
  exact blockProperties_twins fuel _ _

/-! ### Pushing -/

theorem findLeak_twins (assumption predicate : Formula) (transitions : List Transition) :
    (Session.pairing N p label depth).Even (findLeak assumption predicate transitions) := by
  induction transitions with
  | nil => exact even_pure none
  | cons r transitions ih =>
    refine (violatesConsecution_twins assumption predicate r).bind fun found => ?_
    cases found with
    | some trace => exact even_pure _
    | none => exact ih

theorem pushLeak_twins (predicate : Formula) (index : Nat) :
    (both N p label o).Even (pushLeak predicate index) := by
  refine (currentFormula_twins index).bind fun before => ofProgram_twins fun s s' hs hs' => ?_
  rw [hs, hs']
  exact inSession_twins (findLeak_twins before predicate _)

theorem blockLeak_twins (fuel : Nat) (predicate : Formula) (index : Nat) (leak : Trace) :
    (both N p label o).Even (blockLeak fuel predicate index leak) := by
  refine (diagramOf_twins leak 1).bind fun d => ?_
  refine (change_twins fun _ h => h.pushObligation _).bind fun _ => ?_
  refine bind (count_twins _ _) fun _ => ?_
  refine (processObligations_twins fuel).bind fun ended => ?_
  exact even_ite (even_throw _) (pushLeak_twins predicate index)

theorem pushPredicate_twins (fuel index : Nat) (predicate : Formula) :
    (both N p label o).Even (pushPredicate fuel index predicate) := by
  have hMove : ∀ leak : Option Trace, (both N p label o).Even (do
      if leak.isNone then
        change fun s => s.addToFrame predicate (index + 1)
        count fun s => { s with pushed := s.pushed + 1 }
        logging fun log => log.entry .pushing fun _ =>
          "Pushed to frame " ++ toString (index + 1) ++ ": " ++ predicate.render ++ "\n") := by
    intro leak
    refine even_ite ?_ (even_pure ())
    refine (change_twins fun _ h => h.addToFrame predicate (index + 1)).bind fun _ => ?_
    refine bind (count_twins _ _) fun _ => ?_
    exact logging_even (calm_entry _ _)
  refine ofState_twins fun f f' hf => ?_
  rw [hf.options, hf.options', hf.state]
  refine even_ite (even_pure ()) ?_
  refine bind (count_twins _ _) fun _ => ?_
  refine (pushLeak_twins predicate index).bind fun leak => ?_
  cases leak with
  | none => exact (even_pure none).bind hMove
  | some trace =>
    refine even_ite ?_ ?_
    · exact (blockLeak_twins fuel predicate index trace).bind hMove
    · exact (even_pure (some trace)).bind hMove

theorem pushPredicates_twins (fuel : Nat) :
    (both N p label o).Even (pushPredicates fuel) := by
  refine ofState_twins fun f f' hf => ?_
  rw [hf.options, hf.options', hf.state]
  refine even_forM fun index _ => ofState_twins fun g g' hg => ?_
  rw [hg.state]
  exact even_forM fun predicate _ => pushPredicate_twins fuel index predicate

/-! ### Rounds -/

theorem checkInductiveTrace_twins :
    (both N p label o).Even checkInductiveTrace := by
  refine ofState_twins fun f f' hf => ofProgram_twins fun s s' hs hs' => ?_
  rw [hf.state, hs, hs']
  refine even_forM fun index _ => ?_
  refine (currentFormula_twins index).bind fun before => ?_
  refine even_forM fun predicate _ => even_forM fun r _ => ?_
  refine bind (inSession_twins (violatesConsecution_twins before predicate r))
    fun found => ?_
  cases found with
  | some trace => exact even_throw _
  | none => exact even_pure ()

theorem simplify_twins : (both N p label o).Even simplify := by
  refine ofState_twins fun f f' hf => ?_
  rw [hf.state]
  refine bind (update_twins fun g g' hg => ?_) fun _ => count_twins _ _
  exact { hg with state := rfl, distinct := hf.distinct.simplify }

theorem writeCheckpoint_twins : (both N p label o).Even writeCheckpoint := by
  refine ofState_twins fun f f' hf => ?_
  rw [hf.options, hf.options', hf.state]
  refine even_ite (even_pure ()) (ofProgram_twins fun s s' hs hs' => ?_)
  rw [hs, hs']
  have hSave : (both N p label o).Even (inSession (Session.proving
      (Prover.onDisk .checkpoint (Checkpoint.save p f.state o.options.checkpoint)))) :=
    inSession_twins (proving_relates
      (Prover.onDisk_twins (Checkpoint.save_twins p f.state _) .checkpoint))
  exact hSave.bind fun _ => logging_even (calm_entry _ _)

theorem restore_twins (state : SearchState) :
    (both N p label o).Even (restore state) := by
  refine even_ite (even_throw _) ?_
  refine (change_twins fun _ _ => .normalize state).bind fun _ => ?_
  exact logging_even (calm_progress _)

theorem restoreFrom_twins (source : String) (found : Except CheckpointFault SearchState) :
    (both N p label o).Even (restoreFrom source found) := by
  refine (even_liftExcept _ found).bind fun state => ?_
  refine (logging_even (calm_entry _ _)).bind fun _ => ?_
  exact restore_twins state

theorem openFrames_twins : (both N p label o).Even openFrames := by
  refine ofState_twins fun f f' hf => ?_
  rw [hf.state, hf.safety, hf.safety']
  refine even_ite ?_ (even_pure none)
  refine bind (inSession_twins (findViolation_twins o.safety 0)) fun found => ?_
  cases found with
  | some t => exact even_pure _
  | none => exact (change_twins fun _ h => h.addFrame.addFrame).bind fun _ => even_pure none

theorem strengthen_twins (fuel : Nat) :
    (both N p label o).Even
      (do
        change SearchState.addFrame
        pushPredicates fuel
        simplify
        let state := (← own).state
        logging fun log => log.framedEntry .frames fun _ => state.renderFrames
        match state.fixpoint? with
        | some index =>
          return some (.proved index ((state.frames[index]?).getD []),
            "Frames " ++ toString index ++ " and " ++ toString (index + 1) ++ " are equal")
        | none =>
          writeCheckpoint
          return none : SearchM (Option Ending)) := by
  refine (change_twins fun _ h => h.addFrame).bind fun _ => ?_
  refine (pushPredicates_twins fuel).bind fun _ => simplify_twins.bind fun _ => ?_
  refine ofState_twins fun f f' hf => ?_
  rw [hf.state]
  refine (logging_even (calm_framedEntry _ _)).bind fun _ => ?_
  cases f.state.fixpoint? with
  | some index => exact even_pure _
  | none => exact writeCheckpoint_twins.bind fun _ => even_pure none

theorem iterate_twins (fuel : Nat) : (both N p label o).Even (iterate fuel) := by
  have hCount : ∀ state : SearchState, state.Distinct →
      ({ state with iterations := state.iterations + 1 } : SearchState).Distinct :=
    fun _ h => ⟨h.frames, h.log⟩
  refine (change_twins hCount).bind fun _ => ?_
  refine ofState_twins fun f f' hf => ofProgram_twins fun s s' _ _ => ?_
  rw [hf.options, hf.options']
  refine (logging_twins (calm_progress _) (calm_progress _)).bind fun _ _ _ => ?_
  refine bind (processObligations_twins fuel) fun ended => ?_
  cases ended with
  | some ending => exact even_pure _
  | none =>
    refine bind (blockBadStates_twins fuel) fun ended => ?_
    cases ended with
    | some ending => exact even_pure _
    | none =>
      refine even_ite ?_ (strengthen_twins fuel)
      exact checkInductiveTrace_twins.bind fun _ => strengthen_twins fuel

theorem stopReason?_twins {f f' : Search} (hf : Twins o f f') (stopRequested : Bool) :
    stopReason? f' stopRequested = stopReason? f stopRequested := by
  rw [stopReason?, stopReason?, hf.options, hf.options', hf.state]

theorem iterateAll_twins (fuel rounds : Nat) :
    (both N p label o).Even (iterateAll fuel rounds) := by
  induction rounds with
  | zero => exact even_throw _
  | succ rounds ih =>
    refine session_twins.bind fun s s' hs => ofState_twins fun f f' hf => ?_
    rw [hs.prover.stopRequested, stopReason?_twins hf]
    cases stopReason? f s.prover.stopRequested with
    | some reason => exact even_pure _
    | none =>
      refine bind (iterate_twins fuel) fun ended => ?_
      cases ended with
      | some ending => exact even_pure ending
      | none => exact ih

theorem explore_twins (fuel : Nat) : (both N p label o).Even (explore fuel) := by
  refine openFrames_twins.bind fun ended => ?_
  cases ended with
  | some ending => exact even_pure ending
  | none => exact iterateAll_twins fuel fuel

theorem suspend_twins (message : String) :
    (both N p label o).Even (suspend message) := by
  have hClear : (Prover.pairing N (p.Calls label) 0).Even (do
      modify fun p => { p with stopRequested := false }
      Prover.clearInterrupt) := by
    intro q q'
    refine ensures_of_ok rfl rfl fun h => ⟨?_, ?_, rfl⟩
    · exact { h with interrupted := rfl, stopRequested := rfl }
    · exact ⟨⟨rfl, rfl, rfl, rfl, Nat.le_refl _, rfl, rfl⟩,
        ⟨rfl, rfl, rfl, rfl, Nat.le_refl _, rfl, rfl⟩,
        fun h => { h with interrupted := rfl, stopRequested := rfl }, [], [], rfl, rfl, .nil⟩
  refine bind (inSession_twins (proving_relates hClear)) fun _ => ?_
  refine writeCheckpoint_twins.bind fun _ => ?_
  exact logging_even (calm_progress _)

end Search

/-- Two results say the same. They may count other queries. -/
structure SearchResult.Alike (r r' : SearchResult) : Prop where
  conclusion : r'.conclusion = r.conclusion
  message : r'.message = r.message
  frames : r'.frames = r.frames

namespace Search

open WorkM

variable {N : Renumbering} {p : Program} {label : String} {o : Search}

theorem finish_twins (ending : Ending) :
    (both N p label o).Relates SearchResult.Alike (finish ending) (finish ending) := by
  refine ofState_twins fun f f' hf => ofProgram_twins fun s s' _ _ => ?_
  refine (logging_twins (calm_framedEntry _ _) (calm_framedEntry _ _)).bind fun _ _ _ => ?_
  exact relates_pure ⟨rfl, rfl, by rw [hf.state]⟩

/-- **Searches that are twins ask alike and end alike**, in the same state. -/
theorem run_twins (fuel : Nat) :
    (both N p label o).Relates SearchResult.Alike (run fuel) (run fuel) := by
  -- a search is suspended for either kind of interruption
  have hEnd : ∀ ending : Ending, (both N p label o).Relates SearchResult.Alike
      (do
        if ending.1 = .interrupted then suspend ending.2
        finish ending)
      (do
        if ending.1 = .interrupted then suspend ending.2
        finish ending) := by
    intro ending
    refine relates_ite Iff.rfl (fun _ => ?_) fun _ => finish_twins ending
    exact Pairing.Relates.bind (suspend_twins ending.2) fun _ _ _ => finish_twins ending
  refine (explore_twins fuel).attempt.bind fun r r' hr => ?_
  cases r <;> cases r'
  · -- an interrupted query is no error
    rename_i fault fault'
    have hFault : Error.Alike N.Pairs fault fault' := hr
    cases hFault with
    | model h => exact relates_throw (.model h)
    | same =>
      cases fault with
      | inconclusive cause =>
        refine relates_ite Iff.rfl (fun _ => ?_) fun _ => relates_throw (.same _)
        exact hEnd (.interrupted, cause.message)
      | _ => exact relates_throw (.same _)
  · exact hr.elim
  · exact hr.elim
  · obtain rfl : _ = _ := hr
    exact hEnd _

end Search

end InvariantSearch
