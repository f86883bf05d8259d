import InvariantSearch.Proofs.Encoding.Lowering

/-!
# The meaning of encoded steps

The encoding of a step is true in a structure exactly when the step relates the
two states that the structure presents.

* `Encoding.bindAll` — constants bound to values, all at once.
* `Encoding.Consecutive` — constants that were made one after the other, so that
  none hides another.
* `Encoding.Between` — a structure presents a state and the next one.

Main results: `Between.agrees_frame` says that symbols outside the modified ones keep
their meaning, `Between.agrees_transition` that a transition leads from one state to
the next, and `Between.satisfies_iff_goes` the same of every way.
-/

namespace InvariantSearch

open SolverStructure List Program SolverConst

variable {cs : List SolverConst}

theorem existsOf_and_right {D : Domain} {xs : List Var} {P : Valuation D → Prop} {q : Prop}
    {v : Valuation D} : ExistsOf xs (fun w => P w ∧ q) v ↔ ExistsOf xs P v ∧ q := by
  induction xs generalizing v with
  | nil => exact Iff.rfl
  | cons x xs ih =>
    constructor
    · rintro ⟨a, ha, h⟩
      exact ⟨⟨a, ha, (ih.mp h).1⟩, (ih.mp h).2⟩
    · rintro ⟨⟨a, ha, h⟩, hq⟩
      exact ⟨a, ha, ih.mpr ⟨h, hq⟩⟩

namespace Encoding

variable {e : Encoding} {M : SolverStructure} {b : M.Binding} {n n' : Nat} {c : SolverConst}
  {ts : List M.Value}

/-! ## Constants bound at once -/

/-- Binds constants to values, in order. -/
def bindAll {M : SolverStructure} : List SolverConst → List M.Value → M.Binding → M.Binding
  | c :: cs, t :: ts, b => bindAll cs ts ((c.symbol, t) :: b)
  | _, _, b => b

/-- Constants numbered one after the other. -/
def Consecutive : List SolverConst → Nat → Prop
  | [], _ => True
  | c :: cs, n => c.number = n ∧ Consecutive cs (n + 1)

theorem symbol_ne_of_number {d : SolverConst} (h : c.number ≠ d.number) : c.symbol ≠ d.symbol := by
  intro hEq
  exact h (Option.some.inj (congrArg SolverSymbol.number hEq))

theorem lookup_bindAll_of_lt (hcs : Consecutive cs n) (hc : c.number < n) :
    (bindAll cs ts b).lookup c.symbol = b.lookup c.symbol := by
  induction cs generalizing ts b n with
  | nil => rfl
  | cons d cs ih =>
    cases ts with
    | nil => rfl
    | cons t ts =>
      obtain ⟨hd, hcs⟩ := hcs
      have hNe : c.symbol ≠ d.symbol := symbol_ne_of_number (by omega)
      rw [bindAll, ih hcs (by omega), lookup_cons_of_ne hNe]

theorem values_bindAll (hcs : Consecutive cs n) (hLength : cs.length = ts.length) :
    M.values (bindAll cs ts b) (cs.map term) = ts := by
  induction cs generalizing ts b n with
  | nil =>
    obtain rfl := length_eq_zero_iff.mp hLength.symm
    rfl
  | cons c cs ih =>
    obtain ⟨t, ts, rfl⟩ := exists_cons_of_length_eq_add_one hLength.symm
    obtain ⟨hc, hcs⟩ := hcs
    have hFirst : (bindAll cs ts ((c.symbol, t) :: b)).lookup c.symbol = some t := by
      rw [lookup_bindAll_of_lt hcs (by omega), lookup_cons_self]
    rw [map_cons, values, bindAll, ih hcs (Nat.succ.inj hLength),
      term, value, hFirst]

theorem OnlyConstants.bindAll (h : OnlyConstants b) (cs : List SolverConst)
    (ts : List M.Value) : OnlyConstants (bindAll cs ts b) := by
  induction cs generalizing ts b with
  | nil => exact h
  | cons c cs ih =>
    cases ts with
    | nil => exact h
    | cons t ts =>
      refine ih (fun f hf => ?_) ts
      have hNe : f ≠ c.symbol := by
        rintro rfl
        cases hf
      rw [lookup_cons_of_ne hNe]
      exact h f hf

theorem forAllOf_iff_bindAll {P : M.Binding → Prop} :
    M.ForAllOf cs P b ↔
      ∀ ts, Forall₂ (fun c t => M.Member c.sort t) cs ts → P (bindAll cs ts b) := by
  induction cs generalizing b with
  | nil =>
    refine ⟨fun h ts hts => ?_, fun h => h [] .nil⟩
    obtain rfl := forall₂_nil_left_iff.mp hts
    exact h
  | cons c cs ih =>
    constructor
    · intro h ts hts
      obtain ⟨t, ts, ht, hRest, rfl⟩ := forall₂_cons_left_iff.mp hts
      exact ih.mp (h t ht) ts hRest
    · intro h t ht
      exact ih.mpr fun ts hts => h (t :: ts) (.cons ht hts)

theorem consecutive_of_mapM {α : Type} {label sort : α → String} {as : List α}
    (h : as.mapM (fun a => e.freshOf (label a) (sort a)) n = .ok cs n') :
    Consecutive cs n ∧ n' = n + cs.length ∧
      Forall₂ (fun a c => e.sort (sort a) = .ok c.sort) as cs := by
  induction as generalizing cs n with
  | nil =>
    rw [mapM_nil, run_pure_eq_ok] at h
    rw [← h.1, ← h.2]
    exact ⟨trivial, rfl, .nil⟩
  | cons a as ih =>
    rw [mapM_cons] at h
    obtain ⟨c, k, hc, hRest⟩ := run_bind_eq_ok.mp h
    obtain ⟨cs', k', hcs, hPure⟩ := run_bind_eq_ok.mp hRest
    obtain ⟨hSort, hNumber, rfl⟩ := freshOf_eq_ok hc
    obtain ⟨rfl, rfl⟩ := run_pure_eq_ok.mp hPure
    obtain ⟨hConsecutive, hNext, hSorts⟩ := ih hcs
    refine ⟨⟨hNumber, hConsecutive⟩, ?_, .cons hSort hSorts⟩
    rw [hNext, length_cons, Nat.add_assoc, Nat.add_comm 1]

/-! ## Steps -/

section Steps

variable {D : Domain} {name : D.Element → M.Value} {index : Nat} {s s' : State D} {t : Term}

theorem members_iff (hLists : Lists e.program M name) {sorts : List String}
    (hBool : boolSort ∉ sorts) (hcs : Forall₂ (fun sort c => e.sort sort = .ok c.sort) sorts cs) :
    Forall₂ (fun c t => M.Member c.sort t) cs ts ↔
      ∃ args, Forall₂ D.HasSort args sorts ∧ ts = args.map (termOf name) := by
  induction hcs generalizing ts with
  | nil =>
    rw [forall₂_nil_left_iff]
    exact ⟨fun h => ⟨[], .nil, h⟩, fun ⟨args, hArgs, hts⟩ => by
      rw [hts, forall₂_nil_right_iff.mp hArgs, map_nil]⟩
  | @cons sort c sorts cs hc _ ih =>
    rw [mem_cons, not_or] at hBool
    obtain ⟨hDeclared, hSort⟩ := sort_eq_ok hc (Ne.symm hBool.1)
    have hMember := hLists.mem_iff sort hDeclared (Ne.symm hBool.1)
    rw [← hSort] at hMember
    constructor
    · intro h
      obtain ⟨t, ts, ht, hRest, rfl⟩ := forall₂_cons_left_iff.mp h
      obtain ⟨x, hx, rfl⟩ := (hMember t).mp ht
      obtain ⟨args, hArgs, rfl⟩ := (ih hBool.2).mp hRest
      exact ⟨.element x :: args, .cons hx hArgs, rfl⟩
    · rintro ⟨args, hArgs, rfl⟩
      obtain ⟨x, args, hx, hRest, rfl⟩ := forall₂_cons_right_iff.mp hArgs
      refine .cons ?_ ((ih hBool.2).mpr ⟨args, hRest, rfl⟩)
      cases x with
      | truth p => exact absurd hx.symm hBool.1
      | element a => exact (hMember _).mpr ⟨a, hx, rfl⟩

/-- A structure presents a state of a program and the next one. -/
structure Between (e : Encoding) (M : SolverStructure) (name : D.Element → M.Value)
    (index : Nat) (s s' : State D) : Prop where
  lists : Lists e.program M name
  sorts : ∀ x ∈ e.program.symbols, boolSort ∉ x.args
  now : Presents e M name .singleState index s
  next : Presents e M name .singleState (nextState index) s'
  fits : ∀ x ∈ e.program.symbols, x.Fits s ∧ x.Fits s'

/-- What is said of a symbol that keeps its meaning: it has the same values in both states. -/
theorem Between.agrees_keeps (h : Between e M name index s s') {x : Symbol}
    (hx : x ∈ e.program.symbols) (hTerm : e.keeps index x n = .ok t n')
    (hConstants : OnlyConstants b) : Agrees M name b t (.truth (s x.name = s' x.name)) boolSort := by
  obtain ⟨cs, k, hcs, hRest⟩ := run_bind_eq_ok.mp hTerm
  obtain ⟨old, k', hSure, hRest'⟩ := run_bind_eq_ok.mp hRest
  obtain ⟨new, k'', hSure', hPure⟩ := run_bind_eq_ok.mp hRest'
  obtain ⟨hOld, rfl⟩ := sure_eq_ok.mp hSure
  obtain ⟨hNew, rfl⟩ := sure_eq_ok.mp hSure'
  obtain ⟨rfl, rfl⟩ := run_pure_eq_ok.mp hPure
  obtain ⟨hConsecutive, -, hSorts⟩ := consecutive_of_mapM hcs
  refine agrees_truth ?_ ?_
  · unfold Term.forAll
    split <;> exact ⟨_, rfl⟩
  -- both sides agree at the values that the constants are bound to
  have hEq : ∀ args, Forall₂ D.HasSort args x.args →
      (M.value (bindAll cs (args.map (termOf name)) b)
          (.eq (.app old (cs.map term)) (.app new (cs.map term))) =
        M.truth true ↔ s x.name args = s' x.name args) := by
    intro args hArgs
    have hMembers := (members_iff h.lists (h.sorts x hx) hSorts).mpr ⟨args, hArgs, rfl⟩
    have hValues : M.values (bindAll cs (args.map (termOf name)) b) (cs.map term) =
        args.map (termOf name) := values_bindAll hConsecutive hMembers.length_eq
    have hBound := hConstants.bindAll cs (args.map (termOf name))
    have hS := agrees_app h.now hBound hx rfl hOld hArgs hValues
    have hS' := agrees_app h.next hBound hx rfl hNew hArgs hValues
    rw [value, truthOf_eq_true]
    exact hS.eq_iff h.lists hS'
  rw [value_forAll_eq_true, forAllOf_iff_bindAll]
  constructor
  · intro hAll
    funext args
    by_cases hArgs : Forall₂ D.HasSort args x.args
    · exact (hEq args hArgs).mp
        (hAll _ ((members_iff h.lists (h.sorts x hx) hSorts).mpr ⟨args, hArgs, rfl⟩))
    · -- on other arguments both states say nothing
      obtain ⟨hFits, hFits'⟩ := h.fits x hx
      rw [(hFits args).2 hArgs, (hFits' args).2 hArgs]
  · intro hSame ts hts
    obtain ⟨args, hArgs, rfl⟩ := (members_iff h.lists (h.sorts x hx) hSorts).mp hts
    exact (hEq args hArgs).mpr (congrFun hSame args)

/-- **The frame condition says that all but the modified symbols keep their meaning.** -/
theorem Between.agrees_frame (h : Between e M name index s s') {mods : NameSet}
    (hTerm : e.frameCondition mods index n = .ok t n') (hConstants : OnlyConstants b) :
    Agrees M name b t (.truth (Keeps e.program mods s s')) boolSort := by
  obtain ⟨_, k, -, hRest⟩ := run_bind_eq_ok.mp hTerm
  obtain ⟨parts, k', hParts, hPure⟩ := run_bind_eq_ok.mp hRest
  obtain ⟨rfl, rfl⟩ := run_pure_eq_ok.mp hPure
  have hPart : Forall₂
      (fun x part => Agrees M name b part (.truth (s x.name = s' x.name)) boolSort)
      (kept e.program mods) parts := by
    refine (forall₂_iff_get.mpr ⟨(run_mapM_eq_ok hParts).length_eq, fun i hi hi' => ?_⟩)
    obtain ⟨u, u', hKeeps⟩ := (run_mapM_eq_ok hParts).get hi hi'
    exact h.agrees_keeps (mem_filter.mp (get_mem _ _)).1 hKeeps hConstants
  refine agrees_truth (isTruth_conj fun part hIn => ?_) ?_
  · obtain ⟨x, -, hAgrees⟩ := exists_left_of_forall₂ hPart hIn
    exact hAgrees.isTruth
  · rw [value_conj_eq_true]
    constructor
    · intro hAll x hx
      obtain ⟨part, hIn, hAgrees⟩ := exists_right_of_forall₂ hPart hx
      exact hAgrees.holds_iff.mp (hAll part hIn)
    · intro hKeeps part hIn
      obtain ⟨x, hx, hAgrees⟩ := exists_left_of_forall₂ hPart hIn
      exact hAgrees.holds_iff.mpr (hKeeps x hx)

/-- **An encoded transition says that it leads from a state to the next one**: its body holds for
some parameters, and all but the modified symbols keep their meaning. -/
theorem Between.agrees_transition (h : Between e M name index s s') {r : Transition}
    (hChecked : e.program.checkTransition r = .ok ())
    (hTerm : e.transition r index n = .ok t n') :
    Agrees M name [] t (.truth
      (ExistsOf r.params (fun v => r.body.Holds (twoStates s s') 0 v) .empty ∧
        Keeps e.program r.mods s s')) boolSort := by
  simp only [checkTransition, guard_last_eq_ok, bind_eq_ok, mapError_eq_ok,
    not_not] at hChecked
  obtain ⟨_, hParams, _, -, sort, hSort, rfl⟩ := hChecked
  have hBinds := checkParams_eq_ok hParams
  obtain ⟨_, k, hSure, hRest⟩ := run_bind_eq_ok.mp hTerm
  obtain ⟨⟨consts, scope⟩, k₁, hBind, hRest₁⟩ := run_bind_eq_ok.mp hRest
  obtain ⟨body, k₂, hBody, hRest₂⟩ := run_bind_eq_ok.mp hRest₁
  obtain ⟨frame, k₃, hFrame, hPure⟩ := run_bind_eq_ok.mp hRest₂
  obtain ⟨rfl, rfl⟩ := run_pure_eq_ok.mp hPure
  have hSees : Sees e M name .twoState false index (twoStates s s') 0 :=
    ⟨h.now.mono _, fun _ _ _ => h.next.mono _⟩
  rw [← existsOf_and_right]
  refine agrees_thereIs (F := fun w => .truth (r.body.Holds (twoStates s s') 0 w ∧
    Keeps e.program r.mods s s')) h.lists hBinds.sorts hBind (scoped_nil name k) fun w b hw => ?_
  have hScoped : Scoped name (r.params ++ []) scope w b k₁ :=
    hw.congr fun x => (sort?_reverse_append hBinds [] x).symm
  rw [append_nil] at hScoped
  have hA := value_lower h.lists (types_of_sortOf r.body hSort) hBody hSees hScoped
  have hB := h.agrees_frame hFrame hw.numbered.onlyConstants
  refine agrees_truth ⟨_, rfl⟩ ?_
  rw [value, truthOf_eq_true, values_eq_map]
  simp only [map_cons, map_nil, forall_mem_cons, hA.holds_iff, hB.holds_iff,
    not_mem_nil, false_imp_iff, implies_true, and_true]
  exact Iff.rfl

/-- The term of a way from a state to the next one. -/
def step (e : Encoding) (index : Nat) : Option Transition → Fresh Term
  | none => e.frameCondition .empty index
  | some r => e.transition r index

/-- A term says that a way leads from a state to the next one. -/
def EncodesWay (e : Encoding) (index : Nat) (way : Option Transition) (t : Term) : Prop :=
  ∃ n n', e.step index way n = .ok t n'

/-- **A step is true exactly if its way leads from one state to the next.** -/
theorem Between.satisfies_iff_goes (h : Between e M name index s s')
    (hChecked : ∀ r ∈ e.program.transitions, e.program.checkTransition r = .ok ())
    {way : Option Transition} (hWay : way ∈ Generalizer.ways e.program)
    (hShares : Shares e.program s s') (hTerm : e.EncodesWay index way t) :
    M.Satisfies t ↔ Goes e.program way s s' := by
  obtain ⟨_, _, hTerm⟩ := hTerm
  cases way with
  | none =>
    exact (h.agrees_frame hTerm fun _ _ => rfl).holds_iff.trans
      ⟨fun hKeeps => ⟨hShares, hKeeps⟩, Stutters.keeps⟩
  | some r =>
    have hr : r ∈ e.program.transitions := by simpa [Generalizer.ways] using hWay
    exact (h.agrees_transition (hChecked r hr) hTerm).holds_iff.trans
      ⟨fun hStep => ⟨hShares, hStep.2, hStep.1⟩, fun hTakes => ⟨hTakes.body, hTakes.keeps⟩⟩

end Steps

end Encoding

end InvariantSearch
