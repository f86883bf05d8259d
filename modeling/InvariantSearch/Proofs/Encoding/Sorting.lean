import InvariantSearch.Proofs.Encoding.Lowering

/-!
# The sorts of encoded formulas

What passes the checks of a program can be encoded, and the term is well sorted.

* `Term.sort?` — the sort of a term, if all its parts fit: every application gets
  arguments of the sorts that its symbol takes.
* `Term.symbols` — the symbols that are applied in a term, bound constants among
  them.
* `Encoding.WellMade` — a term of a sort whose declared symbols are those of the
  program, as far as a context may mention them.

Main results: `lower_total`, by induction on formulas, and from it
`frameCondition_total` and `transition_total`.
-/

namespace InvariantSearch

open List Program

variable {ts : List Term} {ss : List SolverSort} {f : SolverSymbol} {index : Nat} {x : Symbol}
  {sort : String} {terms : Scope} {sorts : List String}

/-! ## Sorts and symbols of terms -/

namespace Term

mutual

/-- The sort of a term, if its parts fit together. -/
def sort? : Term → Option SolverSort
  | .bool _ => some .bool
  | .element sort _ => some sort
  | .app f args => if sorts? args = some f.args then some f.range else none
  | .not a => if sort? a = some .bool then some .bool else none
  | .and parts | .or parts =>
    if sorts? parts = some (parts.map fun _ => .bool) then some .bool else none
  | .imp a b | .iff a b =>
    if sort? a = some .bool ∧ sort? b = some .bool then some .bool else none
  | .eq a b => if (sort? a).isSome ∧ sort? a = sort? b then some .bool else none
  | .ite a b c => if sort? a = some .bool ∧ sort? b = sort? c then sort? b else none
  | .all _ a | .ex _ a => if sort? a = some .bool then some .bool else none

/-- The sorts of several terms, in order. -/
def sorts? : List Term → Option (List SolverSort)
  | [] => some []
  | t :: ts =>
    match sort? t, sorts? ts with
    | some s, some ss => some (s :: ss)
    | _, _ => none

end

mutual

/-- The symbols that are applied in a term. -/
def symbols : Term → List SolverSymbol
  | .bool _ | .element _ _ => []
  | .app f args => f :: symbolsList args
  | .not a | .all _ a | .ex _ a => symbols a
  | .and parts | .or parts => symbolsList parts
  | .imp a b | .iff a b | .eq a b => symbols a ++ symbols b
  | .ite a b c => symbols a ++ symbols b ++ symbols c

/-- The symbols that are applied in several terms. -/
def symbolsList : List Term → List SolverSymbol
  | [] => []
  | t :: ts => symbols t ++ symbolsList ts

end

theorem sorts?_eq_some (h : Forall₂ (fun t s => t.sort? = some s) ts ss) : sorts? ts = some ss := by
  induction h with
  | nil => rfl
  | cons ht _ ih => simp only [sorts?, ht, ih]

theorem mem_symbolsList : f ∈ symbolsList ts ↔ ∃ t ∈ ts, f ∈ t.symbols := by
  induction ts with
  | nil => simp [symbolsList]
  | cons t ts ih => simp [symbolsList, ih]

end Term

namespace Encoding

variable {e : Encoding} {context : FormulaContext}

/-- A term of a sort whose declared symbols are those of the program, as far as a context may
mention them. -/
structure WellMade (e : Encoding) (context : FormulaContext) (t : Term) (sort : SolverSort) :
    Prop where
  sort_eq : t.sort? = some sort
  symbols : ∀ f ∈ t.symbols, f.number = none → ∃ x ∈ e.program.symbols,
    (context = .immutableOnly → x.isMutable = false) ∧ ∃ index, e.symbol x index = .ok f

section WellMade

variable {t u v : Term} {sort : SolverSort}

attribute [local simp] Term.sort? Term.symbols

theorem wellMade_bool (value : Bool) : WellMade e context (.bool value) .bool :=
  ⟨rfl, by simp⟩

theorem wellMade_const (c : SolverConst) : WellMade e context c.term c.sort := by
  refine ⟨rfl, fun f hf hNumber => ?_⟩
  obtain rfl : f = c.symbol := by simpa [SolverConst.term, Term.symbolsList] using hf
  cases hNumber

theorem wellMade_app (hx : x ∈ e.program.symbols)
    (hContext : context = .immutableOnly → x.isMutable = false) (hf : e.symbol x index = .ok f)
    (hts : Forall₂ (WellMade e context) ts f.args) : WellMade e context (.app f ts) f.range := by
  refine ⟨?_, fun g hg hNumber => ?_⟩
  · rw [Term.sort?, Term.sorts?_eq_some (hts.imp fun _ _ h => h.sort_eq), if_pos rfl]
  · rw [Term.symbols, mem_cons, Term.mem_symbolsList] at hg
    rcases hg with rfl | ⟨t, ht, hg⟩
    · exact ⟨x, hx, hContext, index, hf⟩
    · obtain ⟨s, -, hMade⟩ := exists_right_of_forall₂ hts ht
      exact hMade.symbols g hg hNumber

theorem WellMade.not (h : WellMade e context t .bool) : WellMade e context (.not t) .bool :=
  ⟨by simp [h.sort_eq], by simpa only [Term.symbols] using h.symbols⟩

theorem WellMade.of_parts (parts : List Term) (hSort : u.sort? = some sort)
    (hParts : ∀ part ∈ parts, ∃ s, WellMade e context part s)
    (hSymbols : ∀ f ∈ u.symbols, ∃ part ∈ parts, f ∈ part.symbols) :
    WellMade e context u sort := by
  refine ⟨hSort, fun f hf hNumber => ?_⟩
  obtain ⟨part, hPart, hf⟩ := hSymbols f hf
  obtain ⟨s, hMade⟩ := hParts part hPart
  exact hMade.symbols f hf hNumber

theorem WellMade.imp (ht : WellMade e context t .bool) (hu : WellMade e context u .bool) :
    WellMade e context (.imp t u) .bool :=
  .of_parts [t, u] (by simp [ht.sort_eq, hu.sort_eq])
    (by simpa using ⟨⟨_, ht⟩, ⟨_, hu⟩⟩) (by simp)

theorem WellMade.iff (ht : WellMade e context t .bool) (hu : WellMade e context u .bool) :
    WellMade e context (.iff t u) .bool :=
  .of_parts [t, u] (by simp [ht.sort_eq, hu.sort_eq])
    (by simpa using ⟨⟨_, ht⟩, ⟨_, hu⟩⟩) (by simp)

theorem WellMade.eq (ht : WellMade e context t sort) (hu : WellMade e context u sort) :
    WellMade e context (.eq t u) .bool :=
  .of_parts [t, u] (by simp [ht.sort_eq, hu.sort_eq])
    (by simpa using ⟨⟨_, ht⟩, ⟨_, hu⟩⟩) (by simp)

theorem WellMade.ite (ht : WellMade e context t .bool) (hu : WellMade e context u sort)
    (hv : WellMade e context v sort) : WellMade e context (.ite t u v) sort :=
  .of_parts [t, u, v] (by simp [ht.sort_eq, hu.sort_eq, hv.sort_eq])
    (by simpa using ⟨⟨_, ht⟩, ⟨_, hu⟩, ⟨_, hv⟩⟩) (by simp)

theorem WellMade.forAll (h : WellMade e context t .bool) (consts : List SolverConst) :
    WellMade e context (Term.forAll consts t) .bool := by
  unfold Term.forAll
  split
  · exact h
  · exact ⟨by simp [h.sort_eq], by simpa only [Term.symbols] using h.symbols⟩

theorem WellMade.thereIs (h : WellMade e context t .bool) (consts : List SolverConst) :
    WellMade e context (Term.thereIs consts t) .bool := by
  unfold Term.thereIs
  split
  · exact h
  · exact ⟨by simp [h.sort_eq], by simpa only [Term.symbols] using h.symbols⟩

theorem sorts?_formulas (h : ∀ t ∈ ts, WellMade e context t .bool) :
    Term.sorts? ts = some (ts.map fun _ => .bool) := by
  refine Term.sorts?_eq_some (forall₂_map_right_iff.mpr ?_)
  exact forall₂_same.mpr fun t ht => (h t ht).sort_eq

theorem wellMade_and (h : ∀ t ∈ ts, WellMade e context t .bool) :
    WellMade e context (.and ts) .bool :=
  .of_parts ts (by rw [Term.sort?, sorts?_formulas h, if_pos rfl]) (fun t ht => ⟨_, h t ht⟩)
    fun f hf => by rwa [Term.symbols, Term.mem_symbolsList] at hf

theorem wellMade_or (h : ∀ t ∈ ts, WellMade e context t .bool) :
    WellMade e context (.or ts) .bool :=
  .of_parts ts (by rw [Term.sort?, sorts?_formulas h, if_pos rfl]) (fun t ht => ⟨_, h t ht⟩)
    fun f hf => by rwa [Term.symbols, Term.mem_symbolsList] at hf

theorem wellMade_conj (h : ∀ t ∈ ts, WellMade e context t .bool) :
    WellMade e context (Term.conj ts) .bool := by
  match ts with
  | [] => exact wellMade_bool true
  | [t] => exact h t (mem_singleton_self t)
  | t :: u :: ts => exact wellMade_and h

theorem wellMade_disj (h : ∀ t ∈ ts, WellMade e context t .bool) :
    WellMade e context (Term.disj ts) .bool := by
  match ts with
  | [] => exact wellMade_bool false
  | [t] => exact h t (mem_singleton_self t)
  | t :: u :: ts => exact wellMade_or h

end WellMade

/-! ## Declared sorts and symbols -/

theorem sort_bool : e.sort boolSort = .ok .bool := if_pos rfl

theorem sort_total (h : e.program.hasSort sort = true) : ∃ s, e.sort sort = .ok s := by
  by_cases hBool : sort = boolSort
  · exact ⟨_, if_pos hBool⟩
  · exact ⟨_, (if_neg hBool).trans (if_pos h)⟩

theorem symbol_eq_ok (h : e.symbol x index = .ok f) :
    Forall₂ (fun sort s => e.sort sort = .ok s) x.args f.args ∧ e.sort x.result = .ok f.range := by
  obtain ⟨name, -, h⟩ := bind_eq_ok.mp h
  obtain ⟨args, hArgs, h⟩ := bind_eq_ok.mp h
  obtain ⟨range, hRange, h⟩ := bind_eq_ok.mp h
  cases h
  exact ⟨mapM_eq_ok.mp hArgs, hRange⟩

theorem symbol_total (hx : e.program.Fitting x)
    (hIndex : x.isMutable = true → index < e.keys.length) : ∃ f, e.symbol x index = .ok f := by
  have hName : ∃ name, e.symbolName x index = .ok name := by
    unfold symbolName
    split
    · rename_i hMutable
      rw [getElem?_eq_getElem (hIndex hMutable)]
      exact ⟨_, rfl⟩
    · exact ⟨_, rfl⟩
  have hArgs : ∃ args, x.args.mapM e.sort = .ok args :=
    exists_mapM_eq_ok fun sort hSort => sort_total (hx.args sort hSort).2
  have hRange : ∃ range, e.sort x.result = .ok range := by
    cases hRelation : x.isRelation with
    | false => exact sort_total (hx.result hRelation).2
    | true =>
      rw [Symbol.result_of_isRelation hRelation]
      exact ⟨_, sort_bool⟩
  obtain ⟨name, hName⟩ := hName
  obtain ⟨args, hArgs⟩ := hArgs
  obtain ⟨range, hRange⟩ := hRange
  exact ⟨_, by rw [symbol, hName, hArgs, hRange]; rfl⟩

/-! ## Variables -/

/-- The variables in scope have constants of their sorts. -/
structure Covers (e : Encoding) (scope : Program.Scope) (terms : Scope) : Prop where
  bound : ∀ x sort, scope.sort? x = some sort →
    ∃ c : SolverConst, terms.lookup x = some c.term ∧ e.sort sort = .ok c.sort
  free : ∀ x, scope.sort? x = none → terms.lookup x = none

theorem covers_nil : Covers e [] [] := ⟨fun _ _ h => (by cases h), fun _ _ => rfl⟩

theorem Covers.congr {scope scope' : Program.Scope} (h : Covers e scope terms)
    (hScope : ∀ x, scope'.sort? x = scope.sort? x) : Covers e scope' terms :=
  ⟨fun x sort hx => h.bound x sort (hScope x ▸ hx), fun x hx => h.free x (hScope x ▸ hx)⟩

theorem Covers.bind {scope : Program.Scope} (h : Covers e scope terms) {x : Var} {c : SolverConst}
    (hc : e.sort x.sort = .ok c.sort) : Covers e (x :: scope) ((x.name, c.term) :: terms) := by
  refine ⟨fun y sort hy => ?_, fun y hy => ?_⟩
  · rw [sort?_cons] at hy
    split at hy
    · rename_i hName
      subst hName
      obtain rfl := Option.some.inj hy
      exact ⟨c, lookup_cons_self, hc⟩
    · rename_i hName
      rw [lookup_cons_of_ne (Ne.symm hName)]
      exact h.bound y sort hy
  · rw [sort?_cons] at hy
    split at hy
    · cases hy
    · rename_i hName
      rw [lookup_cons_of_ne (Ne.symm hName)]
      exact h.free y hy

theorem gives_sure {α : Type} {r : Except EncodingFault α} {a : α} (h : r = .ok a) :
    Gives (sure r) (· = a) :=
  fun n => ⟨a, n, sure_eq_ok.mpr ⟨h, rfl⟩, rfl⟩

theorem freshOf_total (h : e.program.hasSort sort = true) (name : String) :
    Gives (e.freshOf name sort) fun c => e.sort sort = .ok c.sort := by
  obtain ⟨s, hs⟩ := sort_total h
  refine (gives_sure hs).bind fun _ h => ?_
  subst h
  exact fun n => ⟨_, n + 1, rfl, hs⟩

/-- Variables are bound one by one, and what each of them keeps all of them keep. -/
theorem bindVars_keeps {I : Program.Scope → Scope → Prop} (scope : Program.Scope) {vars : List Var}
    (hVars : ∀ x ∈ vars, e.program.hasSort x.sort = true)
    (hStep : ∀ {scope terms} {x : Var} {c : SolverConst}, I scope terms →
      e.sort x.sort = .ok c.sort → I (x :: scope) ((x.name, c.term) :: terms))
    (h : I scope terms) :
    Gives (e.bindVars terms vars) fun bound => I (vars.reverse ++ scope) bound.2 := by
  induction vars generalizing scope terms with
  | nil => exact gives_pure h
  | cons x vars ih =>
    rw [bindVars, reverse_cons, append_assoc]
    refine (freshOf_total (hVars x mem_cons_self) x.name).bind fun c hc => ?_
    exact (ih _ (fun y hy => hVars y (mem_cons_of_mem x hy)) (hStep h hc)).bind
      fun _ hInner => gives_pure hInner

theorem bindVars_total {scope : Program.Scope} {vars : List Var}
    (hVars : ∀ x ∈ vars, e.program.hasSort x.sort = true) (h : Covers e scope terms) :
    Gives (e.bindVars terms vars) fun bound => Covers e (vars.reverse ++ scope) bound.2 :=
  bindVars_keeps scope hVars (fun h hc => h.bind hc) h

/-! ## Formulas -/

section Formulas

variable {scope : Scope} {terms : Scope} {underNew : Bool} {index : Nat}

/-- The states that a formula at a position speaks of are there. -/
structure InRange (e : Encoding) (context : FormulaContext) (underNew : Bool) (index : Nat) :
    Prop where
  now : index < e.keys.length
  next : context = .twoState → underNew = false → nextState index < e.keys.length

theorem checkState_of_lt (h : index < e.keys.length) : e.checkState index = .ok () := if_pos h

/-- A formula can be lowered, to a term of the solver's sort for its own. -/
def Lowers (e : Encoding) (context : FormulaContext) (index : Nat) (terms : Scope) (f : Formula)
    (sort : String) : Prop :=
  ∃ s, e.sort sort = .ok s ∧ Gives (e.lower index terms f) (WellMade e context · s)

theorem Lowers.gives {f : Formula} {s : SolverSort} (h : Lowers e context index terms f sort)
    (hs : e.sort sort = .ok s) : Gives (e.lower index terms f) (WellMade e context · s) := by
  obtain ⟨_, hs', hLower⟩ := h
  exact Except.ok.inj (hs'.symm.trans hs) ▸ hLower

theorem lowerParts_total {parts : List Formula}
    (h : ∀ a ∈ parts, Lowers e context index terms a boolSort) :
    Gives (e.lowerList index terms parts) (∀ t ∈ ·, WellMade e context t .bool) := by
  rw [lowerList_eq_mapM]
  exact gives_mapM fun a ha => (h a ha).gives sort_bool

/-- **What is well sorted can be lowered**, to a term of the same sort. -/
theorem lower_total (hSymbols : ∀ x ∈ e.program.symbols, e.program.Fitting x)
    {scope : Program.Scope} {f : Formula} (hTypes : e.program.Types context scope underNew f sort)
    (hRange : InRange e context underNew index) (hCovers : Covers e scope terms) :
    Lowers e context index terms f sort := by
  induction hTypes generalizing index terms with
  | bool value =>
    refine ⟨.bool, sort_bool, ?_⟩
    rw [lower]
    exact gives_pure (wellMade_bool value)
  | bound hx =>
    obtain ⟨c, hTerm, hSort⟩ := hCovers.bound _ _ hx
    refine ⟨c.sort, hSort, ?_⟩
    rw [lower, hTerm]
    exact gives_pure (wellMade_const c)
  | @constant _ _ x y hx hy hArgs hMention =>
    have hMem := mem_of_find?_eq_some hy
    obtain ⟨f, hf⟩ := symbol_total (hSymbols y hMem) fun _ => hRange.now
    obtain ⟨hSorts, hResult⟩ := symbol_eq_ok hf
    rw [hArgs, forall₂_nil_left_iff] at hSorts
    refine ⟨f.range, hResult, ?_⟩
    rw [lower, hCovers.free x hx, hy]
    refine (gives_sure hf).bind fun _ h => gives_pure ?_
    subst h
    exact wellMade_app hMem (checkMention_eq_ok hMention) hf (hSorts ▸ .nil)
  | @app _ _ x y args hy hArity hMention _ ih =>
    have hMem := mem_of_find?_eq_some hy
    obtain ⟨f, hf⟩ := symbol_total (hSymbols y hMem) fun _ => hRange.now
    obtain ⟨hSorts, hResult⟩ := symbol_eq_ok hf
    -- the arguments have the sorts of the symbol, which are those of what encodes it
    have hArgs : Gives (e.lowerList index terms args) (Forall₂ (WellMade e context) · f.args) := by
      rw [lowerList_eq_mapM]
      refine gives_mapM₂ (forall₂_iff_get.mpr
        ⟨hArity.trans hSorts.length_eq, fun i hArg hSort => ?_⟩)
      have hPair : (args.get ⟨i, hArg⟩, y.args.get ⟨i, hArity ▸ hArg⟩) ∈ args.zip y.args :=
        mem_iff_get.mpr ⟨⟨i, by simpa [hArity] using hArg⟩, by simp⟩
      exact (ih _ _ hPair hRange hCovers).gives (hSorts.get (hArity ▸ hArg) hSort)
    refine ⟨f.range, hResult, ?_⟩
    rw [lower, hy]
    dsimp only
    rw [if_neg (not_not.mpr (show y.arity = args.length from hArity.symm))]
    refine hArgs.bind fun ts hts => (gives_sure hf).bind fun _ h => gives_pure ?_
    subst h
    exact wellMade_app hMem (checkMention_eq_ok hMention) hf hts
  | not _ ih =>
    refine ⟨.bool, sort_bool, ?_⟩
    rw [lower]
    exact ((ih hRange hCovers).gives sort_bool).bind fun t ht => gives_pure ht.not
  | and _ ih | or _ ih =>
    refine ⟨.bool, sort_bool, ?_⟩
    rw [lower]
    refine (lowerParts_total fun a ha => ih a ha hRange hCovers).bind fun ts hts => gives_pure ?_
    first | exact wellMade_conj hts | exact wellMade_disj hts
  | imp _ _ iha ihb | iff _ _ iha ihb =>
    refine ⟨.bool, sort_bool, ?_⟩
    rw [lower]
    refine ((iha hRange hCovers).gives sort_bool).bind fun t ht => ?_
    refine ((ihb hRange hCovers).gives sort_bool).bind fun u hu => gives_pure ?_
    first | exact ht.imp hu | exact ht.iff hu
  | eq _ _ iha ihb | ne _ _ iha ihb =>
    obtain ⟨s, hs, ha⟩ := iha hRange hCovers
    refine ⟨.bool, sort_bool, ?_⟩
    rw [lower]
    refine ha.bind fun t ht => ((ihb hRange hCovers).gives hs).bind fun u hu => gives_pure ?_
    first | exact ht.eq hu | exact (ht.eq hu).not
  | ite _ _ _ iha ihb ihc =>
    obtain ⟨s, hs, hb⟩ := ihb hRange hCovers
    refine ⟨s, hs, ?_⟩
    rw [lower]
    refine ((iha hRange hCovers).gives sort_bool).bind fun t ht => hb.bind fun u hu => ?_
    exact ((ihc hRange hCovers).gives hs).bind fun v hv => gives_pure (ht.ite hu hv)
  | all hBinder _ ih | ex hBinder _ ih =>
    refine ⟨.bool, sort_bool, ?_⟩
    rw [lower]
    refine (bindVars_total (hasSort_of_checkBinder hBinder) hCovers).bind fun bound hInner => ?_
    have hBody := ih hRange (hInner.congr fun x =>
      (sort?_reverse_append (checkBinder_eq_ok hBinder) _ x).symm)
    refine (hBody.gives sort_bool).bind fun t ht => gives_pure ?_
    first | exact ht.forAll _ | exact ht.thereIs _
  | new hContext _ ih =>
    have hNext := hRange.next hContext rfl
    obtain ⟨s, hs, ha⟩ := ih ⟨hNext, fun _ hTrue => by cases hTrue⟩ hCovers
    refine ⟨s, hs, ?_⟩
    rw [lower]
    exact (gives_sure (checkState_of_lt hNext)).bind fun _ _ => ha

/-- **A formula that fits its context can be encoded** in every state that it may be read in. -/
theorem encode_total (hSymbols : ∀ x ∈ e.program.symbols, e.program.Fitting x) {f : Formula}
    (hf : e.program.Sorted context f) (hRange : InRange e context false index) :
    Gives (e.encode f index []) (WellMade e context · .bool) :=
  (gives_sure (checkState_of_lt hRange.now)).bind fun _ _ =>
    (lower_total hSymbols (types_of_sortOf f hf) hRange covers_nil).gives sort_bool

end Formulas

/-! ## Steps -/

section Steps

variable {index : Nat}

theorem wellMade_consts {cs : List SolverConst}
    (hcs : Forall₂ (fun c sort => e.sort sort = .ok c.sort) cs sorts)
    (hss : Forall₂ (fun sort s => e.sort sort = .ok s) sorts ss) :
    Forall₂ (WellMade e context) (cs.map SolverConst.term) ss := by
  induction hcs generalizing ss with
  | nil =>
    obtain rfl := forall₂_nil_left_iff.mp hss
    exact .nil
  | @cons c sort _ _ hc _ ih =>
    obtain ⟨s, ss, hs, hTail, rfl⟩ := forall₂_cons_left_iff.mp hss
    obtain rfl := Except.ok.inj (hc.symm.trans hs)
    exact .cons (wellMade_const c) (ih hTail)

theorem keeps_total (hx : x ∈ e.program.symbols) (hFitting : e.program.Fitting x)
    (hIndex : index < e.keys.length) (hNext : nextState index < e.keys.length) :
    Gives (e.keeps index x) (WellMade e .twoState · .bool) := by
  obtain ⟨f, hf⟩ := symbol_total hFitting fun _ => hIndex
  obtain ⟨g, hg⟩ := symbol_total hFitting fun _ => hNext
  obtain ⟨hfArgs, hfResult⟩ := symbol_eq_ok hf
  obtain ⟨hgArgs, hgResult⟩ := symbol_eq_ok hg
  have hContext : FormulaContext.twoState = .immutableOnly → x.isMutable = false := by simp
  refine (gives_mapM₂ (forall₂_same.mpr fun sort hSort =>
    freshOf_total (hFitting.args sort hSort).2 "x")).bind fun cs hcs => ?_
  refine (gives_sure hf).bind fun _ h => (gives_sure hg).bind fun _ h' => gives_pure ?_
  subst h h'
  have hOld := wellMade_app hx hContext hf (wellMade_consts hcs hfArgs)
  have hNew := wellMade_app hx hContext hg (wellMade_consts hcs hgArgs)
  rw [← Except.ok.inj (hfResult.symm.trans hgResult)] at hNew
  exact (hOld.eq hNew).forAll cs

/-- **Frame conditions can be encoded** between any two neighbouring states. -/
theorem frameCondition_total (hSymbols : ∀ x ∈ e.program.symbols, e.program.Fitting x)
    (hIndex : index < e.keys.length) (hNext : nextState index < e.keys.length) (mods : NameSet) :
    Gives (e.frameCondition mods index) (WellMade e .twoState · .bool) := by
  refine (gives_sure (checkState_of_lt hNext)).bind fun _ _ => ?_
  refine (gives_mapM fun x hx => ?_).bind fun parts hParts => gives_pure (wellMade_conj hParts)
  have hMem := (mem_filter.mp hx).1
  exact keeps_total hMem (hSymbols x hMem) hIndex hNext

/-- **Transitions can be encoded** between any two neighbouring states. -/
theorem transition_total (hSymbols : ∀ x ∈ e.program.symbols, e.program.Fitting x)
    {r : Transition} (hr : e.program.checkTransition r = .ok ())
    (hIndex : index < e.keys.length) (hNext : nextState index < e.keys.length) :
    Gives (e.transition r index) (WellMade e .twoState · .bool) := by
  simp only [checkTransition, guard_last_eq_ok, bind_eq_ok, mapError_eq_ok,
    not_not] at hr
  obtain ⟨_, hParams, _, -, sort, hSort, rfl⟩ := hr
  refine (gives_sure (checkState_of_lt hNext)).bind fun _ _ => ?_
  refine (bindVars_total (hasSort_of_checkParams hParams) covers_nil).bind fun bound hInner => ?_
  have hCovers : Covers e (r.params ++ []) bound.2 := hInner.congr fun x =>
    (sort?_reverse_append (checkParams_eq_ok hParams) [] x).symm
  rw [append_nil] at hCovers
  have hBody := lower_total hSymbols (types_of_sortOf r.body hSort)
    ⟨hIndex, fun _ _ => hNext⟩ hCovers
  refine (hBody.gives sort_bool).bind fun body hMade => ?_
  refine (frameCondition_total hSymbols hIndex hNext r.mods).bind fun frame hKept =>
    gives_pure ((wellMade_and fun t ht => ?_).thereIs _)
  rcases mem_cons.mp ht with rfl | ht
  · exact hMade
  · exact mem_singleton.mp ht ▸ hKept

end Steps

end Encoding

end InvariantSearch
