import InvariantSearch.Proofs.Meaning.Program
import InvariantSearch.Proofs.Meaning.Term
import InvariantSearch.Proofs.Program.Typing

/-!
# The meaning of encoded formulas

Formulas are lowered to terms, and the two agree: the value of a lowered formula in
a structure is the value of the formula in the states that the structure presents.

* `Encoding.Lists` — the elements of a domain stand for the members of sorts.
* `Encoding.Presents` — a structure gives symbols the meaning that they have in a
  state.
* `Encoding.Scoped` — variables, terms and bound constants stand for the same.

Main result: `value_lower`, by induction on formulas.
-/

namespace InvariantSearch

open List SolverStructure Discipline Program

variable {scope : Program.Scope} {index i : Nat} {sort : String} {f : SolverSymbol}
  {c : SolverConst} {context : FormulaContext} {terms : Scope} {ts : List Term}

namespace Encoding

variable {e : Encoding}

/-! ## Fresh names -/

theorem sure_eq_ok {α : Type} {r : Except EncodingFault α} {a : α} {n n' : Nat} :
    sure r n = .ok a n' ↔ r = .ok a ∧ n = n' := by
  cases r with
  | ok x => simp [sure, pure, EStateM.pure]
  | error fault => exact ⟨fun h => (by cases h), fun h => (by cases h.1)⟩

theorem sure_bind_eq_ok {α β : Type} {r : Except EncodingFault α} {f : α → Fresh β} {b : β}
    {n n' : Nat} : (sure r >>= f) n = .ok b n' ↔ ∃ a, r = .ok a ∧ f a n = .ok b n' := by
  simp only [run_bind_eq_ok, sure_eq_ok]
  exact ⟨fun ⟨a, _, ⟨ha, hn⟩, hb⟩ => ⟨a, ha, hn ▸ hb⟩, fun ⟨a, ha, hb⟩ => ⟨a, n, ⟨ha, rfl⟩, hb⟩⟩

theorem freshOf_eq_ok {name : String} {n n' : Nat} (h : e.freshOf name sort n = .ok c n') :
    e.sort sort = .ok c.sort ∧ c.number = n ∧ n' = n + 1 := by
  obtain ⟨s, hSort, h⟩ := sure_bind_eq_ok.mp h
  cases h
  exact ⟨hSort, rfl, rfl⟩

/-- Encoding gives no numbers back. -/
def rising : Discipline EncodingFault Nat where
  Leads n n' := n ≤ n'
  Fails _ _ := True
  refl := Nat.le_refl
  trans := Nat.le_trans

theorem rises_sure {α : Type} (r : Except EncodingFault α) : rising.Keeps (sure r) := by
  cases r with
  | ok a => exact keeps_pure a
  | error fault => exact keeps_throw fault

theorem rises_freshOf (name sort : String) : rising.Keeps (e.freshOf name sort) :=
  (rises_sure _).bind fun _ => Nat.le_succ

theorem sort_eq_ok {s : SolverSort} (h : e.sort sort = .ok s) (hBool : sort ≠ boolSort) :
    e.program.hasSort sort = true ∧ s = .named (beforeNul sort) := by
  rw [Encoding.sort, if_neg hBool] at h
  split at h
  · rename_i hSort
    cases h
    exact ⟨hSort, rfl⟩
  · cases h

theorem symbol_number {x : Symbol} (h : e.symbol x index = .ok f) : f.number = none := by
  obtain ⟨name, -, h⟩ := bind_eq_ok.mp h
  obtain ⟨args, -, h⟩ := bind_eq_ok.mp h
  obtain ⟨range, -, h⟩ := bind_eq_ok.mp h
  cases h
  rfl

theorem symbol_of_immutable (e e' : Encoding) (hProgram : e'.program = e.program) {x : Symbol}
    (h : x.isMutable = false) (index index' : Nat) : e.symbol x index = e'.symbol x index' := by
  have hSort : e'.sort = e.sort := funext fun name => by simp [Encoding.sort, hProgram]
  simp [symbol, symbolName, h, hSort]

theorem nextState_lt (h : index + 1 < e.keys.length) : nextState index < e.keys.length :=
  Nat.lt_of_le_of_lt (Nat.mod_le _ _) h

theorem nextState_eq (h : index + 1 < UInt32.size) : nextState index = index + 1 :=
  Nat.mod_eq_of_lt h

theorem checkState_eq_ok (h : e.checkState index = .ok ()) : index < e.keys.length := by
  unfold checkState at h
  split at h
  · assumption
  · cases h

/-! ## Elements and states -/

section Presentation

variable {D : Domain} {x : Value D.Element}

/-- What a value stands for in a structure, where this is given for elements. -/
noncomputable def termOf {M : SolverStructure} (name : D.Element → M.Value) :
    Value D.Element → M.Value
  | .truth p => M.truthOf p
  | .element x => name x

/-- The elements of each sort stand for its members. -/
structure Lists (p : Program) (M : SolverStructure) (name : D.Element → M.Value) : Prop where
  mem_iff : ∀ sort, p.hasSort sort = true → sort ≠ boolSort → ∀ t,
    M.Member (.named (beforeNul sort)) t ↔ ∃ x, D.sort x = sort ∧ name x = t
  injective : ∀ x y, D.sort x = D.sort y → name x = name y → x = y

/-- A structure gives symbols the meaning they have in a state, as far as a context may mention
them. -/
def Presents (e : Encoding) (M : SolverStructure) (name : D.Element → M.Value)
    (context : FormulaContext) (index : Nat) (s : State D) : Prop :=
  ∀ x ∈ e.program.symbols, (context = .immutableOnly → x.isMutable = false) →
    ∀ f, e.symbol x index = .ok f → ∀ args, Forall₂ D.HasSort args x.args →
      D.HasSort (s x.name args) x.result ∧
        M.apply f (args.map (termOf name)) = termOf name (s x.name args)

theorem Presents.mono {M : SolverStructure} {name : D.Element → M.Value} {s : State D}
    (h : Presents e M name .singleState index s) (context : FormulaContext) :
    Presents e M name context index s :=
  fun x hx _ => h x hx fun hContext => by cases hContext

variable {M : SolverStructure} {name : D.Element → M.Value}

theorem isTruth_termOf (h : D.HasSort x boolSort) : M.IsTruth (termOf name x) := by
  cases x with
  | truth p => exact ⟨_, rfl⟩
  | element x => exact absurd h (D.sort_ne_bool x)

theorem termOf_eq_true (h : D.HasSort x boolSort) : termOf name x = M.truth true ↔ x.Holds := by
  cases x with
  | truth p => simp [termOf]
  | element x => exact absurd h (D.sort_ne_bool x)

theorem Lists.eq_of_termOf {p : Program} (h : Lists p M name) {y : Value D.Element}
    (hx : D.HasSort x sort) (hy : D.HasSort y sort) (hEq : termOf name x = termOf name y) :
    x = y := by
  cases x with
  | truth p =>
    cases y with
    | truth q => rw [propext (iff_of_truthOf_eq hEq)]
    | element y => exact absurd (hy.trans hx) (D.sort_ne_bool y)
  | element x =>
    cases y with
    | truth q => exact absurd (hx.trans hy) (D.sort_ne_bool x)
    | element y => rw [h.injective x y (hx.trans hy.symm) hEq]

end Presentation

/-! ## Variables -/

section Scopes

variable {D : Domain} {M : SolverStructure} {name : D.Element → M.Value} {n n' : Nat}
  {b : M.Binding} {terms : Scope} {scope : Program.Scope} {v : Valuation D}

theorem lookup_cons_of_ne {α β : Type} [DecidableEq α] {a a' : α} (h : a ≠ a') (b : β)
    (l : List (α × β)) : ((a', b) :: l).lookup a = l.lookup a := by
  simp [lookup_cons, beq_false_of_ne h]

/-- Every bound constant has a number below `n`, so the next one to be made is new. -/
def Numbered {M : SolverStructure} (b : M.Binding) (n : Nat) : Prop :=
  ∀ entry ∈ b, ∃ k < n, entry.1.number = some k

theorem Numbered.lookup_eq_none (h : Numbered b n) (hf : ∀ k < n, f.number ≠ some k) :
    b.lookup f = none := by
  rw [lookup_eq_none_iff]
  intro entry hEntry
  obtain ⟨k, hk, hNumber⟩ := h entry hEntry
  have hNe : f ≠ entry.1 := fun hEq => hf k hk (hEq ▸ hNumber)
  simpa using hNe

/-- Declared symbols, which have no number, are not bound. -/
def OnlyConstants {M : SolverStructure} (b : M.Binding) : Prop :=
  ∀ f : SolverSymbol, f.number = none → b.lookup f = none

theorem Numbered.onlyConstants (h : Numbered b n) : OnlyConstants b := by
  intro f hf
  refine h.lookup_eq_none fun k _ => ?_
  rw [hf]
  exact fun hNumber => by cases hNumber

theorem Numbered.cons (h : Numbered b n) (hc : c.number = n) (t : M.Value) :
    Numbered ((c.symbol, t) :: b) (n + 1) := by
  intro entry hEntry
  rcases mem_cons.mp hEntry with rfl | hEntry
  · exact ⟨n, Nat.lt_succ_self n, congrArg some hc⟩
  · obtain ⟨k, hk, hNumber⟩ := h entry hEntry
    exact ⟨k, by omega, hNumber⟩

/-- The variables in scope stand for the elements that their constants are bound to. -/
structure Scoped {M : SolverStructure} (name : D.Element → M.Value) (scope : Program.Scope)
    (terms : Scope) (v : Valuation D) (b : M.Binding) (n : Nat) : Prop where
  bound : ∀ x sort, scope.sort? x = some sort → ∃ (c : SolverConst) (a : D.Element),
    terms.lookup x = some c.term ∧ v x = some (.element a) ∧ D.sort a = sort ∧
      b.lookup c.symbol = some (name a)
  free : ∀ x, scope.sort? x = none → terms.lookup x = none ∧ v x = none
  numbered : Numbered b n

theorem scoped_nil (name : D.Element → M.Value) (n : Nat) : Scoped name [] [] .empty [] n :=
  ⟨fun _ _ h => (by cases h), fun _ _ => ⟨rfl, rfl⟩, fun _ h => (by cases h)⟩

theorem Scoped.mono (h : Scoped name scope terms v b n) (hn : n ≤ n') :
    Scoped name scope terms v b n' := by
  refine ⟨h.bound, h.free, fun entry hEntry => ?_⟩
  obtain ⟨k, hk, hNumber⟩ := h.numbered entry hEntry
  exact ⟨k, by omega, hNumber⟩

theorem Scoped.congr {scope' : Program.Scope} (h : Scoped name scope terms v b n)
    (hScope : ∀ x, scope'.sort? x = scope.sort? x) : Scoped name scope' terms v b n := by
  refine ⟨fun x sort hx => ?_, fun x hx => ?_, h.numbered⟩
  · exact h.bound x sort (hScope x ▸ hx)
  · exact h.free x (hScope x ▸ hx)

theorem Scoped.bind (h : Scoped name scope terms v b n) {x : Var} (hc : c.number = n)
    {a : D.Element} (ha : D.sort a = x.sort) :
    Scoped name (x :: scope) ((x.name, c.term) :: terms) (v.bind x.name a)
      ((c.symbol, name a) :: b) (n + 1) := by
  refine ⟨fun y sort hy => ?_, fun y hy => ?_, h.numbered.cons hc _⟩
  · rw [sort?_cons] at hy
    split at hy
    · rename_i hName
      subst hName
      obtain rfl := Option.some.inj hy
      exact ⟨c, a, by simp, by simp, ha, by simp⟩
    · rename_i hName
      obtain ⟨c', a', hTerm, hValue, hSort', hLookup⟩ := h.bound y sort hy
      refine ⟨c', a', ?_, ?_, hSort', ?_⟩
      · rw [lookup_cons_of_ne (Ne.symm hName)]
        exact hTerm
      · rw [Valuation.bind_of_ne _ _ (Ne.symm hName)]
        exact hValue
      · -- the constants before have smaller numbers
        have hNe : c'.symbol ≠ c.symbol := by
          intro hEq
          rw [hEq, h.numbered.lookup_eq_none (fun k hk hNumber => ?_)] at hLookup
          · cases hLookup
          · have : c.number = k := Option.some.inj hNumber
            omega
        rw [lookup_cons_of_ne hNe]
        exact hLookup
  · rw [sort?_cons] at hy
    split at hy
    · cases hy
    · rename_i hName
      refine ⟨?_, ?_⟩
      · rw [lookup_cons_of_ne (Ne.symm hName)]
        exact (h.free y hy).1
      · rw [Valuation.bind_of_ne _ _ (Ne.symm hName)]
        exact (h.free y hy).2

theorem bindVars_cons_eq_ok {inner : Scope} {x : Var} {vars : List Var} {consts : List SolverConst}
    (h : e.bindVars terms (x :: vars) n = .ok (consts, inner) n') :
    ∃ c cs, consts = c :: cs ∧ e.sort x.sort = .ok c.sort ∧ c.number = n ∧
      e.bindVars ((x.name, c.term) :: terms) vars (n + 1) = .ok (cs, inner) n' := by
  rw [bindVars] at h
  obtain ⟨c, u, hc, hBind⟩ := run_bind_eq_ok.mp h
  obtain ⟨⟨cs, inner'⟩, u', hRest, hPair⟩ := run_bind_eq_ok.mp hBind
  obtain ⟨hSort, hNumber, rfl⟩ := freshOf_eq_ok hc
  cases hPair
  exact ⟨c, cs, rfl, hSort, hNumber, hRest⟩

theorem rises_bindVars (vars : List Var) (terms : Scope) :
    rising.Keeps (e.bindVars terms vars) := by
  induction vars generalizing terms with
  | nil => exact keeps_pure _
  | cons x vars ih =>
    exact (rises_freshOf _ _).bind fun _ => (ih _).bind fun _ => keeps_pure _

section Binders

variable {scope : Program.Scope} {terms inner : Scope} {vars : List Var}
  {consts : List SolverConst} {v : Valuation D} {b : M.Binding} {n n' : Nat}
  {P : M.Binding → Prop} {Q : Valuation D → Prop}

/-- The values of fresh constants and of the variables they stand for are chosen alike. -/
theorem existsOf_of_binds (hLists : Lists e.program M name)
    (hVars : ∀ x ∈ vars, x.sort ≠ boolSort)
    (hBind : e.bindVars terms vars n = .ok (consts, inner) n')
    (hScoped : Scoped name scope terms v b n) :
    ((∀ w b', Scoped name (vars.reverse ++ scope) inner w b' n' → P b' → Q w) →
      M.ExistsOf consts P b → ExistsOf vars Q v) ∧
    ((∀ w b', Scoped name (vars.reverse ++ scope) inner w b' n' → Q w → P b') →
      ExistsOf vars Q v → M.ExistsOf consts P b) := by
  induction vars generalizing scope terms consts v b n with
  | nil =>
    cases hBind
    exact ⟨fun h => h v b hScoped, fun h => h v b hScoped⟩
  | cons x vars ih =>
    obtain ⟨c, cs, rfl, hSort, hNumber, hRest⟩ := bindVars_cons_eq_ok hBind
    have hx := hVars x mem_cons_self
    obtain ⟨hDeclared, hc⟩ := sort_eq_ok hSort hx
    rw [reverse_cons, append_assoc]
    have hInner := fun a (ha : D.sort a = x.sort) =>
      ih (fun y hy => hVars y (mem_cons_of_mem x hy)) hRest (hScoped.bind hNumber ha)
    constructor
    · rintro hPQ ⟨t, ht, h⟩
      rw [hc] at ht
      obtain ⟨a, ha, rfl⟩ := (hLists.mem_iff _ hDeclared hx t).mp ht
      exact ⟨a, ha, (hInner a ha).1 hPQ h⟩
    · rintro hQP ⟨a, ha, h⟩
      refine ⟨name a, ?_, (hInner a ha).2 hQP h⟩
      rw [hc]
      exact (hLists.mem_iff _ hDeclared hx _).mpr ⟨a, ha, rfl⟩

theorem existsOf_iff_of_binds (hLists : Lists e.program M name)
    (hVars : ∀ x ∈ vars, x.sort ≠ boolSort)
    (hBind : e.bindVars terms vars n = .ok (consts, inner) n')
    (hScoped : Scoped name scope terms v b n)
    (hPQ : ∀ w b', Scoped name (vars.reverse ++ scope) inner w b' n' → (P b' ↔ Q w)) :
    M.ExistsOf consts P b ↔ ExistsOf vars Q v :=
  have h := existsOf_of_binds hLists hVars hBind hScoped
  ⟨h.1 fun w b' hw => (hPQ w b' hw).mp, h.2 fun w b' hw => (hPQ w b' hw).mpr⟩

end Binders

end Scopes

/-! ## Numbers in use -/

theorem lowerList_eq_mapM (index : Nat) (terms : Scope) (fs : List Formula) :
    e.lowerList index terms fs = fs.mapM (e.lower index terms) := by
  induction fs with
  | nil => rw [lowerList, mapM_nil]
  | cons f fs ih => rw [lowerList, mapM_cons, ih]

mutual

theorem rises_lower (index : Nat) (terms : Scope) :
    ∀ f : Formula, rising.Keeps (e.lower index terms f)
  | .bool _ => by
    rw [lower]
    exact keeps_pure _
  | .id x => by
    rw [lower]
    split
    · exact keeps_pure _
    · split
      · exact keeps_throw _
      · exact (rises_sure _).bind fun _ => keeps_pure _
  | .app x args => by
    rw [lower]
    split
    · exact keeps_throw _
    · exact keeps_ite (keeps_throw _) ((rises_lowerList index terms args).bind fun _ =>
        (rises_sure _).bind fun _ => keeps_pure _)
  | .not a => by
    rw [lower]
    exact (rises_lower index terms a).bind fun _ => keeps_pure _
  | .and parts | .or parts => by
    rw [lower]
    exact (rises_lowerList index terms parts).bind fun _ => keeps_pure _
  | .imp a c | .iff a c | .eq a c | .ne a c => by
    rw [lower]
    exact (rises_lower index terms a).bind fun _ =>
      (rises_lower index terms c).bind fun _ => keeps_pure _
  | .ite a c d => by
    rw [lower]
    exact (rises_lower index terms a).bind fun _ => (rises_lower index terms c).bind fun _ =>
      (rises_lower index terms d).bind fun _ => keeps_pure _
  | .all vars a | .ex vars a => by
    rw [lower]
    exact (rises_bindVars vars terms).bind fun _ =>
      (rises_lower index _ a).bind fun _ => keeps_pure _
  | .new a => by
    rw [lower]
    exact (rises_sure _).bind fun _ => rises_lower _ terms a

theorem rises_lowerList (index : Nat) (terms : Scope) :
    ∀ fs : List Formula, rising.Keeps (e.lowerList index terms fs)
  | [] => by
    rw [lowerList]
    exact keeps_pure _
  | f :: fs => by
    rw [lowerList]
    exact (rises_lower index terms f).bind fun _ =>
      (rises_lowerList index terms fs).bind fun _ => keeps_pure _

end

/-! ## Formulas -/

section Formulas

variable {D : Domain} {M : SolverStructure} {name : D.Element → M.Value} {index n n' : Nat}
  {σ : Nat → State D} {v : Valuation D}

/-- A structure presents the states that a formula at a position speaks of. -/
structure Sees (e : Encoding) (M : SolverStructure) (name : D.Element → M.Value)
    (context : FormulaContext) (underNew : Bool) (index : Nat) (σ : Nat → State D) (i : Nat) :
    Prop where
  now : Presents e M name context index (σ i)
  next : context = .twoState → underNew = false → nextState index < e.keys.length →
    Presents e M name context (nextState index) (σ (i + 1))

/-- A term has a value of a sort in a structure. -/
structure Agrees (M : SolverStructure) (name : D.Element → M.Value) (b : M.Binding) (t : Term)
    (x : Value D.Element) (sort : String) : Prop where
  hasSort : D.HasSort x sort
  value_eq : M.value b t = termOf name x

variable {b : M.Binding} {t : Term} {x : Value D.Element}

theorem Agrees.isTruth (h : Agrees M name b t x boolSort) : M.IsTruth (M.value b t) := by
  rw [h.value_eq]
  exact isTruth_termOf h.hasSort

theorem Agrees.holds_iff (h : Agrees M name b t x boolSort) :
    M.value b t = M.truth true ↔ x.Holds := by
  rw [h.value_eq]
  exact termOf_eq_true h.hasSort

theorem Agrees.eq_iff {p : Program} {u : Term} {y : Value D.Element} (h : Agrees M name b t x sort)
    (hLists : Lists p M name) (h' : Agrees M name b u y sort) :
    M.value b t = M.value b u ↔ x = y := by
  rw [h.value_eq, h'.value_eq]
  exact ⟨hLists.eq_of_termOf h.hasSort h'.hasSort, fun hEq => hEq ▸ rfl⟩

theorem agrees_truth {p : Prop} (hTruth : M.IsTruth (M.value b t))
    (h : M.value b t = M.truth true ↔ p) : Agrees M name b t (.truth p) boolSort :=
  ⟨rfl, hTruth.eq_truthOf h⟩

theorem agrees_app {s : State D} (hPresents : Presents e M name context index s)
    (hConstants : OnlyConstants b) {y : Symbol} (hy : y ∈ e.program.symbols)
    (hMention : checkMention context y = .ok ()) (hf : e.symbol y index = .ok f)
    {args : List (Value D.Element)} (hArgs : Forall₂ D.HasSort args y.args)
    (hts : M.values b ts = args.map (termOf name)) :
    Agrees M name b (.app f ts) (s y.name args) y.result := by
  obtain ⟨hSort, hValue⟩ := hPresents y hy (checkMention_eq_ok hMention) f hf args hArgs
  refine ⟨hSort, ?_⟩
  rw [value, hConstants f (symbol_number hf), hts]
  dsimp only
  rw [hValue]

section Quantifiers

variable {scope : Program.Scope} {terms inner : Scope} {vars : List Var}
  {consts : List SolverConst} {v : Valuation D} {n n' : Nat} {F : Valuation D → Value D.Element}
  (hLists : Lists e.program M name) (hVars : ∀ x ∈ vars, x.sort ≠ boolSort)
  (hBind : e.bindVars terms vars n = .ok (consts, inner) n')
  (hScoped : Scoped name scope terms v b n)
  (hA : ∀ w b', Scoped name (vars.reverse ++ scope) inner w b' n' →
    Agrees M name b' t (F w) boolSort)

include hBind hScoped hA

theorem isTruth_closure : M.IsTruth (M.value b (Term.thereIs consts t)) ∧
    M.IsTruth (M.value b (Term.forAll consts t)) := by
  cases vars with
  | nil =>
    cases hBind
    have hBool := (hA v b hScoped).isTruth
    exact ⟨hBool, hBool⟩
  | cons x vars =>
    obtain ⟨c, cs, rfl, -⟩ := bindVars_cons_eq_ok hBind
    exact ⟨⟨_, rfl⟩, ⟨_, rfl⟩⟩

include hLists hVars

theorem agrees_thereIs : Agrees M name b (Term.thereIs consts t)
    (.truth (ExistsOf vars (fun w => (F w).Holds) v)) boolSort := by
  refine agrees_truth (isTruth_closure hBind hScoped hA).1 ?_
  rw [value_thereIs_eq_true]
  exact existsOf_iff_of_binds hLists hVars hBind hScoped fun w b' hw => (hA w b' hw).holds_iff

theorem agrees_forAll : Agrees M name b (Term.forAll consts t)
    (.truth (ForAllOf vars (fun w => (F w).Holds) v)) boolSort := by
  refine agrees_truth (isTruth_closure hBind hScoped hA).2 ?_
  rw [SolverStructure.value_forAll_eq_true, ← not_iff_not, SolverStructure.not_forAllOf_iff,
    not_forAllOf_iff]
  exact existsOf_iff_of_binds hLists hVars hBind hScoped fun w b' hw =>
    not_congr (hA w b' hw).holds_iff

end Quantifiers

theorem Sees.under {underNew : Bool} (h : Sees e M name context underNew index σ i)
    (hContext : context = .twoState) (hNew : underNew = false)
    (hIndex : nextState index < e.keys.length) :
    Sees e M name context true (nextState index) σ (i + 1) :=
  ⟨h.next hContext hNew hIndex, fun _ hTrue => by cases hTrue⟩

theorem Scoped.after {terms' : Scope} (h : Scoped name scope terms v b n) {f : Formula}
    (hf : e.lower index terms' f n = .ok t n') : Scoped name scope terms v b n' :=
  h.mono ((rises_lower index terms' f).ok hf)

variable {context : FormulaContext}

theorem lowerList_eq_ok {fs : List Formula} (h : e.lowerList index terms fs n = .ok ts n') :
    Forall₂ (fun f t => ∃ k k', n ≤ k ∧ e.lower index terms f k = .ok t k') fs ts := by
  induction fs generalizing ts n with
  | nil =>
    rw [lowerList] at h
    rw [← (run_pure_eq_ok.mp h).1]
    exact .nil
  | cons f fs ih =>
    rw [lowerList] at h
    obtain ⟨t, k, ht, us, hus, rfl⟩ := run_bind_bind_pure_eq_ok.mp h
    have hRises := (rises_lower index terms f).ok ht
    exact .cons ⟨n, k, Nat.le_refl n, ht⟩
      ((ih hus).imp fun _ _ ⟨l, l', hl, hLower⟩ => ⟨l, l', Nat.le_trans hRises hl, hLower⟩)

/-- The terms of parts have the values of the parts, when each one has that may be lowered. -/
theorem agrees_parts {parts : List Formula} (hts : e.lowerList index terms parts n = .ok ts n')
    (hScoped : Scoped name scope terms v b n)
    (h : ∀ a ∈ parts, ∀ t k k', e.lower index terms a k = .ok t k' → Scoped name scope terms v b k →
      Agrees M name b t (a.value σ i v) boolSort) :
    Forall₂ (fun a t => Agrees M name b t (a.value σ i v) boolSort) parts ts := by
  have hTerms := forall₂_iff_zip.mp (lowerList_eq_ok hts)
  refine forall₂_iff_zip.mpr ⟨hTerms.1, fun hPair => ?_⟩
  obtain ⟨l, l', hl, hLower⟩ := hTerms.2 hPair
  exact h _ (of_mem_zip hPair).1 _ l l' hLower (hScoped.mono hl)

/-- **A lowered formula has the value of the formula**, in the states that the structure
presents. -/
theorem value_lower (hLists : Lists e.program M name) {underNew : Bool} {f : Formula}
    (hTypes : e.program.Types context scope underNew f sort)
    (hLower : e.lower index terms f n = .ok t n') (hSees : Sees e M name context underNew index σ i)
    (hScoped : Scoped name scope terms v b n) : Agrees M name b t (f.value σ i v) sort := by
  induction hTypes generalizing index terms t n n' i v b with
  | bool value =>
    obtain ⟨rfl, rfl⟩ := run_pure_eq_ok.mp (by simpa only [lower] using hLower)
    rw [Formula.value]
    exact agrees_truth ⟨value, rfl⟩ (by simp [SolverStructure.value])
  | bound hx =>
    rw [lower] at hLower
    rw [Formula.value]
    obtain ⟨c, a, hTerm, hValue, hElement, hLookup⟩ := hScoped.bound _ _ hx
    rw [hTerm] at hLower
    obtain ⟨rfl, rfl⟩ := run_pure_eq_ok.mp hLower
    rw [hValue]
    refine ⟨hElement, ?_⟩
    rw [SolverConst.term, value, hLookup]
    rfl
  | @constant _ _ x y hx hy hArgs hMention =>
    rw [lower, (hScoped.free x hx).1, hy] at hLower
    obtain ⟨g, hg, hPure⟩ := sure_bind_eq_ok.mp hLower
    obtain ⟨rfl, rfl⟩ := run_pure_eq_ok.mp hPure
    have hName : y.name = x := by simpa using find?_some hy
    rw [Formula.value, (hScoped.free x hx).2, Option.getD_none, ← hName]
    exact agrees_app hSees.now hScoped.numbered.onlyConstants (mem_of_find?_eq_some hy)
      hMention hg (by rw [hArgs]; exact .nil) rfl
  | @app _ _ x y args hy hArity hMention _ ih =>
    rw [lower, hy] at hLower
    dsimp only at hLower
    rw [if_neg (not_not.mpr (show y.arity = args.length from hArity.symm))] at hLower
    obtain ⟨ts, k, hts, hRest⟩ := run_bind_eq_ok.mp hLower
    obtain ⟨g, hg, hPure⟩ := sure_bind_eq_ok.mp hRest
    obtain ⟨rfl, rfl⟩ := run_pure_eq_ok.mp hPure
    have hTerms := lowerList_eq_ok hts
    -- each argument has the value of its term, and the sort that the symbol wants
    have hArgs : ∀ (j : Nat) (hArg : j < args.length) (hTerm : j < ts.length)
        (hSort : j < y.args.length), Agrees M name b (ts.get ⟨j, hTerm⟩)
          ((args.get ⟨j, hArg⟩).value σ i v) (y.args.get ⟨j, hSort⟩) := by
      intro j hArg hTerm hSort
      obtain ⟨l, l', hl, hLower⟩ := hTerms.get hArg hTerm
      exact ih _ _ (mem_iff_get.mpr ⟨⟨j, by simpa [hArity] using hSort⟩, by simp⟩) hLower hSees
        (hScoped.mono hl)
    have hName : y.name = x := by simpa using find?_some hy
    rw [Formula.value, ← hName, Formula.values_eq_map]
    refine agrees_app hSees.now hScoped.numbered.onlyConstants (mem_of_find?_eq_some hy)
      hMention hg ?_ ?_
    · refine forall₂_map_left_iff.mpr (forall₂_iff_get.mpr ⟨hArity, fun j hArg hSort => ?_⟩)
      exact (hArgs j hArg (hTerms.length_eq ▸ hArg) hSort).hasSort
    · rw [values_eq_map, map_map]
      refine ext_get (by simpa using hTerms.length_eq.symm) fun j hTerm hArg => ?_
      simp only [length_map] at hTerm hArg
      simpa using (hArgs j hArg hTerm (hArity ▸ hArg)).value_eq
  | not _ ih =>
    rw [lower] at hLower
    obtain ⟨u, hu, rfl⟩ := run_bind_pure_eq_ok.mp hLower
    have hA := ih hu hSees hScoped
    rw [Formula.value]
    exact agrees_truth ⟨_, rfl⟩ (by simp [value, hA.holds_iff])
  | and _ ih =>
    rw [lower] at hLower
    obtain ⟨ts, hts, rfl⟩ := run_bind_pure_eq_ok.mp hLower
    have hParts := agrees_parts hts hScoped fun a ha _ _ _ h hAt => ih a ha h hSees hAt
    rw [Formula.value, Formula.values_eq_map]
    refine agrees_truth (isTruth_conj fun t ht => ?_) ?_
    · obtain ⟨a, -, hA⟩ := exists_left_of_forall₂ hParts ht
      exact hA.isTruth
    · rw [value_conj_eq_true, forall_mem_map]
      constructor
      · intro h a ha
        obtain ⟨t, ht, hA⟩ := exists_right_of_forall₂ hParts ha
        exact hA.holds_iff.mp (h t ht)
      · intro h t ht
        obtain ⟨a, ha, hA⟩ := exists_left_of_forall₂ hParts ht
        exact hA.holds_iff.mpr (h a ha)
  | or _ ih =>
    rw [lower] at hLower
    obtain ⟨ts, hts, rfl⟩ := run_bind_pure_eq_ok.mp hLower
    have hParts := agrees_parts hts hScoped fun a ha _ _ _ h hAt => ih a ha h hSees hAt
    rw [Formula.value, Formula.values_eq_map]
    refine agrees_truth (isTruth_disj fun t ht => ?_) ?_
    · obtain ⟨a, -, hA⟩ := exists_left_of_forall₂ hParts ht
      exact hA.isTruth
    · rw [value_disj_eq_true]
      constructor
      · rintro ⟨t, ht, h⟩
        obtain ⟨a, ha, hA⟩ := exists_left_of_forall₂ hParts ht
        exact ⟨_, mem_map_of_mem ha, hA.holds_iff.mp h⟩
      · rintro ⟨x, hx, h⟩
        obtain ⟨a, ha, rfl⟩ := mem_map.mp hx
        obtain ⟨t, ht, hA⟩ := exists_right_of_forall₂ hParts ha
        exact ⟨t, ht, hA.holds_iff.mpr h⟩
  | imp _ _ iha ihc | iff _ _ iha ihc =>
    rw [lower] at hLower
    obtain ⟨u, k, hu, w, hw, rfl⟩ := run_bind_bind_pure_eq_ok.mp hLower
    have hA := iha hu hSees hScoped
    have hC := ihc hw hSees (hScoped.after hu)
    rw [Formula.value]
    refine agrees_truth ⟨_, rfl⟩ ?_
    rw [value, truthOf_eq_true, hA.holds_iff, hC.holds_iff]
  | eq _ _ iha ihc | ne _ _ iha ihc =>
    rw [lower] at hLower
    obtain ⟨u, k, hu, w, hw, rfl⟩ := run_bind_bind_pure_eq_ok.mp hLower
    have hA := iha hu hSees hScoped
    have hC := ihc hw hSees (hScoped.after hu)
    rw [Formula.value]
    refine agrees_truth ⟨_, rfl⟩ ?_
    simp only [value, truthOf_eq_true, ne_eq, hA.eq_iff hLists hC]
  | @ite _ _ a _ _ _ _ _ _ iha ihc ihd =>
    rw [lower] at hLower
    obtain ⟨u, k, hu, hRest⟩ := run_bind_eq_ok.mp hLower
    obtain ⟨w, k', hw, z, hz, rfl⟩ := run_bind_bind_pure_eq_ok.mp hRest
    have hScopedC := hScoped.after hu
    have hA := iha hu hSees hScoped
    have hC := ihc hw hSees hScopedC
    have hD := ihd hz hSees (hScopedC.after hw)
    rw [Formula.value]
    by_cases hTest : (a.value σ i v).Holds
    · rw [if_pos hTest]
      exact ⟨hC.hasSort, by rw [value, if_pos (hA.holds_iff.mpr hTest), hC.value_eq]⟩
    · rw [if_neg hTest]
      exact ⟨hD.hasSort, by rw [value, if_neg (mt hA.holds_iff.mp hTest), hD.value_eq]⟩
  | @all scope _ vars a hBinder _ ih | @ex scope _ vars a hBinder _ ih =>
    have hBinds := checkBinder_eq_ok hBinder
    rw [lower] at hLower
    obtain ⟨⟨consts, inner⟩, k, hBind, u, hu, rfl⟩ := run_bind_bind_pure_eq_ok.mp hLower
    have hA : ∀ w b', Scoped name (vars.reverse ++ scope) inner w b' k →
        Agrees M name b' u (a.value σ i w) boolSort := fun w b' hw =>
      ih hu hSees (hw.congr fun x => (sort?_reverse_append hBinds scope x).symm)
    rw [Formula.value]
    first
      | exact agrees_forAll hLists hBinds.sorts hBind hScoped hA
      | exact agrees_thereIs hLists hBinds.sorts hBind hScoped hA
  | new hContext _ ih =>
    rw [lower] at hLower
    obtain ⟨_, hState, hu⟩ := sure_bind_eq_ok.mp hLower
    rw [Formula.value]
    exact ih hu (hSees.under hContext rfl (checkState_eq_ok hState)) hScoped

/-- **What encodes a formula about one state is true exactly when the formula holds there.** -/
theorem satisfies_iff_holdsIn (hLists : Lists e.program M name) {s : State D}
    (hPresents : Presents e M name context index s) (hContext : context ≠ .twoState) {f : Formula}
    (hf : e.program.Sorted context f) (hTerm : e.encode f index [] n = .ok t n') :
    M.Satisfies t ↔ f.HoldsIn s := by
  obtain ⟨_, k, -, hLower⟩ := run_bind_eq_ok.mp hTerm
  have hSees : Sees e M name context false index (fun _ => s) 0 :=
    ⟨hPresents, fun hTwo => absurd hTwo hContext⟩
  exact (value_lower hLists (types_of_sortOf f hf) hLower hSees
    (scoped_nil name k)).holds_iff

theorem satisfies_conj {fs : List Formula}
    (hTerm : e.encode (Formula.conj fs) index [] n = .ok t n') (hTrue : M.Satisfies t) :
    ∀ f ∈ fs, ∃ u k k', e.encode f index [] k = .ok u k' ∧ M.Satisfies u := by
  match fs with
  | [] => simp
  | [f] => exact forall_mem_singleton.mpr ⟨t, n, n', hTerm, hTrue⟩
  | f :: g :: fs =>
    obtain ⟨_, hState, hLower⟩ := sure_bind_eq_ok.mp hTerm
    rw [show Formula.conj (f :: g :: fs) = .and (f :: g :: fs) from rfl, lower] at hLower
    obtain ⟨ts, hts, rfl⟩ := run_bind_pure_eq_ok.mp hLower
    rw [Satisfies, value_conj_eq_true] at hTrue
    intro h hh
    obtain ⟨u, hu, l, l', -, hl⟩ := exists_right_of_forall₂ (lowerList_eq_ok hts) hh
    exact ⟨u, l, l', sure_bind_eq_ok.mpr ⟨(), hState, hl⟩, hTrue u hu⟩

end Formulas

end Encoding

end InvariantSearch
