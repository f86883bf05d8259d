import InvariantSearch.Proofs.Computation.Pairs
import InvariantSearch.Proofs.Encoding.Lowering

/-!
# Terms up to the numbering of fresh constants

Two runs that differ in how many fresh constants were made before encode the same
formulas as terms that differ in the numbers of these constants only.

* `Term.Alike` — two terms have the same tree, and their fresh constants are spelled
  alike, with numbers that a relation pairs.
* `Renumbering` — a relation that pairs each number with at most one other, on either
  side, so that constants which are the same in one term are the same in the other.
* `Encoding.numbering` — encoding from two numbers on, side by side. Numbers are paired
  in the order in which they are used.

Main results: `Encoding.lower_alike`, by induction on formulas, and from it
`encode_alike`, `transition_alike` and `cardinalityBound_alike`.
-/

namespace InvariantSearch

open Pairing List Term SolverConst

/-! ## Terms -/

/-- How a fresh constant is spelled. -/
def freshName (base : String) (number : Nat) : String := base ++ "!" ++ toString number

theorem freshName_injective {base base' : String} {number : Nat}
    (h : freshName base number = freshName base' number) : base = base' := by
  have hList := congrArg String.toList h
  simp only [freshName, String.toList_append, append_assoc] at hList
  exact String.toList_inj.mp (append_cancel_right hList)

variable {R R' : Nat → Nat → Prop}

/-- Two symbols are the same, or fresh, spelled alike, and paired by their numbers. -/
structure SolverSymbol.Alike (R : Nat → Nat → Prop) (f f' : SolverSymbol) : Prop where
  args : f'.args = f.args
  range : f'.range = f.range
  number : (f'.name = f.name ∧ f'.number = f.number ∧ ∀ k, f.number = some k → R k k) ∨
    ∃ base k k', R k k' ∧ f.number = some k ∧ f'.number = some k' ∧
      f.name = freshName base k ∧ f'.name = freshName base k'

theorem SolverSymbol.Alike.mono {f f' : SolverSymbol} (h : f.Alike R f')
    (hR : ∀ k k', R k k' → R' k k') : f.Alike R' f' := by
  refine ⟨h.args, h.range, ?_⟩
  rcases h.number with ⟨hName, hNumber, hSelf⟩ | ⟨base, k, k', hk, hRest⟩
  · exact Or.inl ⟨hName, hNumber, fun k hk => hR k k (hSelf k hk)⟩
  · exact Or.inr ⟨base, k, k', hR k k' hk, hRest⟩

theorem SolverSymbol.alike_self {f : SolverSymbol} (h : ∀ k, f.number = some k → R k k) :
    f.Alike R f :=
  ⟨rfl, rfl, Or.inl ⟨rfl, rfl, h⟩⟩

theorem SolverSymbol.Alike.eq {f f' : SolverSymbol} (h : f.Alike Eq f') : f' = f := by
  obtain ⟨name, args, range, number⟩ := f
  obtain ⟨name', args', range', number'⟩ := f'
  obtain ⟨rfl, rfl, ⟨rfl, rfl, -⟩ | ⟨base, k, _, rfl, rfl, rfl, rfl, rfl⟩⟩ := h
  · rfl
  · rfl

theorem SolverConst.eq_of_alike {cs cs' : List SolverConst}
    (h : Forall₂ (fun c c' => c.symbol.Alike Eq c'.symbol) cs cs') : cs' = cs := by
  induction h with
  | nil => rfl
  | @cons c c' _ _ hc _ ih =>
    obtain ⟨name, sort, number⟩ := c
    obtain ⟨name', sort', number'⟩ := c'
    cases hc.eq
    rw [ih]

/-- Two fresh constants are spelled alike and paired by their numbers. -/
structure SolverConst.Matches (R : Nat → Nat → Prop) (c c' : SolverConst) : Prop where
  sort : c'.sort = c.sort
  number : R c.number c'.number
  name : ∃ base, c.name = freshName base c.number ∧ c'.name = freshName base c'.number

theorem SolverConst.Matches.mono {c c' : SolverConst} (h : c.Matches R c')
    (hR : ∀ k k', R k k' → R' k k') : c.Matches R' c' :=
  ⟨h.sort, hR _ _ h.number, h.name⟩

theorem SolverConst.Matches.symbol {c c' : SolverConst} (h : c.Matches R c') :
    c.symbol.Alike R c'.symbol := by
  obtain ⟨base, hName, hName'⟩ := h.name
  exact ⟨rfl, h.sort, Or.inr ⟨base, _, _, h.number, rfl, rfl, hName, hName'⟩⟩

namespace Term

mutual

/-- Two terms are the same up to the numbers of fresh constants. -/
inductive Alike (R : Nat → Nat → Prop) : Term → Term → Prop
  | bool (value : Bool) : Alike R (.bool value) (.bool value)
  | element (sort : SolverSort) (index : Nat) : Alike R (.element sort index) (.element sort index)
  | app {f f' : SolverSymbol} {ts ts' : List Term} (hf : f.Alike R f') (h : AlikeAll R ts ts') :
      Alike R (.app f ts) (.app f' ts')
  | not {t t' : Term} (h : Alike R t t') : Alike R (.not t) (.not t')
  | and {ts ts' : List Term} (h : AlikeAll R ts ts') : Alike R (.and ts) (.and ts')
  | or {ts ts' : List Term} (h : AlikeAll R ts ts') : Alike R (.or ts) (.or ts')
  | imp {t t' u u' : Term} (h : Alike R t t') (hu : Alike R u u') :
      Alike R (.imp t u) (.imp t' u')
  | iff {t t' u u' : Term} (h : Alike R t t') (hu : Alike R u u') :
      Alike R (.iff t u) (.iff t' u')
  | eq {t t' u u' : Term} (h : Alike R t t') (hu : Alike R u u') :
      Alike R (.eq t u) (.eq t' u')
  | ite {t t' u u' v v' : Term} (h : Alike R t t') (hu : Alike R u u') (hv : Alike R v v') :
      Alike R (.ite t u v) (.ite t' u' v')
  | all {cs cs' : List SolverConst} {t t' : Term}
      (hcs : Forall₂ (fun c c' => c.symbol.Alike R c'.symbol) cs cs') (h : Alike R t t') :
      Alike R (.all cs t) (.all cs' t')
  | ex {cs cs' : List SolverConst} {t t' : Term}
      (hcs : Forall₂ (fun c c' => c.symbol.Alike R c'.symbol) cs cs') (h : Alike R t t') :
      Alike R (.ex cs t) (.ex cs' t')

/-- The same for terms in order. -/
inductive AlikeAll (R : Nat → Nat → Prop) : List Term → List Term → Prop
  | nil : AlikeAll R [] []
  | cons {t t' : Term} {ts ts' : List Term} (h : Alike R t t') (hts : AlikeAll R ts ts') :
      AlikeAll R (t :: ts) (t' :: ts')

end

theorem alikeAll_iff {ts ts' : List Term} :
    AlikeAll R ts ts' ↔ Forall₂ (Alike R) ts ts' := by
  constructor
  · intro h
    induction ts generalizing ts' with
    | nil =>
      cases h
      exact .nil
    | cons t ts ih =>
      cases h with
      | cons h hts => exact .cons h (ih hts)
  · intro h
    induction h with
    | nil => exact .nil
    | cons h _ ih => exact .cons h ih

mutual

theorem Alike.mono (hR : ∀ k k', R k k' → R' k k') :
    ∀ {t t' : Term}, Alike R t t' → Alike R' t t'
  | _, _, .bool value => .bool value
  | _, _, .element sort index => .element sort index
  | _, _, .app hf h => .app (hf.mono hR) (h.mono hR)
  | _, _, .not h => .not (h.mono hR)
  | _, _, .and h => .and (h.mono hR)
  | _, _, .or h => .or (h.mono hR)
  | _, _, .imp h hu => .imp (h.mono hR) (hu.mono hR)
  | _, _, .iff h hu => .iff (h.mono hR) (hu.mono hR)
  | _, _, .eq h hu => .eq (h.mono hR) (hu.mono hR)
  | _, _, .ite h hu hv => .ite (h.mono hR) (hu.mono hR) (hv.mono hR)
  | _, _, .all hcs h => .all (hcs.imp fun _ _ hc => hc.mono hR) (h.mono hR)
  | _, _, .ex hcs h => .ex (hcs.imp fun _ _ hc => hc.mono hR) (h.mono hR)

theorem AlikeAll.mono (hR : ∀ k k', R k k' → R' k k') :
    ∀ {ts ts' : List Term}, AlikeAll R ts ts' → AlikeAll R' ts ts'
  | _, _, .nil => .nil
  | _, _, .cons h hts => .cons (h.mono hR) (hts.mono hR)

end

mutual

theorem alike_self (hR : ∀ k, R k k) : ∀ t : Term, Alike R t t
  | .bool value => .bool value
  | .element sort index => .element sort index
  | .app _ ts => .app (SolverSymbol.alike_self fun k _ => hR k) (alikeAll_self hR ts)
  | .not t => .not (alike_self hR t)
  | .and ts => .and (alikeAll_self hR ts)
  | .or ts => .or (alikeAll_self hR ts)
  | .imp t u => .imp (alike_self hR t) (alike_self hR u)
  | .iff t u => .iff (alike_self hR t) (alike_self hR u)
  | .eq t u => .eq (alike_self hR t) (alike_self hR u)
  | .ite t u v => .ite (alike_self hR t) (alike_self hR u) (alike_self hR v)
  | .all _ t => .all (forall₂_same.mpr fun _ _ => SolverSymbol.alike_self fun k _ => hR k)
      (alike_self hR t)
  | .ex _ t => .ex (forall₂_same.mpr fun _ _ => SolverSymbol.alike_self fun k _ => hR k)
      (alike_self hR t)

theorem alikeAll_self (hR : ∀ k, R k k) : ∀ ts : List Term, AlikeAll R ts ts
  | [] => .nil
  | t :: ts => .cons (alike_self hR t) (alikeAll_self hR ts)

end

mutual

theorem eq_of_alike : ∀ {t t' : Term}, Alike Eq t t' → t' = t
  | _, _, .bool _ | _, _, .element _ _ => rfl
  | _, _, .app hf h => by rw [hf.eq, eq_of_alikeAll h]
  | _, _, .not h => by rw [eq_of_alike h]
  | _, _, .and h | _, _, .or h => by rw [eq_of_alikeAll h]
  | _, _, .imp h hu | _, _, .iff h hu | _, _, .eq h hu => by rw [eq_of_alike h, eq_of_alike hu]
  | _, _, .ite h hu hv => by rw [eq_of_alike h, eq_of_alike hu, eq_of_alike hv]
  | _, _, .all hcs h | _, _, .ex hcs h => by rw [eq_of_alike h, SolverConst.eq_of_alike hcs]

theorem eq_of_alikeAll : ∀ {ts ts' : List Term}, AlikeAll Eq ts ts' → ts' = ts
  | _, _, .nil => rfl
  | _, _, .cons h hts => by rw [eq_of_alike h, eq_of_alikeAll hts]

end

theorem alike_conj {ts ts' : List Term} (h : Forall₂ (Alike R) ts ts') :
    Alike R (conj ts) (conj ts') := by
  match h with
  | .nil => exact .bool true
  | .cons h .nil => exact h
  | .cons h (.cons hu hRest) => exact .and (alikeAll_iff.mpr (.cons h (.cons hu hRest)))

theorem alike_disj {ts ts' : List Term} (h : Forall₂ (Alike R) ts ts') :
    Alike R (disj ts) (disj ts') := by
  match h with
  | .nil => exact .bool false
  | .cons h .nil => exact h
  | .cons h (.cons hu hRest) => exact .or (alikeAll_iff.mpr (.cons h (.cons hu hRest)))

theorem alike_forAll {cs cs' : List SolverConst} {t t' : Term}
    (hcs : Forall₂ (SolverConst.Matches R) cs cs') (h : Alike R t t') :
    Alike R (forAll cs t) (forAll cs' t') := by
  match hcs with
  | .nil => exact h
  | .cons hc hRest => exact .all (.cons hc.symbol (hRest.imp fun _ _ h => h.symbol)) h

theorem alike_thereIs {cs cs' : List SolverConst} {t t' : Term}
    (hcs : Forall₂ (SolverConst.Matches R) cs cs') (h : Alike R t t') :
    Alike R (thereIs cs t) (thereIs cs' t') := by
  match hcs with
  | .nil => exact h
  | .cons hc hRest => exact .ex (.cons hc.symbol (hRest.imp fun _ _ h => h.symbol)) h

end Term

theorem SolverConst.Matches.term {c c' : SolverConst} (h : c.Matches R c') :
    Term.Alike R c.term c'.term :=
  .app h.symbol .nil

/-- Numbers in pairs, each with at most one other on either side. -/
structure Renumbering where
  Pairs : Nat → Nat → Prop
  unique : ∀ {k k' l l'}, Pairs k k' → Pairs l l' → (k = l ↔ k' = l')

namespace Renumbering

/-- Every number with itself. -/
def same : Renumbering := ⟨Eq, fun h h' => by rw [h, h']⟩

/-- The numbers below `start` with themselves, and those from `late` on with those from `start`
on. -/
def Shifted (start late k k' : Nat) : Prop :=
  (k < start ∧ k' = k) ∨ ∃ j, k = late + j ∧ k' = start + j

/-- No number is paired twice if `late` is no smaller than `start`. -/
def shift (start late : Nat) (h : start ≤ late) : Renumbering where
  Pairs := Shifted start late
  unique := by
    rintro k k' l l' (⟨hk, rfl⟩ | ⟨i, rfl, rfl⟩) (⟨hl, rfl⟩ | ⟨j, rfl, rfl⟩) <;> omega

variable {N : Renumbering}

theorem term_eq_iff {c c' i i' : SolverConst} (hc : c.Matches N.Pairs c')
    (hi : i.Matches N.Pairs i') : c.term = i.term ↔ c'.term = i'.term := by
  have hTerm : ∀ a b : SolverConst, a.term = b.term ↔ a = b := by
    rintro ⟨name, sort, number⟩ ⟨name', sort', number'⟩
    simp [term, symbol]
  have hEq : ∀ a b : SolverConst,
      a = b ↔ a.sort = b.sort ∧ a.number = b.number ∧ a.name = b.name := by
    rintro ⟨name, sort, number⟩ ⟨name', sort', number'⟩
    simp only [SolverConst.mk.injEq]
    tauto
  obtain ⟨base, hName, hName'⟩ := hc.name
  obtain ⟨other, hOther, hOther'⟩ := hi.name
  have hNumber := N.unique hc.number hi.number
  rw [hTerm, hTerm, hEq, hEq, hc.sort, hi.sort, ← hNumber]
  refine and_congr_right fun _ => and_congr_right fun hSame => ?_
  -- with the same number, the spelling depends on what stands before it
  have hSame' := hNumber.mp hSame
  rw [hName, hOther, hName', hOther', hSame, hSame']
  exact ⟨fun h => by rw [freshName_injective h], fun h => by rw [freshName_injective h]⟩

end Renumbering

/-! ## Encoding side by side -/

namespace Encoding

variable {e : Encoding} {N : Nat → Nat → Prop} {first first' n n' : Nat}

/-- Some pairs of numbers, and those from two numbers on in step, before the first reaches
`stop`. -/
def extend (N : Nat → Nat → Prop) (first first' stop : Nat) (k k' : Nat) : Prop :=
  N k k' ∨ first ≤ k ∧ k < stop ∧ k + first' = k' + first

theorem extend_mono {stop stop' : Nat} (h : stop ≤ stop') (k k' : Nat)
    (hk : extend N first first' stop k k') : extend N first first' stop' k k' :=
  hk.imp_right fun hk => ⟨hk.1, by omega, hk.2.2⟩

/-- Encoding from two numbers on, side by side: they go on in step. -/
def numbering (first first' : Nat) : Pairing EncodingFault Nat where
  Twins n n' := first ≤ n ∧ n + first' = n' + first
  Alike := Eq
  Leads n _ stop _ := n ≤ stop
  alike_refl _ := rfl
  refl n _ := Nat.le_refl n
  trans := Nat.le_trans

/-- Scopes give the same names to terms that are alike. -/
def ScopeAlike (R : Nat → Nat → Prop) (scope scope' : Scope) : Prop :=
  Forall₂ (fun entry entry' => entry'.1 = entry.1 ∧ Term.Alike R entry.2 entry'.2) scope scope'

theorem ScopeAlike.mono {scope scope' : Scope} (h : ScopeAlike R scope scope')
    (hR : ∀ k k', R k k' → R' k k') : ScopeAlike R' scope scope' :=
  h.imp fun _ _ hEntry => ⟨hEntry.1, hEntry.2.mono hR⟩

theorem ScopeAlike.lookup {scope scope' : Scope} (h : ScopeAlike R scope scope') (name : String) :
    (scope.lookup name = none ∧ scope'.lookup name = none) ∨
      ∃ t t', scope.lookup name = some t ∧ scope'.lookup name = some t' ∧ Term.Alike R t t' := by
  induction h with
  | nil => exact Or.inl ⟨rfl, rfl⟩
  | @cons entry entry' _ _ hEntry _ ih =>
    obtain ⟨x, t⟩ := entry
    obtain ⟨x', t'⟩ := entry'
    obtain ⟨hName, hTerm⟩ := hEntry
    dsimp only at hName hTerm
    subst hName
    by_cases hx : name = x'
    · subst hx
      exact Or.inr ⟨t, t', lookup_cons_self, lookup_cons_self, hTerm⟩
    · rw [lookup_cons, lookup_cons, beq_false_of_ne hx]
      exact ih

theorem sure_alike {α : Type} (r : Except EncodingFault α) :
    (numbering first first').Ensures (sure r) (sure r) n n' fun a b _ _ => a = b ∧ r = .ok a := by
  cases r with
  | ok a => exact ensures_pure ⟨rfl, rfl⟩
  | error fault => exact ensures_throw rfl

theorem freshOf_alike (name sort : String) :
    (numbering first first').Ensures (e.freshOf name sort) (e.freshOf name sort) n n'
      fun c c' stop _ => c.Matches (extend N first first' stop) c' := by
  refine (sure_alike (e.sort sort)).bind fun s s' k k' _ hs => ?_
  obtain ⟨rfl, -⟩ := hs
  rintro ⟨hFirst, hStep⟩
  refine ⟨⟨by omega, by omega⟩, Nat.le_succ k, rfl, Or.inr ⟨hFirst, Nat.lt_succ_self k, hStep⟩, ?_⟩
  exact ⟨beforeNul name, rfl, rfl⟩

theorem mapM_freshOf_alike (name : String) (sorts : List String) :
    (numbering first first').Ensures (sorts.mapM (e.freshOf name)) (sorts.mapM (e.freshOf name))
      n n' fun cs cs' stop _ =>
        Forall₂ (SolverConst.Matches (extend N first first' stop)) cs cs' := by
  refine ensures_mapM ?_ (forall₂_same.mpr fun sort _ k k' => freshOf_alike name sort)
  exact fun _ _ _ _ _ _ hLe h => h.mono (extend_mono hLe)

theorem bindVars_alike {scope scope' : Scope}
    (hScope : ScopeAlike (extend N first first' n) scope scope') (vars : List Var) :
    (numbering first first').Ensures (e.bindVars scope vars) (e.bindVars scope' vars) n n'
      fun r r' stop _ =>
        Forall₂ (SolverConst.Matches (extend N first first' stop)) r.1 r'.1 ∧
          ScopeAlike (extend N first first' stop) r.2 r'.2 := by
  induction vars generalizing scope scope' n n' with
  | nil => exact ensures_pure ⟨.nil, hScope⟩
  | cons x vars ih =>
    rw [bindVars, bindVars]
    refine (freshOf_alike (N := N) x.name x.sort).bind fun c c' k k' hLe hc => ?_
    have hInner : ScopeAlike (extend N first first' k) ((x.name, c.term) :: scope)
        ((x.name, c'.term) :: scope') :=
      .cons ⟨rfl, hc.term⟩ (hScope.mono (extend_mono hLe))
    refine (ih hInner).bind fun r r' stop stop' hLe' hr => ensures_pure ?_
    exact ⟨.cons (hc.mono (extend_mono hLe')) hr.1, hr.2⟩

theorem symbol_alike (x : Symbol) (index : Nat) :
    (numbering first first').Ensures (sure (e.symbol x index)) (sure (e.symbol x index)) n n'
      fun f f' _ _ => ∀ R, f.Alike R f' := by
  refine (sure_alike (e.symbol x index)).imp fun f f' _ _ hf R => ?_
  obtain ⟨rfl, hf⟩ := hf
  refine SolverSymbol.alike_self fun k hk => ?_
  rw [symbol_number hf] at hk
  cases hk

/-- Two computations give terms that are alike once new constants are paired. -/
abbrev GivesAlike (N : Nat → Nat → Prop) (first first' : Nat) (act act' : Fresh Term) (n n' : Nat) :
    Prop :=
  (numbering first first').Ensures act act' n n' fun t t' stop _ =>
    Term.Alike (extend N first first' stop) t t'

/-- An operator of two terms is lowered alike if its operands are. The first one is older than the
second, so its constants are among those that are paired at the end. -/
theorem both_alike {act act' next next' : Fresh Term} {op : Term → Term → Term}
    (hFirst : GivesAlike N first first' act act' n n')
    (hSecond : ∀ k k', n ≤ k → GivesAlike N first first' next next' k k')
    (hOp : ∀ {R t t' u u'}, Term.Alike R t t' → Term.Alike R u u' →
      Term.Alike R (op t u) (op t' u')) :
    GivesAlike N first first'
      (do
        let t ← act
        return op t (← next))
      (do
        let t ← act'
        return op t (← next')) n n' := by
  refine hFirst.bind fun t t' k k' hLe ht => ?_
  refine (hSecond k k' hLe).bind fun u u' _ _ hLe' hu => ?_
  exact ensures_pure (hOp (ht.mono (extend_mono hLe')) hu)

mutual

/-- **A formula is lowered alike** from any two numbers on. -/
theorem lower_alike {index : Nat} {scope scope' : Scope} {n n' : Nat}
    (hScope : ScopeAlike (extend N first first' n) scope scope') :
    ∀ f : Formula,
      GivesAlike N first first' (e.lower index scope f) (e.lower index scope' f) n n'
  | .bool value => by
    rw [lower, lower]
    exact ensures_pure (.bool value)
  | .id name => by
    rw [lower, lower]
    rcases hScope.lookup name with ⟨hNone, hNone'⟩ | ⟨t, t', hSome, hSome', hTerm⟩
    · -- a symbol
      rw [hNone, hNone']
      cases e.program.symbol? name with
      | none => exact ensures_throw rfl
      | some x =>
        refine (symbol_alike x index).bind fun f f' _ _ _ hf => ensures_pure ?_
        exact .app (hf _) .nil
    · -- a variable in scope
      rw [hSome, hSome']
      exact ensures_pure hTerm
  | .app name args => by
    rw [lower, lower]
    cases e.program.symbol? name with
    | none => exact ensures_throw rfl
    | some x =>
      refine ensures_ite Iff.rfl (fun _ => ensures_throw rfl) fun _ => ?_
      refine (lowerList_alike hScope args).bind fun ts ts' k k' _ hts => ?_
      refine (symbol_alike x index).bind fun f f' stop stop' hLe hf => ensures_pure ?_
      exact .app (hf _) ((alikeAll_iff.mpr hts).mono (extend_mono hLe))
  | .not a => by
    rw [lower, lower]
    exact (lower_alike hScope a).bind fun t t' _ _ _ ht => ensures_pure (.not ht)
  | .and parts | .or parts => by
    rw [lower, lower]
    refine (lowerList_alike hScope parts).bind fun ts ts' _ _ _ hts => ensures_pure ?_
    first | exact alike_conj hts | exact alike_disj hts
  | .imp a c | .iff a c | .eq a c | .ne a c => by
    rw [lower, lower]
    refine both_alike (lower_alike hScope a)
      (fun _ _ hLe => lower_alike (hScope.mono (extend_mono hLe)) c) ?_
    first | exact .imp | exact .iff | exact .eq | exact fun ht hu => .not (.eq ht hu)
  | .ite a c d => by
    rw [lower, lower]
    refine (lower_alike hScope a).bind fun t t' k k' hLe ht => ?_
    have hInner := hScope.mono (extend_mono hLe)
    refine (lower_alike hInner c).bind fun u u' l l' hLe' hu => ?_
    refine (lower_alike (hInner.mono (extend_mono hLe')) d).bind fun v v' _ _ hLe'' hv => ?_
    have ht' := (ht.mono (extend_mono hLe')).mono (extend_mono hLe'')
    exact ensures_pure (.ite ht' (hu.mono (extend_mono hLe'')) hv)
  | .all vars a | .ex vars a => by
    rw [lower, lower]
    refine (bindVars_alike hScope vars).bind fun r r' k k' _ hr => ?_
    refine (lower_alike hr.2 a).bind fun t t' _ _ hLe ht => ensures_pure ?_
    have hConsts := hr.1.imp fun _ _ hc => hc.mono (extend_mono hLe)
    first | exact alike_forAll hConsts ht | exact alike_thereIs hConsts ht
  | .new a => by
    rw [lower, lower]
    refine (sure_alike _).bind fun _ _ k k' hLe _ => ?_
    exact lower_alike (hScope.mono (extend_mono hLe)) a

theorem lowerList_alike {index : Nat} {scope scope' : Scope} {n n' : Nat}
    (hScope : ScopeAlike (extend N first first' n) scope scope') :
    ∀ fs : List Formula, (numbering first first').Ensures (e.lowerList index scope fs)
      (e.lowerList index scope' fs) n n' fun ts ts' stop _ =>
        Forall₂ (Term.Alike (extend N first first' stop)) ts ts'
  | [] => by
    rw [lowerList, lowerList]
    exact ensures_pure .nil
  | f :: fs => by
    rw [lowerList, lowerList]
    refine (lower_alike hScope f).bind fun t t' k k' hLe ht => ?_
    refine (lowerList_alike (hScope.mono (extend_mono hLe)) fs).bind fun ts ts' _ _ hLe' hts => ?_
    exact ensures_pure (.cons (ht.mono (extend_mono hLe')) hts)

end

theorem encode_alike {scope scope' : Scope}
    (hScope : ScopeAlike (extend N first first' n) scope scope') (f : Formula) (index : Nat) :
    GivesAlike N first first' (e.encode f index scope) (e.encode f index scope') n n' := by
  refine (sure_alike _).bind fun _ _ k k' hLe _ => ?_
  exact lower_alike (hScope.mono (extend_mono hLe)) f

/-! ## Steps and universes -/

theorem keeps_alike (index : Nat) (x : Symbol) :
    GivesAlike N first first' (e.keeps index x) (e.keeps index x) n n' := by
  refine (mapM_freshOf_alike (N := N) "x" x.args).bind fun cs cs' k k' _ hcs => ?_
  refine (symbol_alike x index).bind fun old old' l l' hLe hOld => ?_
  refine (symbol_alike x (nextState index)).bind fun new new' stop stop' hLe' hNew => ?_
  have hcs' := hcs.imp fun _ _ hc => hc.mono (extend_mono (Nat.le_trans hLe hLe'))
  have hArgs : Term.AlikeAll (extend N first first' stop) (cs.map term)
      (cs'.map term) := by
    rw [alikeAll_iff, forall₂_map_left_iff, forall₂_map_right_iff]
    exact hcs'.imp fun _ _ hc => hc.term
  exact ensures_pure
    (alike_forAll hcs' (.eq (.app (hOld _) hArgs) (.app (hNew _) hArgs)))

theorem frameCondition_alike (mods : NameSet) (index : Nat) :
    GivesAlike N first first' (e.frameCondition mods index) (e.frameCondition mods index) n n' := by
  refine (sure_alike _).bind fun _ _ k k' _ _ => ?_
  have hParts : Forall₂
      (fun x y => ∀ l l', GivesAlike N first first' (e.keeps index x) (e.keeps index y) l l')
      (kept e.program mods) (kept e.program mods) :=
    forall₂_same.mpr fun x _ l l' => keeps_alike index x
  refine (ensures_mapM ?_ hParts).bind fun ts ts' _ _ _ hts => ?_
  · exact fun _ _ _ _ _ _ hLe h => h.mono (extend_mono hLe)
  · exact ensures_pure (alike_conj hts)

theorem transition_alike (r : Transition) (index : Nat) :
    GivesAlike N first first' (e.transition r index) (e.transition r index) n n' := by
  refine (sure_alike _).bind fun _ _ k k' _ _ => ?_
  have hNil : ScopeAlike (extend N first first' k) [] [] := .nil
  refine (bindVars_alike hNil r.params).bind fun b b' l l' _ hb => ?_
  refine (lower_alike hb.2 r.body).bind fun body body' m m' hLe hBody => ?_
  refine (frameCondition_alike (N := N) r.mods index).bind
    fun frame frame' stop stop' hLe' hFrame => ?_
  refine ensures_pure (alike_thereIs (hb.1.imp fun _ _ hc => ?_) (.and ?_))
  · exact (hc.mono (extend_mono hLe)).mono (extend_mono hLe')
  · exact .cons (hBody.mono (extend_mono hLe')) (.cons hFrame .nil)

theorem cardinalityBound_alike (sort : String) (size : Nat) :
    GivesAlike N first first' (e.cardinalityBound sort size) (e.cardinalityBound sort size)
      n n' := by
  refine (freshOf_alike (N := N) "elem" sort).bind fun x x' k k' _ hx => ?_
  have hWitness : Forall₂ (fun i j => ∀ l l', (numbering first first').Ensures
      (e.freshOf (sort ++ "_" ++ toString i) sort) (e.freshOf (sort ++ "_" ++ toString j) sort) l l'
        fun c c' stop _ => c.Matches (extend N first first' stop) c')
      (range size) (range size) :=
    forall₂_same.mpr fun i _ l l' => freshOf_alike _ sort
  refine (ensures_mapM ?_ hWitness).bind fun cs cs' stop stop' hLe hcs => ?_
  · exact fun _ _ _ _ _ _ hLe h => h.mono (extend_mono hLe)
  · have hx' := hx.mono (extend_mono hLe)
    refine ensures_pure (.all (.cons hx'.symbol .nil) (alike_disj ?_))
    rw [forall₂_map_left_iff, forall₂_map_right_iff]
    exact hcs.imp fun _ _ hc => .eq hx'.term hc.term

end Encoding

end InvariantSearch
