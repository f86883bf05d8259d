import InvariantSearch.Proofs.Computation.Basic
import InvariantSearch.Proofs.Sexpr.Reading

/-!
# Formulas and their notation

Which formulas come from a text, and which can be read back from their own.

* `Headed` says what a list is read as, by its head; it has one case for each of the three kinds
  of heads (`ofSexpr_list_eq_ok`). Lines decide nothing: `ofSexpr_strip`.
* `Formula.Formed` — the formulas in the shape reading leaves them in: names are atoms, no
  operator is a symbol, and nothing is there that `conj`, `disj`, `apply` or a quantifier would
  leave out. Every formula that was read is formed (`Formed.of_ofSexpr`), and the text of a formed
  formula spells the tokens of its s-expression (`Formed.spells_render`).
* `ofSexpr_toSexpr` — a formed formula is read back as it is, unless one of its identifiers is
  spelt like a truth value.
-/

namespace InvariantSearch

open Operator

variable {e : Sexpr} {items : List Sexpr} {vars : List Var}

open List Sexpr

open Sexpr (IsAtom cut)

variable {name what text head : String} {v : Var}

/-! ## Variables and binders -/

theorem strip_eq_ofName : e.strip = .ofName name ↔ ∃ line, e = .atom line name := by
  cases e <;> simp [ofName, ofItems]

theorem strip_eq_ofItems :
    e.strip = .ofItems items ↔ ∃ line items', e = .list line items' ∧
      items'.map strip = items := by
  cases e <;> simp [ofName, ofItems]

theorem exists_list_of_strip {keyword : String} {operands : List Sexpr}
    (h : e.strip = (ofItems (.ofName keyword :: operands)).strip) :
    ∃ line wordLine items, e = .list line (.atom wordLine keyword :: items) ∧
      items.map strip = operands.map strip := by
  rw [strip_ofItems] at h
  obtain ⟨line, all, rfl, hAll⟩ := strip_eq_ofItems.mp h
  obtain ⟨word, items, rfl, hWord, hItems⟩ := map_eq_cons_iff.mp hAll
  obtain ⟨wordLine, rfl⟩ := strip_eq_ofName.mp hWord
  exact ⟨line, wordLine, items, rfl, hItems⟩

theorem expectAtom_eq_ok : e.expectAtom what = .ok text ↔ e.strip = .ofName text := by
  cases e <;> simp [expectAtom, ofName, ofItems]

theorem expectList_eq_ok : e.expectList what = .ok items ↔ ∃ line, e = .list line items := by
  cases e <;> simp [expectList]

namespace Var

theorem ofSexpr_eq_ok {e : Sexpr} : ofSexpr e = .ok v ↔ e.strip = v.toSexpr := by
  constructor
  · intro h
    obtain ⟨items, hItems, h⟩ := bind_eq_ok.mp h
    obtain ⟨line, rfl⟩ := expectList_eq_ok.mp hItems
    match items with
    | [] | [_] | _ :: _ :: _ :: _ => cases h
    | [name, sort] =>
      obtain ⟨n, hName, h⟩ := bind_eq_ok.mp h
      obtain ⟨s, hSort, h⟩ := bind_eq_ok.mp h
      obtain rfl := pure_eq_ok.mp h
      rw [strip_list, map_cons, map_cons, map_nil,
        expectAtom_eq_ok.mp hName, expectAtom_eq_ok.mp hSort]
      rfl
  · intro h
    obtain ⟨line, items, rfl, hItems⟩ := strip_eq_ofItems.mp h
    obtain ⟨name, rest, rfl, hName, hRest⟩ := map_eq_cons_iff.mp hItems
    obtain ⟨sort, rfl, hSort⟩ := map_eq_singleton_iff.mp hRest
    refine bind_eq_ok.mpr ⟨_, expectList_eq_ok.mpr ⟨line, rfl⟩, ?_⟩
    refine bind_eq_ok.mpr ⟨v.name, expectAtom_eq_ok.mpr hName, ?_⟩
    exact bind_eq_ok.mpr ⟨v.sort, expectAtom_eq_ok.mpr hSort, rfl⟩

/-- A variable whose name and sort are atoms. -/
structure Spelt (v : Var) : Prop where
  name : IsAtom v.name
  sort : IsAtom v.sort

theorem spelt_toSexpr : v.toSexpr.Spelt ↔ v.Spelt := by
  rw [toSexpr, spelt_ofItems]
  constructor
  · intro h
    exact ⟨spelt_ofName.mp (h _ (by simp)), spelt_ofName.mp (h _ (by simp))⟩
  · intro h e he
    rcases mem_pair.mp he with rfl | rfl
    · exact spelt_ofName.mpr h.name
    · exact spelt_ofName.mpr h.sort

end Var

theorem Sexpr.spelt_strip : ∀ {e : Sexpr}, e.strip.Spelt ↔ e.Spelt
  | .atom _ _ => by simp
  | .list _ items => by
    rw [strip_list, spelt_ofItems, spelt_list, forall_mem_map]
    exact forall₂_congr fun e _ => spelt_strip

theorem strip_eq_of_forall₂ :
    Forall₂ (fun e v => Var.ofSexpr e = .ok v) items vars ↔
      items.map strip = vars.map Var.toSexpr := by
  simp only [Var.ofSexpr_eq_ok]
  induction items generalizing vars with
  | nil => simp [eq_comm]
  | cons e items ih =>
    cases vars with
    | nil => simp
    | cons v vars => simp [ih]

theorem binderOfSexpr_eq_ok : binderOfSexpr e = .ok vars ↔ e.strip = binderToSexpr vars := by
  unfold binderOfSexpr
  simp only [bind_eq_ok, expectList_eq_ok, mapM_eq_ok, strip_eq_of_forall₂]
  constructor
  · rintro ⟨items, ⟨line, rfl⟩, hItems⟩
    rw [strip_list, hItems, binderToSexpr]
  · intro h
    obtain ⟨line, items, rfl, hItems⟩ := strip_eq_ofItems.mp h
    exact ⟨items, ⟨line, rfl⟩, hItems⟩

theorem strip_binderToSexpr (vars : List Var) :
    (binderToSexpr vars).strip = binderToSexpr vars := by
  rw [binderToSexpr, strip_ofItems, map_map]
  exact congrArg ofItems (map_congr_left fun v _ => rfl)

theorem spelt_binderToSexpr : (binderToSexpr vars).Spelt ↔ ∀ v ∈ vars, v.Spelt := by
  rw [binderToSexpr, spelt_ofItems, forall_mem_map]
  exact forall₂_congr fun v _ => Var.spelt_toSexpr

namespace Formula

variable {f : Formula} {fs : List Formula} {operator : Operator} {parts : List Formula}
  {operands : List Sexpr}

/-! ## What a list is read as -/

theorem ofSexprs_eq_mapM (es : List Sexpr) : ofSexprs es = es.mapM ofSexpr := by
  induction es with
  | nil => rfl
  | cons e es ih => rw [ofSexprs, mapM_cons, ih]

theorem ofSexprs_eq_ok {es : List Sexpr} :
    ofSexprs es = .ok fs ↔ Forall₂ (fun e f => ofSexpr e = .ok f) es fs := by
  rw [ofSexprs_eq_mapM, mapM_eq_ok]

theorem toSexprs_eq_map (fs : List Formula) : toSexprs fs = fs.map toSexpr := by
  induction fs with
  | nil => rfl
  | cons f fs ih => rw [toSexprs, ih, map_cons]

/-- What a head and its operands are read as. -/
inductive Headed (head : String) (operands : List Sexpr) : Formula → Prop
  | application {args : List Formula} :
      ofWord? head = none → ofSexprs operands = .ok args →
      Headed head operands (apply head args)
  | quantifier {operator : Operator} {binder body : Sexpr} {vars : List Var} {f : Formula} :
      ofWord? head = some operator → operator = .all ∨ operator = .ex →
      operands = [binder, body] → binderOfSexpr binder = .ok vars → vars ≠ [] →
      ofSexpr body = .ok f → Headed head operands (quantified operator vars f)
  | connective {operator : Operator} {parts : List Formula} {f : Formula} :
      ofWord? head = some operator → ¬ (operator = .all ∨ operator = .ex) →
      ofSexprs operands = .ok parts → ofOperator? operator parts = some f →
      Headed head operands f

theorem arity?_of_ofOperator? (h : ofOperator? operator parts = some f) :
    ¬ operator.arity?.any (· ≠ parts.length) := by
  unfold ofOperator? at h
  split at h <;> simp_all [arity?]

/-- **A list is read by its head**: a symbol with arguments, a quantifier with a binder and a
body, or another operator with its operands. -/
theorem ofSexpr_list_eq_ok {line headLine : Nat} :
    ofSexpr (.list line (.atom headLine head :: operands)) = .ok f ↔ Headed head operands f := by
  constructor
  · intro h
    rw [ofSexpr] at h
    split at h
    · rename_i hWord
      obtain ⟨args, hArgs, h⟩ := bind_eq_ok.mp h
      obtain rfl := pure_eq_ok.mp h
      exact .application hWord hArgs
    · rename_i operator hWord
      split_ifs at h with hArity hQuantifier
      · split at h
        · rename_i binder body
          obtain ⟨vars, hVars, h⟩ := bind_eq_ok.mp h
          obtain ⟨hEmpty, h⟩ := guard_eq_ok.mp h
          obtain ⟨f, hBody, h⟩ := bind_eq_ok.mp h
          obtain rfl := pure_eq_ok.mp h
          exact .quantifier hWord hQuantifier rfl hVars (by simpa using hEmpty) hBody
        · cases h
      · obtain ⟨parts, hParts, h⟩ := bind_eq_ok.mp h
        split at h
        · rename_i g hOperator
          obtain rfl := pure_eq_ok.mp h
          exact .connective hWord hQuantifier hParts hOperator
        · cases h
  · intro h
    rw [ofSexpr]
    cases h with
    | application hWord hArgs =>
      rw [hWord]
      exact bind_eq_ok.mpr ⟨_, hArgs, rfl⟩
    | @quantifier operator binder body vars f hWord hQuantifier hOperands hVars hEmpty hBody =>
      subst hOperands
      have hArity : ¬ operator.arity?.any (· ≠ [binder, body].length) := by
        rcases hQuantifier with rfl | rfl <;> simp [arity?]
      have hNot : ¬ vars.isEmpty := by simpa using hEmpty
      rw [hWord]
      simp only [if_neg hArity, if_pos hQuantifier]
      refine bind_eq_ok.mpr ⟨vars, hVars, guard_eq_ok.mpr ⟨hNot, ?_⟩⟩
      exact bind_eq_ok.mpr ⟨_, hBody, rfl⟩
    | @connective operator parts f hWord hQuantifier hParts hOperator =>
      have hLength : operands.length = parts.length := (ofSexprs_eq_ok.mp hParts).length_eq
      have hArity : ¬ operator.arity?.any (· ≠ operands.length) := by
        rw [hLength]
        exact arity?_of_ofOperator? hOperator
      rw [hWord]
      simp only [if_neg hArity, if_neg hQuantifier]
      refine bind_eq_ok.mpr ⟨parts, hParts, ?_⟩
      rw [hOperator]
      rfl

/-! ## Lines decide nothing -/

theorem Headed.congr {operands' : List Sexpr} (h : Headed head operands f)
    (hStrip : operands'.map strip = operands.map strip)
    (hSame : ∀ e ∈ operands, ∀ e', e'.strip = e.strip → ∀ f, ofSexpr e = .ok f → ofSexpr e' = .ok f) :
    Headed head operands' f := by
  -- the operands are read one by one, so the induction is on how the first list was read
  have hAll : ∀ fs, ofSexprs operands = .ok fs → ofSexprs operands' = .ok fs := by
    intro fs hfs
    rw [ofSexprs_eq_ok] at hfs ⊢
    clear h
    induction hfs generalizing operands' with
    | nil =>
      rw [map_nil, map_eq_nil_iff] at hStrip
      subst hStrip
      exact .nil
    | cons hFirst _ ih =>
      obtain ⟨e', es', rfl, he, hes⟩ := map_eq_cons_iff.mp hStrip
      rw [forall_mem_cons] at hSame
      exact .cons (hSame.1 e' he _ hFirst) (ih hes hSame.2)
  cases h with
  | application hWord hArgs => exact .application hWord (hAll _ hArgs)
  | @quantifier operator binder body vars f hWord hQuantifier hOperands hVars hEmpty hBody =>
    subst hOperands
    obtain ⟨binder', rest, rfl, hBinder, hRest⟩ := map_eq_cons_iff.mp hStrip
    obtain ⟨body', rfl, hStripBody⟩ := map_eq_singleton_iff.mp hRest
    have hVars' : binderOfSexpr binder' = .ok vars := by
      rw [binderOfSexpr_eq_ok, hBinder]
      exact binderOfSexpr_eq_ok.mp hVars
    exact .quantifier hWord hQuantifier rfl hVars' hEmpty
      (hSame body (by simp) body' hStripBody f hBody)
  | connective hWord hQuantifier hParts hOperator =>
    exact .connective hWord hQuantifier (hAll _ hParts) hOperator

theorem ofSexpr_congr : ∀ {e e' : Sexpr}, e'.strip = e.strip → ∀ {f : Formula},
    ofSexpr e = .ok f → ofSexpr e' = .ok f
  | .atom _ text, e', h, f, hf => by
    obtain ⟨line, rfl⟩ := strip_eq_ofName.mp h
    exact hf
  | .list _ [], _, _, _, hf => by cases hf
  | .list _ (.list _ _ :: _), _, _, _, hf => by cases hf
  | .list _ (.atom _ head :: operands), e', h, f, hf => by
    rw [strip_list] at h
    obtain ⟨line, items, rfl, hItems⟩ := strip_eq_ofItems.mp h
    obtain ⟨first, operands', rfl, hFirst, hOperands⟩ := map_eq_cons_iff.mp hItems
    obtain ⟨headLine, rfl⟩ := strip_eq_ofName.mp hFirst
    refine ofSexpr_list_eq_ok.mpr ((ofSexpr_list_eq_ok.mp hf).congr hOperands ?_)
    intro e he e' hStrip f hf
    exact ofSexpr_congr hStrip hf

/-! ## Formed formulas -/

mutual

/-- A formula in the shape reading leaves it in. -/
def Formed : Formula → Prop
  | .bool _ => True
  | .id name => IsAtom name
  | .app name args =>
    IsAtom name ∧ ofWord? name = none ∧ args ≠ [] ∧ FormedAll args
  | .not a | .new a => Formed a
  | .and parts | .or parts => 2 ≤ parts.length ∧ FormedAll parts
  | .imp a b | .iff a b | .eq a b | .ne a b => Formed a ∧ Formed b
  | .ite a b c => Formed a ∧ Formed b ∧ Formed c
  | .all vars a | .ex vars a => vars ≠ [] ∧ (∀ v ∈ vars, v.Spelt) ∧ Formed a

/-- All formulas of a list are formed. -/
def FormedAll : List Formula → Prop
  | [] => True
  | f :: fs => Formed f ∧ FormedAll fs

end

theorem formedAll_iff : FormedAll fs ↔ ∀ f ∈ fs, f.Formed := by
  induction fs with
  | nil => simp [FormedAll]
  | cons f fs ih => rw [FormedAll, ih, forall_mem_cons]

theorem formed_conj (h : ∀ f ∈ fs, f.Formed) : (conj fs).Formed := by
  match fs with
  | [] => trivial
  | [f] => exact h f mem_cons_self
  | f :: g :: fs =>
    have hTwo : 2 ≤ (f :: g :: fs).length := by simp
    exact ⟨hTwo, formedAll_iff.mpr h⟩

theorem formed_disj (h : ∀ f ∈ fs, f.Formed) : (disj fs).Formed := by
  match fs with
  | [] => trivial
  | [f] => exact h f mem_cons_self
  | f :: g :: fs =>
    have hTwo : 2 ≤ (f :: g :: fs).length := by simp
    exact ⟨hTwo, formedAll_iff.mpr h⟩

theorem formed_apply {args : List Formula} (hName : IsAtom name)
    (hWord : ofWord? name = none) (h : ∀ f ∈ args, f.Formed) :
    (apply name args).Formed := by
  match args with
  | [] => exact hName
  | f :: fs => exact ⟨hName, hWord, by simp, formedAll_iff.mpr h⟩

theorem formed_ofOperator? (h : ofOperator? operator parts = some f)
    (hParts : ∀ g ∈ parts, g.Formed) : f.Formed := by
  unfold ofOperator? at h
  split at h <;> cases h
  · rw [Formed]
    exact hParts _ mem_cons_self
  · exact formed_conj hParts
  · exact formed_disj hParts
  · exact ⟨hParts _ (by simp), hParts _ (by simp)⟩
  · exact ⟨hParts _ (by simp), hParts _ (by simp)⟩
  · exact ⟨hParts _ (by simp), hParts _ (by simp)⟩
  · exact ⟨hParts _ (by simp), hParts _ (by simp)⟩
  · exact ⟨hParts _ (by simp), hParts _ (by simp), hParts _ (by simp)⟩
  · rw [Formed]
    exact hParts _ mem_cons_self

/-- **What is read is formed.** -/
theorem Formed.of_ofSexpr : ∀ {e : Sexpr} {f : Formula}, ofSexpr e = .ok f → e.Spelt → f.Formed
  | .atom _ text, f, h, hSpelt => by
    obtain rfl : ofAtom text = f := by simpa [ofSexpr] using h
    unfold ofAtom
    split_ifs
    · trivial
    · trivial
    · exact spelt_atom.mp hSpelt
  | .list _ [], _, h, _ => by cases h
  | .list _ (.list _ _ :: _), _, h, _ => by cases h
  | .list _ (.atom _ head :: operands), f, h, hSpelt => by
    rw [spelt_list, forall_mem_cons] at hSpelt
    obtain ⟨hHead, hOperands⟩ := hSpelt
    -- Each operand is a part of the list, so what it is read as is formed.
    have hParts : ∀ fs, ofSexprs operands = .ok fs → ∀ g ∈ fs, g.Formed := by
      intro fs hfs g hg
      obtain ⟨e, he, hRead⟩ := exists_left_of_forall₂ (ofSexprs_eq_ok.mp hfs) hg
      exact Formed.of_ofSexpr hRead (hOperands e he)
    cases ofSexpr_list_eq_ok.mp h with
    | application hWord hArgs =>
      exact formed_apply (spelt_atom.mp hHead) hWord (hParts _ hArgs)
    | @quantifier operator binder body vars f hWord hQuantifier hEq hVars hEmpty hBody =>
      subst hEq
      have hBinder : ∀ v ∈ vars, v.Spelt := by
        rw [← spelt_binderToSexpr, ← binderOfSexpr_eq_ok.mp hVars, spelt_strip]
        exact hOperands binder (by simp)
      have hFormed : f.Formed := Formed.of_ofSexpr hBody (hOperands body (by simp))
      unfold quantified
      split_ifs
      · exact ⟨hEmpty, hBinder, hFormed⟩
      · exact ⟨hEmpty, hBinder, hFormed⟩
    | connective hWord _ hArgs hOperator => exact formed_ofOperator? hOperator (hParts _ hArgs)

/-! ## Writing formed formulas -/

theorem isAtom_word (operator : Operator) : IsAtom operator.word := by
  cases operator <;> decide

theorem ofWord?_word (operator : Operator) : ofWord? operator.word = some operator := by
  cases operator <;> decide

theorem spelt_headed (h : ∀ e ∈ operands, e.Spelt) : (headed operator operands).Spelt := by
  rw [headed, spelt_ofItems, forall_mem_cons]
  exact ⟨spelt_ofName.mpr (isAtom_word operator), h⟩

theorem Formed.spelt_toSexpr : ∀ {f : Formula}, f.Formed → f.toSexpr.Spelt
  | .bool true, _ | .bool false, _ => spelt_ofName.mpr (by decide)
  | .id name, h => spelt_ofName.mpr h
  | .app name args, ⟨hName, _, _, hArgs⟩ => by
    rw [toSexpr, toSexprs_eq_map, spelt_ofItems, forall_mem_cons, forall_mem_map]
    exact ⟨spelt_ofName.mpr hName, fun f hf =>
      Formed.spelt_toSexpr (formedAll_iff.mp hArgs f hf)⟩
  | .and parts, ⟨_, hParts⟩ | .or parts, ⟨_, hParts⟩ => by
    rw [toSexpr, toSexprs_eq_map]
    refine spelt_headed (forall_mem_map.mpr fun f hf => ?_)
    exact Formed.spelt_toSexpr (formedAll_iff.mp hParts f hf)
  | .not a, h | .new a, h => by
    rw [Formed] at h
    rw [toSexpr]
    exact spelt_headed (by simpa using Formed.spelt_toSexpr h)
  | .imp a b, ⟨ha, hb⟩ | .iff a b, ⟨ha, hb⟩ | .eq a b, ⟨ha, hb⟩ | .ne a b, ⟨ha, hb⟩ => by
    rw [toSexpr]
    exact spelt_headed (by simpa using ⟨Formed.spelt_toSexpr ha, Formed.spelt_toSexpr hb⟩)
  | .ite a b c, ⟨ha, hb, hc⟩ => by
    rw [toSexpr]
    exact spelt_headed (by
      simpa using ⟨Formed.spelt_toSexpr ha, Formed.spelt_toSexpr hb, Formed.spelt_toSexpr hc⟩)
  | .all vars a, ⟨_, hVars, ha⟩ | .ex vars a, ⟨_, hVars, ha⟩ => by
    rw [toSexpr]
    exact spelt_headed (by simpa using ⟨spelt_binderToSexpr.mpr hVars, Formed.spelt_toSexpr ha⟩)

/-- **The text of a formed formula spells the tokens of its s-expression.** -/
theorem Formed.spells_render (h : f.Formed) : Spells f.render f.toSexpr.tokens :=
  h.spelt_toSexpr.spells_render

/-! ## Reading back -/

mutual

/-- A formula has an identifier of a name, bound or not. -/
def Mentions (name : String) : Formula → Prop
  | .bool _ => False
  | .id n => n = name
  | .app _ args => MentionsAny name args
  | .not a | .new a => Mentions name a
  | .and parts | .or parts => MentionsAny name parts
  | .imp a b | .iff a b | .eq a b | .ne a b => Mentions name a ∨ Mentions name b
  | .ite a b c => Mentions name a ∨ Mentions name b ∨ Mentions name c
  | .all _ a | .ex _ a => Mentions name a

/-- A formula of a list has an identifier of a name. -/
def MentionsAny (name : String) : List Formula → Prop
  | [] => False
  | f :: fs => Mentions name f ∨ MentionsAny name fs

end

theorem mentionsAny_iff : MentionsAny name fs ↔ ∃ f ∈ fs, f.Mentions name := by
  induction fs with
  | nil => simp [MentionsAny]
  | cons f fs ih => simp [MentionsAny, ih]

/-- A formula without an identifier spelt like a truth value. -/
structure Unmistakable (f : Formula) : Prop where
  yes : ¬ f.Mentions "true"
  no : ¬ f.Mentions "false"

theorem Unmistakable.of_imp {g : Formula} (h : f.Unmistakable)
    (hMentions : ∀ name, g.Mentions name → f.Mentions name) : g.Unmistakable :=
  ⟨fun hg => h.yes (hMentions _ hg), fun hg => h.no (hMentions _ hg)⟩

theorem ofSexpr_headed (hQuantifier : ¬ (operator = .all ∨ operator = .ex))
    (hParts : Forall₂ (fun e g => ofSexpr e = .ok g) operands parts)
    (hOperator : ofOperator? operator parts = some f) :
    ofSexpr (headed operator operands) = .ok f :=
  ofSexpr_list_eq_ok.mpr
    (.connective (ofWord?_word operator) hQuantifier (ofSexprs_eq_ok.mpr hParts) hOperator)

theorem forall₂_toSexpr (h : ∀ f ∈ parts, ofSexpr f.toSexpr = .ok f) :
    Forall₂ (fun e g => ofSexpr e = .ok g) (parts.map toSexpr) parts := by
  rw [forall₂_map_left_iff, forall₂_same]
  exact h

theorem ofSexpr_quantifier {vars : List Var} {body : Sexpr}
    (hQuantifier : operator = .all ∨ operator = .ex) (hVars : vars ≠ [])
    (hBody : ofSexpr body = .ok f) :
    ofSexpr (headed operator [binderToSexpr vars, body]) = .ok (quantified operator vars f) := by
  have hBinder : binderOfSexpr (binderToSexpr vars) = .ok vars := by
    rw [binderOfSexpr_eq_ok, strip_binderToSexpr]
  exact ofSexpr_list_eq_ok.mpr
    (.quantifier (ofWord?_word operator) hQuantifier rfl hBinder hVars hBody)

theorem conj_of_two_le (h : 2 ≤ fs.length) : conj fs = .and fs := by
  match fs with
  | [] | [_] => simp at h
  | _ :: _ :: _ => rfl

theorem disj_of_two_le (h : 2 ≤ fs.length) : disj fs = .or fs := by
  match fs with
  | [] | [_] => simp at h
  | _ :: _ :: _ => rfl

/-- **A formed formula is read back from its s-expression**, when no identifier of it is spelt
like a truth value. -/
theorem ofSexpr_toSexpr : ∀ {f : Formula}, f.Formed → f.Unmistakable →
    ofSexpr f.toSexpr = .ok f
  | .bool true, _, _ => rfl
  | .bool false, _, _ => rfl
  | .id name, _, hPlain => by
    -- here alone the spelling matters: an atom is first compared with the truth values
    have hTrue : name ≠ "true" := hPlain.yes
    have hFalse : name ≠ "false" := hPlain.no
    show Except.ok (ofAtom name) = _
    rw [ofAtom, if_neg hTrue, if_neg hFalse]
  | .app name args, ⟨_, hWord, hNonempty, hArgs⟩, hPlain => by
    have hEach : ∀ f ∈ args, ofSexpr f.toSexpr = .ok f := fun f hf =>
      ofSexpr_toSexpr (formedAll_iff.mp hArgs f hf)
        (hPlain.of_imp fun _ hn => mentionsAny_iff.mpr ⟨f, hf, hn⟩)
    have hParts : ofSexprs (args.map toSexpr) = .ok args :=
      ofSexprs_eq_ok.mpr (forall₂_toSexpr hEach)
    -- an application to nothing would be read as an identifier
    have hApply : apply name args = .app name args := by
      cases args with
      | nil => exact absurd rfl hNonempty
      | cons _ _ => rfl
    rw [toSexpr, toSexprs_eq_map, ← hApply]
    exact ofSexpr_list_eq_ok.mpr (.application hWord hParts)
  | .and parts, ⟨hTwo, hParts⟩, hPlain => by
    have hEach : ∀ f ∈ parts, ofSexpr f.toSexpr = .ok f := fun f hf =>
      ofSexpr_toSexpr (formedAll_iff.mp hParts f hf)
        (hPlain.of_imp fun _ hn => mentionsAny_iff.mpr ⟨f, hf, hn⟩)
    rw [toSexpr, toSexprs_eq_map]
    exact ofSexpr_headed (by simp) (forall₂_toSexpr hEach) (congrArg some (conj_of_two_le hTwo))
  | .or parts, ⟨hTwo, hParts⟩, hPlain => by
    have hEach : ∀ f ∈ parts, ofSexpr f.toSexpr = .ok f := fun f hf =>
      ofSexpr_toSexpr (formedAll_iff.mp hParts f hf)
        (hPlain.of_imp fun _ hn => mentionsAny_iff.mpr ⟨f, hf, hn⟩)
    rw [toSexpr, toSexprs_eq_map]
    exact ofSexpr_headed (by simp) (forall₂_toSexpr hEach) (congrArg some (disj_of_two_le hTwo))
  | .not a, h, hPlain | .new a, h, hPlain => by
    have hPart : a.Unmistakable := hPlain.of_imp fun n hn => hn
    rw [Formed] at h
    have ha := ofSexpr_toSexpr h hPart
    rw [toSexpr]
    exact ofSexpr_headed (by simp) (.cons ha .nil) rfl
  | .imp a b, h, hPlain | .iff a b, h, hPlain | .eq a b, h, hPlain | .ne a b, h, hPlain => by
    have ha := ofSexpr_toSexpr h.1 (hPlain.of_imp fun n hn => .inl hn)
    have hb := ofSexpr_toSexpr h.2 (hPlain.of_imp fun n hn => .inr hn)
    rw [toSexpr]
    exact ofSexpr_headed (by simp) (.cons ha (.cons hb .nil)) rfl
  | .ite a b c, ⟨ha, hb, hc⟩, hPlain => by
    have ha := ofSexpr_toSexpr ha (hPlain.of_imp fun n hn => .inl hn)
    have hb := ofSexpr_toSexpr hb (hPlain.of_imp fun n hn => .inr (.inl hn))
    have hc := ofSexpr_toSexpr hc (hPlain.of_imp fun n hn => .inr (.inr hn))
    rw [toSexpr]
    exact ofSexpr_headed (by simp) (.cons ha (.cons hb (.cons hc .nil))) rfl
  | .all vars a, ⟨hVars, _, ha⟩, hPlain => by
    rw [toSexpr]
    exact ofSexpr_quantifier (.inl rfl) hVars (ofSexpr_toSexpr ha (hPlain.of_imp fun n hn => hn))
  | .ex vars a, ⟨hVars, _, ha⟩, hPlain => by
    rw [toSexpr]
    exact ofSexpr_quantifier (.inr rfl) hVars (ofSexpr_toSexpr ha (hPlain.of_imp fun n hn => hn))

/-! ## Texts -/

theorem read_eq_ok :
    read text = .ok f ↔ ∃ e, Sexpr.read text = ⟨[e], none⟩ ∧ ofSexpr e = .ok f := by
  unfold read
  generalize Sexpr.read text = reading
  obtain ⟨items, stopped⟩ := reading
  constructor
  · intro h
    match items, stopped with
    | [], none | [], some _ => cases h
    | first :: rest, stopped =>
      obtain ⟨g, hg, h⟩ := bind_eq_ok.mp h
      match rest, stopped with
      | [], none =>
        obtain rfl := pure_eq_ok.mp h
        exact ⟨first, rfl, mapError_eq_ok.mp hg⟩
      | [], some _ | _ :: _, _ => cases h
  · rintro ⟨e, hRead, hf⟩
    cases hRead
    exact bind_eq_ok.mpr ⟨f, mapError_eq_ok.mpr hf, rfl⟩

theorem Formed.of_read (h : read text = .ok f) : f.Formed := by
  obtain ⟨e, hRead, hf⟩ := read_eq_ok.mp h
  have hItem : e ∈ (Sexpr.read text).items := by
    rw [hRead]
    exact mem_cons_self
  exact .of_ofSexpr hf (Spelt.of_mem_read hItem)

theorem ofSexpr_toSexpr_of_read (h : read f.render = .ok f) : ofSexpr f.toSexpr = .ok f := by
  have hCut : cut .between f.render.toList = tokensOf [f.toSexpr] := by
    rw [(Formed.of_read h).spells_render.cut_eq, tokensOf, tokensOf, append_nil]
  obtain ⟨items, hStrip, hItems⟩ := exists_read hCut
  obtain ⟨e, hRead, hf⟩ := read_eq_ok.mp h
  obtain rfl : [e] = items := congrArg Sexpr.Reading.items (hRead.symm.trans hItems)
  exact ofSexpr_congr (singleton_injective hStrip).symm hf

end Formula

end InvariantSearch
