import InvariantSearch.Proofs.Encoding.Structures
import InvariantSearch.Proofs.Encoding.Tabulation

/-!
# Structures that interpret an encoding

A solver looks for structures in which no sort is empty and all symbols have values of
their sorts. What it shows of such a structure can be read.

* `SolverStructure.Interprets` — a structure for the symbols of an encoding, and for the
  fresh constants in some terms.
* `SolverStructure.bindFresh` — a structure in which some fresh constants have given
  values.

Main results: `value_concur` — the value of a term depends on what its symbols mean.
`readModel_total` — a model that interprets an encoding shows a trace.
-/

namespace InvariantSearch

open Term List SolverModel

variable {index : Nat}

namespace SolverStructure

variable {M : SolverStructure} {b : M.Binding} {cs : List SolverConst} {P Q : M.Binding → Prop}

/-! ## Symbols that mean the same -/

/-- The structure in which symbols have other meanings. -/
abbrev reading (M : SolverStructure) (g : SolverSymbol → List M.Value → M.Value) : SolverStructure :=
  { M with apply := g }

/-- Symbols mean the same under two bindings, in a structure and with other meanings. Where terms
have sorts, only as many arguments count as a symbol takes. -/
def Concur (M : SolverStructure) (g : SolverSymbol → List M.Value → M.Value) (sorted : Prop)
    (b b' : M.Binding) (symbols : List SolverSymbol) : Prop :=
  ∀ f ∈ symbols, ∀ xs, (sorted → xs.length = f.args.length) →
    (b.lookup f).getD (M.apply f xs) = (b'.lookup f).getD (g f xs)

variable {g : SolverSymbol → List M.Value → M.Value} {sorted : Prop} {b' : M.Binding}
  {symbols symbols' : List SolverSymbol}

theorem length_of_sorts? {ts : List Term} {ss : List SolverSort} (h : sorts? ts = some ss) :
    ts.length = ss.length := by
  induction ts generalizing ss with
  | nil =>
    cases h
    rfl
  | cons t ts ih =>
    rw [sorts?] at h
    split at h
    · rename_i hts
      cases h
      rw [length_cons, length_cons, ih hts]
    · cases h

theorem Concur.cons (h : M.Concur g sorted b b' symbols) (entry : SolverSymbol × M.Value) :
    M.Concur g sorted (entry :: b) (entry :: b') symbols := by
  intro f hf xs hxs
  by_cases hEq : f = entry.1
  · rw [hEq, lookup_cons_self, lookup_cons_self]
    rfl
  · rw [Encoding.lookup_cons_of_ne hEq, Encoding.lookup_cons_of_ne hEq]
    exact h f hf xs hxs

theorem forAllOf_concur (h : ∀ b b', M.Concur g sorted b b' symbols → (P b ↔ Q b'))
    (hb : M.Concur g sorted b b' symbols) : M.ForAllOf cs P b ↔ (M.reading g).ForAllOf cs Q b' := by
  induction cs generalizing b b' with
  | nil => exact h b b' hb
  | cons c cs ih => exact forall_congr' fun x => imp_congr_right fun _ => ih (hb.cons _)

theorem existsOf_concur (h : ∀ b b', M.Concur g sorted b b' symbols → (P b ↔ Q b'))
    (hb : M.Concur g sorted b b' symbols) : M.ExistsOf cs P b ↔ (M.reading g).ExistsOf cs Q b' := by
  induction cs generalizing b b' with
  | nil => exact h b b' hb
  | cons c cs ih => exact exists_congr fun x => and_congr_right fun _ => ih (hb.cons _)

mutual

/-- **The value of a term depends on what its symbols mean.** -/
theorem value_concur : ∀ (t : Term) {b b' : M.Binding}, (sorted → t.sort?.isSome) →
    M.Concur g sorted b b' t.symbols → M.value b t = (M.reading g).value b' t
  | .bool _, _, _ | .element _ _, _, _ => fun _ _ => rfl
  | .app f args, b, b' => by
    intro hSort h
    obtain ⟨hf, hArgs⟩ := forall_mem_cons.mp h
    have hSorts : sorted → sorts? args = some f.args := by grind [sort?]
    have hValues := values_concur args (fun hs => by rw [hSorts hs]; rfl) hArgs
    have hApply := hf (M.values b args) fun hs => by
      rw [values_eq_map, length_map]
      exact length_of_sorts? (hSorts hs)
    rw [value, value, ← hValues]
    cases hb : b.lookup f <;> cases hb' : b'.lookup f <;> simpa [hb, hb'] using hApply
  | .not a, b, b' => by
    intro hSort h
    rw [value, value, value_concur a (by grind [sort?]) h]
    rfl
  | .and parts, b, b' | .or parts, b, b' => by
    intro hSort h
    rw [value, value, values_concur parts (by grind [sort?]) h]
    rfl
  | .imp a c, b, b' | .iff a c, b, b' | .eq a c, b, b' => by
    intro hSort h
    obtain ⟨ha, hc⟩ := forall_mem_append.mp h
    rw [value, value, value_concur a (by grind [sort?]) ha, value_concur c (by grind [sort?]) hc]
    rfl
  | .ite a c d, b, b' => by
    intro hSort h
    obtain ⟨hac, hd⟩ := forall_mem_append.mp h
    obtain ⟨ha, hc⟩ := forall_mem_append.mp hac
    rw [value, value, value_concur a (by grind [sort?]) ha, value_concur c (by grind [sort?]) hc,
      value_concur d (by grind [sort?]) hd]
  | .all consts a, b, b' => by
    intro hSort h
    rw [value, value]
    refine truthOf_congr (forAllOf_concur (fun b b' hb => ?_) h)
    rw [value_concur a (by grind [sort?]) hb]
  | .ex consts a, b, b' => by
    intro hSort h
    rw [value, value]
    refine truthOf_congr (existsOf_concur (fun b b' hb => ?_) h)
    rw [value_concur a (by grind [sort?]) hb]

theorem values_concur : ∀ (ts : List Term) {b b' : M.Binding}, (sorted → (sorts? ts).isSome) →
    M.Concur g sorted b b' (symbolsList ts) → M.values b ts = (M.reading g).values b' ts
  | [], _, _ => fun _ _ => rfl
  | t :: ts, b, b' => by
    intro hSort h
    obtain ⟨ht, hts⟩ := forall_mem_append.mp h
    rw [values, values, value_concur t (by grind [sorts?]) ht,
      values_concur ts (by grind [sorts?]) hts]

end

/-! ## Constants bound to their own values -/

/-- A binding gives constants the values they have, as far as a term mentions them. -/
def Own (M : SolverStructure) (b : M.Binding) (mentioned : SolverSymbol → Prop) : Prop :=
  ∀ f x, b.lookup f = some x → f.args = [] ∧ (mentioned f → x = M.apply f [])

theorem Own.mono {mentioned mentioned' : SolverSymbol → Prop} (h : M.Own b mentioned)
    (hMono : ∀ f, mentioned' f → mentioned f) : M.Own b mentioned' :=
  fun f x hx => (h f x hx).imp_right fun hValue hf => hValue (hMono f hf)

/-- **A constant may be bound to the value that it has.** -/
theorem value_append_own (t : Term) (b' : M.Binding) (hSort : t.sort?.isSome)
    (hOwn : M.Own b (· ∈ t.symbols)) : M.value (b' ++ b) t = M.value b' t := by
  refine value_concur (g := M.apply) t (fun _ : True => hSort) fun f hf xs hLength => ?_
  rw [lookup_append]
  cases b'.lookup f with
  | some x => rfl
  | none =>
    cases hx : b.lookup f with
    | none => rfl
    | some x =>
      obtain ⟨hNil, hValue⟩ := hOwn f x hx
      obtain rfl : xs = [] := length_eq_zero_iff.mp (by rw [hLength trivial, hNil]; rfl)
      exact hValue hf

/-- Where the constants that some terms mention have values of their sorts, these values can be
bound to them. -/
theorem existsOf_own {terms : List Term}
    (hb : M.Own b fun f => ∃ t ∈ terms, f ∈ t.symbols)
    (hMember : ∀ c ∈ cs, (∃ t ∈ terms, c.symbol ∈ t.symbols) →
      M.Member c.sort (M.apply c.symbol []))
    (hSome : ∀ c ∈ cs, ∃ x, M.Member c.sort x) :
    M.ExistsOf cs (fun b => M.Own b fun f => ∃ t ∈ terms, f ∈ t.symbols) b := by
  induction cs generalizing b with
  | nil => exact hb
  | cons c cs ih =>
    obtain ⟨hHead, hTail⟩ := forall_mem_cons.mp hMember
    obtain ⟨⟨other, hOther⟩, hRest⟩ := forall_mem_cons.mp hSome
    -- a constant that no term mentions may be anything
    have hChoice : ∃ x, M.Member c.sort x ∧
        ((∃ t ∈ terms, c.symbol ∈ t.symbols) → x = M.apply c.symbol []) := by
      by_cases hIn : ∃ t ∈ terms, c.symbol ∈ t.symbols
      · exact ⟨_, hHead hIn, fun _ => rfl⟩
      · exact ⟨other, hOther, fun h => absurd h hIn⟩
    obtain ⟨x, hx, hValue⟩ := hChoice
    refine ⟨x, hx, ih (fun f y hy => ?_) hTail hRest⟩
    by_cases hf : f = c.symbol
    · rw [hf, lookup_cons_self, Option.some.injEq] at hy
      rw [hf, ← hy]
      exact ⟨rfl, hValue⟩
    · rw [Encoding.lookup_cons_of_ne hf] at hy
      exact hb f y hy

/-! ## Structures for an encoding -/

/-- A structure interprets an encoding and some terms: truth values are what they are, no sort of
the program is empty, and the symbols of the program and the fresh constants in the terms have
values of their sorts. -/
structure Interprets (M : SolverStructure) (e : Encoding) (terms : List Term) : Prop where
  truths : ∀ x, M.Member .bool x ↔ M.IsTruth x
  inhabited : ∀ sort ∈ e.program.sorts, ∃ x, M.Member (.named (beforeNul sort)) x
  symbols : ∀ x ∈ e.program.symbols, ∀ index < e.keys.length, ∀ f, e.symbol x index = .ok f →
    ∀ args, Forall₂ (fun x sort => M.Member sort x) args f.args →
      M.Member f.range (M.apply f args)
  constants : ∀ c : SolverConst, (∃ sort ∈ e.program.sorts, c.sort = .named (beforeNul sort)) →
    (∃ t ∈ terms, c.symbol ∈ t.symbols) → M.Member c.sort (M.apply c.symbol [])

open Classical in
/-- Some value of a sort, if there is any. -/
noncomputable def anyOf (M : SolverStructure) (sort : SolverSort) : M.Value :=
  if h : ∃ x, M.Member sort x then choose h else M.truth false

/-- The structure in which fresh constants have the values they are bound to, and others any value
of their sort. -/
noncomputable def bindFresh (M : SolverStructure) (b : M.Binding) : SolverStructure :=
  { M with
    apply := fun f args =>
      if f.number = none then M.apply f args else (b.lookup f).getD (M.anyOf f.range) }

section Fresh

variable {b : M.Binding} {f : SolverSymbol}

theorem bindFresh_declared (hf : f.number = none) (args : List M.Value) :
    (M.bindFresh b).apply f args = M.apply f args := if_pos hf

theorem bindFresh_bound (hf : f.number ≠ none) {x : M.Value} (hx : b.lookup f = some x)
    (args : List M.Value) : (M.bindFresh b).apply f args = x := by
  refine (if_neg hf).trans ?_
  rw [hx, Option.getD_some]

theorem member_bindFresh (hb : ∀ entry ∈ b, M.Member entry.1.range entry.2)
    (hf : f.number ≠ none) (hSome : ∃ x, M.Member f.range x) (args : List M.Value) :
    M.Member f.range ((M.bindFresh b).apply f args) := by
  rw [show (M.bindFresh b).apply f args = (b.lookup f).getD (M.anyOf f.range) from if_neg hf]
  cases hx : b.lookup f with
  | some x => exact hb (f, x) (mem_of_lookup hx)
  | none =>
    rw [Option.getD_none, anyOf, dif_pos hSome]
    exact Classical.choose_spec hSome

theorem own_bindFresh {rest : M.Binding} (hb : ∀ entry ∈ b, ∃ c : SolverConst, entry.1 = c.symbol)
    (mentioned : SolverSymbol → Prop) : (M.bindFresh (b ++ rest)).Own b mentioned := by
  intro f x hx
  obtain ⟨c, hc⟩ := hb (f, x) (mem_of_lookup hx)
  have hc : f = c.symbol := hc
  subst hc
  have hLookup : (b ++ rest).lookup c.symbol = some x := by
    rw [lookup_append, show b.lookup c.symbol = some x from hx]
    rfl
  exact ⟨rfl, fun _ => (bindFresh_bound (Option.some_ne_none c.number) hLookup []).symm⟩

end Fresh

end SolverStructure

namespace Encoding

variable {e : Encoding} {D : Domain} {M : SolverStructure} {name : D.Element → M.Value}
  {args : List (Value D.Element)} {x : Symbol} {f : SolverSymbol}

theorem Lists.bindFresh {p : Program} (h : Lists p M name) (b : M.Binding) :
    Lists p (M.bindFresh b) name :=
  ⟨h.mem_iff, h.injective⟩

theorem Presents.bindFresh {context : FormulaContext} {s : State D}
    (h : Presents e M name context index s) (b : M.Binding) :
    Presents e (M.bindFresh b) name context index s := by
  intro x hx hContext f hf args hArgs
  obtain ⟨hSort, hValue⟩ := h x hx hContext f hf args hArgs
  exact ⟨hSort, (SolverStructure.bindFresh_declared (symbol_number hf) _).trans hValue⟩

theorem Scoped.bindFresh {scope : Program.Scope} {terms : Scope} {v : Valuation D} {b : M.Binding}
    {n : Nat} (h : Scoped name scope terms v b n) (b' : M.Binding) :
    Scoped (M := M.bindFresh b') name scope terms v b n :=
  ⟨h.bound, h.free, h.numbered⟩

section Induced

variable {σ : Nat → State D} (h : e.Separates)

include h

theorem Separates.hasSort_of_member {sorts : List String}
    (hSorts : ∀ sort ∈ sorts, e.program.hasSort sort = true)
    (hArgs : Forall₂ (fun (x : Value D.Element) sort => (e.induced σ).Member (.named (beforeNul
      sort)) x) args sorts) : Forall₂ D.HasSort args sorts := by
  induction hArgs with
  | nil => exact .nil
  | @cons x sort args sorts hx _ ih =>
    obtain ⟨hSort, hRest⟩ := forall_mem_cons.mp hSorts
    obtain ⟨sort', hIn, hEq, hx⟩ := hx
    obtain rfl := h.sorts sort' hIn sort (contains_iff_mem.mp hSort) hEq
    exact .cons hx (ih hRest)

theorem Separates.member_apply (hσ : IsSequence e.program e.keys.length σ)
    (hx : x ∈ e.program.symbols) (hFitting : e.program.Fitting x) (hIndex : index < e.keys.length)
    (hf : e.symbol x index = .ok f)
    (hArgs : Forall₂ (fun (x : Value D.Element) sort => (e.induced σ).Member sort x) args f.args) :
    (e.induced σ).Member f.range ((e.induced σ).apply f args) := by
  obtain ⟨hSorts, hRange⟩ := symbol_sorts hFitting hf
  rw [hSorts, forall₂_map_right_iff] at hArgs
  have hFits := h.hasSort_of_member (fun sort hSort => (hFitting.args sort hSort).2) hArgs
  obtain ⟨hSort, hValue⟩ := h.presents hσ hIndex x hx (fun hContext => by cases hContext) f hf
    args hFits
  rw [map_termOf_induced, termOf_induced] at hValue
  rw [hValue, hRange]
  cases hRelation : x.isRelation with
  | true =>
    rw [Symbol.result_of_isRelation hRelation] at hSort
    exact hSort
  | false =>
    exact ⟨x.result, contains_iff_mem.mp (hFitting.result hRelation).2, rfl, hSort⟩

/-- The structure of a sequence of states interprets the encoding, whatever fresh constants are
bound to. -/
theorem Separates.interprets (hσ : IsSequence e.program e.keys.length σ)
    (hD : D.Inhabits e.program) (hSymbols : ∀ x ∈ e.program.symbols, e.program.Fitting x)
    {b : (e.induced σ).Binding} (hb : ∀ entry ∈ b, (e.induced σ).Member entry.1.range entry.2)
    (terms : List Term) : ((e.induced σ).bindFresh b).Interprets e terms where
  truths x := by
    cases x with
    | truth p =>
      refine ⟨fun _ => ⟨@decide p (Classical.propDecidable p), ?_⟩, fun _ => rfl⟩
      exact congrArg Value.truth (propext (@decide_eq_true_iff p (Classical.propDecidable p)).symm)
    | element x =>
      refine ⟨fun hx => absurd hx (D.sort_ne_bool x), ?_⟩
      rintro ⟨y, hy⟩
      cases hy
  inhabited sort hSort := by
    obtain ⟨x, hx⟩ := hD sort hSort
    exact ⟨.element x, sort, hSort, rfl, hx⟩
  symbols x hx index hIndex f hf args hArgs := by
    have hApply := SolverStructure.bindFresh_declared (b := b) (symbol_number hf) args
    exact (congrArg ((e.induced σ).Member f.range) hApply).mpr
      (h.member_apply hσ hx (hSymbols x hx) hIndex hf hArgs)
  constants c hc _ := by
    obtain ⟨sort, hSort, hEq⟩ := hc
    obtain ⟨x, hx⟩ := hD sort hSort
    have hSome : ∃ x, (e.induced σ).Member c.symbol.range x :=
      ⟨.element x, by rw [show c.symbol.range = _ from hEq]; exact ⟨sort, hSort, rfl, hx⟩⟩
    exact SolverStructure.member_bindFresh hb (Option.some_ne_none c.number) hSome []

end Induced

/-! ## Models that can be read -/

section Reading

variable {m : SolverModel} {terms : List Term} (h : m.toStructure.Interprets e terms)

include h

theorem evaluate_total (hx : x ∈ e.program.symbols) (hIndex : index < e.keys.length)
    (hf : e.symbol x index = .ok f) {args : List Term}
    (hArgs : args ∈ tuples (f.args.map m.members)) :
    ∃ v, m.evaluate f args = .ok v ∧ v ∈ m.members f.range := by
  rw [mem_tuples_iff, forall₂_map_right_iff] at hArgs
  have hMember : m.apply f args ∈ m.members f.range := h.symbols x hx index hIndex f hf args hArgs
  unfold apply at hMember
  cases hValue : m.evaluate f args with
  | ok v =>
    rw [hValue] at hMember
    exact ⟨v, rfl, hMember⟩
  | error fault =>
    -- an application is no member of a sort
    rw [hValue] at hMember
    cases hRange : f.range with
    | bool => simp [hRange, members] at hMember
    | named sort => simp [hRange, members, elements] at hMember

theorem complete_of_interprets : m.Complete e := by
  refine ⟨fun sort hSort => ?_, fun x hx index hIndex f hf args hArgs v hv => ?_⟩
  · obtain ⟨t, ht⟩ := h.inhabited sort hSort
    exact ne_nil_of_mem ht
  · obtain ⟨w, hw, hIn⟩ := evaluate_total h hx hIndex hf hArgs
    rw [hv, Except.ok.injEq] at hw
    exact hw ▸ hIn

/-- **A model that interprets an encoding shows a trace.** -/
theorem readModel_total (hKeys : 0 < e.keys.length)
    (hFitting : ∀ x ∈ e.program.symbols, e.program.Fitting x) : ∃ t, e.readModel m = .ok t := by
  refine exists_readModel hFitting (settled_of_closed (e.listedUniverses m) (fun sort hSort v hv =>
    (of_listedUniverses (contains_iff_mem.mpr hSort)).symm ▸ hv)
    fun x hx index hIndex f hf args hArgs => ?_)
  have hRange : index < e.keys.length := by
    unfold instances at hIndex
    split at hIndex <;> omega
  have hf : e.symbol x index = .ok f := by
    cases hSymbol : e.symbol x index <;> rw [hSymbol] at hf <;> cases hf
    rfl
  obtain ⟨hSorts, hResult⟩ := symbol_sorts (hFitting x hx) hf
  have hMembers : x.args.map (e.listedUniverses m).of = f.args.map m.members := by
    rw [hSorts, map_map]
    exact map_congr_left fun sort hSort => of_listedUniverses ((hFitting x hx).args sort hSort).2
  obtain ⟨v, hv, hIn⟩ := evaluate_total h hx hRange hf (hMembers ▸ hArgs)
  rw [hResult] at hIn
  cases hRelation : x.isRelation with
  | true =>
    rw [hRelation, if_pos rfl] at hIn
    obtain ⟨b, rfl⟩ : ∃ b, v = .bool b := by simpa [members] using hIn
    exact ⟨b, hv⟩
  | false =>
    rw [hRelation, if_neg (by decide)] at hIn
    exact ⟨v, (of_listedUniverses ((hFitting x hx).result hRelation).2).symm ▸ hIn, hv⟩

end Reading

end Encoding

end InvariantSearch
