import InvariantSearch.Proofs.Formula.Notation
import InvariantSearch.Proofs.Formula.Parts

/-!
# Formulas and their texts

Which formulas are read back from what is written for them, in terms of their names.

* `Compact` — no node is there that `conj`, `disj`, `apply` or a quantifier would leave out. What
  is built from a draft is compact (`compact_of_build`).
* `formed_iff` — a formula is formed when it is compact, its names are atoms and no head is an
  operator.

Main results: `read_render_iff` says exactly which formulas are read back from their texts, and
`read_render_of_build` that every formula built with plain names is one of them.
-/

namespace InvariantSearch

open List Operator

open Sexpr (IsAtom)

variable {fs : List Formula} {unit : Formula} {make : List Formula → Formula}

namespace Formula

variable {f : Formula} {name : String} {g : Formula}

theorem mentions_iff_children :
    f.Mentions name ↔ f = .id name ∨ ∃ c ∈ f.children, c.Mentions name := by
  cases f <;> simp [Mentions, children, mentionsAny_iff]

theorem mentions_iff (f : Formula) : f.Mentions name ↔ name ∈ f.identifiers := by
  induction f using of_children with
  | step f ih =>
    rw [mem_identifiers, mem_parts, mentions_iff_children, eq_comm]
    refine or_congr Iff.rfl (exists_congr fun c => and_congr_right fun hc => ?_)
    rw [ih c hc, mem_identifiers]

theorem unmistakable_iff :
    f.Unmistakable ↔ ∀ name ∈ f.identifiers, name ≠ "true" ∧ name ≠ "false" := by
  constructor
  · rintro h name hName
    refine ⟨?_, ?_⟩ <;> rintro rfl
    · exact h.yes ((mentions_iff f).mpr hName)
    · exact h.no ((mentions_iff f).mpr hName)
  · intro h
    exact ⟨fun hMentions => (h _ ((mentions_iff f).mp hMentions)).1 rfl,
      fun hMentions => (h _ ((mentions_iff f).mp hMentions)).2 rfl⟩

/-! ## Compact formulas -/

/-- A node that building would not leave out. -/
def IsLasting : Formula → Prop
  | .app _ args => args ≠ []
  | .and fs | .or fs => 2 ≤ fs.length
  | .all vars _ | .ex vars _ => vars ≠ []
  | _ => True

/-- A formula all of whose nodes are there to stay. -/
def Compact (f : Formula) : Prop := ∀ g ∈ f.parts, g.IsLasting

theorem compact_iff : f.Compact ↔ f.IsLasting ∧ ∀ c ∈ f.children, c.Compact :=
  forall_mem_parts

end Formula

namespace Draft

variable {operands : List (Option Formula)} {operator : Operator} {f : Formula}

open Formula

theorem complete_eq_ok {kind : String} :
    complete kind operands = .ok fs ↔ operands = fs.map some := by
  rw [complete, mapM_eq_ok, ← forall₂_eq_eq_eq, forall₂_map_right_iff]
  refine iff_of_eq (congrArg (Forall₂ · operands fs) ?_)
  funext operand f
  cases operand <;> simp

/-- Joining some parts gives the unit, the one part there is, or a node with two parts or more. -/
theorem join_eq_ok (h : join operator unit make operands = .ok (some f)) :
    f = unit ∨ some f ∈ operands ∨
      ∃ fs : List Formula, 2 ≤ fs.length ∧ operands = fs.map some ∧ f = make fs := by
  unfold join at h
  split at h
  · cases h
    exact .inl rfl
  · cases h
    exact .inr (.inl mem_cons_self)
  · rename_i parts hNil hOne
    obtain ⟨fs, hfs, h⟩ := bind_eq_ok.mp h
    cases h
    rw [complete_eq_ok] at hfs
    refine .inr (.inr ⟨fs, ?_, hfs, rfl⟩)
    match fs, hfs with
    | [], hfs => exact absurd hfs (by simpa using hNil)
    | [g], hfs => exact absurd hfs (hOne (some g))
    | _ :: _ :: _, _ => simp

theorem node_eq_ok (h : node operator operands = .ok (some f)) :
    f.IsLasting ∧ operands = f.children.map some := by
  obtain ⟨fs, hfs, h⟩ := bind_eq_ok.mp h
  rw [complete_eq_ok] at hfs
  split at h <;> cases h <;> exact ⟨trivial, hfs⟩

theorem compact_join (h : join operator unit make operands = .ok (some f)) (hUnit : unit.Compact)
    (hMake : ∀ fs : List Formula, 2 ≤ fs.length → (∀ g ∈ fs, g.Compact) → (make fs).Compact)
    (hOperands : ∀ g, some g ∈ operands → g.Compact) : f.Compact := by
  rcases join_eq_ok h with rfl | hf | ⟨fs, hTwo, rfl, rfl⟩
  · exact hUnit
  · exact hOperands f hf
  · exact hMake fs hTwo fun g hg => hOperands g (mem_map_of_mem hg)

theorem compact_node (h : node operator operands = .ok (some f))
    (hOperands : ∀ g, some g ∈ operands → g.Compact) : f.Compact := by
  obtain ⟨hLasting, rfl⟩ := node_eq_ok h
  exact compact_iff.mpr ⟨hLasting, fun c hc => hOperands c (mem_map_of_mem hc)⟩

theorem compact_bool (value : Bool) : (Formula.bool value).Compact :=
  compact_iff.mpr ⟨trivial, by simp [children]⟩

mutual

/-- **What is built from a draft is compact.** -/
theorem compact_of_build : ∀ (d : Draft) {f : Formula}, d.build = .ok (some f) → f.Compact
  | .missing, f, h => by simp [build] at h
  | .bool value, f, h => by
    cases h
    exact compact_bool value
  | .id name, f, h => by
    cases h
    exact compact_iff.mpr ⟨trivial, by simp [children]⟩
  | .app name args, f, h => by
    rw [build] at h
    obtain ⟨operands, hOperands, h⟩ := bind_eq_ok.mp h
    obtain ⟨fs, hfs, h⟩ := bind_eq_ok.mp h
    cases h
    obtain rfl := complete_eq_ok.mp hfs
    have hParts : ∀ g ∈ fs, g.Compact := fun g hg =>
      compact_of_mem_buildList args hOperands (mem_map_of_mem hg)
    cases fs with
    | nil => exact compact_iff.mpr ⟨trivial, by simp [children, apply]⟩
    | cons g fs => exact compact_iff.mpr ⟨cons_ne_nil g fs, hParts⟩
  | .operation operator ds, f, h => by
    have hOperands : ∀ {operands}, buildList ds = .ok operands →
        ∀ g, some g ∈ operands → g.Compact := fun hList g hg =>
      compact_of_mem_buildList ds hList hg
    cases operator
    case and =>
      rw [build] at h
      obtain ⟨operands, hList, h⟩ := bind_eq_ok.mp h
      exact compact_join h (compact_bool true)
        (fun fs hTwo hfs => compact_iff.mpr ⟨hTwo, hfs⟩) (hOperands hList)
    case or =>
      rw [build] at h
      obtain ⟨operands, hList, h⟩ := bind_eq_ok.mp h
      exact compact_join h (compact_bool false)
        (fun fs hTwo hfs => compact_iff.mpr ⟨hTwo, hfs⟩) (hOperands hList)
    all_goals
      simp only [build] at h
      obtain ⟨operands, hList, h⟩ := bind_eq_ok.mp h
      exact compact_node h (hOperands hList)
  | .quantifier operator vars body, f, h => by
    rw [build] at h
    obtain ⟨g?, hBody, h⟩ := bind_eq_ok.mp h
    by_cases hVars : vars.isEmpty
    · rw [if_pos hVars] at h
      cases h
      exact compact_of_build body hBody
    · rw [if_neg hVars] at h
      have hNonempty : vars ≠ [] := by simpa using hVars
      cases g? with
      | none => cases h
      | some g =>
        have hg : ∀ c ∈ [g], c.Compact := by simpa using compact_of_build body hBody
        cases h
        split_ifs
        · exact compact_iff.mpr ⟨hNonempty, hg⟩
        · exact compact_iff.mpr ⟨hNonempty, hg⟩

theorem compact_of_mem_buildList : ∀ (ds : List Draft) {operands : List (Option Formula)},
    buildList ds = .ok operands → ∀ {g : Formula}, some g ∈ operands → g.Compact
  | [], operands, h, g, hg => by
    cases h
    cases hg
  | d :: ds, operands, h, g, hg => by
    rw [buildList] at h
    obtain ⟨first, hFirst, h⟩ := bind_eq_ok.mp h
    obtain ⟨rest, hRest, h⟩ := bind_eq_ok.mp h
    cases h
    rcases mem_cons.mp hg with rfl | hg
    · exact compact_of_build d hFirst
    · exact compact_of_mem_buildList ds hRest hg

end

end Draft

namespace Formula

variable {f : Formula} {operator : Operator}

/-! ## Formed formulas, by their names -/

/-- What being formed asks of one node. -/
structure IsPlain (f : Formula) : Prop where
  lasting : f.IsLasting
  identifier : ∀ name, f = .id name → IsAtom name
  head : ∀ name args, f = .app name args → IsAtom name ∧ ofWord? name = none
  vars : ∀ v ∈ f.bound, v.Spelt

theorem formed_iff_children : f.Formed ↔ f.IsPlain ∧ ∀ c ∈ f.children, c.Formed := by
  constructor
  · intro h
    cases f
    all_goals
      simp only [Formed, formedAll_iff] at h
      refine ⟨⟨?_, ?_, ?_, ?_⟩, ?_⟩ <;> simp_all [IsLasting, bound, children]
  · rintro ⟨⟨hLasting, hIdentifier, hHead, hVars⟩, hChildren⟩
    cases f <;> simp_all [Formed, formedAll_iff, IsLasting, bound, children]

theorem formed_iff_parts (f : Formula) : f.Formed ↔ ∀ g ∈ f.parts, g.IsPlain := by
  induction f using of_children with
  | step f ih =>
    rw [formed_iff_children, forall_mem_parts]
    exact and_congr_right fun _ => forall₂_congr fun c hc => ih c hc

/-- **A formula is formed when it is compact and its names can be told from the notation.** -/
theorem formed_iff :
    f.Formed ↔ f.Compact ∧ (∀ name ∈ f.identifiers, IsAtom name) ∧
      (∀ name ∈ f.heads, IsAtom name ∧ ofWord? name = none) ∧
      ∀ v ∈ f.boundVars, v.Spelt := by
  rw [formed_iff_parts]
  constructor
  · intro h
    refine ⟨fun g hg => (h g hg).lasting, fun name hName => ?_, fun name hName => ?_,
      fun v hv => ?_⟩
    · exact (h _ (mem_identifiers.mp hName)).identifier name rfl
    · obtain ⟨args, hApp⟩ := mem_heads.mp hName
      exact (h _ hApp).head name args rfl
    · obtain ⟨g, hg, hv⟩ := mem_boundVars.mp hv
      exact (h g hg).vars v hv
  · rintro ⟨hCompact, hIdentifiers, hHeads, hVars⟩ g hg
    refine ⟨hCompact g hg, ?_, ?_, fun v hv => hVars v (mem_boundVars.mpr ⟨g, hg, hv⟩)⟩
    · rintro name rfl
      exact hIdentifiers name (mem_identifiers.mpr hg)
    · rintro name args rfl
      exact hHeads name (mem_heads.mpr ⟨args, hg⟩)

/-! ## Reading back -/

theorem ofWord?_eq_none {name : String} :
    ofWord? name = none ↔ ∀ operator : Operator, name ≠ operator.word := by
  have hEvery : ∀ operator : Operator, operator ∈ every := by
    intro operator
    cases operator <;> decide
  simp only [ofWord?, find?_eq_none, hEvery, true_imp_iff, beq_iff_eq, ne_comm]

theorem toSexpr_eq_headed (h : f.operator? = some operator) (hBound : f.bound = [])
    (hLasting : f.IsLasting) :
    ¬ (operator = .all ∨ operator = .ex) ∧ f.toSexpr = headed operator (f.children.map toSexpr) ∧
      (operator = .and ∨ operator = .or → 2 ≤ f.children.length) := by
  cases f <;> cases h <;>
    simp_all [bound, IsLasting, children, toSexpr, toSexprs_eq_map]

theorem exists_parts_of_headed {operands : List Sexpr}
    (hQuantifier : ¬ (operator = .all ∨ operator = .ex))
    (h : ofSexpr (headed operator operands) = .ok f) :
    ∃ fs, Forall₂ (fun e g => ofSexpr e = .ok g) operands fs ∧
      ofOperator? operator fs = some f := by
  cases ofSexpr_list_eq_ok.mp h with
  | application hWord _ => simp [ofWord?_word] at hWord
  | quantifier hWord hIs =>
    obtain rfl : operator = _ := by simpa [ofWord?_word] using hWord
    exact absurd hIs hQuantifier
  | @connective operator' fs _ hWord _ hParts hOperator =>
    obtain rfl : operator = operator' := by simpa [ofWord?_word] using hWord
    exact ⟨fs, ofSexprs_eq_ok.mp hParts, hOperator⟩

theorem exists_body_of_quantifier {vars : List Var} {body : Sexpr}
    (hQuantifier : operator = .all ∨ operator = .ex)
    (h : ofSexpr (headed operator [binderToSexpr vars, body]) = .ok f) :
    ∃ g, ofSexpr body = .ok g ∧ ∃ vars', f = quantified operator vars' g := by
  cases ofSexpr_list_eq_ok.mp h with
  | application hWord _ => simp [ofWord?_word] at hWord
  | @quantifier operator' _ _ vars' g hWord _ hOperands _ _ hBody =>
    obtain rfl : operator = operator' := by simpa [ofWord?_word] using hWord
    cases hOperands
    exact ⟨g, hBody, vars', rfl⟩
  | @connective operator' _ _ hWord hNot =>
    obtain rfl : operator = operator' := by simpa [ofWord?_word] using hWord
    exact absurd hQuantifier hNot

theorem children_of_ofOperator? (h : ofOperator? operator fs = some f)
    (hTwo : operator = .and ∨ operator = .or → 2 ≤ fs.length) : f.children = fs := by
  unfold ofOperator? at h
  split at h <;> cases h
  case h_2 => rw [conj_of_two_le (hTwo (.inl rfl)), children]
  case h_3 => rw [disj_of_two_le (hTwo (.inr rfl)), children]
  all_goals rfl

theorem forall_of_forall₂_toSexpr {gs : List Formula}
    (h : Forall₂ (fun e g => ofSexpr e = .ok g) (fs.map toSexpr) gs) (hEq : gs = fs) :
    ∀ f ∈ fs, ofSexpr f.toSexpr = .ok f := by
  subst hEq
  rwa [forall₂_map_left_iff, forall₂_same] at h

theorem ofSexpr_toSexpr_children (hf : f.Formed) (h : ofSexpr f.toSexpr = .ok f) :
    ∀ c ∈ f.children, ofSexpr c.toSexpr = .ok c := by
  have hPlain : f.IsPlain := (formed_iff_children.mp hf).1
  cases hOperator : f.operator? with
  | none =>
    cases f with
    | bool _ | id _ => exact fun c hc => by cases hc
    | app name args =>
      -- the head is no operator's word, so it was read as a head
      rw [toSexpr, toSexprs_eq_map] at h
      have hHeaded := ofSexpr_list_eq_ok.mp h
      rw [children]
      generalize hWhole : app name args = whole at hHeaded
      cases hHeaded with
      | @application args' hWord hArgs =>
        refine forall_of_forall₂_toSexpr (ofSexprs_eq_ok.mp hArgs) ?_
        cases args' with
        | nil => cases hWhole
        | cons g gs => exact (app.inj hWhole).2.symm
      | quantifier hWord => simp [(hPlain.head name args rfl).2] at hWord
      | connective hWord => simp [(hPlain.head name args rfl).2] at hWord
    | _ => cases hOperator
  | some operator =>
    -- connectives are read with all their operands, quantifiers with a binder and a body
    by_cases hBound : f.bound = []
    · obtain ⟨hQuantifier, hWritten, hTwo⟩ :=
        toSexpr_eq_headed hOperator hBound hPlain.lasting
      rw [hWritten] at h
      obtain ⟨fs, hParts, hRead⟩ := exists_parts_of_headed hQuantifier h
      have hLength : f.children.length = fs.length := by simpa using hParts.length_eq
      refine forall_of_forall₂_toSexpr hParts (children_of_ofOperator? hRead ?_).symm
      rwa [← hLength]
    · cases f with
      | all vars a =>
        rw [toSexpr] at h
        obtain ⟨g, hBody, vars', hEq⟩ := exists_body_of_quantifier (.inl rfl) h
        cases hEq
        simpa [children] using hBody
      | ex vars a =>
        rw [toSexpr] at h
        obtain ⟨g, hBody, vars', hEq⟩ := exists_body_of_quantifier (.inr rfl) h
        cases hEq
        simpa [children] using hBody
      | _ => exact absurd rfl hBound

theorem ofSexpr_toSexpr_parts (f : Formula) (hf : f.Formed) (h : ofSexpr f.toSexpr = .ok f) :
    ∀ g ∈ f.parts, ofSexpr g.toSexpr = .ok g := by
  induction f using of_children with
  | step f ih =>
    rw [forall_mem_parts]
    refine ⟨h, fun c hc => ih c hc ?_ (ofSexpr_toSexpr_children hf h c hc)⟩
    exact (formed_iff_children.mp hf).2 c hc

/-- Nothing that is read back has an identifier spelt like a truth value: its own text would be
read as that value. -/
theorem Formed.unmistakable (hf : f.Formed) (h : ofSexpr f.toSexpr = .ok f) : f.Unmistakable := by
  rw [unmistakable_iff]
  intro name hName
  have hAtom : Except.ok (ofAtom name) = .ok (.id name) :=
    ofSexpr_toSexpr_parts f hf h _ (mem_identifiers.mp hName)
  refine ⟨?_, ?_⟩ <;> rintro rfl <;> cases hAtom

theorem read_render (hf : f.Formed) (hPlain : f.Unmistakable) : read f.render = .ok f := by
  have hCut : Sexpr.cut .between f.render.toList = Sexpr.tokensOf [f.toSexpr] := by
    rw [hf.spells_render.cut_eq, Sexpr.tokensOf, Sexpr.tokensOf, append_nil]
  obtain ⟨items, hStrip, hItems⟩ := Sexpr.exists_read hCut
  obtain ⟨e, rfl, hStrip⟩ := map_eq_singleton_iff.mp hStrip
  refine read_eq_ok.mpr ⟨e, hItems, ofSexpr_congr ?_ (ofSexpr_toSexpr hf hPlain)⟩
  exact singleton_injective hStrip

/-- **The formulas that are read back from their texts** are the formed ones without an identifier
spelt like a truth value. -/
theorem read_render_iff : read f.render = .ok f ↔ f.Formed ∧ f.Unmistakable := by
  constructor
  · intro h
    have hf : f.Formed := .of_read h
    exact ⟨hf, hf.unmistakable (ofSexpr_toSexpr_of_read h)⟩
  · rintro ⟨hf, hPlain⟩
    exact read_render hf hPlain

/-- **What is built with plain names is read back from its text**: identifiers, heads, variables
and sorts are atoms, no identifier is spelt like a truth value, and no head like an operator. -/
theorem read_render_of_build {d : Draft} {f : Formula} (hBuild : d.build = .ok (some f))
    (hIdentifiers : ∀ name ∈ f.identifiers, IsAtom name ∧ name ≠ "true" ∧ name ≠ "false")
    (hHeads : ∀ name ∈ f.heads, IsAtom name ∧ ∀ operator : Operator, name ≠ operator.word)
    (hVars : ∀ v ∈ f.boundVars, IsAtom v.name ∧ IsAtom v.sort) :
    read f.render = .ok f := by
  have hFormed : f.Formed := by
    refine formed_iff.mpr ⟨d.compact_of_build hBuild, fun name hName => (hIdentifiers name hName).1,
      fun name hName => ⟨(hHeads name hName).1, ?_⟩, fun v hv => ⟨(hVars v hv).1, (hVars v hv).2⟩⟩
    exact ofWord?_eq_none.mpr (hHeads name hName).2
  exact read_render hFormed (unmistakable_iff.mpr fun name hName => (hIdentifiers name hName).2)

/-- A draft with a conjunction of one part and a binder of nothing, both of which disappear. -/
theorem read_render_lock :
    ∃ f, (Draft.quantifier .all [⟨"X", "node"⟩, ⟨"Y", "node"⟩]
        (.operation .imp
          [.operation .and [.operation .and [.app "held" [.id "X"]], .app "held" [.id "Y"],
              .quantifier .ex [] (.operation .not [.id "free"])],
            .operation .ite
              [.operation .new [.app "held" [.app "next" [.id "X"]]],
                .operation .eq [.id "X", .id "Y"],
                .quantifier .ex [⟨"Z", "node"⟩] (.operation .or
                  [.operation .ne [.id "X", .id "Z"], .bool false])]])).build = .ok (some f) ∧
      read f.render = .ok f := by
  refine ⟨.all [⟨"X", "node"⟩, ⟨"Y", "node"⟩]
      (.imp (.and [.app "held" [.id "X"], .app "held" [.id "Y"], .not (.id "free")])
        (.ite (.new (.app "held" [.app "next" [.id "X"]])) (.eq (.id "X") (.id "Y"))
          (.ex [⟨"Z", "node"⟩] (.or [.ne (.id "X") (.id "Z"), .bool false])))),
    ?build, read_render_of_build ?build (by decide) ?_ (by decide)⟩
  case build => rfl
  intro name hName
  have hHeads : name = "held" ∨ name = "next" := by
    revert name
    decide
  rcases hHeads with rfl | rfl
  · exact ⟨by decide, ofWord?_eq_none.mp (by decide)⟩
  · exact ⟨by decide, ofWord?_eq_none.mp (by decide)⟩

end Formula

end InvariantSearch
