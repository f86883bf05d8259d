import InvariantSearch.Proofs.Formula.Notation
import InvariantSearch.Proofs.Search.Structure
import Mathlib.Data.List.Induction

/-!
# Checkpoints and their notation

A search state that is saved comes back as it was.

* `Checkpoint.Decimal` — a text denotes a number.
* `Checkpoint.DenotesParent` — a text denotes the position of a parent, or that there is none.
* `Checkpoint.Consistent` — the conditions under which a search can go on from a state, stated
  apart from the check for them (`stateFault?_eq_none`).
* `Checkpoint.Storable` — a consistent state whose names and formulas survive being written, and
  whose numbers fit into the words that hold them.
* `Checkpoint.toSexpr` is what a state is written as: its text spells the tokens of that
  (`spellsOut_render`), and it is read back from it (`ofSexpr_of_strip`).

Main result: `restore_saved`.
-/

namespace InvariantSearch

open Obligation List Sexpr UInt32

open Sexpr (IsAtom Spells SpellsOut Separates)

variable {n : UInt64} {text what keyword : String} {e : Sexpr} {parent : Int} {p : Program}
  {s : SearchState} {o : Obligation} {c : Conjunct} {v : Var} {args : List Sexpr}

/-! ## Numbers -/

namespace Checkpoint

theorem toList_toString (n : Nat) : (toString n).toList = Nat.toDigits 10 n := by
  rw [Nat.toString_eq_ofList_toDigits, String.toList_ofList]

theorem toNat_of_mem_toString {n : Nat} {c : Char} (h : c ∈ (toString n).toList) :
    48 ≤ c.toNat ∧ c.toNat ≤ 57 := by
  rw [toList_toString] at h
  have hDigit := Nat.isDigit_of_mem_toDigits (by decide) (by decide) h
  simp only [Char.isDigit, Bool.and_eq_true, decide_eq_true_eq] at hDigit
  exact ⟨le_iff_toNat_le.mp hDigit.1, le_iff_toNat_le.mp hDigit.2⟩

theorem toList_toString_ne_nil (n : Nat) : (toString n).toList ≠ [] := by
  rw [toList_toString]
  exact Nat.toDigits_ne_nil

theorem isAtom_toString (n : Nat) : IsAtom (toString n) := by
  refine ⟨toList_toString_ne_nil n, fun c hc => ?_⟩
  have hDigit := toNat_of_mem_toString hc
  have hNe : ∀ d : Char, d.toNat < 48 ∨ 57 < d.toNat → (c == d) = false := by
    intro d hd
    rw [beq_eq_false_iff_ne]
    rintro rfl
    omega
  have hBlank : isBlank c = false := by
    rw [isBlank, hNe ' ' (by decide), Bool.false_or, Bool.and_eq_false_iff]
    exact Or.inr (by simp; omega)
  simp [isDelimiter, hBlank, hNe ';' (by decide), hNe '(' (by decide), hNe ')' (by decide)]

/-- A text denotes a number: it has the decimal digits of the number, after any zeros. -/
def Decimal (text : String) (n : Nat) : Prop :=
  ∃ zeros, text.toList = replicate zeros '0' ++ (toString n).toList

theorem isDigits_eq_true_iff :
    isDigits text = true ↔
      text.toList ≠ [] ∧ ∀ c ∈ text.toList, 48 ≤ c.toNat ∧ c.toNat ≤ 57 := by
  have hEmpty : text.isEmpty = false ↔ text.toList ≠ [] := by
    rw [← Bool.not_eq_true, String.isEmpty_iff, Ne, String.toList_eq_nil_iff]
  simp [isDigits, hEmpty]

theorem digitChar_of_digit {c : Char} (hLow : 48 ≤ c.toNat) (hHigh : c.toNat ≤ 57) :
    Nat.digitChar (c.toNat - 48) = c := by
  apply Char.toNat_inj.mp
  rw [Nat.toNat_digitChar_of_lt_ten (by omega)]
  omega

theorem exists_zeros {cs : List Char} (hNe : cs ≠ [])
    (hDigits : ∀ c ∈ cs, 48 ≤ c.toNat ∧ c.toNat ≤ 57) :
    ∃ zeros, cs = replicate zeros '0' ++ Nat.toDigits 10 (Nat.ofDigitChars 10 cs 0) := by
  induction cs using reverseRecOn with
  | nil => exact absurd rfl hNe
  | append_singleton cs c ih =>
    obtain ⟨hLow, hHigh⟩ := hDigits c (by simp)
    have hLast : Nat.toDigits 10 (c.toNat - 48) = [c] := by
      rw [Nat.toDigits_of_lt_base (by omega), digitChar_of_digit hLow hHigh]
    have hValue : Nat.ofDigitChars 10 (cs ++ [c]) 0 =
        10 * Nat.ofDigitChars 10 cs 0 + (c.toNat - 48) := by
      rw [Nat.ofDigitChars_append]
      rfl
    by_cases hNil : cs = []
    · subst hNil
      exact ⟨0, by rw [hValue]; exact hLast.symm.trans (congrArg _ (Nat.zero_add _).symm)⟩
    · obtain ⟨zeros, hZeros⟩ := ih hNil fun d hd => hDigits d (mem_append_left _ hd)
      -- All zeros so far: the last digit is the first that counts.
      rcases Nat.eq_zero_or_pos (Nat.ofDigitChars 10 cs 0) with hZero | hPos
      · rw [hZero, Nat.toDigits_zero, ← replicate_succ'] at hZeros
        refine ⟨zeros + 1, ?_⟩
        rw [hValue, hZero, Nat.mul_zero, Nat.zero_add, hLast, ← hZeros]
      · refine ⟨zeros, ?_⟩
        rw [hValue, ← Nat.toDigits_append_toDigits (by omega) hPos (by omega), hLast,
          ← append_assoc, ← hZeros]

theorem ofDigitChars_zeros (zeros : Nat) (cs : List Char) :
    Nat.ofDigitChars 10 (replicate zeros '0' ++ cs) 0 = Nat.ofDigitChars 10 cs 0 := by
  induction zeros with
  | zero => rfl
  | succ zeros ih =>
    rw [replicate_succ, cons_append, Nat.ofDigitChars_cons]
    exact ih

/-- **The value of a text of digits is the number that it denotes.** -/
theorem decimal_iff {n : Nat} : Decimal text n ↔ isDigits text = true ∧ digitsValue text = n := by
  constructor
  · rintro ⟨zeros, hText⟩
    rw [isDigits_eq_true_iff, digitsValue, hText]
    refine ⟨⟨append_ne_nil_of_right_ne_nil _ (toList_toString_ne_nil n), fun c hc => ?_⟩, ?_⟩
    · rcases mem_append.mp hc with hZero | hDigit
      · rw [eq_of_mem_replicate hZero]
        decide
      · exact toNat_of_mem_toString hDigit
    · rw [toList_toString]
      exact (ofDigitChars_zeros zeros _).trans (Nat.ofDigitChars_toDigits (by decide) (by decide))
  · rintro ⟨hDigits, rfl⟩
    obtain ⟨hNe, hAll⟩ := isDigits_eq_true_iff.mp hDigits
    obtain ⟨zeros, hZeros⟩ := exists_zeros hNe hAll
    exact ⟨zeros, by rw [toList_toString]; exact hZeros⟩

/-- A text denotes the position of a parent, or with -1 that there is none. -/
def DenotesParent (text : String) (parent : Int) : Prop :=
  (text = "-1" ∧ parent = root) ∨ ∃ n : Nat, Decimal text n ∧ n < size / 2 ∧ parent = n

theorem atom_eq_ok : atom what e = .ok text ↔ e.strip = .ofName text :=
  mapError_eq_ok.trans expectAtom_eq_ok

/-- **A number is read exactly**, or it does not fit into its word and is refused. -/
theorem number_eq_ok :
    number what e = .ok n ↔ ∃ text, e.strip = .ofName text ∧ Decimal text n.toNat := by
  simp only [number, bind_eq_ok, atom_eq_ok, decimal_iff]
  refine exists_congr fun text => and_congr_right fun _ => ?_
  by_cases hDigits : isDigits text = true
  · by_cases hFits : digitsValue text < UInt64.size
    · simp only [hDigits, hFits, pure_eq_ok, Bool.not_true, Bool.false_eq_true, if_false, if_true,
        true_and]
      exact ⟨fun h => by rw [← h, UInt64.toNat_ofNat_of_lt' hFits],
        fun h => by rw [h, UInt64.ofNat_toNat]⟩
    · simp only [hDigits, hFits, fail, Bool.not_true, Bool.false_eq_true, if_false, true_and,
        reduceCtorEq, false_iff]
      intro h
      exact hFits (h ▸ n.toNat_lt)
  · simp [hDigits, fail]

/-- **The position of a parent is read exactly**, and only -1 says that there is none. -/
theorem parentIndex_eq_ok :
    parentIndex what e = .ok parent ↔
      ∃ text, e.strip = .ofName text ∧ DenotesParent text parent := by
  simp only [parentIndex, bind_eq_ok, atom_eq_ok]
  refine exists_congr fun text => and_congr_right fun hText => ?_
  by_cases hRoot : text = "-1"
  · subst hRoot
    have hNone : ∀ n, ¬ Decimal "-1" n := fun n h => absurd (decimal_iff.mp h).1 (by decide)
    simp only [DenotesParent, hNone, false_and, exists_false, or_false, true_and, if_true,
      pure_eq_ok]
    exact eq_comm
  · simp only [DenotesParent, hRoot, false_and, false_or, if_false, bind_eq_ok, number_eq_ok]
    constructor
    · rintro ⟨n, ⟨text', hText', hDecimal⟩, hParent⟩
      obtain rfl : text = text' := (atom.inj (hText.symm.trans hText')).2
      by_cases hFits : n.toNat < UInt32.size / 2
      · rw [if_pos hFits, pure_eq_ok] at hParent
        exact ⟨n.toNat, hDecimal, hFits, hParent.symm⟩
      · rw [if_neg hFits] at hParent
        cases hParent
    · rintro ⟨n, hDecimal, hFits, rfl⟩
      have hNat : (UInt64.ofNat n).toNat = n :=
        UInt64.toNat_ofNat_of_lt' (Nat.lt_trans hFits (by decide))
      refine ⟨.ofNat n, ⟨text, hText, by rwa [hNat]⟩, ?_⟩
      rw [hNat, if_pos hFits]
      rfl

theorem decimal_toString (n : Nat) : Decimal (toString n) n := ⟨0, rfl⟩

theorem number_of_strip (h : e.strip = .ofName (toString n.toNat)) : number what e = .ok n :=
  number_eq_ok.mpr ⟨_, h, decimal_toString _⟩

theorem eq_root_or_natCast (h : root ≤ parent) : parent = -1 ∨ ∃ n : Nat, parent = n := by
  by_cases hSign : parent < 0
  · unfold root at h
    exact .inl (by omega)
  · exact .inr (Int.eq_ofNat_of_zero_le (Int.not_lt.mp hSign))

theorem denotesParent_toString (hLow : root ≤ parent) (hHigh : parent < (size / 2 : Nat)) :
    DenotesParent (toString parent) parent := by
  rcases eq_root_or_natCast hLow with rfl | ⟨n, rfl⟩
  · exact .inl ⟨rfl, rfl⟩
  · exact .inr ⟨n, decimal_toString n, by omega, rfl⟩

/-! ## States that can be saved -/

/-- A state that a search can go on from: it has two frames at least, each contained in the one
before, and obligations belong to frames, with parents below them on the stack. -/
structure Consistent (p : Program) (s : SearchState) : Prop where
  frames : 2 ≤ s.frames.length
  shrinks : ∀ (i : Nat) (frame next : List Formula), s.frames[i]? = some frame →
    s.frames[i + 1]? = some next → ∀ f ∈ next, f ∈ frame
  frame : ∀ o ∈ s.obligations, o.frame < s.frames.length
  parent : ∀ (i : Nat) (o : Obligation), s.obligations[i]? = some o → o.parent = root ∨
    ∃ (j : Nat) (above : Obligation), o.parent = j ∧ j < i ∧ s.obligations[j]? = some above ∧
      o.frame + 1 = above.frame ∧ o.may = above.may
  transition : ∀ o ∈ s.obligations, o.transition = "" ∨ o.transition = stutterName ∨
    (p.transition? o.transition).isSome

/-- A predicate of one state that is read back from its text. -/
structure StorablePredicate (p : Program) (f : Formula) : Prop where
  sorted : p.check f .singleState = .ok ()
  legible : Formula.read f.render = .ok f

/-- An obligation that is read back from its text. -/
structure StorableObligation (p : Program) (o : Obligation) : Prop where
  frame : o.frame < size
  parent : o.parent < (size / 2 : Nat)
  transition : o.transition = "" ∨ IsAtom o.transition
  named : o.transition ≠ noTransition
  vars : ∀ v ∈ o.diagram.vars, v.Spelt ∧ p.hasSort v.sort = true
  sorted : ∀ c ∈ o.diagram.conjuncts,
    p.check (Formula.thereIs o.diagram.vars c.formula) .singleState = .ok ()
  legible : ∀ c ∈ o.diagram.conjuncts, Formula.read c.formula.render = .ok c.formula

/-- A state that is read back from its text. -/
structure Storable (p : Program) (s : SearchState) : Prop where
  consistent : Consistent p s
  log : ∀ f ∈ s.log, StorablePredicate p f
  frames : ∀ frame ∈ s.frames, ∀ f ∈ frame, StorablePredicate p f
  obligations : ∀ o ∈ s.obligations, StorableObligation p o

theorem notContained?_eq_none {index : Nat} {frames : List (List Formula)}
    (h : ∀ (i : Nat) (frame next : List Formula), frames[i]? = some frame →
      frames[i + 1]? = some next → ∀ f ∈ next, f ∈ frame) : notContained? index frames = none := by
  induction frames generalizing index with
  | nil => rfl
  | cons lower rest ih =>
    cases rest with
    | nil => rfl
    | cons upper rest =>
      have hFind : upper.find? (fun f => !lower.contains f) = none := by
        rw [find?_eq_none]
        intro f hf
        simpa using h 0 lower upper rfl rfl f hf
      rw [notContained?, hFind]
      exact ih fun i frame next hFrame hNext => h (i + 1) frame next hFrame hNext

theorem ite_some_eq_none {α : Type} {c : Prop} [Decidable c] {fault : α} {x : Option α} :
    (if c then some fault else x) = none ↔ ¬ c ∧ x = none := by
  by_cases hc : c <;> simp [hc]

theorem parentFault?_eq_none_iff {i : Nat} :
    parentFault? s i o = none ↔ ∀ j, o.parent? = some j → ∃ above, j < i ∧
      s.obligations[j]? = some above ∧ o.frame + 1 = above.frame ∧ o.may = above.may := by
  unfold parentFault?
  cases o.parent? with
  | none => simp
  | some j =>
    cases hAbove : s.obligations[j]? <;>
      simp only [hAbove, ite_some_eq_none, Option.some.injEq, forall_eq'] <;> simp

theorem stateFault?_eq_none_iff :
    stateFault? p s = none ↔ 2 ≤ s.frames.length ∧ notContained? 0 s.frames = none ∧
      ∀ (i : Nat) (o : Obligation), s.obligations[i]? = some o → o.frame < s.frames.length ∧
        parentFault? s i o = none ∧ p.Takes o.transition := by
  unfold stateFault?
  rw [ite_some_eq_none, Nat.not_lt]
  refine and_congr_right fun _ => ?_
  cases notContained? 0 s.frames with
  | some found => simp
  | none =>
    have hEach : ∀ i o, obligationFault? p s i o = none ↔ o.frame < s.frames.length ∧
        parentFault? s i o = none ∧ p.Takes o.transition := fun i o => by
      simp only [obligationFault?, transitionFault?, ite_some_eq_none, Nat.not_le,
        Option.or_eq_none_iff, ite_eq_left_iff, reduceCtorEq, imp_false, Decidable.not_not,
        Program.Takes]
    simp only [true_and, ← hEach, findSome?_eq_none_iff, mem_mapIdx, List.getElem?_eq_some_iff]
    exact ⟨fun h i o ⟨hi, ho⟩ => h _ ⟨i, hi, ho ▸ rfl⟩,
      fun h fault ⟨i, hi, hFault⟩ => hFault ▸ h i _ ⟨hi, rfl⟩⟩

/-- **A consistent state passes the check.** -/
theorem stateFault?_eq_none (h : Consistent p s) : stateFault? p s = none := by
  refine stateFault?_eq_none_iff.mpr ⟨h.frames, notContained?_eq_none h.shrinks, fun i o ho => ?_⟩
  have hMem : o ∈ s.obligations := mem_of_getElem? ho
  refine ⟨h.frame o hMem, parentFault?_eq_none_iff.mpr fun j hj => ?_, h.transition o hMem⟩
  rcases h.parent i o ho with hRoot | ⟨k, above, hParent, hAbove⟩
  · rw [parent?, hRoot] at hj
    cases hj
  · rw [parent?, hParent] at hj
    obtain rfl : k = j := Option.some.inj hj
    exact ⟨above, hAbove⟩

/-! ## Writing -/

/-- An entry is a list that starts with its keyword. -/
def entryToSexpr (keyword : String) (args : List Sexpr) : Sexpr :=
  .ofItems (.ofName keyword :: args)

def predicatesToSexpr (keyword : String) (predicates : List Formula) : Sexpr :=
  entryToSexpr keyword (predicates.map Formula.toSexpr)

def conjunctToSexpr (c : Conjunct) : Sexpr :=
  .ofItems [.ofName c.kind.word, .ofName (if c.enabled then "on" else "off"), c.formula.toSexpr]

/-- The word that is written for a transition. -/
def transitionWord (o : Obligation) : String :=
  if o.transition = "" then noTransition else o.transition

def obligationToSexpr (o : Obligation) : Sexpr :=
  entryToSexpr "obligation" [.ofName (toString o.frame), .ofName (toString o.parent),
    .ofName (kindWord o.may), .ofName (transitionWord o), binderToSexpr o.diagram.vars,
    .ofItems (o.diagram.conjuncts.map conjunctToSexpr)]

/-- What the state of a search is written as. -/
def toSexpr (p : Program) (s : SearchState) : Sexpr :=
  .ofItems (.ofName header ::
    entryToSexpr "version" [.ofName (toString formatVersion)] ::
    entryToSexpr "fingerprint" [.ofName (toString p.fingerprint.toNat)] ::
    entryToSexpr "counters" [.ofName (toString s.learned.toNat),
      .ofName (toString s.distinct.toNat), .ofName (toString s.iterations.toNat)] ::
    predicatesToSexpr "log" s.log ::
    (s.frames.map (predicatesToSexpr "frame") ++ s.obligations.map obligationToSexpr))

theorem spellsOut_blank : SpellsOut " " [] := spellsOut_blanks (by decide)

theorem spellsOut_indented : SpellsOut "  (" [.opening] := by
  have hIndent : SpellsOut "  " [] := spellsOut_blanks (by decide)
  exact (hIndent.append Sexpr.spellsOut_opening).of_eq (by decide +kernel)

theorem spellsOut_closingLine : SpellsOut ")\n" [.closing] :=
  (spellsOut_closing.append Sexpr.spellsOut_lineBreak).of_eq (by decide +kernel)

theorem spellsOut_entryHead (h : IsAtom keyword) :
    SpellsOut ("  (" ++ keyword ++ " ") [.opening, .atom keyword] :=
  spellsOut_indented.append_atom h.spells spellsOut_blank separates_blank

theorem spellsOut_predicates {predicates : List Formula} (hKeyword : IsAtom keyword)
    (h : ∀ f ∈ predicates, StorablePredicate p f) :
    SpellsOut (renderPredicates keyword predicates)
      (predicatesToSexpr keyword predicates).tokens := by
  have hLine : ∀ f ∈ predicates, Spells ("\n    " ++ f.render) f.toSexpr.tokens := by
    intro f hf
    have hSpace : SpellsOut "\n    " [] := spellsOut_blanks (by decide)
    exact hSpace.append_spells (Formula.Formed.of_read (h f hf).legible).spells_render
  have hSeparates : ∀ f ∈ predicates, Separates ("\n    " ++ f.render) := by
    intro f _ rest
    rw [String.toList_append, append_assoc]
    exact delimited_cons.mpr rfl
  have hBefore := (spellsOut_indented.append_spells hKeyword.spells).append_join hLine hSeparates
  have hAll := hBefore.append_out spellsOut_closingLine (separates_of_head rfl rfl)
  exact hAll.of_tokens (by
    simp [predicatesToSexpr, entryToSexpr, ofItems, ofName, tokens,
      tokensOf, tokensOf_map])

theorem spellsOut_conjunct (h : c.formula.Formed) :
    SpellsOut (renderConjunct c) (conjunctToSexpr c).tokens := by
  have hWords : IsAtom c.kind.word ∧ IsAtom (if c.enabled then "on" else "off") := by
    constructor
    · cases c.kind <;> decide
    · cases c.enabled <;> decide
  have hSpelt : (conjunctToSexpr c).Spelt := by
    simp [conjunctToSexpr, hWords, h.spelt_toSexpr]
  have hText : renderConjunct c = (conjunctToSexpr c).render := by
    simp [renderConjunct, conjunctToSexpr, Sexpr.ofItems, Sexpr.ofName, Sexpr.render,
      renderItems, Formula.render, String.append_assoc]
  rw [hText]
  exact hSpelt.spellsOut_render

theorem spellsOut_var (h : v.Spelt) :
    SpellsOut ("(" ++ v.name ++ " " ++ v.sort ++ ")") v.toSexpr.tokens := by
  have hText : "(" ++ v.name ++ " " ++ v.sort ++ ")" = v.toSexpr.render := by
    simp [Var.toSexpr, Sexpr.ofItems, Sexpr.ofName, Sexpr.render, Sexpr.renderItems,
      String.append_assoc]
  rw [hText]
  exact (Var.spelt_toSexpr.mpr h).spellsOut_render

theorem isAtom_parent (h : root ≤ parent) : IsAtom (toString parent) := by
  rcases eq_root_or_natCast h with rfl | ⟨n, rfl⟩
  · decide
  · exact isAtom_toString n

theorem spellsOut_obligation (h : StorableObligation p o) (hParent : root ≤ o.parent) :
    SpellsOut (renderObligation o) (obligationToSexpr o).tokens := by
  have hKind : IsAtom (kindWord o.may) := by cases o.may <;> decide
  have hTransition : IsAtom (transitionWord o) := by
    unfold transitionWord
    split_ifs with hEmpty
    · decide
    · exact h.transition.resolve_left hEmpty
  have hHead : SpellsOut "  (obligation " [.opening, .atom "obligation"] :=
    (spellsOut_entryHead (by decide)).of_eq (by decide +kernel)
  have hVars : SpellsOut (" ".intercalate (o.diagram.vars.map fun v =>
      "(" ++ v.name ++ " " ++ v.sort ++ ")")) (o.diagram.vars.flatMap fun v => v.toSexpr.tokens) :=
    .intercalate (fun v hv => spellsOut_var (h.vars v hv).1) spellsOut_blank
  have hConjuncts : SpellsOut ("\n     ".intercalate (o.diagram.conjuncts.map renderConjunct))
      (o.diagram.conjuncts.flatMap fun c => (conjunctToSexpr c).tokens) :=
    .intercalate (fun c hc => spellsOut_conjunct (.of_read (h.legible c hc)))
      (spellsOut_blanks (by decide))
  have hLine : SpellsOut "\n    " [] := spellsOut_blanks (by decide)
  have hOpenVars : SpellsOut "\n    (" [.opening] :=
    (hLine.append Sexpr.spellsOut_opening).of_eq (by decide +kernel)
  have hOpenConjuncts : SpellsOut ")\n    (" [.closing, .opening] :=
    (spellsOut_closing.append hOpenVars).of_eq (by decide +kernel)
  have hEnd : SpellsOut "))\n" [.closing, .closing] :=
    (spellsOut_closing.append spellsOut_closingLine).of_eq (by decide +kernel)
  have hFrame := hHead.append_atom (isAtom_toString o.frame).spells spellsOut_blank
    separates_blank
  have hWithParent := hFrame.append_atom (isAtom_parent hParent).spells spellsOut_blank
    separates_blank
  have hWithKind := hWithParent.append_atom hKind.spells spellsOut_blank separates_blank
  have hWithTransition := hWithKind.append_atom hTransition.spells hOpenVars
    (separates_of_head rfl rfl)
  have hWithVars := (hWithTransition.append hVars).append hOpenConjuncts
  have hAll := (hWithVars.append hConjuncts).append hEnd
  exact hAll.of_tokens (by
    simp [obligationToSexpr, entryToSexpr, binderToSexpr, ofItems, ofName,
      tokens, tokensOf, tokensOf_map])

theorem Consistent.root_le_parent (h : Consistent p s) (ho : o ∈ s.obligations) :
    root ≤ o.parent := by
  obtain ⟨i, hi⟩ := getElem?_of_mem ho
  rcases h.parent i o hi with hRoot | ⟨j, _, hParent, -⟩
  · exact Int.le_of_eq hRoot.symm
  · rw [hParent]
    unfold root
    omega

/-- **The text of a checkpoint spells the tokens of what the state is written as.** -/
theorem spellsOut_render (h : Storable p s) : SpellsOut (render p s) (toSexpr p s).tokens := by
  have hHeader : IsAtom header := by decide
  have hVersion : SpellsOut "  (version " [.opening, .atom "version"] :=
    (spellsOut_entryHead (by decide)).of_eq (by decide +kernel)
  have hPrint : SpellsOut "  (fingerprint " [.opening, .atom "fingerprint"] :=
    (spellsOut_entryHead (by decide)).of_eq (by decide +kernel)
  have hCounters : SpellsOut "  (counters " [.opening, .atom "counters"] :=
    (spellsOut_entryHead (by decide)).of_eq (by decide +kernel)
  have hSeparates : Separates ")\n" := separates_of_head rfl rfl
  have hLog := spellsOut_predicates (by decide : IsAtom "log") h.log
  have hFrames : SpellsOut (String.join (s.frames.map (renderPredicates "frame")))
      (s.frames.flatMap fun frame => (predicatesToSexpr "frame" frame).tokens) :=
    .join fun frame hFrame => spellsOut_predicates (by decide) (h.frames frame hFrame)
  have hObligations : SpellsOut (String.join (s.obligations.map renderObligation))
      (s.obligations.flatMap fun o => (obligationToSexpr o).tokens) :=
    .join fun o ho => spellsOut_obligation (h.obligations o ho) (h.consistent.root_le_parent ho)
  -- The pieces are put together in the order they are written in.
  have hTop := spellsOut_opening.append_atom hHeader.spells spellsOut_lineBreak
    separates_lineBreak
  have hWithVersion := (hTop.append hVersion).append_atom (isAtom_toString formatVersion).spells
    spellsOut_closingLine hSeparates
  have hWithPrint := (hWithVersion.append hPrint).append_atom
    (isAtom_toString p.fingerprint.toNat).spells spellsOut_closingLine hSeparates
  have hWithLearned := (hWithPrint.append hCounters).append_atom
    (isAtom_toString s.learned.toNat).spells spellsOut_blank separates_blank
  have hWithDistinct := hWithLearned.append_atom (isAtom_toString s.distinct.toNat).spells
    spellsOut_blank separates_blank
  have hWithCounters := hWithDistinct.append_atom (isAtom_toString s.iterations.toNat).spells
    spellsOut_closingLine hSeparates
  have hAll := ((hWithCounters.append hLog).append hFrames).append hObligations
  have hEnd := hAll.append spellsOut_closingLine
  exact hEnd.of_tokens (by
    simp [toSexpr, entryToSexpr, ofItems, ofName, tokens, tokensOf,
      tokensOf_map, tokensOf_append])

/-! ## Reading back -/

theorem lift_eq_ok {α : Type} {r : Except (Located Fault) α} {a : α} :
    lift r = .ok a ↔ r = .ok a := mapError_eq_ok

theorem entry_of_strip {count : Option Nat} (h : e.strip = (entryToSexpr keyword args).strip)
    (hCount : ∀ n ∈ count, n = args.length) :
    ∃ items, entry keyword count e = .ok items ∧ items.map strip = args.map strip := by
  obtain ⟨line, wordLine, items, rfl, hItems⟩ := exists_list_of_strip h
  have hLength : items.length = args.length := by
    simpa using congrArg length hItems
  have hAny : ¬ count.any (· ≠ items.length) := by
    cases count with
    | none => simp
    | some n => simp [hCount n rfl, hLength]
  refine ⟨items, ?_, hItems⟩
  show (if keyword ≠ keyword then fail _ _ else
    if count.any (· ≠ items.length) then fail _ _ else .ok items) = .ok items
  rw [if_neg (by simp), if_neg hAny]

theorem numberEntry_of_strip
    (h : e.strip = (entryToSexpr keyword [.ofName (toString n.toNat)]).strip) :
    numberEntry keyword what e = .ok n := by
  obtain ⟨items, hEntry, hItems⟩ := entry_of_strip h (by simp : ∀ m ∈ some 1, m = _)
  obtain ⟨arg, rfl, hArg⟩ := map_eq_singleton_iff.mp hItems
  exact bind_eq_ok.mpr ⟨[arg], hEntry, number_of_strip hArg⟩

theorem predicate_of_strip {f : Formula} (hf : StorablePredicate p f)
    (h : e.strip = f.toSexpr.strip) : predicate p e = .ok f := by
  have hRead := Formula.ofSexpr_congr h (Formula.ofSexpr_toSexpr_of_read hf.legible)
  refine bind_eq_ok.mpr ⟨f, lift_eq_ok.mpr hRead, ?_⟩
  exact bind_eq_ok.mpr ⟨(), mapError_eq_ok.mpr hf.sorted, rfl⟩

theorem predicates_of_strip {fs : List Formula} (hfs : ∀ f ∈ fs, StorablePredicate p f)
    (h : e.strip = (predicatesToSexpr keyword fs).strip) : predicates p keyword e = .ok fs := by
  obtain ⟨items, hEntry, hItems⟩ := entry_of_strip h (by simp : ∀ n ∈ none, n = _)
  refine bind_eq_ok.mpr ⟨items, hEntry, mapM_eq_ok.mpr ?_⟩
  exact forall₂_of_strip hItems fun f hf e he => predicate_of_strip (hfs f hf) he

theorem diagramVar_of_strip (hSort : p.hasSort v.sort = true) (h : e.strip = v.toSexpr.strip) :
    diagramVar p e = .ok v := by
  obtain ⟨line, nameLine, items, rfl, hItems⟩ := exists_list_of_strip h
  obtain ⟨sort, rfl, hName⟩ := map_eq_singleton_iff.mp hItems
  refine bind_eq_ok.mpr ⟨v.sort, atom_eq_ok.mpr hName, ?_⟩
  refine guard_eq_ok.mpr ⟨by simp [hSort], ?_⟩
  exact bind_eq_ok.mpr ⟨v.name, rfl, rfl⟩

theorem choice_of_strip {yes no : String} {on : Bool} (hDiffer : no ≠ yes)
    (h : e.strip = .ofName (if on then yes else no)) : choice yes no e = .ok on := by
  refine bind_eq_ok.mpr ⟨_, atom_eq_ok.mpr h, ?_⟩
  cases on with
  | true => simp [pure, Except.pure]
  | false => simp [hDiffer, pure, Except.pure]

theorem diagramConjunct_of_strip {vars : List Var}
    (hSorted : p.check (Formula.thereIs vars c.formula) .singleState = .ok ())
    (hLegible : Formula.read c.formula.render = .ok c.formula)
    (h : e.strip = (conjunctToSexpr c).strip) : diagramConjunct p vars e = .ok c := by
  obtain ⟨line, kindLine, items, rfl, hItems⟩ := exists_list_of_strip h
  obtain ⟨on, rest, rfl, hOn, hRest⟩ := map_eq_cons_iff.mp hItems
  obtain ⟨formula, rfl, hFormula⟩ := map_eq_singleton_iff.mp hRest
  have hRead := Formula.ofSexpr_congr hFormula (Formula.ofSexpr_toSexpr_of_read hLegible)
  have hKind : conjunctKind (.atom kindLine c.kind.word) = .ok c.kind := by
    refine bind_eq_ok.mpr ⟨c.kind.word, rfl, ?_⟩
    cases c.kind <;> rfl
  simp only [diagramConjunct, bind_eq_ok, lift_eq_ok, mapError_eq_ok]
  exact ⟨c.formula, hRead, (), hSorted, c.kind, hKind, c.enabled, choice_of_strip (by decide) hOn, rfl⟩

/-- **An obligation is read back**: its frame, its parent, its kind, its transition and its
diagram. -/
theorem obligation_of_strip (ho : StorableObligation p o) (hParent : root ≤ o.parent)
    (h : e.strip = (obligationToSexpr o).strip) : obligation p e = .ok o := by
  obtain ⟨items, hEntry, hItems⟩ := entry_of_strip h (by simp : ∀ n ∈ some 6, n = _)
  simp only [map_cons, map_nil, map_eq_cons_iff, map_eq_nil_iff] at hItems
  obtain ⟨e₁, _, rfl, h₁, e₂, _, rfl, h₂, e₃, _, rfl, h₃, e₄, _, rfl, h₄, e₅, _, rfl, h₅, e₆, _,
    rfl, h₆, rfl⟩ := hItems
  have hNat : (UInt64.ofNat o.frame).toNat = o.frame :=
    UInt64.toNat_ofNat_of_lt' (Nat.lt_trans ho.frame (by decide))
  have hDecimal : Decimal (toString o.frame) (UInt64.ofNat o.frame).toNat := by
    rw [hNat]
    exact decimal_toString _
  obtain ⟨varLine, varItems, rfl, hVarItems⟩ := strip_eq_ofItems.mp
    (h₅.trans (strip_ofItems _))
  obtain ⟨conjunctLine, conjunctItems, rfl, hConjunctItems⟩ := strip_eq_ofItems.mp
    (h₆.trans (strip_ofItems _))
  have hVars : varItems.mapM (diagramVar p) = .ok o.diagram.vars := by
    refine mapM_eq_ok.mpr (forall₂_of_strip hVarItems fun v hv e he => ?_)
    exact diagramVar_of_strip (ho.vars v hv).2 he
  have hConjuncts : conjunctItems.mapM (diagramConjunct p o.diagram.vars) =
      .ok o.diagram.conjuncts := by
    refine mapM_eq_ok.mpr (forall₂_of_strip hConjunctItems fun c hc e he => ?_)
    exact diagramConjunct_of_strip (ho.sorted c hc) (ho.legible c hc) he
  -- The word for no transition is no transition's name.
  have hTransition : (if transitionWord o = noTransition then "" else transitionWord o) =
      o.transition := by
    unfold transitionWord
    by_cases hEmpty : o.transition = ""
    · rw [if_pos hEmpty, if_pos rfl, hEmpty]
    · rw [if_neg hEmpty, if_neg ho.named]
  refine bind_eq_ok.mpr ⟨_, hEntry, ?_⟩
  simp only [bind_eq_ok, pure_eq_ok]
  exact ⟨_, number_eq_ok.mpr ⟨_, h₁, hDecimal⟩, _,
    parentIndex_eq_ok.mpr ⟨_, h₂, denotesParent_toString hParent ho.parent⟩, _,
    choice_of_strip (by decide) h₃, _, atom_eq_ok.mpr h₄, varItems, rfl, _, hVars, conjunctItems, rfl,
    _, hConjuncts, by rw [UInt64.toNat_toUInt32, hNat, Nat.mod_eq_of_lt ho.frame, hTransition]⟩

theorem isEntry_of_mem {α : Type} {as : List α} {word : String} {args : α → List Sexpr}
    {items : List Sexpr}
    (h : items.map strip = (as.map fun a => entryToSexpr word (args a)).map strip) (he : e ∈ items) :
    isEntry keyword e = (word == keyword) := by
  have hIn := mem_map_of_mem (f := strip) he
  rw [h, map_map] at hIn
  obtain ⟨a, -, hEq⟩ := mem_map.mp hIn
  obtain ⟨line, wordLine, items, rfl, -⟩ := exists_list_of_strip hEq.symm
  rfl

/-- **A storable state is read back from what it is written as.** -/
theorem ofSexpr_of_strip (hs : Storable p s) (h : e.strip = (toSexpr p s).strip) :
    ofSexpr p e = .ok s := by
  obtain ⟨line, wordLine, items, rfl, hItems⟩ := exists_list_of_strip h
  simp only [map_cons, map_append, map_eq_cons_iff, map_eq_append_iff] at hItems
  -- What follows the log is cut where the frames end.
  obtain ⟨e₁, _, rfl, h₁, e₂, _, rfl, h₂, e₃, _, rfl, h₃, e₄, _, rfl, h₄, frameItems, obligationItems,
    rfl, hFrameItems, hObligationItems⟩ := hItems
  have hVersion : numberEntry "version" "a version" e₁ = .ok 1 := numberEntry_of_strip h₁
  have hPrint : numberEntry "fingerprint" "a fingerprint" e₂ = .ok p.fingerprint :=
    numberEntry_of_strip h₂
  obtain ⟨counters, hEntry, hCounters⟩ := entry_of_strip h₃ (by simp : ∀ n ∈ some 3, n = _)
  simp only [map_cons, map_nil, map_eq_cons_iff, map_eq_nil_iff] at hCounters
  obtain ⟨c₁, _, rfl, hc₁, c₂, _, rfl, hc₂, c₃, _, rfl, hc₃, rfl⟩ := hCounters
  have hLog : predicates p "log" e₄ = .ok s.log := predicates_of_strip hs.log h₄
  have hFrame : ∀ e ∈ frameItems, isEntry "frame" e = true := fun e he =>
    (isEntry_of_mem hFrameItems he).trans (by decide)
  have hOther : ∀ e ∈ obligationItems, isEntry "frame" e = false := fun e he =>
    (isEntry_of_mem hObligationItems he).trans (by decide)
  have hTake : (frameItems ++ obligationItems).takeWhile (isEntry "frame") = frameItems := by
    rw [takeWhile_append_of_pos hFrame, takeWhile_eq_nil_iff.mpr fun h => by simp [hOther],
      append_nil]
  have hDrop : (frameItems ++ obligationItems).dropWhile (isEntry "frame") = obligationItems := by
    rw [dropWhile_append_of_pos hFrame, dropWhile_eq_self_iff.mpr fun h => by simp [hOther]]
  have hFrames : frameItems.mapM (predicates p "frame") = .ok s.frames :=
    mapM_eq_ok.mpr (forall₂_of_strip hFrameItems fun frame hf e he =>
      predicates_of_strip (hs.frames frame hf) he)
  have hObligations : obligationItems.mapM (obligation p) = .ok s.obligations :=
    mapM_eq_ok.mpr (forall₂_of_strip hObligationItems fun o ho e he =>
      obligation_of_strip (hs.obligations o ho) (hs.consistent.root_le_parent ho) he)
  unfold ofSexpr
  dsimp only
  refine guard_eq_ok.mpr ⟨not_not.mpr rfl, bind_eq_ok.mpr ⟨1, hVersion, ?_⟩⟩
  refine guard_eq_ok.mpr ⟨not_not.mpr rfl, bind_eq_ok.mpr ⟨p.fingerprint, hPrint, ?_⟩⟩
  refine guard_eq_ok.mpr ⟨not_not.mpr rfl, bind_eq_ok.mpr ⟨_, hEntry, ?_⟩⟩
  simp only [bind_eq_ok, hTake, hDrop]
  refine ⟨_, number_of_strip hc₁, _, number_of_strip hc₂, _, number_of_strip hc₃, _, hLog,
    _, hFrames, _, hObligations, ?_⟩
  rw [stateFault?_eq_none hs.consistent]
  rfl

/-! ## Saving and restoring -/

theorem normalize_of_nodup (hFrames : ∀ frame ∈ s.frames, frame.Nodup) (hLog : s.log.Nodup) :
    s.normalize = s := by
  have hSame : s.frames.map distinctFormulas = s.frames :=
    (map_congr_left fun frame hFrame => foldl_insertNew [] (hFrames frame hFrame)).trans
      (map_id s.frames)
  have hKept : distinctFormulas s.log = s.log := foldl_insertNew [] hLog
  rw [SearchState.normalize, hSame, hKept]

/-- **A storable state is read back from its checkpoint.** -/
theorem read_of_storable (h : Storable p s) (source : String) :
    read p source (render p s) = .ok s := by
  have hCut : cut .between (render p s).toList = tokensOf [toSexpr p s] := by
    rw [(spellsOut_render h).cut_eq, tokensOf, tokensOf, append_nil]
  obtain ⟨items, hStrip, hRead⟩ := exists_read hCut
  obtain ⟨e, rfl, he⟩ := map_eq_singleton_iff.mp hStrip
  have hAll : readAll (render p s) = .ok [e] := by
    rw [readAll, hRead]
  rw [read, hAll]
  exact mapError_eq_ok.mpr (ofSexpr_of_strip h he)

/-- **A state that is saved comes back as it was**: the same frames, log, counters and obligations
are read from its checkpoint. Where it lists nothing twice, restoring it makes it the state of any
search, which is otherwise left as it is. -/
theorem restore_saved {p : Program} {s : SearchState} (h : Storable p s) (source : String) :
    read p source (render p s) = .ok s ∧
      ((∀ frame ∈ s.frames, frame.Nodup) → s.log.Nodup → ∀ (session : Session) (search : Search),
        ∃ session', Search.restore s (session, search) =
          .ok () (session', { search with state := s })) := by
  constructor
  · exact read_of_storable h source
  · intro hFrames hLog session search
    have hCount : s.frames.length ≠ 1 := by
      have hTwo := h.consistent.frames
      omega
    unfold Search.restore
    rw [if_neg hCount, normalize_of_nodup hFrames hLog]
    exact ⟨_, rfl⟩

/-- A lamp room: some lamps may be broken, and a step may break one. -/
def lampRoom : Program :=
  { Program.empty with
    sorts := ["lamp"]
    symbols := [⟨"broken", .relation ["lamp"] none, true⟩]
    transitions := [⟨"drop", [], ⟨["broken"]⟩, .bool true⟩]
    validated := true }

/-- No lamp is broken. -/
def allWork : Formula := .all [⟨"x", "lamp"⟩] (.not (.app "broken" [.id "x"]))

/-- A state with a literal that is off, a diagram that says nothing, a root and a predecessor of
it. -/
def roomState : SearchState where
  frames := [[allWork, .bool true], [allWork]]
  log := [.bool true, allWork]
  learned := 3
  distinct := 2
  iterations := 1
  obligations :=
    [⟨1, ⟨[⟨"x", "lamp"⟩], [⟨.relation, false, .app "broken" [.id "x"]⟩]⟩, "", -1, true⟩,
      ⟨0, ⟨[], []⟩, "drop", 0, true⟩]

theorem storable_roomState : Storable lampRoom roomState := by
  have hWork : StorablePredicate lampRoom allWork := ⟨by decide, by decide +kernel⟩
  have hTrue : StorablePredicate lampRoom (.bool true) := ⟨by decide, by decide +kernel⟩
  refine ⟨⟨by decide, ?_, by decide, ?_, by decide⟩, ?_, ?_, ?_⟩
  · intro i frame next hFrame hNext
    match i with
    | 0 =>
      obtain rfl : [allWork, .bool true] = frame := by simpa [roomState] using hFrame
      obtain rfl : [allWork] = next := by simpa [roomState] using hNext
      simp
    | i + 1 => simp [roomState] at hNext
  · intro i o ho
    match i with
    | 0 =>
      obtain rfl := Option.some.inj ho
      exact Or.inl rfl
    | 1 =>
      obtain rfl := Option.some.inj ho
      exact Or.inr ⟨0, _, rfl, by decide, rfl, rfl, rfl⟩
    | i + 2 => simp [roomState] at ho
  · simp [roomState, hWork, hTrue]
  · simp [roomState, hWork, hTrue]
  · intro o ho
    simp only [roomState, mem_cons, not_mem_nil, or_false] at ho
    rcases ho with rfl | rfl
    · refine ⟨by decide, by decide, Or.inl rfl, by decide, ?_, ?_, ?_⟩
      · simpa using ⟨⟨by decide, by decide⟩, by decide⟩
      · simpa using by decide
      · simpa using by decide +kernel
    · exact ⟨by decide, by decide, Or.inr (by decide), by decide, by simp, by simp, by simp⟩

theorem restore_saved_roomState :
    Storable lampRoom roomState ∧
      read lampRoom "room" (render lampRoom roomState) = .ok roomState ∧
      ∃ session', Search.restore roomState (Search.sessionOf lampRoom [], Search.coreless allWork) =
        .ok () (session', { Search.coreless allWork with state := roomState }) := by
  obtain ⟨hRead, hRestore⟩ := restore_saved storable_roomState "room"
  exact ⟨storable_roomState, hRead, hRestore (by decide) (by decide) _ _⟩

end Checkpoint

end InvariantSearch
