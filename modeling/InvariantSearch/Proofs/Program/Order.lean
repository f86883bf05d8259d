import InvariantSearch.Proofs.Program.Notation
import InvariantSearch.Proofs.Program.Declared
import Mathlib.Data.List.Perm.Basic

/-!
# Declarations of a text in any order

* `Rearranged` — two texts hold the same s-expressions, on whatever lines and in whatever order.
* `Program.SameDeclarations` — two programs declare the same, in whatever order.

Main result: `read_rearranged` says that of two rearranged texts both are programs or none is, and
that two such programs declare the same and accept the same formulas.
-/

namespace InvariantSearch

open List Sexpr

/-- Two texts hold the same s-expressions in some order, and are read to the end or not, alike. -/
structure Rearranged (a b : String) : Prop where
  items : ((read a).items.map strip).Perm ((read b).items.map strip)
  stopped : (read a).stopped.isNone = (read b).stopped.isNone

/-- Texts with the tokens of the same s-expressions, in some order, are rearranged. -/
theorem Rearranged.of_cut {a b : String} {es es' : List Sexpr} (h : es.Perm es')
    (ha : cut .between a.toList = tokensOf es) (hb : cut .between b.toList = tokensOf es') :
    Rearranged a b := by
  obtain ⟨items, hItems, hRead⟩ := exists_read ha
  obtain ⟨items', hItems', hRead'⟩ := exists_read hb
  refine ⟨?_, by rw [hRead, hRead']⟩
  rw [hRead, hRead', hItems, hItems']
  exact h.map strip

theorem Rearranged.symm {a b : String} (h : Rearranged a b) : Rearranged b a :=
  ⟨h.items.symm, h.stopped.symm⟩

namespace Program

variable {p q : Program}

/-- Two programs declare the same, in whatever order. -/
structure SameDeclarations (p q : Program) : Prop where
  sorts : p.sorts.Perm q.sorts
  symbols : p.symbols.Perm q.symbols
  axioms : p.axioms.Perm q.axioms
  inits : p.inits.Perm q.inits
  transitions : p.transitions.Perm q.transitions
  invariants : p.invariants.Perm q.invariants
  theorems : p.theorems.Perm q.theorems

namespace SameDeclarations

theorem of_perm {ds ds' : List Declaration} (h : ds.Perm ds') :
    (collect ds).SameDeclarations (collect ds') :=
  ⟨h.filterMap _, h.filterMap _, h.filterMap _, h.filterMap _, h.filterMap _, h.filterMap _,
    h.filterMap _⟩

theorem hasSort_eq (h : p.SameDeclarations q) (name : String) : q.hasSort name = p.hasSort name := by
  rw [hasSort, hasSort, Bool.eq_iff_iff, contains_iff_mem, contains_iff_mem, h.sorts.mem_iff]

/-- Names lead to the same symbols, as no two symbols have the same name. -/
theorem symbol?_eq (h : p.SameDeclarations q) (hp : p.Coherent) (hq : q.Coherent) (name : String) :
    q.symbol? name = p.symbol? name :=
  Option.ext fun x => by
    rw [hq.symbol?_iff, hp.symbol?_iff, h.symbols.mem_iff]

/-- Each check is made on its own, against the vocabulary of the whole program. -/
theorem checkAll (h : p.SameDeclarations q) (hp : p.Coherent) (hq : q.Coherent)
    (hChecked : p.checkAll = .ok ()) : q.checkAll = .ok () := by
  have hVocabulary := check_congr h.hasSort_eq (h.symbol?_eq hp hq)
  have hForM : ∀ {α : Type} {f g : α → Except ProgramFault PUnit} {as bs : List α},
      as.Perm bs → (∀ a, g a = f a) → as.forM f = .ok () → bs.forM g = .ok () := by
    intro α f g as bs hPerm hSame hAll
    rw [forM_eq_ok] at hAll ⊢
    exact fun b hb => (hSame b).trans (hAll b (hPerm.mem_iff.mpr hb))
  obtain ⟨_, hSymbols, hRest⟩ := bind_eq_ok.mp hChecked
  obtain ⟨_, hAxioms, hRest⟩ := bind_eq_ok.mp hRest
  obtain ⟨_, hInits, hRest⟩ := bind_eq_ok.mp hRest
  obtain ⟨_, hTransitions, hRest⟩ := bind_eq_ok.mp hRest
  obtain ⟨_, hInvariants, hTheorems⟩ := bind_eq_ok.mp hRest
  simp only [Program.checkAll, checkSection, hVocabulary] at *
  refine bind_eq_ok.mpr ⟨(), hForM h.symbols (checkSymbol_congr h.hasSort_eq
    (h.symbol?_eq hp hq)) hSymbols, bind_eq_ok.mpr ⟨(), hForM h.axioms (fun _ => rfl) hAxioms,
    bind_eq_ok.mpr ⟨(), hForM h.inits (fun _ => rfl) hInits, bind_eq_ok.mpr ⟨(), hForM
      h.transitions (checkTransition_congr h.hasSort_eq (h.symbol?_eq hp hq)) hTransitions,
      bind_eq_ok.mpr ⟨(), hForM h.invariants (fun _ => rfl) hInvariants,
        hForM h.theorems (fun _ => rfl) hTheorems⟩⟩⟩⟩⟩

end SameDeclarations

/-- What the items of a text are read as, those of a rearranged text are read as too. -/
theorem exists_declarations {items items' : List Sexpr} {ds : List Declaration}
    (h : (items'.map strip).Perm (items.map strip))
    (hds : Forall₂ (fun e d => Declaration.ofSexpr e = .ok d) items ds) :
    ∃ ds', Forall₂ (fun e d => Declaration.ofSexpr e = .ok d) items' ds' ∧ ds'.Perm ds := by
  -- lines decide nothing, so an item can be replaced by its place in the other text
  have hAll : Forall₂ Declaration.Reads (items.map strip) ds :=
    forall₂_map_left_iff.mpr (hds.imp fun _ _ => Declaration.ofSexpr_eq_ok.mp)
  obtain ⟨ds', hds', hPerm⟩ := perm_comp_forall₂ h hAll
  exact ⟨ds', (forall₂_map_left_iff.mp hds').imp fun _ _ => Declaration.ofSexpr_eq_ok.mpr, hPerm⟩

/-- Programs that declare the same accept the same formulas. -/
theorem SameDeclarations.check_eq (h : p.SameDeclarations q) (hp : p.Coherent) (hq : q.Coherent)
    (f : Formula) (context : FormulaContext) : q.check f context = p.check f context :=
  check_congr h.hasSort_eq (h.symbol?_eq hp hq) f context

/-- A text that can be rearranged into a program is one, and declares the same. -/
theorem exists_read_of_rearranged {a b : String} (h : Rearranged a b) (hRead : read a = .ok p) :
    ∃ q, read b = .ok q ∧ p.SameDeclarations q := by
  obtain ⟨items, ds, r, hItems, hds, hr, hValid⟩ := read_eq_ok.mp hRead
  obtain ⟨hPermitted, hNodup, rfl⟩ := foldlM_add_eq_ok.mp hr
  obtain ⟨hChecked, rfl⟩ := validate_eq_ok hValid
  obtain ⟨hPerm, hStopped⟩ := h
  rw [hItems] at hPerm hStopped
  obtain ⟨ds', hds', hSame⟩ := exists_declarations hPerm.symm hds
  have hFold : ds'.foldlM add empty = .ok (collect ds') :=
    foldlM_add_eq_ok.mpr ⟨fun d hd => hPermitted d (hSame.mem_iff.mp hd),
      (hSame.filterMap _).nodup_iff.mpr hNodup, rfl⟩
  have hCoherent : ∀ {ds}, ds.foldlM add empty = .ok (collect ds) → (collect ds).Coherent :=
    fun hFold => Made.coherent ⟨⟨_, hFold⟩, fun hOn => by cases hOn⟩
  have hDeclares := SameDeclarations.of_perm hSame.symm
  have hEnd : Sexpr.read b = ⟨(Sexpr.read b).items, none⟩ := by
    rw [← Option.isNone_iff_eq_none.mp hStopped.symm]
  refine ⟨{ collect ds' with validated := true },
    read_eq_ok.mpr ⟨_, ds', _, hEnd, hds', hFold, ?_⟩, { hDeclares with }⟩
  exact bind_eq_ok.mpr ⟨(), hDeclares.checkAll (hCoherent hr) (hCoherent hFold) hChecked, rfl⟩

/-- **The order of declarations does not matter.** Of two texts that hold the same declarations
both are programs or none is, and if they are, the programs declare the same and accept the same
formulas. -/
theorem read_rearranged {a b : String} (h : Rearranged a b) :
    ((∃ p, read a = .ok p) ↔ ∃ q, read b = .ok q) ∧
    ∀ p q, read a = .ok p → read b = .ok q →
      p.SameDeclarations q ∧ ∀ f context, q.check f context = p.check f context := by
  refine ⟨⟨fun ⟨p, hp⟩ => ?_, fun ⟨q, hq⟩ => ?_⟩, fun p q hp hq => ?_⟩
  · obtain ⟨q, hq, -⟩ := exists_read_of_rearranged h hp
    exact ⟨q, hq⟩
  · obtain ⟨p, hp, -⟩ := exists_read_of_rearranged h.symm hq
    exact ⟨p, hp⟩
  · obtain ⟨q', hq', hSame⟩ := exists_read_of_rearranged h hp
    obtain rfl : q' = q := Except.ok.inj (hq'.symm.trans hq)
    exact ⟨hSame, hSame.check_eq (Declared.of_read hp).made.coherent
      (Declared.of_read hq).made.coherent⟩

theorem read_rearranged_forward :
    let a := "(relation d () mutable (derived (not r)))(relation r () mutable)"
    let b := "(relation r () mutable)\n(relation d () mutable (derived (not r)))"
    Rearranged a b ∧ (∃ p, read a = .ok p) ∧ ∃ q, read b = .ok q := by
  intro a b
  let word : List Sexpr := [.ofItems [], .ofName "mutable"]
  let d : Sexpr := .ofItems (.ofName "relation" :: .ofName "d" :: word ++
    [.ofItems [.ofName "derived", .ofItems [.ofName "not", .ofName "r"]]])
  let r : Sexpr := .ofItems (.ofName "relation" :: .ofName "r" :: word)
  have h : Rearranged a b := .of_cut (.swap r d []) (by decide +kernel) (by decide +kernel)
  have hRead : ∃ p, read a = .ok p := by
    have hOk : (read a).isOk = true := by decide +kernel
    cases hResult : read a with
    | ok p => exact ⟨p, rfl⟩
    | error _ => simp [hResult, Except.isOk, Except.toBool] at hOk
  exact ⟨h, hRead, (read_rearranged h).1.mp hRead⟩

end Program

end InvariantSearch
