import InvariantSearch.Proofs.Meaning.Names
import InvariantSearch.Proofs.Program.Declared

/-!
# The names of symbols in states

A mutable symbol has a name in each state of a run, made of a label, the key of the
state, and its own name. An immutable symbol keeps its own name.

* `Encoding.Clashes` — an immutable symbol is named as a mutable one is named in a
  state.

Main result: `symbolName_eq_iff` says that nothing else makes two names the same.
Nothing keeps a program from declaring such symbols, so clashes do occur
(`exists_clash`).
-/

namespace InvariantSearch

namespace Encoding

/-- The name of a mutable symbol in a state of a run. -/
def stepName (label : String) (index : Nat) (name : String) : String :=
  label ++ ("s" ++ toString index) ++ "_" ++ name

/-- **A name in a state tells the state and the symbol**: the number of the state ends at the
first underscore after it. -/
theorem stepName_injective {label name name' : String} {i j : Nat}
    (h : stepName label i name = stepName label j name') : i = j ∧ name = name' := by
  have hTail : (toString i).toList ++ '_' :: name.toList =
      (toString j).toList ++ '_' :: name'.toList := by
    have hList := congrArg String.toList h
    simp only [stepName, String.toList_append, List.append_assoc] at hList
    simpa using hList
  obtain ⟨hIndex, hName⟩ := append_cons_inj (Diagram.underscore_not_mem_toString i)
    (Diagram.underscore_not_mem_toString j) hTail
  exact ⟨toString_injective (String.toList_inj.mp hIndex), String.toList_inj.mp hName⟩

theorem getElem?_stepKeys {count index : Nat} (h : index < count) :
    (stepKeys count)[index]? = some ("s" ++ toString index) := by
  simp [stepKeys, h]

theorem symbolName_stepKeys (p : Program) (label : String) {count index : Nat}
    (h : index < count) (x : Symbol) :
    symbolName ⟨p, label, stepKeys count⟩ x index =
      .ok (if x.isMutable then stepName label index x.name else x.name) := by
  rw [symbolName, getElem?_stepKeys h]
  split <;> rfl

/-- An immutable symbol is named as a mutable one is named in a state. -/
def Clashes (label : String) (x y : Symbol) (index : Nat) : Prop :=
  x.isMutable = false ∧ y.isMutable = true ∧ x.name = stepName label index y.name

instance (label : String) (x y : Symbol) (index : Nat) : Decidable (Clashes label x y index) :=
  inferInstanceAs (Decidable (_ ∧ _ ∧ _))

/-- **Two names are the same only where they name the same**, unless an immutable symbol is
named as a mutable one is in a state. Names in different states differ, whatever the label and
however many states there are. -/
theorem symbolName_eq_iff {text : String} {p : Program} (hRead : Program.read text = .ok p)
    (label : String) (count : Nat) {x y : Symbol} (hx : x ∈ p.symbols) (hy : y ∈ p.symbols)
    {i j : Nat} (hi : i < count) (hj : j < count) :
    symbolName ⟨p, label, stepKeys count⟩ x i = symbolName ⟨p, label, stepKeys count⟩ y j ↔
      (x = y ∧ (x.isMutable = true → i = j)) ∨ Clashes label x y j ∨ Clashes label y x i := by
  have hSame : x.name = y.name → x = y :=
    List.inj_on_of_nodup_map (Program.Declared.of_read hRead).nodup_names hx hy
  rw [symbolName_stepKeys p label hi, symbolName_stepKeys p label hj, Except.ok.injEq]
  constructor
  · intro h
    cases hMutable : x.isMutable <;> cases hMutable' : y.isMutable <;>
      simp only [hMutable, hMutable', if_true, if_false, Bool.false_eq_true] at h
    · exact Or.inl ⟨hSame h, fun hTrue => by cases hTrue⟩
    · exact Or.inr (Or.inl ⟨hMutable, hMutable', h⟩)
    · exact Or.inr (Or.inr ⟨hMutable', hMutable, h.symm⟩)
    · obtain ⟨rfl, hName⟩ := stepName_injective h
      exact Or.inl ⟨hSame hName, fun _ => rfl⟩
  · rintro (⟨rfl, hIndex⟩ | ⟨hx, hy, hName⟩ | ⟨hy, hx, hName⟩)
    · split
      · rename_i hMutable
        rw [hIndex hMutable]
      · rfl
    · simp [hx, hy, hName]
    · simp [hx, hy, hName]

/-- A mutable relation has different names in the first two states of a run. -/
theorem symbolName_ne_broken :
    let p : Program := { Program.empty with
      symbols := [⟨"broken", .relation [] none, true⟩], validated := true }
    Program.read "(relation broken () mutable)" = .ok p ∧
      symbolName ⟨p, "q_", stepKeys 2⟩ ⟨"broken", .relation [] none, true⟩ 0 ≠
        symbolName ⟨p, "q_", stepKeys 2⟩ ⟨"broken", .relation [] none, true⟩ 1 := by
  intro p
  have hRead : Program.read "(relation broken () mutable)" = .ok p := rfl
  refine ⟨hRead, fun hEq => ?_⟩
  have hCases := (symbolName_eq_iff hRead "q_" 2 List.mem_cons_self List.mem_cons_self
    (by decide : 0 < 2) (by decide : 1 < 2)).mp hEq
  revert hCases
  decide

/-- **Clashes occur**: a program may declare an immutable relation with the name that a mutable
one has in the first state. Both are one symbol to the solver. -/
theorem exists_clash :
    let x : Symbol := ⟨"s0_x", .relation [] none, false⟩
    let y : Symbol := ⟨"x", .relation [] none, true⟩
    let p : Program := { Program.empty with symbols := [x, y], validated := true }
    Program.read "(relation s0_x () immutable) (relation x () mutable)" = .ok p ∧ x ≠ y ∧
      symbolName ⟨p, "", stepKeys 1⟩ x 0 = symbolName ⟨p, "", stepKeys 1⟩ y 0 ∧
      symbol ⟨p, "", stepKeys 1⟩ x 0 = symbol ⟨p, "", stepKeys 1⟩ y 0 :=
  ⟨rfl, by decide, by decide, by decide⟩

end Encoding

end InvariantSearch
