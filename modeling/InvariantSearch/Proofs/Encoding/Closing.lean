import InvariantSearch.Proofs.Encoding.Readback
import InvariantSearch.Proofs.Encoding.Sorting
import Mathlib.Data.List.Perm.Subperm

/-!
# Closing universes

A model may use elements that it does not list. They are found in rounds: a round adds the
values that constants and functions have at the elements found so far.

* `Encoding.Occurs` — the elements that have to be found.
* `SolverModel.Settled` — at these, all symbols have values, and there are finitely many of them.
* `Encoding.Found` — the elements that some number of rounds finds.
* `Encoding.Tower` — applications that are their own values, nested in each other.
* `Encoding.Stage` — what is known of the universes before and after each round.

Main result: `exists_closedUniverses` says that the rounds that are allowed are enough. An
element that is found late has one below it that was found a round earlier, and so on. In this
chain, an element of a table is a new one each time. Between two of them stands a tower, and a
tower is not higher than there are symbols: one in which a symbol came twice could be built up
for ever (`Tower.grow`).
-/

namespace InvariantSearch

open List SolverModel

variable {S : String → Term → Prop} {n : Nat}

section Lists

variable {ε α β : Type}

/-- A fold succeeds when each step does, and keeps what its steps have gained, if that lasts
while things only go upwards. -/
theorem foldlM_reaches {f : β → α → Except ε β} {as : List α} {P : β → Prop} {Q : α → β → Prop}
    {R : β → β → Prop} (hRefl : ∀ b, R b b) (hTrans : ∀ {a b c}, R a b → R b c → R a c)
    (hLasts : ∀ a {b b'}, R b b' → Q a b → Q a b')
    (hStep : ∀ a ∈ as, ∀ b, P b → ∃ b', f b a = .ok b' ∧ P b' ∧ R b b' ∧ Q a b')
    {b : β} (hb : P b) : ∃ b', as.foldlM f b = .ok b' ∧ P b' ∧ R b b' ∧ ∀ a ∈ as, Q a b' := by
  induction as generalizing b with
  | nil => exact ⟨b, rfl, hb, hRefl b, by simp⟩
  | cons a as ih =>
    obtain ⟨hHead, hTail⟩ := forall_mem_cons.mp hStep
    obtain ⟨c, hc, hP, hUp, hGain⟩ := hHead b hb
    obtain ⟨b', hRest, hP', hUp', hGains⟩ := ih hTail hP
    refine ⟨b', ?_, hP', hTrans hUp hUp', forall_mem_cons.mpr ⟨hLasts a hUp' hGain, hGains⟩⟩
    rw [foldlM_cons, hc]
    exact hRest

/-- Where not all pairs are in a relation, there is one of which the left side may be changed. -/
theorem forall₂_or_split {R T : α → β → Prop} {as : List α} {bs : List β} (h : Forall₂ R as bs) :
    Forall₂ T as bs ∨ ∃ before a after b, as = before ++ a :: after ∧ R a b ∧ ¬ T a b ∧
      ∀ S : α → β → Prop, (∀ a b, R a b → S a b) → ∀ a', S a' b →
        Forall₂ S (before ++ a' :: after) bs := by
  induction h with
  | nil => exact .inl .nil
  | @cons a b as bs hHead hTail ih =>
    by_cases hT : T a b
    · rcases ih with hAll | ⟨before, c, after, d, rfl, hR, hNot, hPut⟩
      · exact .inl (.cons hT hAll)
      · exact .inr ⟨a :: before, c, after, d, rfl, hR, hNot,
          fun S hS c' hc' => .cons (hS a b hHead) (hPut S hS c' hc')⟩
    · exact .inr ⟨[], a, as, b, rfl, hHead, hT, fun S hS a' ha' => .cons ha' (hTail.imp hS)⟩

theorem length_flatMap_le {l : List α} {f : α → List β} {c : Nat}
    (h : ∀ a ∈ l, (f a).length ≤ c) : (l.flatMap f).length ≤ l.length * c := by
  induction l with
  | nil => simp
  | cons a l ih =>
    rw [forall_mem_cons] at h
    have hRest := ih h.2
    rw [flatMap_cons, length_append, length_cons, Nat.succ_mul]
    omega

end Lists

namespace Universes

variable {u u' u'' : Universes}

/-- Elements were added at the ends of universes. -/
structure Begins (u u' : Universes) : Prop where
  sorts : u'.map Prod.fst = u.map Prod.fst
  elements : ∀ sort, u.of sort <+: u'.of sort

theorem Begins.refl (u : Universes) : u.Begins u := ⟨rfl, fun _ => prefix_rfl⟩

theorem Begins.trans (h : u.Begins u') (h' : u'.Begins u'') : u.Begins u'' :=
  ⟨h'.sorts.trans h.sorts, fun sort => (h.elements sort).trans (h'.elements sort)⟩

theorem lookup_add (u : Universes) (sort sort' : String) (found : List Term) :
    (u.add sort found).lookup sort' =
      (u.lookup sort').map (· ++ if sort' = sort then found else []) := by
  induction u with
  | nil => rfl
  | cons entry u ih =>
    have hAdd : add (entry :: u) sort found =
        (entry.1, entry.2 ++ if entry.1 = sort then found else []) :: Universes.add u sort found := by
      rw [add, map_cons]
      by_cases hSort : entry.1 = sort
      · rw [if_pos hSort, if_pos hSort, hSort]
        rfl
      · rw [if_neg hSort, if_neg hSort, append_nil]
        rfl
    rw [hAdd]
    by_cases hEntry : sort' = entry.1
    · rw [hEntry, lookup_cons_self, show entry = (entry.1, entry.2) from rfl, lookup_cons_self]
      rfl
    · rw [Encoding.lookup_cons_of_ne hEntry, ih, show entry = (entry.1, entry.2) from rfl,
        Encoding.lookup_cons_of_ne hEntry]

theorem of_add {sort : String} (hSort : sort ∈ u.map Prod.fst) (sort' : String)
    (found : List Term) :
    (u.add sort found).of sort' = u.of sort' ++ if sort' = sort then found else [] := by
  rw [of, of, lookup_add]
  cases hLookup : u.lookup sort' with
  | some elements => rfl
  | none =>
    have hNe : sort' ≠ sort := by
      rintro rfl
      obtain ⟨entry, hEntry, hEq⟩ := mem_map.mp hSort
      exact absurd (lookup_eq_none_iff.mp hLookup entry hEntry) (by simp [hEq])
    rw [if_neg hNe]
    rfl

theorem begins_add {sort : String} (hSort : sort ∈ u.map Prod.fst) (found : List Term) :
    u.Begins (u.add sort found) := by
  refine ⟨?_, fun sort' => by rw [of_add hSort]; exact prefix_append _ _⟩
  rw [add, map_map]
  refine map_congr_left fun entry _ => ?_
  by_cases hEntry : entry.1 = sort
  · exact (congrArg Prod.fst (if_pos hEntry)).trans hEntry.symm
  · exact congrArg Prod.fst (if_neg hEntry)

end Universes

/-! ## Answers of a model -/

namespace SolverModel

variable {m : SolverModel} {f : SolverSymbol}

/-- What the tables can say of a symbol: an entry, the default, or the completion. -/
def answers (m : SolverModel) (f : SolverSymbol) : List TableValue :=
  ((m.tables.lookup f.name).map fun table =>
    table.entries.map Prod.snd ++ table.otherwise.toList).getD [] ++ [completion f.range]

theorem length_answers_le (m : SolverModel) (f : SolverSymbol) :
    (m.answers f).length ≤ (m.tables.flatMap fun table => table.2.entries).length + 2 := by
  unfold answers
  cases hLookup : m.tables.lookup f.name with
  | none => simp
  | some table =>
    have hIn : (f.name, table) ∈ m.tables := mem_of_lookup hLookup
    have hEntries : table.entries.length ≤
        (m.tables.flatMap fun table => table.2.entries).length :=
      (sublist_flatten_of_mem
        (mem_map_of_mem (f := fun table => table.2.entries) hIn)).length_le
    have hDefault : table.otherwise.toList.length ≤ 1 := by
      cases table.otherwise <;> simp
    simp only [Option.map_some, Option.getD_some, length_append, length_map,
      length_singleton]
    omega

/-- The value of a symbol by an answer. -/
def answered (f : SolverSymbol) (args : List Term) : TableValue → Except ModelFault Term
  | .bool value => .ok (.bool value)
  | .element index => .ok (.element f.range index)
  | .unevaluated => .ok (.app f args)
  | .failing => .error (.noValue (.app f args))

theorem exists_answer (m : SolverModel) (f : SolverSymbol) (args : List Term) :
    ∃ answer ∈ m.answers f, m.evaluate f args = answered f args answer := by
  refine ⟨_, ?_, rfl⟩
  unfold answers
  cases hLookup : m.tables.lookup f.name with
  | none => simp
  | some table =>
    simp only [Option.bind_some, Option.map_some, Option.getD_some, mem_append]
    cases hValue : tableValue? table args with
    | none => exact .inr mem_cons_self
    | some value =>
      refine .inl ?_
      have hDefault : table.otherwise = some value → value ∈ table.otherwise.toList := by
        intro hEq
        rw [hEq]
        exact mem_cons_self
      unfold tableValue? at hValue
      split at hValue
      · split at hValue
        · rename_i key _ entry hEntry
          obtain rfl := Option.some.inj hValue
          exact .inl (mem_map.mpr ⟨_, mem_of_lookup hEntry, rfl⟩)
        · exact .inr (hDefault hValue)
      · exact .inr (hDefault hValue)

/-- An answer is a truth value or an element, as the range of a symbol asks. -/
def suits : TableValue → SolverSort → Bool
  | .bool _, .bool => true
  | .element _, .named _ => true
  | _, _ => false

end SolverModel

/-- An element of a sort occurs in a model: it is listed, or it is the value of a constant or
function at elements that occur. -/
inductive Encoding.Occurs (e : Encoding) (m : SolverModel) : String → Term → Prop
  | listed {sort : String} {v : Term} (hSort : sort ∈ e.program.sorts)
      (h : v ∈ m.elements (.named (beforeNul sort))) : Occurs e m sort v
  | value {x : Symbol} {index : Nat} {f : SolverSymbol} {args : List Term} {v : Term}
      (hx : x ∈ e.program.symbols) (hRelation : x.isRelation = false)
      (hIndex : index < e.instances x) (hf : e.symbol x index = .ok f)
      (hArgs : Forall₂ (fun a sort => Occurs e m sort a) args x.args)
      (hv : m.evaluate f args = .ok v) : Occurs e m x.result v

/-- At the elements that occur in a model, relations have truth values, and constants and
functions have elements as values. -/
structure SolverModel.Decides (m : SolverModel) (e : Encoding) : Prop where
  relations : ∀ x ∈ e.program.symbols, x.isRelation = true → ∀ index < e.instances x,
    ∀ f, e.symbol x index = .ok f → ∀ args,
      Forall₂ (fun a sort => e.Occurs m sort a) args x.args →
        ∃ b, m.evaluate f args = .ok (.bool b)
  functions : ∀ x ∈ e.program.symbols, x.isRelation = false → ∀ index < e.instances x,
    ∀ f, e.symbol x index = .ok f → ∀ args,
      Forall₂ (fun a sort => e.Occurs m sort a) args x.args →
        ∃ i, m.evaluate f args = .ok (.element f.range i)

/-- At the elements that occur in a model, relations have truth values and constants and
functions have values. There are finitely many of these elements. -/
structure SolverModel.Settled (m : SolverModel) (e : Encoding) : Prop where
  relations : ∀ x ∈ e.program.symbols, x.isRelation = true → ∀ index < e.instances x,
    ∀ f, e.symbol x index = .ok f → ∀ args,
      Forall₂ (fun a sort => e.Occurs m sort a) args x.args →
        ∃ b, m.evaluate f args = .ok (.bool b)
  functions : ∀ x ∈ e.program.symbols, x.isRelation = false → ∀ index < e.instances x,
    ∀ f, e.symbol x index = .ok f → ∀ args,
      Forall₂ (fun a sort => e.Occurs m sort a) args x.args → ∃ v, m.evaluate f args = .ok v
  finite : ∀ sort, ∃ vs : List Term, ∀ v, e.Occurs m sort v → v ∈ vs

namespace Encoding

variable {e : Encoding} {m : SolverModel} {u u' : Universes} {x : Symbol} {index : Nat}
  {f : SolverSymbol} {args : List Term} {sort : String} {v : Term}

/-! ## Values -/

theorem decides_of_suits (hFitting : ∀ x ∈ e.program.symbols, e.program.Fitting x)
    (h : ∀ x ∈ e.program.symbols, ∀ index < e.instances x,
      ∀ f ∈ (e.symbol x index).toOption, ∀ answer ∈ m.answers f,
        suits answer f.range = true) : m.Decides e := by
  have hAnswer : ∀ x ∈ e.program.symbols, ∀ index < e.instances x, ∀ f,
      e.symbol x index = .ok f → ∀ args, ∃ answer, suits answer f.range = true ∧
        m.evaluate f args = answered f args answer := by
    intro x hx index hIndex f hf args
    obtain ⟨answer, hIn, hEvaluate⟩ := m.exists_answer f args
    exact ⟨answer, h x hx index hIndex f (by rw [hf]; rfl) answer hIn, hEvaluate⟩
  refine ⟨fun x hx hRelation index hIndex f hf args _ => ?_,
    fun x hx hRelation index hIndex f hf args _ => ?_⟩
  · obtain ⟨answer, hSuits, hEvaluate⟩ := hAnswer x hx index hIndex f hf args
    rw [(symbol_sorts (hFitting x hx) hf).2, if_pos hRelation] at hSuits
    cases answer <;> cases hSuits
    exact ⟨_, hEvaluate⟩
  · obtain ⟨answer, hSuits, hEvaluate⟩ := hAnswer x hx index hIndex f hf args
    rw [(symbol_sorts (hFitting x hx) hf).2, if_neg (by simp [hRelation])] at hSuits
    cases answer <;> cases hSuits
    exact ⟨_, hEvaluate⟩

/-- A constant or function has a value in a state, at some of the elements. -/
structure Applies (e : Encoding) (m : SolverModel) (S : String → Term → Prop) (x : Symbol)
    (index : Nat) (f : SolverSymbol) (args : List Term) (v : Term) : Prop where
  declared : x ∈ e.program.symbols
  function : x.isRelation = false
  index_lt : index < e.instances x
  symbol : e.symbol x index = .ok f
  sorted : Forall₂ (fun a sort => S sort a) args x.args
  value : m.evaluate f args = .ok v

theorem Applies.imp {S' : String → Term → Prop} (h : e.Applies m S x index f args v)
    (hImp : ∀ sort a, S sort a → S' sort a) : e.Applies m S' x index f args v :=
  { h with sorted := h.sorted.imp fun a sort => hImp sort a }

theorem Applies.occurs (h : e.Applies m (e.Occurs m) x index f args v) :
    e.Occurs m x.result v :=
  .value h.declared h.function h.index_lt h.symbol h.sorted h.value

theorem Applies.mem_places (h : e.Applies m S x index f args v) : (x, index) ∈ e.places :=
  mem_flatMap.mpr ⟨x, h.declared, mem_map_of_mem (mem_range.mpr h.index_lt)⟩

theorem instances_lt (h : index < e.instances x) : x.isMutable = true → index < e.keys.length := by
  intro hMutable
  rwa [instances, if_pos hMutable] at h

/-- What the tables can answer with for a symbol in a state, applications apart. -/
def offers (e : Encoding) (m : SolverModel) (place : Symbol × Nat) : List (String × Term) :=
  match e.symbol place.1 place.2 with
  | .ok f => (m.answers f).filterMap fun
    | .bool b => some (place.1.result, .bool b)
    | .element i => some (place.1.result, .element f.range i)
    | _ => none
  | .error _ => []

/-- Everything that the tables can answer with, applications apart. -/
def pool (e : Encoding) (m : SolverModel) : List (String × Term) := e.places.flatMap (e.offers m)

theorem length_pool_le (e : Encoding) (m : SolverModel) : (e.pool m).length ≤
    e.places.length * ((m.tables.flatMap fun table => table.2.entries).length + 2) := by
  refine length_flatMap_le fun place _ => ?_
  unfold offers
  split
  · exact Nat.le_trans (length_filterMap_le _ _) (m.length_answers_le _)
  · exact Nat.zero_le _

theorem Applies.eq_app_or_mem_pool (h : e.Applies m S x index f args v) :
    v = .app f args ∨ (x.result, v) ∈ e.pool m := by
  obtain ⟨answer, hAnswer, hValue⟩ := m.exists_answer f args
  have hPool : ∀ w, (x.result, w) ∈ e.offers m (x, index) → (x.result, w) ∈ e.pool m :=
    fun w hw => mem_flatMap.mpr ⟨(x, index), h.mem_places, hw⟩
  rw [h.value] at hValue
  simp only [offers, h.symbol, mem_filterMap] at hPool
  cases answer with
  | bool b =>
    obtain rfl := Except.ok.inj hValue
    exact .inr (hPool _ ⟨_, hAnswer, rfl⟩)
  | element i =>
    obtain rfl := Except.ok.inj hValue
    exact .inr (hPool _ ⟨_, hAnswer, rfl⟩)
  | unevaluated => exact .inl (Except.ok.inj hValue)
  | failing => cases hValue

theorem settled_of_decides (h : m.Decides e) : m.Settled e where
  relations := h.relations
  functions x hx hRelation index hIndex f hf args hArgs := by
    obtain ⟨i, hi⟩ := h.functions x hx hRelation index hIndex f hf args hArgs
    exact ⟨_, hi⟩
  finite sort := by
    refine ⟨m.elements (.named (beforeNul sort)) ++ (e.pool m).map Prod.snd, fun v hv => ?_⟩
    cases hv with
    | listed _ hv => exact mem_append_left _ hv
    | @value x index f args v hx hRelation hIndex hf hArgs hv =>
      refine mem_append_right _ (mem_map.mpr ⟨(x.result, v), ?_, rfl⟩)
      have hApplies : e.Applies m (e.Occurs m) x index f args v :=
        ⟨hx, hRelation, hIndex, hf, hArgs, hv⟩
      refine hApplies.eq_app_or_mem_pool.resolve_left fun hApp => ?_
      obtain ⟨i, hi⟩ := h.functions x hx hRelation index hIndex f hf args hArgs
      rw [hv, hApp] at hi
      cases hi

theorem Occurs.mem_of_closed
    (hListed : ∀ sort ∈ e.program.sorts, ∀ v ∈ m.elements (.named (beforeNul sort)), v ∈ u.of sort)
    (hClosed : ∀ x index f args v, e.Applies m (fun sort a => a ∈ u.of sort) x index f args v →
      v ∈ u.of x.result) (h : e.Occurs m sort v) : v ∈ u.of sort :=
  @Occurs.rec e m (fun sort v _ => v ∈ u.of sort)
    (fun args sorts _ => Forall₂ (fun a sort => a ∈ u.of sort) args sorts)
    (fun hSort hv => hListed _ hSort _ hv)
    (fun hx hRelation hIndex hf _ hv ih => hClosed _ _ _ _ _ ⟨hx, hRelation, hIndex, hf, ih, hv⟩)
    .nil (fun _ _ hHead hTail => .cons hHead hTail) sort v h

theorem settled_of_closed (u : Universes)
    (hListed : ∀ sort ∈ e.program.sorts, ∀ v ∈ m.elements (.named (beforeNul sort)), v ∈ u.of sort)
    (hValues : ∀ x ∈ e.program.symbols, ∀ index < e.instances x,
      ∀ f ∈ (e.symbol x index).toOption, ∀ args ∈ tuples (x.args.map u.of),
        if x.isRelation then ∃ b, m.evaluate f args = .ok (.bool b)
        else ∃ v ∈ u.of x.result, m.evaluate f args = .ok v) : m.Settled e := by
  have hRow : ∀ {args sorts}, Forall₂ (fun a sort => a ∈ u.of sort) args sorts →
      args ∈ tuples (sorts.map u.of) := fun h => mem_tuples_iff.mpr (forall₂_map_right_iff.mpr h)
  have hOccurs : ∀ {sort v}, e.Occurs m sort v → v ∈ u.of sort := by
    refine fun h => h.mem_of_closed hListed fun x index f args v h => ?_
    have hValue := hValues x h.declared index h.index_lt f (by rw [h.symbol]; rfl) args
      (hRow h.sorted)
    rw [if_neg (by simp [h.function]), h.value] at hValue
    obtain ⟨w, hw, hEq⟩ := hValue
    exact Except.ok.inj hEq ▸ hw
  refine ⟨fun x hx hRelation index hIndex f hf args hArgs => ?_,
    fun x hx hRelation index hIndex f hf args hArgs => ?_, fun sort => ⟨u.of sort, fun _ => hOccurs⟩⟩
  all_goals
    have hValue := hValues x hx index hIndex f (by rw [hf]; rfl) args
      (hRow (hArgs.imp fun _ _ => hOccurs))
  · rwa [if_pos hRelation] at hValue
  · rw [if_neg (by simp [hRelation])] at hValue
    obtain ⟨v, -, hv⟩ := hValue
    exact ⟨v, hv⟩

/-! ## Towers -/

/-- An application that is its own value stays one when others stand in it that are no elements. -/
theorem evaluate_app {args' : List Term} (h : m.evaluate f args = .ok (.app f args))
    (hArgs : ∃ a ∈ args, elementIndex? a = none)
    (hArgs' : ∃ a ∈ args', elementIndex? a = none) :
    m.evaluate f args' = .ok (.app f args') := by
  -- a table has only its default for them
  have hDefault : ∀ table : SymbolTable, ∀ as : List Term,
      (∃ a ∈ as, elementIndex? a = none) →
        tableValue? table as = table.otherwise := by
    rintro table as ⟨a, ha, hNone⟩
    have hKey : as.mapM elementIndex? = none := by
      obtain ⟨before, after, rfl⟩ := append_of_mem ha
      cases hBefore : before.mapM elementIndex? <;> simp [hNone, hBefore]
    rw [tableValue?, hKey]
  rw [evaluate] at h ⊢
  simp only [hDefault _ args hArgs] at h
  simp only [hDefault _ args' hArgs']
  split at h <;> cases h
  rfl

/-- An application that is its own value, with others inside of it, one in the other. -/
inductive Tower (e : Encoding) (m : SolverModel) : List (Symbol × Nat) → String → Term → Prop
  | one {x : Symbol} {index : Nat} {f : SolverSymbol} {args : List Term}
      (h : e.Applies m (e.Occurs m) x index f args (.app f args)) :
      Tower e m [(x, index)] x.result (.app f args)
  | more {places : List (Symbol × Nat)} {sort : String} {a : Term} {before after : List Term}
      {x : Symbol} {index : Nat} {f : SolverSymbol} (hBelow : Tower e m places sort a)
      (hPut : ∀ a', e.Occurs m sort a' →
        Forall₂ (fun a sort => e.Occurs m sort a) (before ++ a' :: after) x.args)
      (h : e.Applies m (e.Occurs m) x index f (before ++ a :: after)
        (.app f (before ++ a :: after))) :
      Tower e m ((x, index) :: places) x.result (.app f (before ++ a :: after))

namespace Tower

variable {places : List (Symbol × Nat)}

theorem occurs (h : e.Tower m places sort v) : e.Occurs m sort v := by
  cases h with
  | one h => exact h.occurs
  | more _ _ h => exact h.occurs

theorem elementIndex?_eq_none (h : e.Tower m places sort v) :
    elementIndex? v = none := by
  cases h <;> rfl

theorem subset_places (h : e.Tower m places sort v) : places ⊆ e.places := by
  induction h with
  | one h => exact fun place hPlace => mem_singleton.mp hPlace ▸ h.mem_places
  | more _ _ h ih => exact cons_subset.mpr ⟨h.mem_places, ih⟩

/-- **Another application may be put into a tower**, in the place of any one in it. -/
theorem grow {above below : List (Symbol × Nat)} {place : Symbol × Nat}
    (h : e.Tower m (above ++ place :: below) sort v) {w : Term}
    (hw : e.Occurs m place.1.result w) (hApp : elementIndex? w = none) :
    ∃ v', e.Occurs m sort v' ∧ elementIndex? v' = none ∧
      sizeOf w + above.length ≤ sizeOf v' := by
  induction above generalizing sort v with
  | nil =>
    cases h with
    | one => exact ⟨w, hw, hApp, Nat.le_refl _⟩
    | more => exact ⟨w, hw, hApp, Nat.le_refl _⟩
  | cons top above ih =>
    generalize hPlaces : (top :: above) ++ place :: below = places at h
    cases h with
    | one => simp at hPlaces
    | @more _ _ a before after x index f hBelow hPut hStuck =>
      obtain ⟨-, rfl⟩ := cons.inj hPlaces
      obtain ⟨a', ha', hApp', hSize⟩ := ih hBelow
      have hValue : m.evaluate f (before ++ a' :: after) = .ok (.app f (before ++ a' :: after)) :=
        evaluate_app hStuck.value ⟨a, by simp, hBelow.elementIndex?_eq_none⟩ ⟨a', by simp, hApp'⟩
      refine ⟨.app f (before ++ a' :: after),
        .value hStuck.declared hStuck.function hStuck.index_lt hStuck.symbol (hPut a' ha') hValue,
        rfl, ?_⟩
      have hArg : sizeOf a' < sizeOf (before ++ a' :: after) := sizeOf_lt_of_mem (by simp)
      simp only [length_cons, Term.app.sizeOf_spec]
      omega

/-- **No symbol comes twice in a tower**, where finitely many elements occur: the part between
would be put into itself again and again. -/
theorem nodup (h : e.Tower m places sort v)
    (hFinite : ∀ sort, ∃ vs : List Term, ∀ v, e.Occurs m sort v → v ∈ vs) : places.Nodup := by
  induction h with
  | one => exact nodup_singleton _
  | @more places _ _ _ _ x index f hBelow hPut hStuck ih =>
    refine nodup_cons.mpr ⟨fun hAgain => ?_, ih⟩
    obtain ⟨between, below, rfl⟩ := append_of_mem hAgain
    have hTower := Tower.more hBelow hPut hStuck
    have hLarge : ∀ size : Nat, ∃ w, e.Occurs m x.result w ∧
        elementIndex? w = none ∧ size ≤ sizeOf w := by
      intro size
      induction size with
      | zero => exact ⟨_, hTower.occurs, rfl, Nat.zero_le _⟩
      | succ size ihSize =>
        obtain ⟨w, hw, hApp, hSize⟩ := ihSize
        obtain ⟨w', hw', hApp', hSize'⟩ := @grow e m _ _ ((x, index) :: between) _ _ hTower _ hw hApp
        rw [length_cons] at hSize'
        exact ⟨w', hw', hApp', by omega⟩
    obtain ⟨vs, hvs⟩ := hFinite x.result
    obtain ⟨w, hw, -, hSize⟩ := hLarge (sizeOf vs)
    have hMember := sizeOf_lt_of_mem (hvs w hw)
    omega

theorem height_le (hFinite : ∀ sort, ∃ vs : List Term, ∀ v, e.Occurs m sort v → v ∈ vs)
    (h : places = [] ∨ e.Tower m places sort v) : places.length ≤ e.places.length := by
  rcases h with rfl | h
  · exact Nat.zero_le _
  · exact (subperm_of_subset (h.nodup hFinite) h.subset_places).length_le

end Tower

/-! ## Late elements -/

/-- The elements that are found in some number of rounds. -/
def Found (e : Encoding) (m : SolverModel) : Nat → String → Term → Prop
  | 0, sort, v => sort ∈ e.program.sorts ∧ v ∈ m.elements (.named (beforeNul sort))
  | n + 1, sort, v => Found e m n sort v ∨
    ∃ x index f args, e.Applies m (Found e m n) x index f args v ∧ x.result = sort

theorem Found.mono {k : Nat} (hLe : n ≤ k) (h : e.Found m n sort v) : e.Found m k sort v := by
  induction hLe with
  | refl => exact h
  | step _ ih => exact .inl ih

theorem Found.occurs (h : e.Found m n sort v) : e.Occurs m sort v := by
  induction n generalizing sort v with
  | zero => exact .listed h.1 h.2
  | succ n ih =>
    rcases h with h | ⟨x, index, f, args, h, rfl⟩
    · exact ih h
    · exact (h.imp fun _ _ => ih).occurs

theorem exists_late_argument (h : e.Applies m (e.Found m (n + 1)) x index f args v)
    (hNew : ¬ e.Found m (n + 1) x.result v) :
    ∃ before a after sort, args = before ++ a :: after ∧ e.Found m (n + 1) sort a ∧
      ¬ e.Found m n sort a ∧ ∀ a', e.Occurs m sort a' →
        Forall₂ (fun a sort => e.Occurs m sort a) (before ++ a' :: after) x.args := by
  rcases forall₂_or_split (T := fun a sort => e.Found m n sort a) h.sorted with
    hEarly | ⟨before, a, after, sort, hEq, hFound, hLate, hPut⟩
  · exact absurd (.inr ⟨x, index, f, args, { h with sorted := hEarly }, rfl⟩) hNew
  · exact ⟨before, a, after, sort, hEq, hFound, hLate,
      hPut (fun a sort => e.Occurs m sort a) fun _ _ => Found.occurs⟩

/-- **What is found late has many elements or a high tower below it.** -/
theorem exists_chain
    (hFinite : ∀ sort, ∃ vs : List Term, ∀ v, e.Occurs m sort v → v ∈ vs) (n : Nat)
    (h : e.Found m (n + 1) sort v) (hNew : ¬ e.Found m n sort v) :
    ∃ (seen : List (String × Term)) (tower : List (Symbol × Nat)), seen.Nodup ∧
      (∀ entry ∈ seen, entry ∈ e.pool m ∧ e.Found m (n + 1) entry.1 entry.2) ∧
      (tower = [] ∨ e.Tower m tower sort v) ∧
      n + 1 ≤ seen.length * (e.places.length + 1) + tower.length := by
  induction n generalizing sort v with
  | zero =>
    obtain ⟨x, index, f, args, hApplies, rfl⟩ := h.resolve_left hNew
    rcases hApplies.eq_app_or_mem_pool with rfl | hPool
    · exact ⟨[], [(x, index)], nodup_nil, by simp,
        .inr (.one (hApplies.imp fun _ _ => Found.occurs)), by simp⟩
    · refine ⟨[(x.result, v)], [], nodup_singleton _, fun entry hEntry => ?_, .inl rfl, by simp⟩
      rw [mem_singleton.mp hEntry]
      exact ⟨hPool, h⟩
  | succ n ih =>
    obtain ⟨x, index, f, args, hApplies, rfl⟩ := h.resolve_left hNew
    obtain ⟨before, a, after, sort, rfl, hArg, hLate, hPut⟩ := exists_late_argument hApplies hNew
    obtain ⟨seen, tower, hNodup, hSeen, hTower, hLength⟩ := ih hArg hLate
    have hHigh := Tower.height_le hFinite hTower
    rcases hApplies.eq_app_or_mem_pool with rfl | hPool
    · -- an application stands on the tower of its argument
      have hOccurs := hApplies.imp fun _ _ => Found.occurs
      refine ⟨seen, (x, index) :: tower, hNodup,
        fun entry hEntry => ⟨(hSeen entry hEntry).1, .inl (hSeen entry hEntry).2⟩, .inr ?_, ?_⟩
      · rcases hTower with rfl | hTower
        · exact .one hOccurs
        · exact .more hTower hPut hOccurs
      · rw [length_cons]
        omega
    · -- an element is not among those that were seen before
      refine ⟨(x.result, v) :: seen, [], nodup_cons.mpr ⟨fun hIn => hNew (hSeen _ hIn).2, hNodup⟩,
        forall_mem_cons.mpr ⟨⟨hPool, h⟩,
          fun entry hEntry => ⟨(hSeen entry hEntry).1, .inl (hSeen entry hEntry).2⟩⟩, .inl rfl, ?_⟩
      rw [length_cons, Nat.succ_mul, length_nil]
      omega

/-- **Nothing is found after the rounds that are allowed.** -/
theorem Found.of_closingRounds (hFinite : ∀ sort, ∃ vs : List Term, ∀ v, e.Occurs m sort v → v ∈ vs)
    (h : e.Found m n sort v) : e.Found m (e.closingRounds m) sort v := by
  induction n generalizing sort v with
  | zero => exact h.mono (Nat.zero_le _)
  | succ n ih =>
    by_cases hNew : e.Found m n sort v
    · exact ih hNew
    · obtain ⟨seen, tower, hNodup, hSeen, hTower, hLength⟩ := exists_chain hFinite n h hNew
      have hHigh := Tower.height_le hFinite hTower
      have hMany : seen.length ≤ (e.pool m).length :=
        (subperm_of_subset hNodup fun entry hEntry => (hSeen entry hEntry).1).length_le
      have hBound := Nat.mul_le_mul_right (e.places.length + 1)
        (Nat.le_trans hMany (e.length_pool_le m))
      refine h.mono ?_
      unfold closingRounds
      omega

/-! ## Rounds -/

/-- The universes before or after a round: they begin with the elements that are listed, and
have no others than are found in some number of rounds, each once. -/
structure Stage (e : Encoding) (m : SolverModel) (u : Universes) : Prop where
  begins : (e.listedUniverses m).Begins u
  nodup : ∀ sort, (u.of sort).Nodup
  found : ∀ sort, ∀ v ∈ u.of sort, ∃ n, e.Found m n sort v

theorem Stage.sorts (h : e.Stage m u) : u.map Prod.fst = e.program.sorts := by
  rw [h.begins.sorts, listedUniverses, map_map]
  exact map_id _

theorem Stage.exists_found (h : e.Stage m u) {sorts : List String}
    (hArgs : Forall₂ (fun a sort => a ∈ u.of sort) args sorts) :
    ∃ n, Forall₂ (fun a sort => e.Found m n sort a) args sorts := by
  induction hArgs with
  | nil => exact ⟨0, .nil⟩
  | @cons a sort _ _ ha _ ih =>
    obtain ⟨n, hn⟩ := h.found sort a ha
    obtain ⟨k, hk⟩ := ih
    exact ⟨max n k, .cons (hn.mono (Nat.le_max_left n k))
      (hk.imp fun _ _ hFound => hFound.mono (Nat.le_max_right n k))⟩

theorem Stage.occurs (h : e.Stage m u) {sorts : List String}
    (hArgs : Forall₂ (fun a sort => a ∈ u.of sort) args sorts) :
    Forall₂ (fun a sort => e.Occurs m sort a) args sorts :=
  hArgs.imp fun a sort ha => (h.found sort a ha).elim fun _ => Found.occurs

theorem mem_of_listedUniverses (hv : v ∈ (e.listedUniverses m).of sort) :
    sort ∈ e.program.sorts := by
  by_contra hSort
  have hNone : (e.listedUniverses m).lookup sort = none := by
    refine lookup_eq_none_iff.mpr fun entry hEntry => ?_
    obtain ⟨sort', hSort', rfl⟩ := mem_map.mp hEntry
    simpa using fun hEq : sort = sort' => hSort (hEq ▸ hSort')
  rw [Universes.of, hNone] at hv
  cases hv

theorem stage_listed (e : Encoding) (m : SolverModel) : e.Stage m (e.listedUniverses m) where
  begins := .refl _
  nodup sort := by
    by_cases hNil : (e.listedUniverses m).of sort = []
    · rw [hNil]
      exact nodup_nil
    · obtain ⟨v, hv⟩ := exists_mem_of_ne_nil _ hNil
      rw [of_listedUniverses (contains_iff_mem.mpr (mem_of_listedUniverses hv))]
      exact nodup_range.map fun _ _ hEq => (Term.element.inj hEq).2
  found sort v hv := by
    have hSort := mem_of_listedUniverses hv
    rw [of_listedUniverses (contains_iff_mem.mpr hSort)] at hv
    exact ⟨0, hSort, hv⟩

theorem Stage.add (h : e.Stage m u) (hSort : sort ∈ e.program.sorts) {new : List Term}
    (hNodup : new.Nodup) (hNew : ∀ v ∈ new, v ∉ u.of sort ∧ ∃ n, e.Found m n sort v) :
    e.Stage m (u.add sort new) ∧ u.Begins (u.add sort new) := by
  rw [← h.sorts] at hSort
  have hBegins := Universes.begins_add hSort new
  refine ⟨⟨h.begins.trans hBegins, fun sort' => ?_, fun sort' v hv => ?_⟩, hBegins⟩
  · rw [Universes.of_add hSort]
    by_cases hEq : sort' = sort
    · rw [if_pos hEq, hEq]
      exact nodup_append.mpr ⟨h.nodup sort, hNodup,
        fun v hv w hw hSame => (hNew w hw).1 (hSame ▸ hv)⟩
    · rw [if_neg hEq, append_nil]
      exact h.nodup sort'
  · rw [Universes.of_add hSort] at hv
    rcases mem_append.mp hv with hv | hv
    · exact h.found sort' v hv
    · split at hv
      · rename_i hEq
        exact hEq ▸ (hNew v hv).2
      · cases hv

/-- New values are found where all values can be computed, and then all values are known. -/
theorem exists_newValues {rows : List (List Term)} (known : List Term)
    (hRows : ∀ as ∈ rows, ∃ v, m.evaluate f as = .ok v) :
    ∃ new, newValues m f known rows = .ok new ∧
      (new.Nodup ∧ ∀ v ∈ new, v ∉ known ∧ ∃ as ∈ rows, m.evaluate f as = .ok v) ∧
      ∀ as ∈ rows, ∀ v, m.evaluate f as = .ok v → v ∈ known ++ new := by
  let Only (new : List Term) : Prop :=
    new.Nodup ∧ ∀ v ∈ new, v ∉ known ∧ ∃ as ∈ rows, m.evaluate f as = .ok v
  have hStep : ∀ as ∈ rows, ∀ new, Only new → ∃ new',
      (do
        let value ← m.evaluate f as
        return if known.contains value || new.contains value then new else new ++ [value]) =
          .ok new' ∧ Only new' ∧ new ⊆ new' ∧ ∀ v, m.evaluate f as = .ok v → v ∈ known ++ new' := by
    intro as has new hNew
    obtain ⟨v, hv⟩ := hRows as has
    rw [hv]
    by_cases hKnown : (known.contains v || new.contains v) = true
    · refine ⟨new, by simp only [bind, Except.bind, if_pos hKnown]; rfl, hNew, Subset.refl _,
        fun w hw => ?_⟩
      obtain rfl := Except.ok.inj hw
      simpa using hKnown
    · refine ⟨new ++ [v], by simp only [bind, Except.bind, if_neg hKnown]; rfl,
        ⟨?_, fun w hw => ?_⟩, subset_append_left _ _, fun w hw => ?_⟩
      all_goals rw [Bool.or_eq_true, not_or, contains_iff_mem, contains_iff_mem] at hKnown
      · exact nodup_append.mpr ⟨hNew.1, nodup_singleton v,
          fun w hw w' hw' hEq => hKnown.2 (mem_singleton.mp hw' ▸ hEq ▸ hw)⟩
      · rcases mem_append.mp hw with hw | hw
        · exact hNew.2 w hw
        · rw [mem_singleton.mp hw]
          exact ⟨hKnown.1, as, has, hv⟩
      · obtain rfl := Except.ok.inj hw
        simp
  obtain ⟨new, hRun, hOnly, -, hAll⟩ := foldlM_reaches Subset.refl Subset.trans
    (fun _ _ _ hSubset h v hv => (mem_append.mp (h v hv)).elim (mem_append_left _)
      fun hIn => mem_append_right known (hSubset hIn)) hStep (b := [])
    ⟨nodup_nil, by simp⟩
  exact ⟨new, hRun, hOnly, hAll⟩

section Rounds

variable (hFitting : ∀ x ∈ e.program.symbols, e.program.Fitting x) (hSettled : m.Settled e)

include hFitting hSettled

theorem exists_addValues (hx : x ∈ e.program.symbols) (hRelation : x.isRelation = false)
    (hIndex : index < e.instances x) (h : e.Stage m u) :
    ∃ u', e.addValues m x u index = .ok u' ∧ e.Stage m u' ∧ u.Begins u' ∧
      ∀ f args v, e.Applies m (fun sort a => a ∈ u.of sort) x index f args v →
        v ∈ u'.of x.result := by
  obtain ⟨f, hf⟩ := symbol_total (hFitting x hx) (instances_lt hIndex)
  have hSort : x.result ∈ e.program.sorts :=
    contains_iff_mem.mp ((hFitting x hx).result hRelation).2
  have hRow : ∀ as ∈ tuples (x.args.map u.of), Forall₂ (fun a sort => a ∈ u.of sort) as x.args := by
    intro as has
    rwa [mem_tuples_iff, forall₂_map_right_iff] at has
  obtain ⟨new, hRun, ⟨hNodup, hNew⟩, hAll⟩ := exists_newValues (u.of x.result) fun as has =>
    hSettled.functions x hx hRelation index hIndex f hf as (h.occurs (hRow as has))
  have hFound : ∀ v ∈ new, v ∉ u.of x.result ∧ ∃ n, e.Found m n x.result v := by
    intro v hv
    obtain ⟨hFresh, as, has, hValue⟩ := hNew v hv
    obtain ⟨n, hn⟩ := h.exists_found (hRow as has)
    exact ⟨hFresh, n + 1, .inr ⟨x, index, f, as, ⟨hx, hRelation, hIndex, hf, hn, hValue⟩, rfl⟩⟩
  obtain ⟨hStage, hBegins⟩ := h.add hSort hNodup hFound
  refine ⟨u.add x.result new, ?_, hStage, hBegins, fun g args v hApplies => ?_⟩
  · simp only [addValues, bind_eq_ok, mapError_eq_ok, pure_eq_ok]
    exact ⟨f, hf, new, hRun, rfl⟩
  · obtain rfl := Except.ok.inj (hf.symm.trans hApplies.symbol)
    rw [Universes.of_add (h.sorts.symm ▸ hSort), if_pos rfl]
    refine hAll args ?_ v hApplies.value
    rw [mem_tuples_iff, forall₂_map_right_iff]
    exact hApplies.sorted

theorem exists_closeOnce (h : e.Stage m u) :
    ∃ u', e.closeOnce m u = .ok u' ∧ (e.Stage m u' ∧ u.Begins u') ∧
      ∀ x index f args v, e.Applies m (fun sort a => a ∈ u.of sort) x index f args v →
        v ∈ u'.of x.result := by
  let Has (x : Symbol) (index : Nat) (w : Universes) : Prop := ∀ f args v,
    e.Applies m (fun sort a => a ∈ u.of sort) x index f args v → v ∈ w.of x.result
  have hLasts : ∀ x index {w w' : Universes}, w.Begins w' → Has x index w → Has x index w' :=
    fun x _ _ _ hBegins hHas f args v hApplies =>
      (hBegins.elements x.result).subset (hHas f args v hApplies)
  have hStep : ∀ x ∈ e.program.symbols.filter (fun x => !x.isRelation),
      ∀ index ∈ range (e.instances x), ∀ w, e.Stage m w ∧ u.Begins w →
        ∃ w', e.addValues m x w index = .ok w' ∧ (e.Stage m w' ∧ u.Begins w') ∧ w.Begins w' ∧
          Has x index w' := by
    intro x hx index hIndex w hw
    obtain ⟨hIn, hRelation⟩ := mem_filter.mp hx
    obtain ⟨w', hAdd, hStage, hBegins, hValues⟩ := exists_addValues hFitting hSettled hIn
      (by simpa using hRelation) (mem_range.mp hIndex) hw.1
    refine ⟨w', hAdd, ⟨hStage, hw.2.trans hBegins⟩, hBegins, fun f args v hApplies => ?_⟩
    exact hValues f args v (hApplies.imp fun sort a ha => (hw.2.elements sort).subset ha)
  have hSymbol := fun x hx w hw =>
    foldlM_reaches (b := w) .refl .trans (hLasts x) (hStep x hx) hw
  obtain ⟨u', hRun, hStage, -, hAll⟩ := foldlM_reaches .refl .trans
    (fun x _ _ hBegins hHas index hIndex => hLasts x index hBegins (hHas index hIndex))
    hSymbol ⟨h, .refl u⟩
  refine ⟨u', hRun, hStage, fun x index f args v hApplies => ?_⟩
  have hIn : x ∈ e.program.symbols.filter fun x => !x.isRelation :=
    mem_filter.mpr ⟨hApplies.declared, by simp [hApplies.function]⟩
  exact hAll x hIn index (mem_range.mpr hApplies.index_lt) f args v hApplies

/-- **Rounds end in universes that have all elements**, if none is found after them. -/
theorem exists_closeWithin {rounds : Nat} (h : e.Stage m u)
    (hFound : ∀ sort v, e.Found m n sort v → v ∈ u.of sort)
    (hRounds : e.closingRounds m ≤ n + rounds) :
    ∃ u', e.closeWithin m rounds u = .ok u' ∧ e.Stage m u' ∧
      ∀ n sort v, e.Found m n sort v → v ∈ u'.of sort := by
  induction rounds generalizing u n with
  | zero =>
    exact ⟨u, rfl, h, fun k sort v hv =>
      hFound sort v ((hv.of_closingRounds hSettled.finite).mono hRounds)⟩
  | succ rounds ih =>
    obtain ⟨grown, hGrown, ⟨hStage, hBegins⟩, hValues⟩ := exists_closeOnce hFitting hSettled h
    have hNext : ∀ k, (∀ sort v, e.Found m k sort v → v ∈ u.of sort) →
        ∀ sort v, e.Found m (k + 1) sort v → v ∈ grown.of sort := by
      intro k hk sort v hv
      rcases hv with hv | ⟨x, index, f, args, hApplies, rfl⟩
      · exact (hBegins.elements sort).subset (hk sort v hv)
      · exact hValues x index f args v (hApplies.imp hk)
    rw [closeWithin, hGrown]
    by_cases hSame : grown = u
    · -- such a round has found nothing, so no round after it will
      refine ⟨u, by simp only [bind, Except.bind, if_pos hSame]; rfl, h, fun k => ?_⟩
      induction k with
      | zero => exact fun sort v hv => hFound sort v (hv.mono (Nat.zero_le n))
      | succ k ihk => exact hSame ▸ hNext k ihk
    · obtain ⟨u', hRest, hDone⟩ := ih hStage (hNext n hFound) (by omega)
      refine ⟨u', ?_, hDone⟩
      simp only [bind, Except.bind, if_neg hSame]
      exact hRest

/-- **The universes of a model can be closed**: the allowed rounds lead to universes that begin
with the listed elements, have each element that occurs once and no others, and have the values
of all constants and functions at their elements. -/
theorem exists_closedUniverses : ∃ u, e.closedUniverses m = .ok u ∧ e.Stage m u ∧
    ∀ x index f args v, e.Applies m (fun sort a => a ∈ u.of sort) x index f args v →
      v ∈ u.of x.result := by
  have hListed : ∀ sort v, e.Found m 0 sort v → v ∈ (e.listedUniverses m).of sort := by
    rintro sort v ⟨hSort, hv⟩
    rw [of_listedUniverses (contains_iff_mem.mpr hSort)]
    exact hv
  obtain ⟨u, hClosed, hStage, hAll⟩ : ∃ u, e.closedUniverses m = .ok u ∧ e.Stage m u ∧
      ∀ n sort v, e.Found m n sort v → v ∈ u.of sort :=
    exists_closeWithin hFitting hSettled (e.stage_listed m) hListed (by omega)
  refine ⟨u, hClosed, hStage, fun x index f args v h => ?_⟩
  obtain ⟨n, hn⟩ := hStage.exists_found h.sorted
  exact hAll (n + 1) _ v (.inr ⟨x, index, f, args, { h with sorted := hn }, rfl⟩)

end Rounds

end Encoding

end InvariantSearch
