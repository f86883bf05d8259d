import InvariantSearch.Proofs.Sexpr.Layout
import Mathlib.Data.List.Forall2

/-!
# Texts and the s-expressions they spell

What is written can be read again, and what is read was written in atoms.

* `cut` is the scanner without the lines. A text `SpellsOut` the tokens it is cut into whatever
  follows it; it `Spells` them when a delimiter has to follow, as after an atom
  (`IsAtom.spells`). Both are put together piece by piece, so the text of an s-expression spells
  its own tokens (`Spelt.spells_render`).
* `Sexpr.strip` forgets the lines. S-expressions with the same tokens are the same, lines apart
  (`Spans.map_strip`), hence `exists_read`: a text that is cut into the tokens of some s-expressions
  is read as these.
* `Spelt.of_mem_read` — every name that was read is an atom: it can be written again as it stands.
-/

namespace InvariantSearch

open List

variable {c : Char} {space : String} {α : Type}

namespace Sexpr

variable {text : String} {es : List Sexpr} {line : Nat} {items : List Sexpr}

/-! ## Cutting a text -/

/-- The tokens of the rest of a text. -/
def cut (mode : Mode) (text : List Char) : List Token :=
  (scanFrom 1 mode text).map Located.value

theorem map_value_scanFrom (line : Nat) (mode : Mode) (text : List Char) :
    (scanFrom line mode text).map Located.value = cut mode text := by
  have hFinish : ∀ (line line' : Nat) (mode : Mode),
      (mode.finish line).map Located.value = (mode.finish line').map Located.value := by
    intro line line' mode
    cases mode <;> rfl
  have hLines : ∀ (text : List Char) (line line' : Nat) (mode : Mode),
      (scanFrom line mode text).map Located.value =
        (scanFrom line' mode text).map Located.value := by
    intro text
    induction text with
    | nil => exact fun line line' mode => hFinish line line' mode
    | cons c rest ih =>
      intro line line' mode
      simp only [scanFrom]
      split_ifs
      · exact ih _ _ _
      · exact ih _ _ _
      all_goals
        try simp only [map_append, map_cons, hFinish line line']
      · exact congrArg _ (ih _ _ _)
      · exact congrArg _ (ih _ _ _)
      · exact congrArg _ (ih _ _ _)
      · exact congrArg _ (congrArg _ (ih _ _ _))
      · exact congrArg _ (congrArg _ (ih _ _ _))
      · exact ih _ _ _
  exact hLines text line 1 mode

/-- A text that is cut into some tokens before a delimiter. -/
def Spells (text : String) (ts : List Token) : Prop :=
  ∀ rest, Delimited rest → cut .between (text.toList ++ rest) = ts ++ cut .between rest

/-- A text that is cut into some tokens whatever follows. -/
def SpellsOut (text : String) (ts : List Token) : Prop :=
  ∀ rest, cut .between (text.toList ++ rest) = ts ++ cut .between rest

/-- A text at which an atom before it ends. -/
def Separates (text : String) : Prop := ∀ rest, Delimited (text.toList ++ rest)

section Spelling

variable {α : Type} {as : List α} {write : α → String} {tokens : α → List Token}
  {text text' : String} {ts ts' : List Token}

theorem separates_of_head {more : List Char} (h : text.toList = c :: more)
    (hc : isDelimiter c = true) : Separates text := by
  intro rest
  rw [h, cons_append, delimited_cons]
  exact hc

theorem SpellsOut.spells (h : SpellsOut text ts) : Spells text ts := fun rest _ => h rest

theorem SpellsOut.of_eq (h : SpellsOut text ts) (hText : text' = text) : SpellsOut text' ts :=
  hText ▸ h

theorem SpellsOut.of_tokens (h : SpellsOut text ts) (hTokens : ts' = ts) : SpellsOut text ts' :=
  hTokens ▸ h

theorem SpellsOut.append (h : SpellsOut text ts) (h' : SpellsOut text' ts') :
    SpellsOut (text ++ text') (ts ++ ts') := by
  intro rest
  rw [String.toList_append, append_assoc, h, h', append_assoc]

theorem SpellsOut.append_spells (h : SpellsOut text ts) (h' : Spells text' ts') :
    Spells (text ++ text') (ts ++ ts') := by
  intro rest hRest
  rw [String.toList_append, append_assoc, h, h' rest hRest, append_assoc]

theorem Spells.append_out (h : Spells text ts) (h' : SpellsOut text' ts')
    (hSeparates : Separates text') : SpellsOut (text ++ text') (ts ++ ts') := by
  intro rest
  rw [String.toList_append, append_assoc, h _ (hSeparates rest), h', append_assoc]

theorem SpellsOut.cut_eq (h : SpellsOut text ts) : cut .between text.toList = ts := by
  have hAll := h []
  rwa [append_nil, show cut .between [] = [] from rfl, append_nil] at hAll

theorem Spells.cut_eq (h : Spells text ts) : cut .between text.toList = ts := by
  have hAll := h [] delimited_nil
  rwa [append_nil, show cut .between [] = [] from rfl, append_nil] at hAll

/-- Texts that each start with a delimiter spell their tokens when they are joined after another
text. -/
theorem Spells.append_join (h : Spells text ts) (hEach : ∀ a ∈ as, Spells (write a) (tokens a))
    (hSeparates : ∀ a ∈ as, Separates (write a)) :
    Spells (text ++ String.join (as.map write)) (ts ++ as.flatMap tokens) := by
  induction as generalizing text ts with
  | nil => simpa using h
  | cons a as ih =>
    rw [forall_mem_cons] at hEach hSeparates
    have hFirst : Spells (text ++ write a) (ts ++ tokens a) := by
      intro rest hRest
      rw [String.toList_append, append_assoc, h _ (hSeparates.1 rest), hEach.1 rest hRest,
        append_assoc]
    have hAll := ih hFirst hEach.2 hSeparates.2
    rwa [map_cons, String.join_cons, flatMap_cons, ← String.append_assoc,
      ← append_assoc]

theorem SpellsOut.append_atom {name : String} (h : SpellsOut text ts)
    (hName : Spells name [.atom name]) (h' : SpellsOut text' ts') (hSeparates : Separates text') :
    SpellsOut (text ++ name ++ text') (ts ++ .atom name :: ts') := by
  have hAll := (h.append_spells hName).append_out h' hSeparates
  rwa [append_assoc, singleton_append] at hAll

theorem SpellsOut.intercalate (h : ∀ a ∈ as, SpellsOut (write a) (tokens a))
    (hSpace : SpellsOut space []) :
    SpellsOut (space.intercalate (as.map write)) (as.flatMap tokens) := by
  induction as with
  | nil => exact fun rest => rfl
  | cons a as ih =>
    rw [forall_mem_cons] at h
    cases as with
    | nil => simpa using h.1
    | cons b as =>
      have hAll := (h.1.append hSpace).append (ih h.2)
      rw [append_nil] at hAll
      rw [map_cons, map_cons, String.intercalate_cons_cons, flatMap_cons,
        ← map_cons]
      exact hAll

theorem SpellsOut.join (h : ∀ a ∈ as, SpellsOut (write a) (tokens a)) :
    SpellsOut (String.join (as.map write)) (as.flatMap tokens) := by
  induction as with
  | nil => exact fun rest => rfl
  | cons a as ih =>
    rw [forall_mem_cons] at h
    rw [map_cons, String.join_cons, flatMap_cons]
    exact h.1.append (ih h.2)

end Spelling

theorem cut_blank (h : isBlank c = true) (rest : List Char) :
    cut .between (c :: rest) = cut .between rest := by
  rw [cut, scanFrom, if_neg (by simp), if_pos h]
  exact map_value_scanFrom _ _ _

theorem spellsOut_blanks (h : space.toList.all isBlank = true) : SpellsOut space [] := by
  intro rest
  rw [nil_append]
  generalize space.toList = space at h ⊢
  induction space with
  | nil => rfl
  | cons c space ih =>
    rw [all_cons, Bool.and_eq_true] at h
    rw [cons_append, cut_blank h.1, ih h.2]

theorem spellsOut_opening : SpellsOut "(" [.opening] := fun _ => rfl

theorem spellsOut_closing : SpellsOut ")" [.closing] := fun _ => rfl

theorem spellsOut_lineBreak : SpellsOut "\n" [] := spellsOut_blanks (by decide)

theorem separates_lineBreak : Separates "\n" := separates_of_head rfl rfl

theorem separates_closing : Separates ")" := separates_of_head rfl rfl

theorem separates_blank : Separates " " := separates_of_head rfl rfl

/-- **An atom spells itself.** -/
theorem IsAtom.spells (h : IsAtom text) : Spells text [.atom text] := by
  intro rest hRest
  rw [cut, h.scanFrom hRest]
  rfl

/-! ## The tokens of an s-expression -/

theorem tokensOf_append (es fs : List Sexpr) :
    tokensOf (es ++ fs) = tokensOf es ++ tokensOf fs := by
  induction es with
  | nil => rfl
  | cons e es ih => rw [cons_append, tokensOf, tokensOf, ih, append_assoc]

theorem tokensOf_map (write : α → Sexpr) (as : List α) :
    tokensOf (as.map write) = as.flatMap fun a => (write a).tokens := by
  induction as with
  | nil => rfl
  | cons a as ih => rw [map_cons, tokensOf, ih, flatMap_cons]

theorem mem_tokensOf {token : Token} : token ∈ tokensOf es ↔ ∃ e ∈ es, token ∈ e.tokens := by
  induction es with
  | nil => simp [tokensOf]
  | cons e es ih => simp [tokensOf, ih]

/-- An s-expression whose names are atoms. -/
def Spelt (e : Sexpr) : Prop := ∀ text, .atom text ∈ e.tokens → IsAtom text

@[simp] theorem spelt_atom : (Sexpr.atom line text).Spelt ↔ IsAtom text := by
  simp [Spelt, tokens]

@[simp] theorem spelt_list : (Sexpr.list line items).Spelt ↔ ∀ e ∈ items, e.Spelt := by
  simp only [Spelt, tokens, mem_cons, mem_append, reduceCtorEq, false_or,
    not_mem_nil, or_false, mem_tokensOf]
  constructor
  · exact fun h e he text hText => h text ⟨e, he, hText⟩
  · rintro h text ⟨e, he, hText⟩
    exact h e he text hText

@[simp] theorem spelt_ofName {name : String} : (ofName name).Spelt ↔ IsAtom name := spelt_atom

@[simp] theorem spelt_ofItems : (ofItems items).Spelt ↔ ∀ e ∈ items, e.Spelt := spelt_list

mutual

/-- **The text of an s-expression spells its tokens.** -/
theorem Spelt.spells_render : ∀ {e : Sexpr}, e.Spelt → Spells e.render e.tokens
  | .atom _ _, h => (spelt_atom.mp h).spells
  | .list _ items, h => by
    have hOpen := spellsOut_opening.append_spells (spells_renderItems (spelt_list.mp h))
    have hAll := hOpen.append_out spellsOut_closing separates_closing
    rw [render, tokens]
    simpa using hAll.spells

theorem spells_renderItems : ∀ {es : List Sexpr}, (∀ e ∈ es, e.Spelt) →
    Spells (renderItems es) (tokensOf es)
  | [], _ => fun _ _ => rfl
  | [e], h => by
    rw [renderItems, tokensOf, tokensOf, append_nil]
    exact Spelt.spells_render (h e mem_cons_self)
  | e :: f :: es, h => by
    rw [forall_mem_cons] at h
    have hFirst := (Spelt.spells_render h.1).append_out (spellsOut_blanks (by decide))
      separates_blank
    rw [append_nil] at hFirst
    exact hFirst.append_spells (spells_renderItems h.2)

end

theorem Spelt.spellsOut_render (h : (list line items).Spelt) :
    SpellsOut (list line items).render (list line items).tokens := by
  have hOpen := spellsOut_opening.append_spells (spells_renderItems (spelt_list.mp h))
  have hAll := hOpen.append_out spellsOut_closing separates_closing
  rw [render, tokens]
  simpa using hAll

/-! ## S-expressions up to lines -/

mutual

/-- An s-expression without its lines. -/
def strip : Sexpr → Sexpr
  | .atom _ text => .atom 0 text
  | .list _ items => .list 0 (stripAll items)

/-- Several s-expressions without their lines. -/
def stripAll : List Sexpr → List Sexpr
  | [] => []
  | item :: items => strip item :: stripAll items

end

theorem stripAll_eq_map (es : List Sexpr) : stripAll es = es.map strip := by
  induction es with
  | nil => rfl
  | cons e es ih => rw [stripAll, ih, map_cons]

@[simp] theorem strip_atom (line : Nat) (text : String) :
    (Sexpr.atom line text).strip = ofName text := rfl

@[simp] theorem strip_list (line : Nat) (items : List Sexpr) :
    (Sexpr.list line items).strip = ofItems (items.map strip) := by
  rw [strip, stripAll_eq_map, ofItems]

@[simp] theorem strip_ofName (name : String) : (ofName name).strip = ofName name := rfl

@[simp] theorem strip_ofItems (items : List Sexpr) :
    (ofItems items).strip = ofItems (items.map strip) := strip_list 0 items

theorem forall₂_of_strip {R : Sexpr → α → Prop} {write : α → Sexpr} {as : List α}
    (h : es.map strip = (as.map write).map strip)
    (hRead : ∀ a ∈ as, ∀ e : Sexpr, e.strip = (write a).strip → R e a) : Forall₂ R es as := by
  induction as generalizing es with
  | nil =>
    rw [map_nil, map_nil, map_eq_nil_iff] at h
    subst h
    exact .nil
  | cons a as ih =>
    rw [forall_mem_cons] at hRead
    obtain ⟨e, es, rfl, he, hes⟩ := map_eq_cons_iff.mp h
    exact .cons (hRead.1 e he) (ih hes hRead.2)

/-- S-expressions are known by their tokens, lines apart, when a parenthesis closes them. -/
theorem Spans.map_strip {ls : List Lexeme} (h : Spans es ls) {fs : List Sexpr}
    {rest rest' : List Token} (hSame : tokensOf es ++ .closing :: rest =
      tokensOf fs ++ .closing :: rest') : es.map strip = fs.map strip ∧ rest = rest' := by
  induction h generalizing fs rest rest' with
  | nil => match fs with
    | [] => simpa [tokensOf] using hSame
    | .atom _ _ :: _ | .list _ _ :: _ => simp [tokensOf, tokens] at hSame
  | atom _ ih => match fs with
    | [] | .list _ _ :: _ => simp [tokensOf, tokens] at hSame
    | .atom _ _ :: fs =>
      simp only [tokensOf, tokens, cons_append, nil_append, cons.injEq, Token.atom.injEq] at hSame
      obtain ⟨hItems, hRest⟩ := ih hSame.2
      exact ⟨by simp [hSame.1, hItems], hRest⟩
  | list _ _ ihInner ih => match fs with
    | [] | .atom _ _ :: _ => simp [tokensOf, tokens] at hSame
    | .list _ inner :: fs =>
      simp only [tokensOf, tokens, cons_append, append_assoc, nil_append, cons.injEq,
        true_and] at hSame
      -- the first list ends where the other one does, and what follows is the same
      obtain ⟨hInner, hAfter⟩ := ihInner hSame
      obtain ⟨hItems, hRest⟩ := ih hAfter
      exact ⟨by simp [hInner, hItems], hRest⟩

theorem exists_spans (es : List Sexpr) : ∃ ls, Spans es ls := by
  match es with
  | [] => exact ⟨[], .nil⟩
  | .atom line text :: es =>
    obtain ⟨ls, h⟩ := exists_spans es
    exact ⟨_, .atom h⟩
  | .list line inner :: es =>
    obtain ⟨ls, hInner⟩ := exists_spans inner
    obtain ⟨more, h⟩ := exists_spans es
    exact ⟨_, @Spans.list line line _ _ _ _ hInner h⟩
termination_by sizeOf es

/-- **A text that is cut into the tokens of some s-expressions is read as these**, lines
apart. -/
theorem exists_read (h : cut .between text.toList = tokensOf es) :
    ∃ es' : List Sexpr, es'.map strip = es.map strip ∧ read text = ⟨es', none⟩ := by
  have hReads : Reads (scan text) (read text) := reads_gather .nil
  have hValue : (scan text).map Located.value = tokensOf es := by
    rw [scan, map_value_scanFrom, h]
  -- the tokens are balanced, so nothing stops the reader
  obtain ⟨ls, hSpans⟩ := exists_spans es
  have hStopped : (read text).stopped = none := by
    rw [hReads.stopped_eq_none_iff, hValue, ← hSpans.map_value]
    exact hSpans.balanced
  have hRead : read text = ⟨(read text).items, none⟩ := by rw [← hStopped]
  rw [hRead] at hReads
  have hItems : tokensOf (read text).items ++ [.closing] = tokensOf es ++ [.closing] := by
    rw [← hReads.spans.map_value, hValue]
  exact ⟨_, (hReads.spans.map_strip hItems).1, hRead⟩

/-! ## What was read -/

/-- **What is read from a text is spelt with atoms.** -/
theorem Spelt.of_mem_read {e : Sexpr} (he : e ∈ (read text).items) : e.Spelt := by
  intro name hName
  have hReads : Reads (scan text) (read text) := reads_gather .nil
  have hLexes : Lexes [] text.toList (scan text) := lexes_iff.mpr rfl
  obtain ⟨ls, rest, hScan, hSpans⟩ := hReads.exists_spans
  have hToken : Token.atom name ∈ ls.map Located.value := by
    rw [hSpans.map_value]
    exact mem_tokensOf.mpr ⟨e, he, hName⟩
  obtain ⟨l, hl, hValue⟩ := mem_map.mp hToken
  exact hLexes.isAtom l (hScan ▸ mem_append_left rest hl) name hValue

end Sexpr

end InvariantSearch
