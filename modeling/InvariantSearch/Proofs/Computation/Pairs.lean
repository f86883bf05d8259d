import InvariantSearch.Proofs.Computation.Basic

/-!
# Two computations side by side

What two runs have in common can be read off the text of the computation, if it is
kept from step to step.

* `Pairing` — when two states are twins and two errors alike, and what is known of
  how two states lead to two others.
* `Pairing.Ensures` — from two states that are twins, two computations both succeed or
  both fail, and leave twins again. There is one rule for each way to put computations
  together, as there is for a `Discipline`.
* `Pairing.Relates` — the same from any twins, with a relation between the results that
  does not depend on the states. `Pairing.Even` is that of one computation and
  equal results.

A computation that is paired with itself from a state that is its own twin tells
about a single run (`Relates.alone`).
-/

namespace InvariantSearch

open List Discipline

/-- Two outcomes agree: both are results that are related, or both are errors that are. -/
def Agree {ε ε' α β : Type} (R : α → β → Prop) (A : ε → ε' → Prop) :
    Except ε α → Except ε' β → Prop
  | .ok a, .ok b => R a b
  | .error e, .error e' => A e e'
  | .ok _, .error _ => False
  | .error _, .ok _ => False

theorem Agree.mono {ε ε' α β : Type} {R R' : α → β → Prop} {A A' : ε → ε' → Prop}
    {r : Except ε α} {r' : Except ε' β} (h : Agree R A r r') (hR : ∀ a b, R a b → R' a b)
    (hA : ∀ e e', A e e' → A' e e') : Agree R' A' r r' := by
  cases r <;> cases r'
  · exact hA _ _ h
  · exact h.elim
  · exact h.elim
  · exact hR _ _ h

/-- How two computations go on side by side. -/
structure Pairing (ε σ : Type) where
  /-- Two states that the computations treat alike. -/
  Twins : σ → σ → Prop
  Alike : ε → ε → Prop
  /-- How two states may lead to two others. -/
  Leads : σ → σ → σ → σ → Prop
  alike_refl : ∀ e, Alike e e
  refl : ∀ s s', Leads s s' s s'
  trans : ∀ {s s' t t' u u'}, Leads s s' t t' → Leads t t' u u' → Leads s s' u u'

namespace Pairing

variable {ε σ α β γ δ : Type} (d : Pairing ε σ) {cs : List γ} {a : α} {b : β} {c : Prop}
  {yes no : EStateM ε σ α} {f : γ → EStateM ε σ α} {ds : List δ} {next' : β → EStateM ε σ δ}
  {next : α → EStateM ε σ γ} {g : δ → EStateM ε σ β}

/-- How two computations end that began in two states. -/
def Ends (s s' : σ) (Q : α → β → σ → σ → Prop) :
    EStateM.Result ε σ α → EStateM.Result ε σ β → Prop
  | .ok a t, .ok b t' => d.Twins t t' ∧ d.Leads s s' t t' ∧ Q a b t t'
  | .error e t, .error e' t' => d.Twins t t' ∧ d.Leads s s' t t' ∧ d.Alike e e'
  | .ok _ _, .error _ _ => False
  | .error _ _, .ok _ _ => False

/-- From two states that are twins, two computations end alike, with results as `Q` says. -/
def Ensures (act : EStateM ε σ α) (act' : EStateM ε σ β) (s s' : σ)
    (Q : α → β → σ → σ → Prop) : Prop :=
  d.Twins s s' → d.Ends s s' Q (act s) (act' s')

/-- From any twins, two computations end alike, with related results. -/
def Relates (R : α → β → Prop) (act : EStateM ε σ α) (act' : EStateM ε σ β) : Prop :=
  ∀ s s', d.Ensures act act' s s' fun a b _ _ => R a b

/-- From any twins, a computation gives the same result. -/
def Even (act : EStateM ε σ α) : Prop := d.Relates Eq act act

variable {d} {act : EStateM ε σ α} {act' : EStateM ε σ β} {s s' : σ}
  {Q : α → β → σ → σ → Prop} {R : α → β → Prop}

/-! ## Two given states -/

theorem Ensures.imp {Q' : α → β → σ → σ → Prop} (h : d.Ensures act act' s s' Q)
    (hImp : ∀ a b t t', Q a b t t' → Q' a b t t') : d.Ensures act act' s s' Q' := by
  intro hTwins
  have hEnds := h hTwins
  unfold Ends at hEnds ⊢
  split at hEnds
  · exact ⟨hEnds.1, hEnds.2.1, hImp _ _ _ _ hEnds.2.2⟩
  · exact hEnds
  · exact hEnds.elim
  · exact hEnds.elim

theorem ensures_pure (h : Q a b s s') : d.Ensures (pure a) (pure b) s s' Q :=
  fun hTwins => ⟨hTwins, d.refl s s', h⟩

theorem ensures_throw {e e' : ε} (h : d.Alike e e') :
    d.Ensures (throw e : EStateM ε σ α) (throw e' : EStateM ε σ β) s s' Q :=
  fun hTwins => ⟨hTwins, d.refl s s', h⟩

theorem ensures_of_ok {t t' : σ} (hRun : act s = .ok a t) (hRun' : act' s' = .ok b t')
    (h : d.Twins s s' → d.Twins t t' ∧ d.Leads s s' t t' ∧ Q a b t t') :
    d.Ensures act act' s s' Q := by
  intro hTwins
  rw [hRun, hRun']
  exact h hTwins

theorem ensures_of_twins (h : d.Twins s s' → d.Ensures act act' s s' Q) :
    d.Ensures act act' s s' Q :=
  fun hTwins => h hTwins hTwins

theorem ensures_get_bind {next : σ → EStateM ε σ α} {next' : σ → EStateM ε σ β}
    (h : d.Ensures (next s) (next' s') s s' Q) :
    d.Ensures (get >>= next) (get >>= next') s s' Q :=
  h

theorem ensures_modify {f g : σ → σ} (hTwins : d.Twins s s' → d.Twins (f s) (g s'))
    (hLeads : d.Leads s s' (f s) (g s')) :
    d.Ensures (modify f) (modify g) s s' fun _ _ t t' => t = f s ∧ t' = g s' :=
  fun h => ⟨hTwins h, hLeads, rfl, rfl⟩

theorem Ends.of_leads {t t' : σ} {r : EStateM.Result ε σ α} {r' : EStateM.Result ε σ β}
    (h : d.Ends t t' Q r r') (hLeads : d.Leads s s' t t') : d.Ends s s' Q r r' := by
  unfold Ends at h ⊢
  split at h
  · exact ⟨h.1, d.trans hLeads h.2.1, h.2.2⟩
  · exact ⟨h.1, d.trans hLeads h.2.1, h.2.2⟩
  · exact h
  · exact h

theorem Ensures.bind {Q' : γ → δ → σ → σ → Prop} (h : d.Ensures act act' s s' Q)
    (hNext : ∀ a b t t', d.Leads s s' t t' → Q a b t t' → d.Ensures (next a) (next' b) t t' Q') :
    d.Ensures (act >>= next) (act' >>= next') s s' Q' := by
  intro hTwins
  have hFirst := h hTwins
  show d.Ends s s' Q' (EStateM.bind act next s) (EStateM.bind act' next' s')
  unfold EStateM.bind
  -- both first steps succeed, or both fail and nothing follows
  cases hRun : act s <;> cases hRun' : act' s' <;> rw [hRun, hRun'] at hFirst
  · obtain ⟨ht, hLeads, hQ⟩ := hFirst
    exact (hNext _ _ _ _ hLeads hQ ht).of_leads hLeads
  · exact hFirst.elim
  · exact hFirst.elim
  · exact hFirst

theorem ensures_ite {c' : Prop} [Decidable c] [Decidable c'] {yes' no' : EStateM ε σ β}
    (hc : c ↔ c') (hYes : c → d.Ensures yes yes' s s' Q) (hNo : ¬ c → d.Ensures no no' s s' Q) :
    d.Ensures (if c then yes else no) (if c' then yes' else no') s s' Q := by
  by_cases h : c
  · rw [if_pos h, if_pos (hc.mp h)]
    exact hYes h
  · rw [if_neg h, if_neg (mt hc.mpr h)]
    exact hNo h

/-- Each pair of results of two loops is as its rounds say, if nothing makes that false again. -/
theorem ensures_mapM {R : α → β → σ → σ → Prop}
    (hStable : ∀ a b t t' u u', d.Leads t t' u u' → R a b t t' → R a b u u')
    (h : List.Forall₂ (fun c d' => ∀ t t', d.Ensures (f c) (g d') t t' R) cs ds) :
    d.Ensures (cs.mapM f) (ds.mapM g) s s' fun as bs t t' =>
      List.Forall₂ (fun a b => R a b t t') as bs := by
  induction h generalizing s s' with
  | nil =>
    rw [mapM_nil, mapM_nil]
    exact ensures_pure .nil
  | cons hHead _ ih =>
    rw [mapM_cons, mapM_cons]
    refine (hHead s s').bind fun a b t t' _ hab => ih.bind fun as bs u u' hLeads hRest => ?_
    exact ensures_pure (.cons (hStable a b t t' u u' hLeads hab) hRest)

/-! ## Any twins -/

theorem relates_pure (h : R a b) : d.Relates R (pure a) (pure b) :=
  fun _ _ => ensures_pure h

theorem relates_throw {e e' : ε} (h : d.Alike e e') :
    d.Relates R (throw e : EStateM ε σ α) (throw e' : EStateM ε σ β) :=
  fun _ _ => ensures_throw h

theorem Relates.bind {R' : γ → δ → Prop} (h : d.Relates R act act')
    (hNext : ∀ a b, R a b → d.Relates R' (next a) (next' b)) :
    d.Relates R' (act >>= next) (act' >>= next') :=
  fun s s' => (h s s').bind fun a b t t' _ hR => hNext a b hR t t'

theorem relates_ite {c' : Prop} [Decidable c] [Decidable c'] {yes' no' : EStateM ε σ β}
    (hc : c ↔ c') (hYes : c → d.Relates R yes yes') (hNo : ¬ c → d.Relates R no no') :
    d.Relates R (if c then yes else no) (if c' then yes' else no') :=
  fun s s' => ensures_ite hc (fun h => hYes h s s') fun h => hNo h s s'

theorem relates_mapM (h : List.Forall₂ (fun c d' => d.Relates R (f c) (g d')) cs ds) :
    d.Relates (List.Forall₂ R) (cs.mapM f) (ds.mapM g) :=
  fun _ _ => ensures_mapM (fun _ _ _ _ _ _ _ hab => hab) h

theorem relates_forM {f : γ → EStateM ε σ PUnit} {g : δ → EStateM ε σ PUnit}
    (h : List.Forall₂ (fun c d' => d.Relates Eq (f c) (g d')) cs ds) :
    d.Relates Eq (cs.forM f) (ds.forM g) := by
  induction h with
  | nil => exact relates_pure rfl
  | cons hHead _ ih => exact hHead.bind fun _ _ _ => ih

theorem relates_foldlM {f : α → γ → EStateM ε σ α} {g : β → γ → EStateM ε σ β}
    (hStep : ∀ c ∈ cs, ∀ a b, R a b → d.Relates R (f a c) (g b c)) (h : R a b) :
    d.Relates R (cs.foldlM f a) (cs.foldlM g b) := by
  induction cs generalizing a b with
  | nil =>
    rw [foldlM_nil, foldlM_nil]
    exact relates_pure h
  | cons c cs ih =>
    rw [foldlM_cons, foldlM_cons]
    refine (hStep c mem_cons_self a b h).bind fun a' b' h' => ?_
    exact ih (fun c' hc' => hStep c' (mem_cons_of_mem c hc')) h'

/-! ## One computation -/

theorem even_pure (a : α) : d.Even (pure a) := relates_pure rfl

theorem even_throw (e : ε) : d.Even (throw e : EStateM ε σ α) := relates_throw (d.alike_refl e)

theorem Even.bind {next : α → EStateM ε σ β} (h : d.Even act) (hNext : ∀ a, d.Even (next a)) :
    d.Even (act >>= next) :=
  Relates.bind h fun a _ hab => hab ▸ hNext a

theorem even_ite [Decidable c] (hYes : d.Even yes) (hNo : d.Even no) :
    d.Even (if c then yes else no) :=
  relates_ite Iff.rfl (fun _ => hYes) fun _ => hNo

theorem even_forM {f : γ → EStateM ε σ PUnit} (h : ∀ c ∈ cs, d.Even (f c)) : d.Even (cs.forM f) :=
  relates_forM (forall₂_same.mpr h)

theorem even_foldlM {f : α → γ → EStateM ε σ α} (h : ∀ c ∈ cs, ∀ a, d.Even (f a c)) (a : α) :
    d.Even (cs.foldlM f a) :=
  relates_foldlM (fun c hc a' _ hab => hab ▸ h c hc a') rfl

theorem Ensures.alone {Q : α → α → σ → σ → Prop} (h : d.Ensures act act s s Q) (hs : d.Twins s s) :
    d.Twins (left (act s)) (left (act s)) ∧
      d.Leads s s (left (act s)) (left (act s)) := by
  have hEnds := h hs
  cases hRun : act s with
  | ok a t =>
    rw [hRun] at hEnds
    exact ⟨hEnds.1, hEnds.2.1⟩
  | error e t =>
    rw [hRun] at hEnds
    exact ⟨hEnds.1, hEnds.2.1⟩

theorem Relates.alone {R : α → α → Prop} (h : d.Relates R act act) (hs : d.Twins s s) :
    d.Twins (left (act s)) (left (act s)) ∧
      d.Leads s s (left (act s)) (left (act s)) :=
  (h s s).alone hs

end Pairing

/-! ## Errors as results -/

section Attempts

variable {σ α β ε ε' : Type} {d : Pairing Error σ} {s s' : σ} {R : α → β → Prop}
  {act : EStateM Error σ α} {act' : EStateM Error σ β}

theorem Pairing.Ensures.attempt {Q : α → β → σ → σ → Prop} (h : d.Ensures act act' s s' Q) :
    d.Ensures (attempt act) (attempt act') s s' fun r r' t t' =>
      Agree (fun a b => Q a b t t') d.Alike r r' := by
  intro hTwins
  have hEnds := h hTwins
  unfold Pairing.Ends at hEnds ⊢
  unfold InvariantSearch.attempt
  cases hRun : act s <;> cases hRun' : act' s' <;> rw [hRun, hRun'] at hEnds
  · exact hEnds
  · exact hEnds.elim
  · exact hEnds.elim
  · exact hEnds

theorem Pairing.Relates.attempt (h : d.Relates R act act') :
    d.Relates (Agree R d.Alike) (InvariantSearch.attempt act) (InvariantSearch.attempt act') :=
  fun s s' => (h s s').attempt

theorem Pairing.relates_liftExcept {f : ε → Error} {f' : ε' → Error} {r : Except ε α}
    {r' : Except ε' β} (h : Agree R (fun e e' => d.Alike (f e) (f' e')) r r') :
    d.Relates R (liftExcept f r) (liftExcept f' r') := by
  cases r <;> cases r'
  · exact Pairing.relates_throw h
  · exact h.elim
  · exact h.elim
  · exact Pairing.relates_pure h

theorem Pairing.even_liftExcept (f : ε → Error) (r : Except ε α) : d.Even (liftExcept f r) := by
  cases r with
  | ok a => exact Pairing.even_pure a
  | error e => exact Pairing.even_throw (f e)

end Attempts

end InvariantSearch
