import InvariantSearch.Session.Work
import Mathlib.Algebra.Group.Nat.Defs
import Mathlib.Data.List.Forall2

/-!
# Computations that may fail

Tools for what follows.

* Results: when a chain of steps in `Except` succeeds, each step did
  (`bind_eq_ok`, `mapM_eq_ok`, `forM_eq_ok`), and so in `EStateM` (`run_bind_eq_ok`).
* `Gives` — a computation that cannot fail, and what holds of its result.
* `Discipline` — what every computation of a kind keeps to, whether it succeeds
  or fails: a relation between the states before and after it, and what may be
  said of an error. `Discipline.Ensures` adds what holds of the result when it
  succeeds. There is one rule for each way to put computations together, so that
  an account of a function follows its text.
* `Discipline.Keeps` — a computation keeps to a discipline from every state,
  whatever its result and its errors are.
-/

namespace InvariantSearch

open List

variable {σ : Type} {c : Prop}

/-! ## Results -/

section Results

variable {ε ε' α β : Type} {as : List α} {f : α → EStateM ε σ β} {bs : List β} {x : EStateM ε σ α}
  {R : α → β → Prop}

theorem bind_eq_ok {x : Except ε α} {f : α → Except ε β} {b : β} :
    (x >>= f) = .ok b ↔ ∃ a, x = .ok a ∧ f a = .ok b := by
  cases x <;> simp [bind, Except.bind]

theorem pure_eq_ok {a b : α} : (pure a : Except ε α) = .ok b ↔ a = b := by
  simp [pure, Except.pure]

theorem guard_eq_ok [Decidable c] {e : ε} {x : Except ε β} {b : β} :
    (if c then (throw e : Except ε PUnit) >>= fun _ => x else x) = .ok b ↔ ¬ c ∧ x = .ok b := by
  by_cases hc : c
  · simp [hc, throw, throwThe, MonadExceptOf.throw, bind, Except.bind]
  · simp [hc]

theorem guard_last_eq_ok [Decidable c] {e : ε} :
    (if c then throw e else pure () : Except ε Unit) = .ok () ↔ ¬ c := by
  by_cases hc : c
  · simp [hc, throw, throwThe, MonadExceptOf.throw]
  · simp [hc, pure, Except.pure]

theorem mapError_eq_ok {x : Except ε α} {f : ε → ε'} {a : α} :
    x.mapError f = .ok a ↔ x = .ok a := by
  cases x <;> simp [Except.mapError]

theorem run_bind_eq_ok {s t : σ} {b : β} :
    (x >>= f) s = .ok b t ↔ ∃ a u, x s = .ok a u ∧ f a u = .ok b t := by
  show EStateM.bind x f s = .ok b t ↔ _
  unfold EStateM.bind
  cases x s <;> simp

theorem run_pure_eq_ok {s t : σ} {a b : α} :
    (pure a : EStateM ε σ α) s = .ok b t ↔ a = b ∧ s = t := by
  simp [pure, EStateM.pure]

theorem run_bind_pure_eq_ok {f : α → β} {s t : σ} {b : β} :
    (x >>= fun a => pure (f a)) s = .ok b t ↔ ∃ a, x s = .ok a t ∧ f a = b := by
  simp only [run_bind_eq_ok, run_pure_eq_ok]
  exact ⟨fun ⟨a, _, ha, hb, ht⟩ => ⟨a, ht ▸ ha, hb⟩, fun ⟨a, ha, hb⟩ => ⟨a, t, ha, hb, rfl⟩⟩

theorem run_bind_bind_pure_eq_ok {γ : Type} {y : α → EStateM ε σ β} {f : α → β → γ} {s t : σ}
    {c : γ} :
    (x >>= fun a => y a >>= fun b => pure (f a b)) s = .ok c t ↔
      ∃ a u, x s = .ok a u ∧ ∃ b, y a u = .ok b t ∧ f a b = c := by
  rw [run_bind_eq_ok]
  simp only [run_bind_pure_eq_ok]

theorem mapM_eq_ok {f : α → Except ε β} :
    as.mapM f = .ok bs ↔ Forall₂ (fun a b => f a = .ok b) as bs := by
  induction as generalizing bs with
  | nil =>
    rw [mapM_nil, pure_eq_ok, forall₂_nil_left_iff, eq_comm]
  | cons a as ih =>
    simp only [mapM_cons, bind_eq_ok, pure_eq_ok, forall₂_cons_left_iff, ih]
    constructor
    · rintro ⟨b, hb, bs, hbs, rfl⟩
      exact ⟨b, bs, hb, hbs, rfl⟩
    · rintro ⟨b, bs, hb, hbs, rfl⟩
      exact ⟨b, hb, bs, hbs, rfl⟩

theorem exists_mapM_eq_ok {f : α → Except ε β} (h : ∀ a ∈ as, ∃ b, f a = .ok b) :
    ∃ bs, as.mapM f = .ok bs := by
  induction as with
  | nil => exact ⟨[], rfl⟩
  | cons a as ih =>
    obtain ⟨b, hb⟩ := h a mem_cons_self
    obtain ⟨bs, hbs⟩ := ih fun a' ha => h a' (mem_cons_of_mem a ha)
    exact ⟨b :: bs, mapM_eq_ok.mpr (.cons hb (mapM_eq_ok.mp hbs))⟩

theorem run_mapM_eq_ok {s t : σ} (h : as.mapM f s = .ok bs t) :
    Forall₂ (fun a b => ∃ u u', f a u = .ok b u') as bs := by
  induction as generalizing bs s with
  | nil =>
    rw [mapM_nil, run_pure_eq_ok] at h
    rw [← h.1]
    exact .nil
  | cons a as ih =>
    rw [mapM_cons, run_bind_bind_pure_eq_ok] at h
    obtain ⟨b, u, hb, bs', hbs, rfl⟩ := h
    exact .cons ⟨s, u, hb⟩ (ih hbs)

theorem exists_left_of_forall₂ (h : Forall₂ R as bs) {b : β} (hb : b ∈ bs) : ∃ a ∈ as, R a b := by
  induction h with
  | nil => cases hb
  | cons hHead _ ih =>
    rcases mem_cons.mp hb with rfl | hb
    · exact ⟨_, mem_cons_self, hHead⟩
    · obtain ⟨a, ha, hEq⟩ := ih hb
      exact ⟨a, mem_cons_of_mem _ ha, hEq⟩

theorem exists_right_of_forall₂ (h : Forall₂ R as bs) {a : α} (ha : a ∈ as) : ∃ b ∈ bs, R a b :=
  exists_left_of_forall₂ h.flip ha

theorem mem_of_mapM_eq_ok {f : α → Except ε β} (h : as.mapM f = .ok bs) {b : β} (hb : b ∈ bs) :
    ∃ a ∈ as, f a = .ok b :=
  exists_left_of_forall₂ (mapM_eq_ok.mp h) hb

theorem forM_eq_ok {f : α → Except ε PUnit} : as.forM f = .ok () ↔ ∀ a ∈ as, f a = .ok () := by
  induction as with
  | nil => simp [List.forM, pure, Except.pure]
  | cons a as ih =>
    rw [show (a :: as).forM f = f a >>= fun _ => as.forM f from rfl, bind_eq_ok,
      forall_mem_cons, ← ih]
    exact ⟨fun ⟨_, ha, h⟩ => ⟨ha, h⟩, fun ⟨ha, h⟩ => ⟨_, ha, h⟩⟩

theorem foldlM_keeps {f : β → α → Except ε β} {P : β → Prop}
    (hStep : ∀ a ∈ as, ∀ b b', P b → f b a = .ok b' → P b') {b b' : β} (hb : P b)
    (h : as.foldlM f b = .ok b') : P b' := by
  induction as generalizing b with
  | nil =>
    rw [foldlM_nil, pure_eq_ok] at h
    exact h ▸ hb
  | cons a as ih =>
    rw [foldlM_cons, bind_eq_ok] at h
    obtain ⟨c, hc, h⟩ := h
    exact ih (fun a' ha' => hStep a' (mem_cons_of_mem a ha'))
      (hStep a mem_cons_self b c hb hc) h

/-! ## Success -/

/-- A computation succeeds wherever it starts, with a result as said. -/
def Gives (act : EStateM ε σ α) (P : α → Prop) : Prop := ∀ s, ∃ a t, act s = .ok a t ∧ P a

variable {act : EStateM ε σ α} {P : α → Prop} {Q : β → Prop}

theorem gives_pure {a : α} (h : P a) : Gives (pure a : EStateM ε σ α) P := fun s => ⟨a, s, rfl, h⟩

theorem Gives.imp {P' : α → Prop} (h : Gives act P) (hImp : ∀ a, P a → P' a) : Gives act P' :=
  fun s => (h s).imp fun a ⟨t, hRun, ha⟩ => ⟨t, hRun, hImp a ha⟩

theorem Gives.bind (h : Gives act P) (hNext : ∀ a, P a → Gives (f a) Q) :
    Gives (act >>= f) Q := by
  intro s
  obtain ⟨a, t, hRun, ha⟩ := h s
  obtain ⟨b, u, hRest, hb⟩ := hNext a ha t
  exact ⟨b, u, run_bind_eq_ok.mpr ⟨a, t, hRun, hRest⟩, hb⟩

theorem gives_mapM₂ {γ : Type} {R : β → γ → Prop} {cs : List γ}
    (h : Forall₂ (fun a c => Gives (f a) (R · c)) as cs) :
    Gives (as.mapM f) (Forall₂ R · cs) := by
  induction h with
  | nil => exact gives_pure .nil
  | cons hStep _ ih =>
    rw [mapM_cons]
    exact hStep.bind fun b hb => ih.bind fun bs hbs => gives_pure (.cons hb hbs)

theorem gives_mapM (h : ∀ a ∈ as, Gives (f a) Q) : Gives (as.mapM f) (∀ b ∈ ·, Q b) := by
  refine (gives_mapM₂ (R := fun b _ => Q b) (forall₂_same.mpr h)).imp fun bs hbs b hb => ?_
  obtain ⟨_, -, hb⟩ := exists_right_of_forall₂ hbs hb
  exact hb

end Results

/-! ## Disciplines -/

/-- What all computations of a kind keep to: how they may change the state, and when they
may fail. -/
structure Discipline (ε σ : Type) where
  Leads : σ → σ → Prop
  Fails : ε → σ → Prop
  refl : ∀ s, Leads s s
  trans : ∀ {s t u}, Leads s t → Leads t u → Leads s u

namespace Discipline

variable {ε σ α β : Type} (d : Discipline ε σ) {a : α} {t : σ} {e : ε} {Q' : α → σ → Prop}
  {next : α → EStateM ε σ β} {f : σ → σ} {act' : EStateM ε σ α}

/-- A computation keeps to a discipline from a state on, and a result it gives is as
`Q` says. -/
def Ensures (act : EStateM ε σ α) (s : σ) (Q : α → σ → Prop) : Prop :=
  match act s with
  | .ok a t => d.Leads s t ∧ Q a t
  | .error e t => d.Leads s t ∧ d.Fails e t

variable {d} {act : EStateM ε σ α} {s : σ} {Q : α → σ → Prop}

theorem Ensures.ok (h : d.Ensures act s Q) (hRun : act s = .ok a t) : d.Leads s t ∧ Q a t := by
  rw [Ensures, hRun] at h
  exact h

theorem Ensures.error (h : d.Ensures act s Q) (hRun : act s = .error e t) :
    d.Leads s t ∧ d.Fails e t := by
  rw [Ensures, hRun] at h
  exact h

/-- The state that a computation leaves, whether it succeeds or fails. -/
def left : EStateM.Result ε σ α → σ
  | .ok _ t => t
  | .error _ t => t

instance {P : α → σ → Prop} [∀ a t, Decidable (P a t)] :
    (r : EStateM.Result ε σ α) → Decidable (∃ a t, r = .ok a t ∧ P a t)
  | .ok a t => decidable_of_iff (P a t) (by simp)
  | .error _ _ => isFalse (by simp)

instance [DecidableEq ε] {P : σ → Prop} [DecidablePred P] :
    (r : EStateM.Result ε σ α) → Decidable (∃ t, r = .error e t ∧ P t)
  | .ok _ _ => isFalse (by simp)
  | .error e' t => decidable_of_iff (e' = e ∧ P t) (by simp)

theorem Ensures.leads (h : d.Ensures act s Q) : d.Leads s (left (act s)) := by
  cases hRun : act s with
  | ok a t => exact (h.ok hRun).1
  | error e t => exact (h.error hRun).1

theorem Ensures.change {d' : Discipline ε σ} (h : d.Ensures act s Q)
    (hOk : ∀ a t, d.Leads s t → Q a t → d'.Leads s t ∧ Q' a t)
    (hError : ∀ e t, d.Leads s t → d.Fails e t → d'.Leads s t ∧ d'.Fails e t) :
    d'.Ensures act s Q' := by
  unfold Ensures at h ⊢
  split at h
  · exact hOk _ _ h.1 h.2
  · exact hError _ _ h.1 h.2

theorem Ensures.imp (h : d.Ensures act s Q) (hImp : ∀ a t, d.Leads s t → Q a t → Q' a t) :
    d.Ensures act s Q' :=
  h.change (fun a t hst hQ => ⟨hst, hImp a t hst hQ⟩) fun _ _ hst hFails => ⟨hst, hFails⟩

theorem ensures_pure (h : Q a s) : d.Ensures (pure a) s Q := ⟨d.refl s, h⟩

theorem ensures_throw (h : d.Fails e s) : d.Ensures (throw e) s Q := ⟨d.refl s, h⟩

theorem Ensures.after (h : d.Ensures act t Q) (hst : d.Leads s t) :
    match act t with
    | .ok a u => d.Leads s u ∧ Q a u
    | .error e u => d.Leads s u ∧ d.Fails e u := by
  unfold Ensures at h
  split at h
  · exact ⟨d.trans hst h.1, h.2⟩
  · exact ⟨d.trans hst h.1, h.2⟩

theorem Ensures.bind {Q' : β → σ → Prop} (h : d.Ensures act s Q)
    (hNext : ∀ a t, d.Leads s t → Q a t → d.Ensures (next a) t Q') :
    d.Ensures (act >>= next) s Q' := by
  unfold Ensures at h
  show match EStateM.bind act next s with
    | .ok a t => _
    | .error e t => _
  rw [EStateM.bind]
  cases hRun : act s with
  | ok a t =>
    rw [hRun] at h
    exact (hNext a t h.1 h.2).after h.1
  | error e t =>
    rw [hRun] at h
    exact h

theorem ensures_get {next : σ → EStateM ε σ α} (h : d.Ensures (next s) s Q) :
    d.Ensures (get >>= next) s Q := h

theorem ensures_modify (h : d.Leads s (f s)) : d.Ensures (modify f) s fun _ t => t = f s := ⟨h, rfl⟩

theorem ensures_ite [Decidable c] (hThen : c → d.Ensures act s Q) (hElse : ¬ c → d.Ensures act' s Q) :
    d.Ensures (if c then act else act') s Q := by
  split
  · rename_i h
    exact hThen h
  · rename_i h
    exact hElse h

theorem ensures_forM {I : σ → Prop} {f : β → EStateM ε σ PUnit} {bs : List β}
    (hStep : ∀ b ∈ bs, ∀ t, d.Leads s t → I t → d.Ensures (f b) t fun _ u => I u) (hs : I s) :
    d.Ensures (bs.forM f) s fun _ t => I t := by
  induction bs generalizing s with
  | nil => exact ensures_pure hs
  | cons b bs ih =>
    show d.Ensures (f b >>= fun _ => bs.forM f) s _
    refine (hStep b mem_cons_self s (d.refl s) hs).bind fun _ t hst ht => ?_
    exact ih (fun b' hb' u htu => hStep b' (mem_cons_of_mem b hb') u (d.trans hst htu)) ht

theorem ensures_foldlM {I : β → σ → Prop} {f : β → α → EStateM ε σ β} {as : List α} {b : β}
    (hStep : ∀ a ∈ as, ∀ b t, d.Leads s t → I b t → d.Ensures (f b a) t I) (hb : I b s) :
    d.Ensures (as.foldlM f b) s I := by
  induction as generalizing s b with
  | nil =>
    rw [foldlM_nil]
    exact ensures_pure hb
  | cons a as ih =>
    rw [foldlM_cons]
    refine (hStep a mem_cons_self b s (d.refl s) hb).bind fun c t hst hc => ?_
    exact ih (fun a' ha' b u htu =>
      hStep a' (mem_cons_of_mem a ha') b u (d.trans hst htu)) hc

/-! ## Whatever the result -/

/-- From every state a computation leads where a discipline allows, whether it succeeds or
fails. -/
def Keeps (d : Discipline ε σ) (act : EStateM ε σ α) : Prop := ∀ s, d.Leads s (left (act s))

theorem Keeps.ok (h : d.Keeps act) (hRun : act s = .ok a t) : d.Leads s t := by
  have hLeads := h s
  rwa [hRun] at hLeads

theorem keeps_pure (a : α) : d.Keeps (pure a) := d.refl

theorem keeps_throw (e : ε) : d.Keeps (throw e : EStateM ε σ α) := d.refl

theorem keeps_get : d.Keeps get := d.refl

theorem keeps_modify (h : ∀ s, d.Leads s (f s)) : d.Keeps (modify f) := h

theorem Keeps.bind (h : d.Keeps act) (hNext : ∀ a, d.Keeps (next a)) : d.Keeps (act >>= next) := by
  intro s
  have hFirst := h s
  show d.Leads s (left (EStateM.bind act next s))
  rw [EStateM.bind]
  cases hRun : act s with
  | ok a t =>
    rw [hRun] at hFirst
    exact d.trans hFirst (hNext a t)
  | error e t =>
    rw [hRun] at hFirst
    exact hFirst

theorem keeps_ite [Decidable c] (hThen : d.Keeps act) (hElse : d.Keeps act') :
    d.Keeps (if c then act else act') := by
  split
  · exact hThen
  · exact hElse

theorem Keeps.discard (h : d.Keeps act) : d.Keeps (discard act) := h.bind fun _ => keeps_pure _

theorem keeps_when [Decidable c] {first : EStateM ε σ PUnit} (h : d.Keeps first)
    (hNext : d.Keeps act) : d.Keeps (if c then first >>= fun _ => act else act) :=
  keeps_ite (h.bind fun _ => hNext) hNext

theorem keeps_mapM {f : α → EStateM ε σ β} (h : ∀ a, d.Keeps (f a)) (as : List α) :
    d.Keeps (as.mapM f) := by
  induction as with
  | nil =>
    rw [mapM_nil]
    exact keeps_pure _
  | cons a as ih =>
    rw [mapM_cons]
    exact (h a).bind fun _ => ih.bind fun _ => keeps_pure _

end Discipline

section Work

variable {ω α : Type} {d : Discipline Error (Session × ω)} {s : Session × ω}
  {Q : α → Session × ω → Prop}

theorem Discipline.ensures_own {next : ω → WorkM ω α} (h : d.Ensures (next s.2) s Q) :
    d.Ensures (WorkM.own >>= next) s Q := h

theorem Discipline.ensures_session {next : Session → WorkM ω α} (h : d.Ensures (next s.1) s Q) :
    d.Ensures (WorkM.session >>= next) s Q := h

end Work

section Attempts

variable {σ ε α : Type} {d : Discipline Error σ} {s : σ} {Q : α → σ → Prop}

theorem Discipline.Ensures.attempt {d' : Discipline Error σ} {act : EStateM Error σ α}
    (h : d.Ensures act s Q) (hLeads : ∀ t, d.Leads s t → d'.Leads s t) :
    d'.Ensures (attempt act) s fun r t =>
      (∀ a, r = .ok a → Q a t) ∧ ∀ e, r = .error e → d.Fails e t := by
  unfold Discipline.Ensures at h ⊢
  unfold InvariantSearch.attempt
  cases hRun : act s with
  | ok a t =>
    rw [hRun] at h
    refine ⟨hLeads t h.1, ?_, fun e he => by cases he⟩
    rintro _ ⟨⟩
    exact h.2
  | error e t =>
    rw [hRun] at h
    refine ⟨hLeads t h.1, fun a ha => (by cases ha), ?_⟩
    rintro _ ⟨⟩
    exact h.2

theorem Discipline.ensures_liftExcept {f : ε → Error} {r : Except ε α}
    (hOk : ∀ a, r = .ok a → Q a s) (hError : ∀ e, r = .error e → d.Fails (f e) s) :
    d.Ensures (liftExcept f r) s Q := by
  cases r with
  | ok a => exact Discipline.ensures_pure (hOk a rfl)
  | error e => exact Discipline.ensures_throw (hError e rfl)

theorem Discipline.keeps_liftExcept (f : ε → Error) (r : Except ε α) :
    d.Keeps (liftExcept f r) := by
  cases r with
  | ok a => exact Discipline.keeps_pure a
  | error e => exact Discipline.keeps_throw (f e)

end Attempts

end InvariantSearch
