import Mathlib.Order.Basic

/-!
# Programs that return, leave, or stop

A generic state monad for low-level code with the three ways such code
ends: it returns to its caller (`ret`), it leaves the caller for good (`away`:
a context switch that never comes back), or it stops the machine (`stop`: a
panic). `Prog.wp` is its weakest precondition and the `wp_*` lemmas are
the rules for the program constructors; `Prog.Keeps` is the special case
of a relation between the state before and the state after, which is how
frame conditions are stated; `forUp` is the counted loop with its
invariant rule.

Nothing here depends on what the state or the stop reasons are.
-/

namespace Jos

variable {σ τ ε δ α β : Type}

/-- How a program ends, with the state it leaves. -/
inductive Outcome (σ ε α : Type) where
  | ret (a : α) (s : σ)
  | away (s : σ)
  | stop (e : ε) (s : σ)
deriving DecidableEq

namespace Outcome

/-- The state a program leaves behind, however it ends. -/
def state : Outcome σ ε α → σ
  | .ret _ s => s
  | .away s => s
  | .stop _ s => s

/-- What a program returns, and the state it returns in. -/
def returned : Outcome σ ε α → Option (α × σ)
  | .ret a s => some (a, s)
  | .away _ | .stop _ _ => none

/-- The state in which a program goes away. -/
def gone : Outcome σ ε α → Option σ
  | .away s => some s
  | .ret _ _ | .stop _ _ => none

theorem returned_eq_some {o : Outcome σ ε α} {x : α × σ} :
    o.returned = some x ↔ o = .ret x.1 x.2 := by
  cases o <;> simp [returned, Prod.ext_iff]

theorem gone_eq_some {o : Outcome σ ε α} {s : σ} :
    o.gone = some s ↔ o = .away s := by
  cases o <;> simp [gone]

/-- The postcondition triple: `Q` for a return, `A` for a departure, `E`
for a stop. -/
def Sat (Q : α → σ → Prop) (A : σ → Prop) (E : ε → σ → Prop) :
    Outcome σ ε α → Prop
  | .ret a s => Q a s
  | .away s => A s
  | .stop e s => E e s

theorem Sat.imp {Q Q' : α → σ → Prop} {A A' : σ → Prop} {E E' : ε → σ → Prop}
    (hQ : ∀ a s, Q a s → Q' a s) (hA : ∀ s, A s → A' s)
    (hE : ∀ e s, E e s → E' e s) :
    ∀ {o : Outcome σ ε α}, o.Sat Q A E → o.Sat Q' A' E'
  | .ret _ _, h => hQ _ _ h
  | .away _, h => hA _ h
  | .stop _ _, h => hE _ _ h

end Outcome

/-- A program over states `σ` with stop reasons `ε`. -/
def Prog (σ ε α : Type) : Type := σ → Outcome σ ε α

namespace Prog

def bind (f : Prog σ ε α) (g : α → Prog σ ε β) : Prog σ ε β := fun s =>
  match f s with
  | .ret a s' => g a s'
  | .away s' => .away s'
  | .stop e s' => .stop e s'

instance : Monad (Prog σ ε) where
  pure a := fun s => .ret a s
  bind := Prog.bind

/-- Read the state. -/
def ask : Prog σ ε σ := fun s => .ret s s

/-- Change the state. -/
def update (f : σ → σ) : Prog σ ε Unit := fun s => .ret () (f s)

/-- Leave the caller for good. -/
def leave : Prog σ ε α := fun s => .away s

/-- Stop the machine. -/
def halt (e : ε) : Prog σ ε α := fun s => .stop e s

/-- Run a program on a component of the state. -/
def zoom (view : σ → τ) (put : τ → σ → σ) (f : Prog τ ε α) : Prog σ ε α :=
  fun s =>
    match f (view s) with
    | .ret a t => .ret a (put t s)
    | .away t => .away (put t s)
    | .stop e t => .stop e (put t s)

/-- Run a program of another layer, whose stop reasons are named `g`. -/
def mapStop (g : ε → δ) (f : Prog σ ε α) : Prog σ δ α := fun s =>
  match f s with
  | .ret a t => .ret a t
  | .away t => .away t
  | .stop e t => .stop (g e) t

/-- Run `body 0`, ..., `body (n - 1)` in this order. -/
def forUp : Nat → (Nat → Prog σ ε Unit) → Prog σ ε Unit
  | 0, _ => pure ()
  | n + 1, body => do
      forUp n body
      body n

/-! ## Running the constructors -/

@[simp] theorem pure_apply (a : α) (s : σ) :
    (pure a : Prog σ ε α) s = .ret a s := rfl

theorem bind_apply (f : Prog σ ε α) (g : α → Prog σ ε β) (s : σ) :
    (f >>= g) s = match f s with
      | .ret a s' => g a s'
      | .away s' => .away s'
      | .stop e s' => .stop e s' := rfl

theorem bind_ret {f : Prog σ ε α} {g : α → Prog σ ε β} {s t : σ} {a : α}
    (h : f s = .ret a t) : (f >>= g) s = g a t := by
  rw [bind_apply, h]

theorem bind_away {f : Prog σ ε α} {g : α → Prog σ ε β} {s s' : σ}
    (h : f s = .away s') : (f >>= g) s = .away s' := by
  rw [bind_apply, h]

theorem bind_stop {f : Prog σ ε α} {g : α → Prog σ ε β} {s s' : σ} {e : ε}
    (h : f s = .stop e s') : (f >>= g) s = .stop e s' := by
  rw [bind_apply, h]

/-- A sequence returns when both parts do. -/
theorem bind_eq_ret {f : Prog σ ε α} {g : α → Prog σ ε β} {s t : σ} {b : β} :
    (f >>= g) s = .ret b t ↔ ∃ a s', f s = .ret a s' ∧ g a s' = .ret b t := by
  rw [bind_apply]
  cases f s with
  | ret a s' => exact ⟨fun h => ⟨a, s', rfl, h⟩,
      fun ⟨_, _, h, h'⟩ => by cases h; exact h'⟩
  | away s' => exact ⟨nofun, fun ⟨_, _, h, _⟩ => nomatch h⟩
  | stop e s' => exact ⟨nofun, fun ⟨_, _, h, _⟩ => nomatch h⟩

@[simp] theorem ask_apply (s : σ) : (ask : Prog σ ε σ) s = .ret s s := rfl

@[simp] theorem update_apply (f : σ → σ) (s : σ) :
    (update f : Prog σ ε Unit) s = .ret () (f s) := rfl

@[simp] theorem leave_apply (s : σ) : (leave : Prog σ ε α) s = .away s := rfl

@[simp] theorem halt_apply (e : ε) (s : σ) :
    (halt e : Prog σ ε α) s = .stop e s := rfl

@[simp] theorem ask_bind (g : σ → Prog σ ε β) (s : σ) :
    (ask >>= g) s = g s s := rfl

@[simp] theorem update_bind (f : σ → σ) (g : Unit → Prog σ ε β) (s : σ) :
    (update f >>= g) s = g () (f s) := rfl

@[simp] theorem pure_bind_apply (a : α) (g : α → Prog σ ε β) (s : σ) :
    (pure a >>= g) s = g a s := rfl

@[simp] theorem halt_bind (e : ε) (g : α → Prog σ ε β) (s : σ) :
    (halt e >>= g) s = .stop e s := rfl

@[simp] theorem leave_bind (g : α → Prog σ ε β) (s : σ) :
    (leave >>= g) s = .away s := rfl

/-! ## Weakest preconditions -/

/-- The weakest precondition of a program for a postcondition triple. -/
def wp (f : Prog σ ε α) (Q : α → σ → Prop) (A : σ → Prop) (E : ε → σ → Prop)
    (s : σ) : Prop :=
  (f s).Sat Q A E

section Rules

variable {Q : β → σ → Prop} {A : σ → Prop} {E : ε → σ → Prop} {s : σ}

@[simp] theorem wp_pure (b : β) : wp (pure b) Q A E = Q b := rfl

@[simp] theorem wp_ask {Q : σ → σ → Prop} : wp ask Q A E = fun s => Q s s := rfl

@[simp] theorem wp_update (f : σ → σ) {Q : Unit → σ → Prop} :
    wp (update f) Q A E = fun s => Q () (f s) := rfl

@[simp] theorem wp_leave : wp (leave : Prog σ ε β) Q A E = A := rfl

@[simp] theorem wp_halt (e : ε) : wp (halt e : Prog σ ε β) Q A E = E e := rfl

/-- The sequencing rule. -/
@[simp] theorem wp_bind (f : Prog σ ε α) (g : α → Prog σ ε β) :
    wp (f >>= g) Q A E = wp f (fun a => wp (g a) Q A E) A E := by
  funext s
  simp only [wp, bind_apply]
  cases f s <;> rfl

theorem wp_pure_intro {b : β} (h : Q b s) : wp (pure b) Q A E s := h

theorem wp_update_intro {f : σ → σ} {Q : Unit → σ → Prop} (h : Q () (f s)) :
    wp (update f) Q A E s := h

theorem wp_bind_intro {f : Prog σ ε α} {g : α → Prog σ ε β}
    (h : wp f (fun a => wp (g a) Q A E) A E s) : wp (f >>= g) Q A E s := by
  rwa [wp_bind]

theorem wp_ask_bind {g : σ → Prog σ ε β} (h : wp (g s) Q A E s) :
    wp (ask >>= g) Q A E s := h

theorem wp_update_bind {f : σ → σ} {g : Unit → Prog σ ε β}
    (h : wp (g ()) Q A E (f s)) : wp (update f >>= g) Q A E s := h

theorem wp_halt_intro {e : ε} (h : E e s) :
    wp (halt e : Prog σ ε β) Q A E s := h

theorem wp_ite (c : Prop) [Decidable c] {f g : Prog σ ε β}
    (hf : c → wp f Q A E s)
    (hg : ¬c → wp g Q A E s) : wp (if c then f else g) Q A E s := by
  by_cases hc : c
  · rw [if_pos hc]
    exact hf hc
  · rw [if_neg hc]
    exact hg hc

/-- The rule of consequence. -/
theorem wp_imp {f : Prog σ ε β} {Q' : β → σ → Prop} {A' : σ → Prop}
    {E' : ε → σ → Prop} (h : wp f Q A E s) (hQ : ∀ a s', Q a s' → Q' a s')
    (hA : ∀ s', A s' → A' s') (hE : ∀ e s', E e s' → E' e s') :
    wp f Q' A' E' s :=
  Outcome.Sat.imp hQ hA hE h

/-- A zoomed program changes the component and nothing else. -/
@[simp] theorem wp_zoom {view : σ → τ} {put : τ → σ → σ} (f : Prog τ ε β) :
    wp (zoom view put f) Q A E = fun s =>
      wp f (fun b t => Q b (put t s)) (fun t => A (put t s))
        (fun e t => E e (put t s)) (view s) := by
  funext s
  simp only [wp, zoom]
  cases f (view s) <;> rfl

@[simp] theorem wp_mapStop {g : δ → ε} (f : Prog σ δ β) :
    wp (mapStop g f) Q A E = wp f Q A fun e => E (g e) := by
  funext s
  simp only [wp, mapStop]
  cases f s <;> rfl

/-- The invariant rule of the counted loop. -/
theorem wp_forUp {body : Nat → Prog σ ε Unit} (I : Nat → σ → Prop) {n : Nat}
    (h0 : I 0 s)
    (hstep : ∀ i s', i < n → I i s' →
      wp (body i) (fun _ => I (i + 1)) A E s') :
    wp (forUp n body) (fun _ => I n) A E s := by
  induction n with
  | zero => exact h0
  | succ n ih =>
      have hprev := ih fun i s' hi => hstep i s' (Nat.lt_succ_of_lt hi)
      rw [forUp, wp_bind]
      exact wp_imp hprev (fun _ s' hI => hstep n s' (Nat.lt_succ_self n) hI)
        (fun _ h => h) (fun _ _ h => h)

end Rules

theorem wp_ret {f : Prog σ ε β} {Q : β → σ → Prop} {A : σ → Prop}
    {E : ε → σ → Prop} {s t : σ} {b : β} (hf : f s = .ret b t) (h : Q b t) :
    wp f Q A E s := by
  rw [wp, hf]
  exact h

theorem wp_away {f : Prog σ ε β} {Q : β → σ → Prop} {A : σ → Prop}
    {E : ε → σ → Prop} {s s' : σ} (hf : f s = .away s') (h : A s') :
    wp f Q A E s := by
  rw [wp, hf]
  exact h

theorem wp_stop {f : Prog σ ε β} {Q : β → σ → Prop} {A : σ → Prop}
    {E : ε → σ → Prop} {s t : σ} {e : ε} (hf : f s = .stop e t) (h : E e t) :
    wp f Q A E s := by
  rw [wp, hf]
  exact h

/-- A precondition from what the program does when it is run. -/
theorem wp_of_runs {f : Prog σ ε β} {Q : β → σ → Prop} {A : σ → Prop}
    {E : ε → σ → Prop} {s : σ} (hQ : ∀ a s', f s = .ret a s' → Q a s')
    (hA : ∀ s', f s = .away s' → A s')
    (hE : ∀ e s', f s = .stop e s' → E e s') :
    wp f Q A E s := by
  unfold wp
  cases h : f s with
  | ret a s' => exact hQ a s' h
  | away s' => exact hA s' h
  | stop e s' => exact hE e s' h

/-- The rule of conjunction. -/
theorem wp.and {f : Prog σ ε β} {Q Q' : β → σ → Prop} {A A' : σ → Prop}
    {E E' : ε → σ → Prop} {s : σ}
    (h : wp f Q A E s) (h' : wp f Q' A' E' s) :
    wp f (fun b t => Q b t ∧ Q' b t) (fun t => A t ∧ A' t)
      (fun e t => E e t ∧ E' e t) s := by
  unfold wp at h h' ⊢
  cases hf : f s with
  | ret b t | away t | stop e t =>
      rw [hf] at h h'
      exact ⟨h, h'⟩

/-- What a program does, from its precondition. -/
theorem wp.ret {f : Prog σ ε β} {Q : β → σ → Prop} {A : σ → Prop}
    {E : ε → σ → Prop} {s s' : σ} {b : β} (h : wp f Q A E s)
    (hf : f s = .ret b s') : Q b s' := by
  unfold wp at h
  rwa [hf] at h

theorem wp.away {f : Prog σ ε β} {Q : β → σ → Prop} {A : σ → Prop}
    {E : ε → σ → Prop} {s s' : σ} (h : wp f Q A E s)
    (hf : f s = .away s') : A s' := by
  unfold wp at h
  rwa [hf] at h

theorem wp.stop {f : Prog σ ε β} {Q : β → σ → Prop} {A : σ → Prop}
    {E : ε → σ → Prop} {s s' : σ} {e : ε} (h : wp f Q A E s)
    (hf : f s = .stop e s') : E e s' := by
  unfold wp at h
  rwa [hf] at h

/-- What holds however a program ends holds of the state that it leaves. -/
theorem wp.state {f : Prog σ ε β} {P : σ → Prop} {s : σ}
    (h : wp f (fun _ => P) P (fun _ => P) s) : P (f s).state := by
  unfold wp at h
  cases hf : f s with
  | ret a s' | away s' | stop e s' =>
      rw [hf] at h
      exact h

/-- A program whose precondition excludes everything else returns. -/
theorem wp.exists_ret {f : Prog σ ε β} {Q : β → σ → Prop} {s : σ}
    (h : wp f Q (fun _ => False) (fun _ _ => False) s) :
    ∃ a s', f s = .ret a s' ∧ Q a s' := by
  unfold wp at h
  cases hf : f s with
  | ret a s' =>
      rw [hf] at h
      exact ⟨a, s', rfl, h⟩
  | away s' =>
      rw [hf] at h
      exact h.elim
  | stop e s' =>
      rw [hf] at h
      exact h.elim

/-- A program whose precondition excludes everything else stops. -/
theorem wp.exists_stop {f : Prog σ ε β} {E : ε → σ → Prop} {s : σ}
    (h : wp f (fun _ _ => False) (fun _ => False) E s) :
    ∃ e s', f s = .stop e s' ∧ E e s' := by
  unfold wp at h
  cases hf : f s with
  | ret a s' | away s' =>
      rw [hf] at h
      exact h.elim
  | stop e s' =>
      rw [hf] at h
      exact ⟨e, s', rfl, h⟩

-- Otherwise unification would run the program.
attribute [irreducible] wp

theorem zoom_apply {view : σ → τ} {put : τ → σ → σ} (f : Prog τ ε α) (s : σ) :
    zoom view put f s = match f (view s) with
      | .ret a t => .ret a (put t s)
      | .away t => .away (put t s)
      | .stop e t => .stop e (put t s) := rfl

/-! ## Relations kept by a program -/

/-- However `f` ends, `R` relates the state before to the state after. -/
def Keeps (R : σ → σ → Prop) (f : Prog σ ε α) : Prop :=
  ∀ s, R s (f s).state

section Keeps

variable {R : σ → σ → Prop}

theorem Keeps.pure (hrefl : ∀ s, R s s) (a : α) :
    Keeps R (Pure.pure a : Prog σ ε α) := fun s => hrefl s

theorem Keeps.ask (hrefl : ∀ s, R s s) : Keeps R (ask : Prog σ ε σ) :=
  fun s => hrefl s

theorem Keeps.halt (hrefl : ∀ s, R s s) (e : ε) :
    Keeps R (halt e : Prog σ ε α) := fun s => hrefl s

theorem Keeps.update {f : σ → σ} (h : ∀ s, R s (f s)) :
    Keeps R (update f : Prog σ ε Unit) := fun s => h s

theorem Keeps.bind (htrans : ∀ a b c, R a b → R b c → R a c)
    {f : Prog σ ε α} {g : α → Prog σ ε β} (hf : Keeps R f)
    (hg : ∀ a, Keeps R (g a)) : Keeps R (f >>= g) := by
  intro s
  have hfs := hf s
  rw [bind_apply]
  cases h : f s with
  | ret a s' => rw [h] at hfs; exact htrans _ _ _ hfs (hg a s')
  | away s' => rw [h] at hfs; exact hfs
  | stop e s' => rw [h] at hfs; exact hfs

theorem Keeps.ite {c : Prop} [Decidable c] {f g : Prog σ ε α}
    (hf : Keeps R f) (hg : Keeps R g) : Keeps R (if c then f else g) := by
  by_cases hc : c <;> simpa [hc]

/-- A precondition of a program that keeps a relation. -/
theorem Keeps.wp {f : Prog σ ε α} (hf : Keeps R f) {Q : α → σ → Prop}
    {A : σ → Prop} {E : ε → σ → Prop}
    {s : σ} (hQ : ∀ a s', R s s' → Q a s') (hA : ∀ s', R s s' → A s')
    (hE : ∀ e s', R s s' → E e s') :
    wp f Q A E s := by
  have h := hf s
  refine wp_of_runs (fun a s' hret => ?_) (fun s' hret => ?_) fun e s' hret =>
    ?_ <;> rw [hret] at h
  · exact hQ a s' h
  · exact hA s' h
  · exact hE e s' h

end Keeps

/-- A relation that programs can keep step by step. -/
structure Frame (R : σ → σ → Prop) : Prop where
  refl : ∀ s, R s s
  trans : ∀ s t u, R s t → R t u → R s u

/-- What `g` shows of the state is as it was. -/
def Same (g : σ → β) (s t : σ) : Prop := g t = g s

/-- To the list that `g` shows there have been added elements of `P`. -/
def Added (g : σ → List β) (P : β → Prop) (s t : σ) : Prop :=
  ∃ added, g t = added ++ g s ∧ ∀ x ∈ added, P x

section Frame

variable {g : σ → β} {l : σ → List β} {P P' : β → Prop} {s t u : σ}

theorem Same.refl (s : σ) : Same g s s := rfl

theorem Same.trans (s t u : σ) (hst : Same g s t) (htu : Same g t u) :
    Same g s u :=
  Eq.trans htu hst

theorem Same.frame : Frame (Same g) := ⟨.refl, .trans⟩

theorem Added.of_same (h : Same l s t) : Added l P s t := ⟨[], h, by simp⟩

theorem Added.cons {x : β} (ht : l t = x :: l s) (hx : P x) : Added l P s t :=
  ⟨[x], ht, by simpa using hx⟩

theorem Added.refl (s : σ) : Added l P s s := .of_same rfl

theorem Added.trans (s t u : σ) (hst : Added l P s t) (htu : Added l P t u) :
    Added l P s u := by
  obtain ⟨a, ha, hP⟩ := hst
  obtain ⟨b, hb, hP'⟩ := htu
  refine ⟨b ++ a, by rw [hb, ha, List.append_assoc], fun x hx => ?_⟩
  rcases List.mem_append.mp hx with hx | hx
  · exact hP' x hx
  · exact hP x hx

theorem Added.frame : Frame (Added l P) := ⟨.refl, .trans⟩

theorem Added.imp (h : Added l P s t) (himp : ∀ x, P x → P' x) :
    Added l P' s t := by
  obtain ⟨a, ha, hP⟩ := h
  exact ⟨a, ha, fun x hx => himp x (hP x hx)⟩

/-- What has been added in the end has been added on the way there. -/
theorem Added.later (hst : Added l P' s t) (hsu : Added l P s u)
    (htu : Added l P' t u) :
    Added l P t u := by
  obtain ⟨a, ha, -⟩ := hst
  obtain ⟨b, hb, hP⟩ := hsu
  obtain ⟨c, hc, -⟩ := htu
  have hlog : b ++ l s = (c ++ a) ++ l s := by
    rw [← hb, hc, ha, List.append_assoc]
  have heq : b = c ++ a := List.append_cancel_right hlog
  exact ⟨c, hc, fun x hx => hP x (heq ▸ List.mem_append_left _ hx)⟩

end Frame

/-! ## Programs that never leave -/

/-- `f` returns to its caller, or stops the machine for a reason in `R`. -/
structure Stays (R : ε → Prop) (f : Prog σ ε α) : Prop where
  ne_away : ∀ s s', f s ≠ .away s'
  reason : ∀ s e s', f s = .stop e s' → R e

section Stays

variable {R : ε → Prop}

theorem Stays.pure (a : α) : Stays R (Pure.pure a : Prog σ ε α) where
  ne_away _ _ := nofun
  reason _ _ _ := nofun

theorem Stays.ask : Stays R (ask : Prog σ ε σ) where
  ne_away _ _ := nofun
  reason _ _ _ := nofun

theorem Stays.halt {e : ε} (he : R e) : Stays R (halt e : Prog σ ε α) where
  ne_away _ _ := nofun
  reason s e' s' h := by
    cases h
    exact he

theorem Stays.update (f : σ → σ) : Stays R (update f : Prog σ ε Unit) where
  ne_away _ _ := nofun
  reason _ _ _ := nofun

theorem Stays.bind {f : Prog σ ε α} {g : α → Prog σ ε β} (hf : Stays R f)
    (hg : ∀ a, Stays R (g a)) : Stays R (f >>= g) := by
  constructor
  · intro s s' h
    rw [bind_apply] at h
    cases hfs : f s with
    | ret a t => rw [hfs] at h; exact (hg a).ne_away t s' h
    | away t => exact hf.ne_away s t hfs
    | stop e t => rw [hfs] at h; nomatch h
  · intro s e s' h
    rw [bind_apply] at h
    cases hfs : f s with
    | ret a t => rw [hfs] at h; exact (hg a).reason t e s' h
    | away t => exact absurd hfs (hf.ne_away s t)
    | stop e' t => rw [hfs] at h; cases h; exact hf.reason s e s' hfs

theorem Stays.ite {c : Prop} [Decidable c] {f g : Prog σ ε α}
    (hf : Stays R f) (hg : Stays R g) : Stays R (if c then f else g) := by
  by_cases hc : c <;> simpa [hc]

theorem Stays.forUp {n : Nat} {body : Nat → Prog σ ε Unit}
    (h : ∀ i, Stays R (body i)) : Stays R (forUp n body) := by
  induction n with
  | zero => exact Stays.pure ()
  | succ n ih => exact ih.bind fun _ => h n

/-- A precondition of a program that never leaves. -/
theorem Stays.wp {f : Prog σ ε α} (hf : Stays R f) {Q : α → σ → Prop}
    {A : σ → Prop}
    {E : ε → σ → Prop} {s : σ} (hQ : ∀ a s', f s = .ret a s' → Q a s')
    (hE : ∀ e s', R e → E e s') : wp f Q A E s :=
  wp_of_runs hQ (fun s' h => absurd h (hf.ne_away s s'))
    fun e s' h => hE e s' (hf.reason s e s' h)

end Stays

/-! ## Programs that only read -/

/-- `f` does not change the state, does not leave, and stops for reasons in
`R`. -/
structure Reads (R : ε → Prop) (f : Prog σ ε α) : Prop where
  cases : ∀ s, (∃ a, f s = .ret a s) ∨ ∃ e, R e ∧ f s = .stop e s

section Reads

variable {R : ε → Prop}

theorem Reads.pure (a : α) : Reads R (Pure.pure a : Prog σ ε α) :=
  ⟨fun _ => .inl ⟨a, rfl⟩⟩

theorem Reads.ask : Reads R (ask : Prog σ ε σ) := ⟨fun s => .inl ⟨s, rfl⟩⟩

theorem Reads.halt {e : ε} (he : R e) : Reads R (halt e : Prog σ ε α) :=
  ⟨fun _ => .inr ⟨e, he, rfl⟩⟩

theorem Reads.bind {f : Prog σ ε α} {g : α → Prog σ ε β} (hf : Reads R f)
    (hg : ∀ a, Reads R (g a)) : Reads R (f >>= g) := by
  refine ⟨fun s => ?_⟩
  rcases hf.cases s with ⟨a, ha⟩ | ⟨e, hR, he⟩
  · rw [bind_ret ha]
    exact (hg a).cases s
  · rw [bind_stop he]
    exact .inr ⟨e, hR, rfl⟩

theorem Reads.ite {c : Prop} [Decidable c] {f g : Prog σ ε α}
    (hf : Reads R f) (hg : Reads R g) : Reads R (if c then f else g) := by
  by_cases hc : c <;> simpa [hc]

theorem Reads.stays {f : Prog σ ε α} (hf : Reads R f) : Stays R f := by
  constructor
  · intro s t h
    rcases hf.cases s with ⟨a, ha⟩ | ⟨e, _, he⟩
    · rw [ha] at h; cases h
    · rw [he] at h; cases h
  · intro s e t h
    rcases hf.cases s with ⟨a, ha⟩ | ⟨e, hR, he⟩
    · rw [ha] at h; cases h
    · rw [he] at h; cases h; exact hR

theorem Reads.ret_state {f : Prog σ ε α} (hf : Reads R f) {s t : σ} {a : α}
    (h : f s = .ret a t) : t = s := by
  rcases hf.cases s with ⟨b, hb⟩ | ⟨e, _, he⟩
  · rw [hb] at h; cases h; rfl
  · rw [he] at h; cases h

theorem Reads.wp {f : Prog σ ε α} (hf : Reads R f) {Q : α → σ → Prop}
    {A : σ → Prop}
    {E : ε → σ → Prop} {s : σ} (hQ : ∀ a, f s = .ret a s → Q a s)
    (hE : ∀ e, R e → E e s) : wp f Q A E s := by
  unfold Prog.wp
  rcases hf.cases s with ⟨a, ha⟩ | ⟨e, hR, he⟩
  · rw [ha]
    exact hQ a ha
  · rw [he]
    exact hE e hR

end Reads

end Prog

end Jos
