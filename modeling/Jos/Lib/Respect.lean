import Jos.Lib.Prog

/-!
# Programs that do not depend on a part of the state

`φ` forgets a part of the state. A program respects `φ` when two states that are
the same through `φ` make it end in the same way, in states that are again the
same through `φ`: what was forgotten can flow nowhere else. There is one rule
for each program constructor; the rule for `ask` lets the continuation depend on
the state as far as `φ` keeps it.
-/

namespace Jos

variable {σ τ ε α β : Type}

/-- How a program ends, with the state seen through `φ`. -/
def Outcome.view (φ : σ → σ) : Outcome σ ε α → Outcome σ ε α
  | .ret a s => .ret a (φ s)
  | .away s => .away (φ s)
  | .stop e s => .stop e (φ s)

namespace Prog

/-- `g` goes on where `f` leaves. -/
def after (f g : Prog σ ε α) : Prog σ ε α := fun s =>
  match f s with
  | .away t => g t
  | o => o

/-- What `φ` forgets makes no difference to `f`. -/
structure Respects (φ : σ → σ) (f : Prog σ ε α) : Prop where
  view_eq : ∀ s s', φ s = φ s' → (f s).view φ = (f s').view φ

section

variable {φ : σ → σ}

theorem Respects.pure (a : α) : Respects φ (Pure.pure a : Prog σ ε α) :=
  ⟨fun _ _ h => congrArg (Outcome.ret a) h⟩

theorem Respects.halt (e : ε) : Respects φ (halt e : Prog σ ε α) :=
  ⟨fun _ _ h => congrArg (Outcome.stop e) h⟩

theorem Respects.leave : Respects φ (leave : Prog σ ε α) :=
  ⟨fun _ _ h => congrArg Outcome.away h⟩

theorem Respects.update {u : σ → σ} (h : ∀ s, φ (u s) = φ (u (φ s))) :
    Respects φ (update u : Prog σ ε Unit) := by
  refine ⟨fun s s' hs => ?_⟩
  have hu : φ (u s) = φ (u s') := by rw [h s, h s', hs]
  exact congrArg (Outcome.ret ()) hu

theorem Respects.bind {f : Prog σ ε α} {g : α → Prog σ ε β} (hf : Respects φ f)
    (hg : ∀ a, Respects φ (g a)) : Respects φ (f >>= g) := by
  refine ⟨fun s s' hs => ?_⟩
  have h := hf.view_eq s s' hs
  rw [bind_apply, bind_apply]
  cases hfs : f s with
  | ret a t =>
      cases hfs' : f s' with
      | ret a' t' =>
          rw [hfs, hfs'] at h
          obtain ⟨rfl, ht⟩ := Outcome.ret.inj h
          exact (hg a).view_eq t t' ht
      | away | stop =>
          rw [hfs, hfs'] at h
          cases h
  | away t =>
      cases hfs' : f s' with
      | away t' =>
          rw [hfs, hfs'] at h
          exact congrArg Outcome.away (Outcome.away.inj h)
      | ret | stop =>
          rw [hfs, hfs'] at h
          cases h
  | stop e t =>
      cases hfs' : f s' with
      | stop e' t' =>
          rw [hfs, hfs'] at h
          obtain ⟨rfl, ht⟩ := Outcome.stop.inj h
          exact congrArg (Outcome.stop e) ht
      | ret | away =>
          rw [hfs, hfs'] at h
          cases h

/-- The continuation may read what `φ` keeps. -/
theorem Respects.ask {g : σ → Prog σ ε β} (hread : ∀ s, g s = g (φ s))
    (hg : ∀ s, Respects φ (g s)) : Respects φ (Prog.ask >>= g) := by
  refine ⟨fun s s' hs => ?_⟩
  have hgs : g s = g s' := by rw [hread s, hread s', hs]
  rw [ask_bind, ask_bind, ← hgs]
  exact (hg s).view_eq s s' hs

theorem Respects.ite {c : Prop} [Decidable c] {f g : Prog σ ε α}
    (hf : Respects φ f)
    (hg : Respects φ g) : Respects φ (if c then f else g) := by
  by_cases hc : c
  · rwa [if_pos hc]
  · rwa [if_neg hc]

theorem Respects.after {f g : Prog σ ε α} (hf : Respects φ f)
    (hg : Respects φ g) :
    Respects φ (f.after g) := by
  refine ⟨fun s s' hs => ?_⟩
  have h := hf.view_eq s s' hs
  unfold Prog.after
  cases hfs : f s with
  | away t =>
      cases hfs' : f s' with
      | away t' =>
          rw [hfs, hfs'] at h
          exact hg.view_eq t t' (Outcome.away.inj h)
      | ret | stop =>
          rw [hfs, hfs'] at h
          cases h
  | ret a t =>
      cases hfs' : f s' with
      | ret a' t' =>
          rw [hfs, hfs'] at h
          exact h
      | away | stop =>
          rw [hfs, hfs'] at h
          cases h
  | stop e t =>
      cases hfs' : f s' with
      | stop e' t' =>
          rw [hfs, hfs'] at h
          exact h
      | ret | away =>
          rw [hfs, hfs'] at h
          cases h

/-- A program on a component that `φ` keeps. -/
theorem Respects.zoom {view : σ → τ} {put : τ → σ → σ}
    (hview : ∀ s, view (φ s) = view s)
    (hput : ∀ t s, φ (put t s) = put t (φ s)) (f : Prog τ ε α) :
    Respects φ (zoom view put f) := by
  refine ⟨fun s s' hs => ?_⟩
  have hv : view s = view s' := by rw [← hview s, ← hview s', hs]
  rw [zoom_apply, zoom_apply, hv]
  cases f (view s') with
  | ret a t => exact congrArg (Outcome.ret a) (by rw [hput, hput, hs])
  | away t => exact congrArg Outcome.away (by rw [hput, hput, hs])
  | stop e t => exact congrArg (Outcome.stop e) (by rw [hput, hput, hs])

end

end Prog

end Jos
