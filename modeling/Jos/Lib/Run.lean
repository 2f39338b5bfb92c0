import Mathlib.Logic.Relation

/-!
# Runs of a labelled transition system

A run is a chain of labelled steps each of which meets a side condition `P` on
the state before and the label, so that "in every run whose steps all
meet `P`" is a quantifier over `Runs step P`. `Runs.invariant` is the one
induction: an invariant that each allowed step preserves holds at the end
of every run.
-/

namespace Jos

variable {σ ℓ : Type}

/-- `t` is reached from `s` by steps that all meet `P`. -/
def Runs (step : σ → ℓ → σ → Prop) (P : σ → ℓ → Prop) : σ → σ → Prop :=
  Relation.ReflTransGen fun s t => ∃ l, P s l ∧ step s l t

namespace Runs

variable {step : σ → ℓ → σ → Prop} {P : σ → ℓ → Prop} {s t u : σ} {l : ℓ}

theorem refl (s : σ) : Runs step P s s := Relation.ReflTransGen.refl

theorem tail (h : Runs step P s t) (hP : P t l) (hstep : step t l u) :
    Runs step P s u :=
  Relation.ReflTransGen.tail h ⟨l, hP, hstep⟩

theorem single (hP : P s l) (hstep : step s l t) : Runs step P s t :=
  (refl s).tail hP hstep

theorem trans (h₁ : Runs step P s t) (h₂ : Runs step P t u) :
    Runs step P s u :=
  Relation.ReflTransGen.trans h₁ h₂

/-- The invariant rule. -/
theorem invariant {I : σ → Prop}
    (hpres : ∀ s l t, I s → P s l → step s l t → I t)
    (h : Runs step P s t) (hI : I s) : I t := by
  induction h with
  | refl => exact hI
  | tail _ hlast ih =>
      obtain ⟨l, hP, hstep⟩ := hlast
      exact hpres _ l _ ih hP hstep

end Runs

end Jos
