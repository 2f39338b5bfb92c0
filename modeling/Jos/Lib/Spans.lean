import Mathlib.Data.Nat.Find

/-!
# Pieces one after another

Pieces of the widths `w 0`, `w 1`, ... are laid out without gaps: `offset w i`
is where piece `i` starts. A place below the end is in one piece.
-/

namespace Jos

/-- Where piece `i` starts. -/
def offset (w : Nat → Nat) : Nat → Nat
  | 0 => 0
  | i + 1 => offset w i + w i

variable {w w' : Nat → Nat} {i j n x : Nat}

theorem offset_mono (w : Nat → Nat) (h : i ≤ j) : offset w i ≤ offset w j := by
  induction h with
  | refl => exact Nat.le_refl _
  | step _ ih => exact Nat.le_trans ih (Nat.le_add_right _ _)

/-- Pieces do not overlap. -/
theorem offset_apart (h : i < j) : offset w i + w i ≤ offset w j :=
  offset_mono w h

/-- A place is in one piece. -/
theorem offset_unique (hi : offset w i ≤ x) (hi' : x < offset w i + w i)
    (hj : offset w j ≤ x) (hj' : x < offset w j + w j) :
    i = j := by
  rcases Nat.lt_trichotomy i j with h | h | h
  · have := offset_apart (w := w) h
    omega
  · exact h
  · have := offset_apart (w := w) h
    omega

/-- There are no gaps. -/
theorem exists_piece (h : x < offset w n) :
    ∃ i, i < n ∧ offset w i ≤ x ∧ x < offset w i + w i := by
  induction n with
  | zero => exact absurd h (Nat.not_lt_zero x)
  | succ n ih =>
      by_cases hn : x < offset w n
      · obtain ⟨i, hi, hlo, hhi⟩ := ih hn
        exact ⟨i, Nat.lt_succ_of_lt hi, hlo, hhi⟩
      · exact ⟨n, Nat.lt_succ_self n, Nat.not_lt.mp hn, h⟩

end Jos
