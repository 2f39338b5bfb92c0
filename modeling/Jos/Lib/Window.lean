import Mathlib.Tactic.SplitIfs
import Mathlib.Tactic.ByContra

/-!
# Windows of free positions

A search that goes from position to position and counts how many free ones it
has seen in a row. When the count reaches `n` it has found the first window of
`n` free positions; and windows of positions in blocks are windows of blocks.
-/

namespace Jos

/-- The `n` positions from `s` on lie in `[lo, hi)` and are free. -/
structure Window (free : Nat → Prop) (lo hi n s : Nat) : Prop where
  le : lo ≤ s
  fits : s + n ≤ hi
  all : ∀ i < n, free (s + i)

/-- There is none before it. -/
structure FirstWindow (free : Nat → Prop) (lo hi n s : Nat) : Prop where
  window : Window free lo hi n s
  first : ∀ s' < s, ¬Window free lo hi n s'

/-- The search for `n` has come to `a`: `cnt` free positions lie before it, in a
row from `s` on, and no window does. -/
structure Counting (free : Nat → Prop) (lo n a s cnt : Nat) : Prop where
  here : s + cnt = a
  le : lo ≤ s
  row : ∀ i < cnt, free (s + i)
  edge : lo < s → ¬free (s - 1)
  none : ∀ s', ¬Window free lo a n s'

section

variable {free : Nat → Prop} {lo hi n a s s' cnt B k : Nat}

theorem Counting.start (hn : 0 < n) : Counting free lo n lo lo 0 where
  here := rfl
  le := Nat.le_refl _
  row _ hi := absurd hi (Nat.not_lt_zero _)
  edge h := absurd h (Nat.lt_irrefl _)
  none s' hs := by
    have hle := hs.le
    have hfits := hs.fits
    omega

/-- A window that ends at `a` covers all that is before `a` in the row. -/
theorem Counting.not_window (h : Counting free lo n a s cnt)
    (hcnt : cnt + 1 < n) :
    ∀ s', ¬Window free lo (a + 1) n s' := by
  intro s' hw
  have hhere := h.here
  have hle := hw.le
  have hfits := hw.fits
  by_cases hend : s' + n ≤ a
  · exact h.none s' ⟨hle, hend, hw.all⟩
  · -- it begins before the row, with the position at its edge
    have hedge := hw.all (s - 1 - s') (by omega)
    rw [show s' + (s - 1 - s') = s - 1 by omega] at hedge
    exact h.edge (by omega) hedge

theorem Counting.step (h : Counting free lo n a s cnt) (ha : free a)
    (hcnt : cnt + 1 < n) :
    Counting free lo n (a + 1) s (cnt + 1) where
  here := by
    have hhere := h.here
    omega
  le := h.le
  row i hi := by
    by_cases hlast : i = cnt
    · rw [hlast, h.here]
      exact ha
    · exact h.row i (by omega)
  edge := h.edge
  none := h.not_window hcnt

theorem Counting.reset (h : Counting free lo n a s cnt) (ha : ¬free a)
    (hn : 0 < n) :
    Counting free lo n (a + 1) (a + 1) 0 where
  here := rfl
  le := by
    have hhere := h.here
    have hle := h.le
    omega
  row _ hi := absurd hi (Nat.not_lt_zero _)
  edge _ := ha
  none s' hw := by
    have hfits := hw.fits
    by_cases hend : s' + n ≤ a
    · exact h.none s' ⟨hw.le, hend, hw.all⟩
    · have hfree := hw.all (a - s') (by omega)
      rw [show s' + (a - s') = a by omega] at hfree
      exact ha hfree

theorem Counting.found (h : Counting free lo n a s cnt) (ha : free a)
    (hcnt : cnt + 1 = n) (hhi : a < hi) :
    FirstWindow free lo hi n s where
  window := by
    have hhere := h.here
    refine ⟨h.le, by omega, fun i hi => ?_⟩
    by_cases hlast : i = cnt
    · rw [hlast, hhere]
      exact ha
    · exact h.row i (by omega)
  first s' hs hw := by
    have hhere := h.here
    exact h.none s' ⟨hw.le, by omega, hw.all⟩

theorem FirstWindow.edge (h : FirstWindow free lo hi n s) (hlo : lo < s) :
    ¬free (s - 1) := by
  intro hfree
  have hfits := h.window.fits
  refine h.first (s - 1) (by omega) ⟨by omega, by omega, fun i hi => ?_⟩
  rcases i with _ | i
  · exact hfree
  · rw [show s - 1 + (i + 1) = s + i by omega]
    exact h.window.all i (by omega)

/-- The first window is where it is. -/
theorem FirstWindow.unique (h : FirstWindow free lo hi n s)
    (h' : FirstWindow free lo hi n s') : s = s' := by
  rcases Nat.lt_trichotomy s s' with hlt | heq | hgt
  · exact absurd h.window (h'.first s hlt)
  · exact heq
  · exact absurd h'.window (h.first s' hgt)

/-! ## Blocks -/

/-- The positions of `k` blocks in a row. -/
theorem Window.positions (h : Window free lo hi k s) (hn : n ≤ B * k)
    (hB : 0 < B) :
    Window (fun a => free (a / B)) (B * lo) (B * hi) n (B * s) where
  le := Nat.mul_le_mul_left B h.le
  fits := by
    have hfits := Nat.mul_le_mul_left B h.fits
    rw [Nat.mul_add] at hfits
    omega
  all i hi := by
    have hblock : (B * s + i) / B = s + i / B := by rw [Nat.mul_add_div hB]
    show free ((B * s + i) / B)
    rw [hblock]
    exact h.all _ (Nat.div_lt_of_lt_mul (Nat.lt_of_lt_of_le hi hn))

/-- The blocks of positions in a row that begin with a block. -/
theorem Window.blocks (h : Window (fun a => free (a / B)) (B * lo) (B * hi) n
      (B * s)) (hk : B * k < n + B) (hB : 0 < B) :
    Window free lo hi k s where
  le := Nat.le_of_mul_le_mul_left h.le hB
  fits := by
    have hfits := h.fits
    by_contra hlt
    have hmul := Nat.mul_le_mul_left B (Nat.not_le.mp hlt)
    rw [Nat.mul_succ, Nat.mul_add] at hmul
    omega
  all i hi := by
    have hmul := Nat.mul_le_mul_left B (Nat.succ_le_of_lt hi)
    rw [Nat.mul_succ] at hmul
    have hfree := h.all (B * i) (by omega)
    rw [← Nat.mul_add, Nat.mul_div_cancel_left _ hB] at hfree
    exact hfree

/-- The first window of `n` positions begins with the first window of the blocks
that it needs. -/
theorem FirstWindow.blocks
    (h : FirstWindow (fun a => free (a / B)) (B * lo) (B * hi) n s) (hB : 0 < B)
    (hn : 0 < n)
    (hk : B * k < n + B) (hnk : n ≤ B * k) :
    s = B * (s / B) ∧ FirstWindow free lo hi k (s / B) := by
  have hstart : s = B * (s / B) := by
    by_contra hne
    -- inside of a block the position before is free as well
    have hmod := Nat.div_add_mod s B
    have hpos : 0 < s % B := by
      by_contra hzero
      omega
    have hlo := h.window.le
    have hlt : B * lo < s := by
      by_contra hge
      have heq : s = B * lo := by omega
      rw [heq, Nat.mul_mod_right] at hpos
      exact Nat.lt_irrefl _ hpos
    refine h.edge hlt ?_
    have hfree := h.window.all 0 hn
    rw [Nat.add_zero] at hfree
    have hprev : (s - 1) / B = s / B := by
      refine Nat.div_eq_of_lt_le ?_ ?_
      · rw [Nat.mul_comm]
        omega
      · rw [Nat.mul_comm, Nat.mul_succ]
        have hmodlt := Nat.mod_lt s hB
        omega
    show free ((s - 1) / B)
    rw [hprev]
    exact hfree
  refine ⟨hstart, ?_, fun s' hs hw => ?_⟩
  · rw [hstart] at h
    exact h.window.blocks hk hB
  · refine h.first (B * s') ?_ (hw.positions hnk hB)
    rw [hstart]
    exact Nat.mul_lt_mul_of_pos_left hs hB

end

end Jos
