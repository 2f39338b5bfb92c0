import Mathlib.Logic.Function.Basic
import Mathlib.Tactic.SplitIfs
import Mathlib.Tactic.ByContra

/-!
# Ring buffers

A buffer of `cap` cells with a position to read at and a position to write at,
each of which goes back to 0 at the end. `Holds cap r q` says that `q` is what
has been written and not yet read. As long as it is shorter than the buffer,
equal positions mean that it is empty.
-/

namespace Jos

structure Ring (α : Type) where
  buf : Nat → α
  rpos : Nat
  wpos : Nat

namespace Ring

variable {α : Type} {cap i j : Nat} {r : Ring α} {q : List α} {x : α}

/-- `pos++; if (pos == cap) pos = 0`. -/
def advance (cap pos : Nat) : Nat := if pos + 1 = cap then 0 else pos + 1

def put (cap : Nat) (r : Ring α) (x : α) : Ring α :=
  { r with buf := Function.update r.buf r.wpos x, wpos := advance cap r.wpos }

def take (cap : Nat) (r : Ring α) : Option α × Ring α :=
  if r.rpos ≠ r.wpos then (some (r.buf r.rpos),
    { r with rpos := advance cap r.rpos }) else (none, r)

structure Holds (cap : Nat) (r : Ring α) (q : List α) : Prop where
  rpos_lt : r.rpos < cap
  room : q.length < cap
  wpos_eq : r.wpos = (r.rpos + q.length) % cap
  cell : ∀ i (hi : i < q.length), r.buf ((r.rpos + i) % cap) = q[i]

theorem advance_eq (h : i < cap) : advance cap i = (i + 1) % cap := by
  rw [advance]
  split_ifs with heq
  · rw [heq, Nat.mod_self]
  · rw [Nat.mod_eq_of_lt (by omega)]

/-- Less than a turn apart, the cells are not the same. -/
theorem cell_ne (hij : i < j) (hj : j - i < cap) : i % cap ≠ j % cap := by
  intro h
  have hmod : (j - i) % cap = 0 := Nat.sub_mod_eq_zero_of_mod_eq h.symm
  rw [Nat.mod_eq_of_lt hj] at hmod
  omega

theorem holds_empty (h : r.rpos < cap) (heq : r.wpos = r.rpos) :
    Holds cap r [] :=
  ⟨h, Nat.zero_lt_of_lt h, by rw [heq]; exact (Nat.mod_eq_of_lt h).symm, nofun⟩

namespace Holds

theorem wpos_lt (h : Holds cap r q) : r.wpos < cap := by
  rw [h.wpos_eq]
  exact Nat.mod_lt _ (Nat.zero_lt_of_lt h.room)

theorem empty_iff (h : Holds cap r q) : r.rpos = r.wpos ↔ q = [] := by
  constructor
  · intro heq
    by_contra hq
    have hpos := List.length_pos_iff.mpr hq
    have hne : r.rpos % cap ≠ (r.rpos + q.length) % cap :=
      cell_ne (by omega) (by have := h.room; omega)
    rw [Nat.mod_eq_of_lt h.rpos_lt, ← h.wpos_eq] at hne
    exact hne heq
  · intro hq
    have hw := h.wpos_eq
    rw [hq, List.length_nil, Nat.add_zero, Nat.mod_eq_of_lt h.rpos_lt] at hw
    exact hw.symm

theorem put (h : Holds cap r q) (hroom : q.length + 1 < cap) (x : α) :
    Holds cap (r.put cap x) (q ++ [x]) where
  rpos_lt := h.rpos_lt
  room := by rwa [List.length_append, List.length_singleton]
  wpos_eq := by
    show advance cap r.wpos = _
    rw [advance_eq h.wpos_lt, h.wpos_eq, Nat.mod_add_mod, List.length_append,
      List.length_singleton, Nat.add_assoc]
    rfl
  cell i hi := by
    rw [List.length_append, List.length_singleton] at hi
    show Function.update r.buf r.wpos x ((r.rpos + i) % cap) = _
    rw [h.wpos_eq]
    rcases Nat.lt_succ_iff_lt_or_eq.mp hi with hlt | heq
    · rw [Function.update_of_ne (cell_ne (by omega) (by omega)), h.cell i hlt,
        List.getElem_append_left hlt]
    · subst heq
      rw [Function.update_self, List.getElem_append_right (Nat.le_refl _)]
      simp

theorem take_nil (h : Holds cap r []) : r.take cap = (none, r) :=
  if_neg (not_not.mpr (h.empty_iff.mpr rfl))

theorem take_cons (h : Holds cap r (x :: q)) :
    r.take cap = (some x, { r with rpos := advance cap r.rpos }) ∧
      Holds cap { r with rpos := advance cap r.rpos } q := by
  have hcap := Nat.zero_lt_of_lt h.room
  have hroom := h.room
  rw [List.length_cons] at hroom
  constructor
  · have hne : r.rpos ≠ r.wpos := fun heq => absurd (h.empty_iff.mp heq) nofun
    have hx := h.cell 0 (Nat.zero_lt_succ _)
    rw [Nat.add_zero, Nat.mod_eq_of_lt h.rpos_lt] at hx
    rw [take, if_pos hne, hx]
    rfl
  · refine ⟨?_, by omega, ?_, fun i hi => ?_⟩
    · rw [advance_eq h.rpos_lt]
      exact Nat.mod_lt _ hcap
    · show r.wpos = (advance cap r.rpos + q.length) % cap
      rw [h.wpos_eq, advance_eq h.rpos_lt, Nat.mod_add_mod, List.length_cons,
        Nat.add_assoc, Nat.add_comm 1]
    · show r.buf ((advance cap r.rpos + i) % cap) = _
      have hx := h.cell (i + 1) (Nat.succ_lt_succ hi)
      rw [advance_eq h.rpos_lt, Nat.mod_add_mod, Nat.add_assoc, Nat.add_comm 1,
        hx, List.getElem_cons_succ]

end Holds

end Ring

end Jos
