import Mathlib.Data.List.Basic
import Mathlib.Logic.Function.Basic
import Mathlib.Tactic.Ring

/-!
# Byte arrays

A page of memory or a disk block as a function from offsets to bytes, with the
32-bit little-endian accesses and the C block operations on it.
`load32_store32` and its companions say what a load sees after a
store, a fill or a copy; every other fact about the contents of memory is
derived from them.
-/

namespace Jos

section Within

variable {α : Type} {lo hi : Nat} {f g : Nat → α}

/-- `f` on the range from `lo` up to `hi`, and `g` elsewhere. -/
def within (lo hi : Nat) (f g : Nat → α) : Nat → α :=
  fun n => if lo ≤ n ∧ n < hi then f n else g n

theorem within_self : within lo lo f g = g := funext fun _ => if_neg (by omega)

/-- A loop over the range has set one element more. -/
theorem within_succ (h : lo ≤ hi) :
    Function.update (within lo hi f g) hi (f hi) = within lo (hi + 1) f g := by
  funext n
  unfold within
  by_cases hn : n = hi
  · rw [hn, Function.update_self, if_pos ⟨h, Nat.lt_succ_self hi⟩]
  · rw [Function.update_of_ne hn]
    exact if_congr (by omega) rfl rfl

end Within

/-- The bytes of a page or a block, by offset. -/
abbrev Bytes := Nat → BitVec 8

/-- The bytes of `s`, with NULs behind them. -/
def strOf (s : List (BitVec 8)) : Bytes := fun i => s.getD i 0

namespace Bytes

/-- The little-endian 32-bit word at offset `i`. -/
def load32 (b : Bytes) (i : Nat) : BitVec 32 :=
  b (i + 3) ++ b (i + 2) ++ b (i + 1) ++ b i

/-- Store a little-endian 32-bit word at offset `i`. -/
def store32 (b : Bytes) (i : Nat) (v : BitVec 32) : Bytes := fun j =>
  if j = i then v.extractLsb' 0 8
  else if j = i + 1 then v.extractLsb' 8 8
  else if j = i + 2 then v.extractLsb' 16 8
  else if j = i + 3 then v.extractLsb' 24 8
  else b j

/-- `memset(b + i, v, n)`. -/
def fill (b : Bytes) (i n : Nat) (v : BitVec 8) : Bytes := fun j =>
  if i ≤ j ∧ j < i + n then v else b j

/-- `memmove(b + i, src + k, n)`. -/
def copy (b : Bytes) (i : Nat) (src : Bytes) (k n : Nat) : Bytes := fun j =>
  if i ≤ j ∧ j < i + n then src (k + (j - i)) else b j

/-! ## Loads -/

theorem load32_congr {b b' : Bytes} {i : Nat}
    (h : ∀ j, i ≤ j → j < i + 4 → b' j = b j) : b'.load32 i = b.load32 i := by
  simp only [load32]
  rw [h i (by omega) (by omega), h (i + 1) (by omega) (by omega),
    h (i + 2) (by omega) (by omega), h (i + 3) (by omega) (by omega)]

theorem append_byte_inj {n : Nat} {x y : BitVec n} {c d : BitVec 8}
    (h : x ++ c = y ++ d) :
    x = y ∧ c = d := by
  have hlow := congrArg (BitVec.extractLsb' 0 8) h
  have hhigh := congrArg (BitVec.extractLsb' 8 n) h
  rw [BitVec.extractLsb'_append_eq_of_le (Nat.le_refl _),
    BitVec.extractLsb'_append_eq_of_le (Nat.le_refl _)] at hhigh
  rw [BitVec.extractLsb'_append_eq_of_add_le (Nat.le_refl _),
    BitVec.extractLsb'_append_eq_of_add_le (Nat.le_refl _)] at hlow
  simp only [Nat.sub_self, BitVec.extractLsb'_eq_self] at hlow hhigh
  exact ⟨hhigh, hlow⟩

/-- Equal words have equal bytes. -/
theorem eq_of_load32 {b b' : Bytes} {i j : Nat} (h : b'.load32 i = b.load32 i)
    (hj : i ≤ j)
    (hj' : j < i + 4) : b' j = b j := by
  obtain ⟨h, h0⟩ := append_byte_inj h
  obtain ⟨h, h1⟩ := append_byte_inj h
  obtain ⟨h3, h2⟩ := append_byte_inj h
  have hcases : j = i ∨ j = i + 1 ∨ j = i + 2 ∨ j = i + 3 := by omega
  rcases hcases with rfl | rfl | rfl | rfl
  · exact h0
  · exact h1
  · exact h2
  · exact h3

/-- A word is made of its four bytes. -/
theorem append_extract (v : BitVec 32) :
    v.extractLsb' 24 8 ++ v.extractLsb' 16 8
    ++ v.extractLsb' 8 8 ++ v.extractLsb' 0 8 = v := by
  ext k hk
  simp only [BitVec.getElem_append, BitVec.getElem_extractLsb']
  grind

theorem load32_store32 (b : Bytes) (i : Nat) (v : BitVec 32) :
    (b.store32 i v).load32 i = v := by
  simpa [load32, store32] using append_extract v

/-- The last of two stores to the same place counts. -/
theorem store32_store32 (b : Bytes) (i : Nat) (v w : BitVec 32) :
    (b.store32 i v).store32 i w = b.store32 i w := by
  funext j
  simp only [store32]
  grind

/-- A store of what is there changes nothing. -/
theorem store32_load32 (b : Bytes) (i : Nat) :
    b.store32 i (b.load32 i) = b := by
  funext j
  by_cases hj : i ≤ j ∧ j < i + 4
  · exact eq_of_load32 (load32_store32 b i _) hj.1 hj.2
  · simp only [store32]
    grind

theorem store32_of_ne {b : Bytes} {i j : Nat} {v : BitVec 32}
    (h : j < i ∨ i + 4 ≤ j) : b.store32 i v j = b j := by
  simp only [store32]
  rw [if_neg (by omega), if_neg (by omega), if_neg (by omega),
    if_neg (by omega)]

theorem load32_store32_of_ne {b : Bytes} {i j : Nat} {v : BitVec 32}
    (h : j + 4 ≤ i ∨ i + 4 ≤ j) : (b.store32 i v).load32 j = b.load32 j :=
  load32_congr fun k _ _ => store32_of_ne (by omega)

theorem fill_of_mem {b : Bytes} {i n j : Nat} {v : BitVec 8}
    (h : i ≤ j ∧ j < i + n) : b.fill i n v j = v := if_pos h

theorem fill_of_ne {b : Bytes} {i n j : Nat} {v : BitVec 8}
    (h : j < i ∨ i + n ≤ j) : b.fill i n v j = b j := if_neg (by omega)

theorem load32_fill_zero {b : Bytes} {i n j : Nat}
    (h : i ≤ j ∧ j + 4 ≤ i + n) : (b.fill i n 0).load32 j = 0 := by
  simp only [load32]
  rw [fill_of_mem (by omega), fill_of_mem (by omega), fill_of_mem (by omega),
    fill_of_mem (by omega)]
  rfl

theorem load32_fill_of_ne {b : Bytes} {i n j : Nat} {v : BitVec 8}
    (h : j + 4 ≤ i ∨ i + n ≤ j) : (b.fill i n v).load32 j = b.load32 j :=
  load32_congr fun _ _ _ => fill_of_ne (by omega)

theorem copy_of_mem {b src : Bytes} {i k n j : Nat} (h : i ≤ j ∧ j < i + n) :
    b.copy i src k n j = src (k + (j - i)) := if_pos h

/-- A load from a range copied from the same offset. -/
theorem load32_congr_copy {b src : Bytes} {i n j : Nat}
    (h : i ≤ j ∧ j + 4 ≤ i + n) :
    (b.copy i src i n).load32 j = src.load32 j :=
  load32_congr fun k _ _ => by
    rw [copy_of_mem (by omega)]
    congr 1
    omega

theorem copy_of_ne {b src : Bytes} {i k n j : Nat} (h : j < i ∨ i + n ≤ j) :
    b.copy i src k n j = b j := if_neg (by omega)

end Bytes

end Jos
