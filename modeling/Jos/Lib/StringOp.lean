import Mathlib.Data.BitVec
import Mathlib.Logic.Function.Iterate
import Mathlib.Tactic.Abel
import Mathlib.Tactic.IntervalCases
import Jos.Lib.Bytes

/-!
# String instructions

The instructions `stosb`, `stosl`, `movsb` and `movsl` of the processor, and
`rep`. What a run of them has done is told by the range of offsets that has been
filled (`filledTo`) or copied (`movedTo`) so far. A run of moves is a copy of
what was there before if no move reads what an earlier one has written.
-/

namespace Jos

/-- What a string instruction works on. -/
structure StringRegs where
  mem : BitVec 32 → BitVec 8
  edi : BitVec 32
  esi : BitVec 32
  eax : BitVec 32
  /-- The direction flag: addresses go down. -/
  df : Bool

namespace StringRegs

/-- The word at `a`. -/
def load (mem : BitVec 32 → BitVec 8) (a : BitVec 32) : BitVec 32 :=
  mem (a + 3) ++ mem (a + 2) ++ mem (a + 1) ++ mem a

def store (mem : BitVec 32 → BitVec 8) (a v : BitVec 32) :
    BitVec 32 → BitVec 8 :=
  Function.update (Function.update
    (Function.update (Function.update mem a (v.extractLsb' 0 8))
    (a + 1) (v.extractLsb' 8 8)) (a + 2) (v.extractLsb' 16 8)) (a +
    3) (v.extractLsb' 24 8)

/-- The address of the next element of `size` bytes. -/
def next (r : StringRegs) (a size : BitVec 32) : BitVec 32 :=
  if r.df then a - size else a + size

def stosb (r : StringRegs) : StringRegs :=
  { r with mem := Function.update r.mem r.edi (r.eax.extractLsb' 0 8), edi := r.next r.edi 1 }

def stosl (r : StringRegs) : StringRegs :=
  { r with mem := store r.mem r.edi r.eax, edi := r.next r.edi 4 }

def movsb (r : StringRegs) : StringRegs :=
  { r with mem := Function.update r.mem r.edi (r.mem r.esi), edi := r.next r.edi 1, esi := r.next r.esi 1 }

def movsl (r : StringRegs) : StringRegs :=
  { r with mem := store r.mem r.edi (load r.mem r.esi), edi := r.next r.edi 4, esi := r.next r.esi 4 }

/-- `rep`, with `n` in `ecx`. -/
def rep (op : StringRegs → StringRegs) (n : Nat) (r : StringRegs) :
    StringRegs := op^[n] r

end StringRegs

/-! ## Ranges -/

section

variable {mem : BitVec 32 → BitVec 8} {dst src a v : BitVec 32} {c : BitVec 8}
  {lo hi u n k : Nat}

/-- `mem` with `c` at the offsets from `lo` up to `hi` behind `dst`. -/
def filledTo (mem : BitVec 32 → BitVec 8) (dst : BitVec 32) (c : BitVec 8)
    (lo hi : Nat) : BitVec 32 → BitVec 8 :=
  fun a => if lo ≤ (a - dst).toNat ∧ (a - dst).toNat < hi then c else mem a

/-- `mem` with what was behind `src` at the offsets from `lo` up to `hi` behind
`dst`. -/
def movedTo (mem : BitVec 32 → BitVec 8) (dst src : BitVec 32) (lo hi : Nat) :
    BitVec 32 → BitVec 8 :=
  fun a => if lo ≤ (a - dst).toNat ∧ (a - dst).toNat < hi then
    mem (src + (a - dst)) else mem a

theorem filledTo_empty : filledTo mem dst c lo lo = mem :=
  funext fun _ => if_neg (by omega)

theorem movedTo_empty : movedTo mem dst src lo lo = mem :=
  funext fun _ => if_neg (by omega)

/-- The offset of an address behind `dst + lo`. -/
theorem offset_lt_iff (hu : 0 < u) (hhi : lo + u ≤ 2 ^ 32) :
    (a - (dst + BitVec.ofNat 32 lo)).toNat < u ↔ lo ≤ (a - dst).toNat
      ∧ (a - dst).toNat < lo + u := by
  have ha := (a - dst).isLt
  rw [← sub_sub, BitVec.toNat_sub, BitVec.toNat_ofNat,
    Nat.mod_eq_of_lt (show lo < 2 ^ 32 by omega)]
  omega

/-- Filling goes on behind a range or in front of it. -/
theorem filledTo_join (hu : 0 < u) (hhi : hi + u ≤ 2 ^ 32) (hlo : lo ≤ hi) :
    filledTo (filledTo mem dst c lo hi) (dst + BitVec.ofNat 32 hi) c 0 u =
      filledTo mem dst c lo (hi + u) := by
  funext a
  simp only [filledTo, Nat.zero_le, true_and, offset_lt_iff hu hhi]
  grind

/-- A move behind the range that has been copied, from where nothing has been
written. -/
theorem movedTo_up (hu : 0 < u) (hhi : hi + u ≤ 2 ^ 32)
    (hsrc : ∀ j, hi ≤ j → j < hi + u →
      hi ≤ (src + BitVec.ofNat 32 j - dst).toNat) :
    movedTo (movedTo mem dst src 0 hi) (dst + BitVec.ofNat 32 hi)
      (src + BitVec.ofNat 32 hi) 0 u =
      movedTo mem dst src 0 (hi + u) := by
  funext a
  have haddr : src + BitVec.ofNat 32 hi + (a - (dst + BitVec.ofNat 32 hi)) =
      src + (a - dst) := by
    abel
  simp only [movedTo, Nat.zero_le, true_and, offset_lt_iff hu hhi, haddr]
  by_cases hnew : hi ≤ (a - dst).toNat ∧ (a - dst).toNat < hi + u
  · have hread := hsrc _ hnew.1 hnew.2
    rw [BitVec.ofNat_toNat, BitVec.setWidth_eq] at hread
    rw [if_pos hnew, if_neg (by omega), if_pos (by omega)]
  · rw [if_neg hnew]
    exact if_congr (by omega) rfl rfl

/-- A move in front of the range that has been copied. -/
theorem movedTo_down (hu : 0 < u) (hlo : lo + u ≤ n) (hn : n ≤ 2 ^ 32)
    (hsrc : ∀ j, lo ≤ j → j < lo + u → (src + BitVec.ofNat 32 j - dst).toNat <
      lo + u ∨ n ≤ (src + BitVec.ofNat 32 j - dst).toNat) :
    movedTo (movedTo mem dst src (lo + u) n) (dst + BitVec.ofNat 32 lo)
      (src + BitVec.ofNat 32 lo) 0 u =
      movedTo mem dst src lo n := by
  funext a
  have haddr : src + BitVec.ofNat 32 lo + (a - (dst + BitVec.ofNat 32 lo)) =
      src + (a - dst) := by
    abel
  simp only [movedTo, Nat.zero_le, true_and,
    offset_lt_iff hu (show lo + u ≤ 2 ^ 32 by omega), haddr]
  by_cases hnew : lo ≤ (a - dst).toNat ∧ (a - dst).toNat < lo + u
  · have hread := hsrc _ hnew.1 hnew.2
    rw [BitVec.ofNat_toNat, BitVec.setWidth_eq] at hread
    rw [if_pos hnew, if_neg (by omega), if_pos (by omega)]
  · rw [if_neg hnew]
    exact if_congr (by omega) rfl rfl

/-! ## One instruction -/

theorem sub_eq_iff (j : BitVec 32) : a - dst = j ↔ a = dst + j := by
  rw [sub_eq_iff_eq_add, add_comm]

/-- A word goes to four bytes. -/
theorem store_apply (a : BitVec 32) : StringRegs.store mem dst v a =
    if (a - dst).toNat < 4 then v.extractLsb' (8 * (a - dst).toNat) 8 else
      mem a := by
  have hcase : ∀ j < 4, (a - dst).toNat = j ↔ a = dst + BitVec.ofNat 32 j :=
    fun j hj => by
    rw [← sub_eq_iff]
    constructor
    · intro h
      exact BitVec.eq_of_toNat_eq (by rw [h, BitVec.toNat_ofNat]; omega)
    · intro h
      rw [h, BitVec.toNat_ofNat]
      omega
  have h0 : (a - dst).toNat = 0 ↔ a = dst := by
    rw [hcase 0 (by decide), BitVec.add_zero]
  have h1 := hcase 1 (by decide)
  have h2 := hcase 2 (by decide)
  have h3 := hcase 3 (by decide)
  simp only [StringRegs.store, Function.update_apply]
  by_cases hlt : (a - dst).toNat < 4
  · rw [if_pos hlt]
    have : (a - dst).toNat = 0 ∨ (a - dst).toNat = 1 ∨ (a - dst).toNat = 2
        ∨ (a - dst).toNat = 3 := by omega
    grind
  · grind

/-- The bytes of a word that has been loaded. -/
theorem load_extract {i : Nat} (hi : i < 4) :
    (StringRegs.load mem src).extractLsb' (8 * i) 8 =
      mem (src + BitVec.ofNat 32 i) := by
  obtain ⟨h, h0⟩ :=
    Bytes.append_byte_inj (Bytes.append_extract (StringRegs.load mem src))
  obtain ⟨h, h1⟩ := Bytes.append_byte_inj h
  obtain ⟨h3, h2⟩ := Bytes.append_byte_inj h
  interval_cases i
  · simpa using h0
  · exact h1
  · exact h2
  · exact h3

/-- A word that is moved is four bytes that are moved. -/
theorem store_load : StringRegs.store mem dst (StringRegs.load mem src) =
      movedTo mem dst src 0 4 := by
  funext a
  rw [store_apply, movedTo]
  by_cases hlt : (a - dst).toNat < 4
  · rw [if_pos hlt, if_pos ⟨Nat.zero_le _, hlt⟩, load_extract hlt,
      BitVec.ofNat_toNat, BitVec.setWidth_eq]
  · rw [if_neg hlt, if_neg (by omega)]

theorem update_move : Function.update mem dst (mem src) =
      movedTo mem dst src 0 1 := by
  funext a
  rw [Function.update_apply, movedTo]
  have h0 : (a - dst).toNat < 1 ↔ a = dst := by
    rw [Nat.lt_one_iff, ← sub_eq_zero (a := a)]
    exact ⟨fun h => BitVec.eq_of_toNat_eq h, fun h => by rw [h]; rfl⟩
  by_cases ha : a = dst
  · rw [if_pos ha, if_pos ⟨Nat.zero_le _, h0.mpr ha⟩, ha, sub_self, add_zero]
  · rw [if_neg ha, if_neg fun h => ha (h0.mp h.2)]

end

end Jos
