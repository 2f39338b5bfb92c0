import Jos.Lib.StringOp

/-!
# `memset` and `memmove`

lib/string.c has these twice: with string instructions, and as loops over bytes.
Both are compared with what they are for (`filledTo`, `movedTo`). The loop of
the plain `memset` counts in an `int`.
-/

namespace Jos

namespace Clib

abbrev Mem : Type := BitVec 32 → BitVec 8

/-! ## With string instructions -/

/-- `(int)a % 4 == 0`. -/
def Aligned (a : BitVec 32) : Prop := a.srem 4 = 0

instance (a : BitVec 32) : Decidable (Aligned a) :=
  inferInstanceAs (Decidable (a.srem 4 = 0))

/-- The low byte of `c`, four times. -/
def quadruple (c : BitVec 32) : BitVec 32 :=
  let c := c &&& 0xFF
  c <<< 24 ||| c <<< 16 ||| c <<< 8 ||| c

/-- `memset(v, c, n)`. -/
def memset (mem : Mem) (v c n : BitVec 32) : Mem :=
  if n = 0 then
    mem
  else if Aligned v ∧ n % 4 = 0 then
    (StringRegs.rep .stosl (n / 4).toNat ⟨mem, v, 0, quadruple c, false⟩).mem
  else
    (StringRegs.rep .stosb n.toNat ⟨mem, v, 0, c, false⟩).mem

/-- `memmove(dst, src, n)`. -/
def memmove (mem : Mem) (dst src n : BitVec 32) : Mem :=
  if src < dst ∧ dst < src + n then
    let s := src + n
    let d := dst + n
    if Aligned s ∧ Aligned d ∧ n % 4 = 0 then
      (StringRegs.rep .movsl (n / 4).toNat ⟨mem, d - 4, s - 4, 0, true⟩).mem
    else
      (StringRegs.rep .movsb n.toNat ⟨mem, d - 1, s - 1, 0, true⟩).mem
  else
    if Aligned src ∧ Aligned dst ∧ n % 4 = 0 then
      (StringRegs.rep .movsl (n / 4).toNat ⟨mem, dst, src, 0, false⟩).mem
    else
      (StringRegs.rep .movsb n.toNat ⟨mem, dst, src, 0, false⟩).mem

/-! ## With loops over bytes -/

/-- `while (--m >= 0) *p++ = c`; `k` turns at most. -/
def memsetLoop (c : BitVec 8) : Nat → Int → BitVec 32 → Mem → Mem
  | 0, _, _, mem => mem
  | k + 1, m, p, mem => if 0 ≤ m - 1 then
      memsetLoop c k (m - 1) (p + 1) (Function.update mem p c) else mem

/-- The plain `memset`. The first `--m` is undefined for the least `int`. -/
def memsetPlain (mem : Mem) (v c n : BitVec 32) : Option Mem :=
  if n.toInt = -2 ^ 31 then none else
    some (memsetLoop (c.extractLsb' 0 8) n.toInt.toNat n.toInt v mem)

/-- `while (n-- > 0) *--d = *--s`. -/
def moveDown : Nat → BitVec 32 → BitVec 32 → Mem → Mem
  | 0, _, _, mem => mem
  | n + 1, d, s, mem =>
      moveDown n (d - 1) (s - 1) (Function.update mem (d - 1) (mem (s - 1)))

/-- `while (n-- > 0) *d++ = *s++`. -/
def moveUp : Nat → BitVec 32 → BitVec 32 → Mem → Mem
  | 0, _, _, mem => mem
  | n + 1, d, s, mem => moveUp n (d + 1) (s + 1) (Function.update mem d (mem s))

/-- The plain `memmove`. -/
def memmovePlain (mem : Mem) (dst src n : BitVec 32) : Mem :=
  if src < dst ∧ dst < src + n then
    moveDown n.toNat (dst + n) (src + n) mem
  else
    moveUp n.toNat dst src mem

/-! ## What they are for -/

/-- The range does not wrap around. -/
def InMemory (a n : BitVec 32) : Prop := a.toNat + n.toNat ≤ 2 ^ 32

instance (a n : BitVec 32) : Decidable (InMemory a n) :=
  inferInstanceAs (Decidable (a.toNat + n.toNat ≤ 2 ^ 32))

/-- Both versions of `memmove` leave at `dst` what was at `src`, and change
nothing else. -/
structure MovesOk (mem : Mem) (dst src n : BitVec 32) : Prop where
  asm : memmove mem dst src n = movedTo mem dst src 0 n.toNat
  plain : memmovePlain mem dst src n = memmove mem dst src n

/-- Both versions of `memset` leave copies of the low byte of `c`, and change
nothing else. -/
structure SetsOk (mem : Mem) (v c n : BitVec 32) : Prop where
  asm : memset mem v c n = filledTo mem v (c.extractLsb' 0 8) 0 n.toNat
  plain : memsetPlain mem v c n = some (memset mem v c n)

/-- The length is not negative as an `int`, or it is, and nothing is to be
changed. -/
def LengthFits (mem : Mem) (v c n : BitVec 32) : Prop :=
  n.toNat < 2 ^ 31 ∨ n.toNat ≠ 2 ^ 31 ∧ ∀ a, (a - v).toNat < n.toNat →
    mem a = c.extractLsb' 0 8

section

variable {mem : Mem} {dst src v c n a : BitVec 32} {b : BitVec 8} {k u hi : Nat}

/-! ## Filling -/

theorem update_fill : Function.update mem dst b = filledTo mem dst b 0 1 := by
  funext a
  have h0 : (a - dst).toNat < 1 ↔ a = dst := by
    rw [Nat.lt_one_iff, ← sub_eq_zero (a := a)]
    exact ⟨fun h => BitVec.eq_of_toNat_eq h, fun h => by rw [h]; rfl⟩
  rw [Function.update_apply, filledTo]
  exact if_congr (by rw [h0]; simp) rfl rfl

theorem low_byte (c : BitVec 32) (m : Nat) :
    (c &&& 0xFF).getLsbD m = (decide (m < 8) && c.getLsbD m) := by
  rw [BitVec.getLsbD_and, show (0xFF : BitVec 32) =
    BitVec.setWidth 32 (BitVec.allOnes 8) from by decide,
    BitVec.getLsbD_setWidth, BitVec.getLsbD_allOnes, Bool.and_comm]
  by_cases hm : m < 8
  · simp [hm, show m < 32 by omega]
  · simp [hm]

theorem quadruple_extract {i : Nat} (hi : i < 4) :
    (quadruple c).extractLsb' (8 * i) 8 = c.extractLsb' 0 8 := by
  apply BitVec.eq_of_getLsbD_eq
  intro k hk
  simp only [BitVec.getLsbD_extractLsb', quadruple, BitVec.getLsbD_or,
    BitVec.getLsbD_shiftLeft, low_byte]
  interval_cases i <;> simp [hk] <;> grind

/-- A word of four copies fills four bytes. -/
theorem store_quadruple : StringRegs.store mem dst (quadruple c) =
      filledTo mem dst (c.extractLsb' 0 8) 0 4 := by
  funext a
  rw [store_apply, filledTo]
  by_cases hlt : (a - dst).toNat < 4
  · rw [if_pos hlt, if_pos ⟨Nat.zero_le _, hlt⟩, quadruple_extract hlt]
  · rw [if_neg hlt, if_neg (by omega)]

/-- The run of an instruction that fills `u` bytes. -/
theorem rep_fills {op : StringRegs → StringRegs} {x : BitVec 32} (hu : 0 < u)
    (hop : ∀ mem v, op ⟨mem, v, 0, x, false⟩ =
      ⟨filledTo mem v b 0 u, v + BitVec.ofNat 32 u, 0, x, false⟩)
    (hk : u * k ≤ 2 ^ 32) : StringRegs.rep op k ⟨mem, v, 0, x, false⟩ =
      ⟨filledTo mem v b 0 (u * k), v + BitVec.ofNat 32 (u * k), 0, x,
        false⟩ := by
  induction k with
  | zero => simp [StringRegs.rep, filledTo_empty]
  | succ k ih =>
      rw [Nat.mul_succ] at hk ⊢
      have hbefore := ih (by omega)
      rw [StringRegs.rep] at hbefore ⊢
      rw [Function.iterate_succ_apply', hbefore, hop,
        filledTo_join hu hk (Nat.zero_le _), add_assoc,
        ← BitVec.ofNat_add]

theorem rep_stosb (hk : k ≤ 2 ^ 32) :
    (StringRegs.rep .stosb k ⟨mem, v, 0, c, false⟩).mem =
      filledTo mem v (c.extractLsb' 0 8) 0 k := by
  rw [rep_fills (u := 1) (b := c.extractLsb' 0 8) (by decide) ?_ (by omega),
    Nat.one_mul]
  intro mem v
  rw [StringRegs.stosb, update_fill]
  rfl

theorem rep_stosl (hk : 4 * k ≤ 2 ^ 32) :
    (StringRegs.rep .stosl k ⟨mem, v, 0, quadruple c, false⟩).mem =
      filledTo mem v (c.extractLsb' 0 8) 0 (4 * k) := by
  rw [rep_fills (u := 4) (b := c.extractLsb' 0 8) (by decide) ?_ hk]
  intro mem v
  rw [StringRegs.stosl, store_quadruple]
  rfl

/-- The words of a length that is a multiple of their size. -/
theorem words (hn : n % 4 = 0) : 4 * (n / 4).toNat = n.toNat := by
  have h := congrArg BitVec.toNat hn
  rw [BitVec.toNat_umod] at h
  rw [BitVec.toNat_udiv]
  exact Nat.mul_div_cancel' (Nat.dvd_of_mod_eq_zero h)

/-- Both paths of `memset` fill. -/
theorem memset_fills : memset mem v c n =
      filledTo mem v (c.extractLsb' 0 8) 0 n.toNat := by
  have hlt := n.isLt
  rw [memset]
  split_ifs with h0 h4
  · rw [h0]
    exact filledTo_empty.symm
  · rw [rep_stosl (by rw [words h4.2]; omega), words h4.2]
  · exact rep_stosb (by omega)

/-- The loop is the byte instruction. -/
theorem memsetLoop_eq : memsetLoop (c.extractLsb' 0 8) k k v mem =
      (StringRegs.rep .stosb k ⟨mem, v, 0, c, false⟩).mem := by
  induction k generalizing mem v with
  | zero => rfl
  | succ k ih =>
      rw [memsetLoop, if_pos (by omega), Nat.cast_succ, add_sub_cancel_right,
        ih, StringRegs.rep, StringRegs.rep,
        Function.iterate_succ_apply]
      rfl

theorem memsetPlain_short (hn : n.toNat < 2 ^ 31) :
    memsetPlain mem v c n = some (memset mem v c n) := by
  have hint : n.toInt = n.toNat := by
    rw [BitVec.toInt_eq_toNat_cond, if_pos (by omega)]
  rw [memsetPlain, if_neg (by omega), hint, Int.toNat_natCast, memsetLoop_eq,
    rep_stosb (by omega), memset_fills]

/-- `m` is negative from the start. -/
theorem memsetPlain_long (hn : 2 ^ 31 < n.toNat) :
    memsetPlain mem v c n = some mem := by
  have hint : n.toInt < 0 ∧ n.toInt ≠ -2 ^ 31 := by
    have hlt := n.isLt
    rw [BitVec.toInt_eq_toNat_cond, if_neg (by omega)]
    omega
  rw [memsetPlain, if_neg hint.2, Int.toNat_eq_zero.mpr (by omega)]
  rfl

theorem memsetPlain_least (hn : n.toNat = 2 ^ 31) :
    memsetPlain mem v c n = none := by
  rw [memsetPlain, if_pos]
  rw [BitVec.toInt_eq_toNat_cond, if_neg (by omega)]
  omega

theorem setsOk_iff : SetsOk mem v c n ↔ LengthFits mem v c n := by
  rcases lt_trichotomy n.toNat (2 ^ 31) with hn | hn | hn
  · exact iff_of_true ⟨memset_fills, memsetPlain_short hn⟩ (.inl hn)
  · refine iff_of_false (fun h => ?_) fun h => ?_
    · exact absurd ((memsetPlain_least hn).symm.trans h.plain) nofun
    · rcases h with hlt | ⟨hne, -⟩
      · omega
      · exact hne hn
  · have hfits : LengthFits mem v c n ↔ ∀ a, (a - v).toNat < n.toNat →
        mem a = c.extractLsb' 0 8 :=
      ⟨fun h => h.elim (fun hlt => by omega) (·.2), fun h => .inr ⟨by omega, h⟩⟩
    rw [hfits]
    constructor
    · intro h a ha
      have hplain := h.plain
      rw [memsetPlain_long hn, memset_fills] at hplain
      rw [Option.some.inj hplain]
      exact if_pos ⟨Nat.zero_le _, ha⟩
    · intro hsame
      refine ⟨memset_fills, ?_⟩
      rw [memsetPlain_long hn, memset_fills]
      refine congrArg some (funext fun a => ?_)
      rw [filledTo]
      split_ifs with ha
      · exact hsame a ha.2
      · rfl

/-! ## Moving -/

/-- The run upwards of an instruction that moves `u` bytes. -/
theorem rep_moves_up {op : StringRegs → StringRegs} (hu : 0 < u)
    (hop : ∀ mem d s, op ⟨mem, d, s, 0, false⟩ =
      ⟨movedTo mem d s 0 u, d + BitVec.ofNat 32 u, s + BitVec.ofNat 32 u,
        0, false⟩)
    (hk : u * k ≤ 2 ^ 32)
    (hsrc : ∀ hi j, hi ≤ j → j < u * k →
      hi ≤ (src + BitVec.ofNat 32 j - dst).toNat) :
    StringRegs.rep op k ⟨mem, dst, src, 0, false⟩ =
      ⟨movedTo mem dst src 0 (u * k), dst + BitVec.ofNat 32 (u * k),
        src + BitVec.ofNat 32 (u * k), 0, false⟩ := by
  induction k with
  | zero => simp [StringRegs.rep, movedTo_empty]
  | succ k ih =>
      rw [Nat.mul_succ] at hk hsrc ⊢
      have hbefore := ih (by omega) fun hi j hle hj => hsrc hi j hle (by omega)
      rw [StringRegs.rep] at hbefore ⊢
      rw [Function.iterate_succ_apply', hbefore, hop,
        movedTo_up hu hk fun j hle hj => hsrc _ j hle hj, add_assoc, add_assoc,
        ← BitVec.ofNat_add]

/-- The run downwards; it begins with the last element. -/
theorem rep_moves_down {op : StringRegs → StringRegs} {len : Nat} (hu : 0 < u)
    (hop : ∀ mem d s, op ⟨mem, d, s, 0, true⟩ =
      ⟨movedTo mem d s 0 u, d - BitVec.ofNat 32 u,
        s - BitVec.ofNat 32 u, 0, true⟩)
    (hk : u * k ≤ len) (hlen : len ≤ 2 ^ 32)
    (hsrc : ∀ hi j, j < hi → j < len →
      (src + BitVec.ofNat 32 j - dst).toNat < hi ∨
      len ≤ (src + BitVec.ofNat 32 j - dst).toNat) :
    StringRegs.rep op k
        ⟨mem, dst + BitVec.ofNat 32 len - BitVec.ofNat 32 u,
          src + BitVec.ofNat 32 len - BitVec.ofNat 32 u, 0, true⟩ =
      ⟨movedTo mem dst src (len - u * k) len,
        dst + BitVec.ofNat 32 len - BitVec.ofNat 32 (u * k) - BitVec.ofNat 32 u,
        src + BitVec.ofNat 32 len - BitVec.ofNat 32 (u * k) - BitVec.ofNat 32 u,
        0, true⟩ := by
  induction k with
  | zero => simp [StringRegs.rep, movedTo_empty]
  | succ k ih =>
      rw [Nat.mul_succ] at hk ⊢
      have hbefore := ih (by omega)
      obtain ⟨lo, hlo⟩ : ∃ lo, lo = len - (u * k + u) := ⟨_, rfl⟩
      have haddr : ∀ a : BitVec 32, a + BitVec.ofNat 32 len - BitVec.ofNat 32
          (u * k) - BitVec.ofNat 32 u =
          a + BitVec.ofNat 32 lo := fun a => by
        rw [show len = lo + u * k + u by omega, BitVec.ofNat_add,
          BitVec.ofNat_add]
        abel
      have hnext : ∀ a : BitVec 32, a + BitVec.ofNat 32 lo - BitVec.ofNat 32 u =
          a + BitVec.ofNat 32 len - BitVec.ofNat 32 (u * k + u) -
            BitVec.ofNat 32 u := fun a => by
        rw [show len = lo + (u * k + u) by omega,
          BitVec.ofNat_add _ (u * k + u)]
        abel
      rw [StringRegs.rep] at hbefore ⊢
      rw [Function.iterate_succ_apply', hbefore, haddr, haddr, hop,
        show len - u * k = lo + u by omega,
        movedTo_down hu (by omega) hlen fun j hle hj =>
        hsrc _ j (by omega) (by omega), ← hlo, hnext, hnext]

theorem rep_movsb_up (hk : k ≤ 2 ^ 32)
    (hsrc : ∀ hi j, hi ≤ j → j < k →
      hi ≤ (src + BitVec.ofNat 32 j - dst).toNat) :
    (StringRegs.rep .movsb k ⟨mem, dst, src, 0, false⟩).mem =
      movedTo mem dst src 0 k := by
  rw [rep_moves_up (u := 1) (by decide) ?_ (by omega) (by simpa using hsrc),
    Nat.one_mul]
  intro mem d s
  rw [StringRegs.movsb, update_move]
  rfl

theorem rep_movsl_up (hk : 4 * k ≤ 2 ^ 32)
    (hsrc : ∀ hi j, hi ≤ j → j < 4 * k →
      hi ≤ (src + BitVec.ofNat 32 j - dst).toNat) :
    (StringRegs.rep .movsl k ⟨mem, dst, src, 0, false⟩).mem =
      movedTo mem dst src 0 (4 * k) := by
  rw [rep_moves_up (u := 4) (by decide) ?_ hk hsrc]
  intro mem d s
  rw [StringRegs.movsl, store_load]
  rfl

theorem rep_movsb_down (hk : k ≤ 2 ^ 32)
    (hsrc : ∀ hi j, j < hi → j < k →
      (src + BitVec.ofNat 32 j - dst).toNat < hi ∨
      k ≤ (src + BitVec.ofNat 32 j - dst).toNat) :
    (StringRegs.rep .movsb k ⟨mem, dst + BitVec.ofNat 32 k - 1,
      src + BitVec.ofNat 32 k - 1, 0, true⟩).mem =
      movedTo mem dst src 0 k := by
  have hrun := @rep_moves_down mem _ _ k 1 .movsb _ (by decide) ?_
    (by omega) hk hsrc
  · rw [show (1 : BitVec 32) = BitVec.ofNat 32 1 from rfl, hrun, Nat.one_mul,
      Nat.sub_self]
  · intro mem d s
    rw [StringRegs.movsb, update_move]
    rfl

theorem rep_movsl_down (hk : 4 * k ≤ 2 ^ 32)
    (hsrc : ∀ hi j, j < hi → j < 4 * k →
      (src + BitVec.ofNat 32 j - dst).toNat < hi ∨
      4 * k ≤ (src + BitVec.ofNat 32 j - dst).toNat) :
    (StringRegs.rep .movsl k
      ⟨mem, dst + BitVec.ofNat 32 (4 * k) - 4,
        src + BitVec.ofNat 32 (4 * k) - 4, 0, true⟩).mem =
      movedTo mem dst src 0 (4 * k) := by
  have hrun := @rep_moves_down mem _ _ k 4 .movsl _ (by decide) ?_
    (by omega) hk hsrc
  · rw [show (4 : BitVec 32) = BitVec.ofNat 32 4 from rfl, hrun, Nat.sub_self]
  · intro mem d s
    rw [StringRegs.movsl, store_load]
    rfl

/-- Where a move upwards reads, nothing has been written. -/
theorem reads_up (hdst : InMemory dst n) (hsrc : InMemory src n)
    (hdir : ¬(src < dst ∧ dst < src + n)) :
    ∀ hi j, hi ≤ j → j < n.toNat →
    hi ≤ (src + BitVec.ofNat 32 j - dst).toNat := by
  intro hi j hle hj
  rw [InMemory] at hdst hsrc
  rw [BitVec.lt_def, BitVec.lt_def, BitVec.toNat_add] at hdir
  have hs := src.isLt
  have hd := dst.isLt
  have hn := n.isLt
  rw [BitVec.toNat_sub, BitVec.toNat_add, BitVec.toNat_ofNat,
    Nat.mod_eq_of_lt (show j < 2 ^ 32 by omega),
    Nat.mod_eq_of_lt (show src.toNat + j < 2 ^ 32 by omega)]
  omega

theorem reads_down (hdst : InMemory dst n) (hsrc : InMemory src n)
    (hdir : src < dst) :
    ∀ hi j, j < hi → j < n.toNat → (src + BitVec.ofNat 32 j - dst).toNat < hi ∨
      n.toNat ≤ (src + BitVec.ofNat 32 j - dst).toNat := by
  intro hi j hlt hj
  rw [InMemory] at hdst hsrc
  rw [BitVec.lt_def] at hdir
  have hn := n.isLt
  rw [BitVec.toNat_sub, BitVec.toNat_add, BitVec.toNat_ofNat,
    Nat.mod_eq_of_lt (show j < 2 ^ 32 by omega),
    Nat.mod_eq_of_lt (show src.toNat + j < 2 ^ 32 by omega)]
  omega

/-- All four paths of `memmove` copy. -/
theorem memmove_moves (hdst : InMemory dst n) (hsrc : InMemory src n) :
    memmove mem dst src n = movedTo mem dst src 0 n.toNat := by
  have hlt := n.isLt
  have hnat : BitVec.ofNat 32 n.toNat = n := by
    rw [BitVec.ofNat_toNat, BitVec.setWidth_eq]
  by_cases hdir : src < dst ∧ dst < src + n
  · have hreads := reads_down hdst hsrc hdir.1
    rw [memmove, if_pos hdir]
    dsimp only
    split_ifs with hwords
    · have hrun := @rep_movsl_down mem dst src (n / 4).toNat
      rw [words hwords.2.2, hnat] at hrun
      exact hrun (by omega) hreads
    · have hrun := @rep_movsb_down mem _ _ n.toNat (by omega) hreads
      rw [hnat] at hrun
      exact hrun
  · have hreads := reads_up hdst hsrc hdir
    rw [memmove, if_neg hdir]
    split_ifs with hwords
    · have hrun := @rep_movsl_up mem dst src (n / 4).toNat
      rw [words hwords.2.2] at hrun
      exact hrun (by omega) hreads
    · exact rep_movsb_up (by omega) hreads

/-- The loops are the byte instruction. -/
theorem moveUp_eq : moveUp k dst src mem =
      (StringRegs.rep .movsb k ⟨mem, dst, src, 0, false⟩).mem := by
  induction k generalizing mem dst src with
  | zero => rfl
  | succ k ih =>
      rw [moveUp, ih, StringRegs.rep, StringRegs.rep,
        Function.iterate_succ_apply]
      rfl

theorem moveDown_eq : moveDown k dst src mem =
      (StringRegs.rep .movsb k ⟨mem, dst - 1, src - 1, 0, true⟩).mem := by
  induction k generalizing mem dst src with
  | zero => rfl
  | succ k ih =>
      rw [moveDown, ih, StringRegs.rep, StringRegs.rep,
        Function.iterate_succ_apply]
      rfl

theorem memmovePlain_moves (hdst : InMemory dst n) (hsrc : InMemory src n) :
    memmovePlain mem dst src n = movedTo mem dst src 0 n.toNat := by
  have hlt := n.isLt
  rw [memmovePlain]
  split_ifs with hdir
  · have hrun := @rep_movsb_down mem _ _ n.toNat (by omega)
      (reads_down hdst hsrc hdir.1)
    rw [BitVec.ofNat_toNat, BitVec.setWidth_eq] at hrun
    rw [moveDown_eq, hrun]
  · rw [moveUp_eq, rep_movsb_up (by omega) (reads_up hdst hsrc hdir)]

theorem movesOk (hdst : InMemory dst n) (hsrc : InMemory src n) :
    MovesOk mem dst src n :=
  ⟨memmove_moves hdst hsrc,
    (memmovePlain_moves hdst hsrc).trans (memmove_moves hdst hsrc).symm⟩

/-- Moving is right on all inputs, and setting where the length is not negative
as an `int` or nothing is to be changed. -/
theorem memory_ok_iff (hdst : InMemory dst n) (hsrc : InMemory src n) :
    MovesOk mem dst src n ∧ SetsOk mem dst c n ↔ LengthFits mem dst c n :=
  ⟨fun h => setsOk_iff.mp h.2, fun h => ⟨movesOk hdst hsrc, setsOk_iff.mpr h⟩⟩

end

/-- Two words, the source in front of the destination and overlapping it. -/
theorem memory_ok_overlap :
    MovesOk (fun a => a.extractLsb' 0 8) 4 0 8 ∧
    SetsOk (fun a => a.extractLsb' 0 8) 4 7 8 :=
  (memory_ok_iff (by decide) (by decide)).mpr (.inl (by decide))

/-- The plain `memset` sets nothing at all where the length is above
`INT_MAX`. -/
theorem memset_half : ¬∀ (mem : Mem) (dst src c n : BitVec 32), InMemory dst n →
      InMemory src n →
    MovesOk mem dst src n ∧ SetsOk mem dst c n := by
  intro h
  have hplain :=
    (h (fun _ => 0) 0 0 7 0x80000001 (by decide) (by decide)).2.plain
  rw [memsetPlain_long (by decide), memset_fills] at hplain
  exact absurd (congrFun (Option.some.inj hplain) 0) (by decide)

end Clib

end Jos
