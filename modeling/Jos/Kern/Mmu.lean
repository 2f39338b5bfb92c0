import Mathlib.Data.BitVec
import Jos.Lib.Bytes

/-!
# Addresses and page-table entries

The constants and macros of inc/mmu.h, inc/memlayout.h and kern/pmap.h that
the kernel computes with, and physical memory as a function from page
numbers to pages. Addresses and page-table entries are 32-bit words as
in the source; the lemmas turn the bit operations on them into
arithmetic on page numbers and indexes once, so that nothing later
looks at bits.
-/

namespace Jos

/-- A 32-bit word: `uint32_t`, `physaddr_t`, `pte_t`, an `int`, or a pointer. -/
abbrev Word := BitVec 32

/-- Physical memory, by page number and offset in the page. -/
abbrev PhysMem := Nat → Bytes

/-! ## Constants -/

def PGSIZE : Nat := 4096
def PTSIZE : Nat := 0x400000
def NPDENTRIES : Nat := 1024
def NPTENTRIES : Nat := 1024

def PTE_P : Word := 0x001#32
def PTE_W : Word := 0x002#32
def PTE_U : Word := 0x004#32
def PTE_AVAIL : Word := 0xE00#32
def PTE_USER : Word := PTE_AVAIL ||| PTE_P ||| PTE_W ||| PTE_U

def KERNBASE : Word := 0xF0000000#32
def VPT : Word := 0xEFC00000#32
def KSTACKTOP : Word := VPT
def ULIM : Word := 0xEF800000#32
def UVPT : Word := 0xEF400000#32
def UPAGES : Word := 0xEF000000#32
def UENVS : Word := 0xEEC00000#32
def UTOP : Word := UENVS
def UXSTACKTOP : Word := UTOP
def USTACKTOP : Word := 0xEEBFE000#32
def UTEXT : Word := 0x00800000#32
def UTEMP : Word := 0x00400000#32
def PFTEMP : Word := 0x007FF000#32

/-! ## Macros -/

/-- `PPN(pa)`, `VPN(la)`. -/
def ppn (pa : Word) : Nat := (pa >>> 12).toNat

/-- `PDX(la)`. -/
def pdx (la : Word) : Nat := ((la >>> 22) &&& 0x3FF#32).toNat

/-- `PTX(la)`. -/
def ptx (la : Word) : Nat := ((la >>> 12) &&& 0x3FF#32).toNat

/-- `PGOFF(la)`. -/
def pgoff (la : Word) : Nat := (la &&& 0xFFF#32).toNat

/-- `PGADDR(d, t, 0)`. -/
def pgaddr (d t : Nat) : Word :=
  (BitVec.ofNat 32 d <<< 22) ||| (BitVec.ofNat 32 t <<< 12)

/-- `PTE_ADDR(pte)`. -/
def pteAddr (pte : Word) : Word := pte &&& ~~~0xFFF#32

/-- `ROUNDDOWN(a, PGSIZE)`. -/
def roundDownPage (a : Word) : Word := a - a % BitVec.ofNat 32 PGSIZE

/-- `ROUNDUP(a, PGSIZE)`. -/
def roundUpPage (a : Word) : Word :=
  roundDownPage (a + BitVec.ofNat 32 PGSIZE - 1)

/-- `page2pa(pp)`, for the page with number `pp`. -/
def page2pa (pp : Nat) : Word := BitVec.ofNat 32 pp <<< 12

/-- `PTE_P` is set. -/
def present (pte : Word) : Bool := pte &&& PTE_P != 0#32

/-! ## Words in a page -/

/-- Entry `i` of the table or directory in page `p`. -/
def PhysMem.entry (m : PhysMem) (p i : Nat) : Word := (m p).load32 (4 * i)

/-- Store entry `i` of the table or directory in page `p`. -/
def PhysMem.setEntry (m : PhysMem) (p i : Nat) (v : Word) : PhysMem :=
  Function.update m p ((m p).store32 (4 * i) v)

/-- `memset(page2kva(p), 0, PGSIZE)`. -/
def PhysMem.zeroPage (m : PhysMem) (p : Nat) : PhysMem :=
  Function.update m p ((m p).fill 0 PGSIZE 0)

namespace PhysMem

variable {m : PhysMem} {p q i j : Nat} {v : Word}

@[simp] theorem entry_setEntry_self : (m.setEntry p i v).entry p i = v := by
  simp [entry, setEntry, Bytes.load32_store32]

theorem entry_setEntry_ne (h : q ≠ p ∨ j ≠ i) :
    (m.setEntry p i v).entry q j = m.entry q j := by
  by_cases hq : q = p
  · subst hq
    simp only [entry, setEntry, Function.update_self]
    exact Bytes.load32_store32_of_ne (by omega)
  · simp [entry, setEntry, Function.update_of_ne hq]

theorem setEntry_setEntry {w : Word} :
    (m.setEntry p i v).setEntry p i w = m.setEntry p i w := by
  simp only [setEntry, Function.update_self, Function.update_idem,
    Bytes.store32_store32]

theorem setEntry_entry : m.setEntry p i (m.entry p i) = m := by
  simp [setEntry, entry, Bytes.store32_load32]

theorem setEntry_of_ne (h : q ≠ p) : m.setEntry p i v q = m q :=
  Function.update_of_ne h ..

theorem zeroPage_of_ne (h : q ≠ p) : m.zeroPage p q = m q :=
  Function.update_of_ne h ..

theorem entry_zeroPage_self (h : i < 1024) :
    (m.zeroPage p).entry p i = 0#32 := by
  simp only [entry, zeroPage, Function.update_self]
  exact Bytes.load32_fill_zero (by simp only [PGSIZE]; omega)

theorem entry_zeroPage_ne (h : q ≠ p) :
    (m.zeroPage p).entry q i = m.entry q i := by
  simp [entry, zeroPage_of_ne h]

/-- Entries only depend on the page they are in. -/
theorem entry_congr {m' : PhysMem} (h : m' p = m p) :
    m'.entry p i = m.entry p i := by
  simp [entry, h]

end PhysMem

/-! ## Address arithmetic -/

theorem roundDownPage_toNat {w : Word} :
    (roundDownPage w).toNat = w.toNat / PGSIZE * PGSIZE := by
  have hlt := w.isLt
  simp only [roundDownPage, PGSIZE]
  rw [BitVec.toNat_sub, BitVec.toNat_umod, BitVec.toNat_ofNat,
    show 4096 % 2 ^ 32 = 4096 from rfl]
  omega

theorem ppn_eq (w : Word) : ppn w = w.toNat / 4096 := by
  simp [ppn, Nat.shiftRight_eq_div_pow]

theorem pdx_eq (w : Word) : pdx w = w.toNat / 4194304 := by
  have h := w.isLt
  simp only [pdx, BitVec.toNat_and, BitVec.toNat_ushiftRight,
    BitVec.toNat_ofNat,
    Nat.shiftRight_eq_div_pow]
  rw [show 0x3FF % 2 ^ 32 = 2 ^ 10 - 1 from rfl, Nat.and_two_pow_sub_one_eq_mod]
  omega

theorem ptx_eq (w : Word) : ptx w = w.toNat / 4096 % 1024 := by
  simp only [ptx, BitVec.toNat_and, BitVec.toNat_ushiftRight,
    BitVec.toNat_ofNat,
    Nat.shiftRight_eq_div_pow]
  rw [show 0x3FF % 2 ^ 32 = 2 ^ 10 - 1 from rfl, Nat.and_two_pow_sub_one_eq_mod]

theorem pgoff_eq (w : Word) : pgoff w = w.toNat % 4096 := by
  simp only [pgoff, BitVec.toNat_and, BitVec.toNat_ofNat]
  rw [show 0xFFF % 2 ^ 32 = 2 ^ 12 - 1 from rfl, Nat.and_two_pow_sub_one_eq_mod]

theorem pdx_lt (w : Word) : pdx w < 1024 := by
  have h := w.isLt
  rw [pdx_eq]
  omega

theorem ptx_lt (w : Word) : ptx w < 1024 := by
  rw [ptx_eq]
  omega

/-- `PDX(UTOP)`: the directory entries below it map user memory. -/
def pdxUTOP : Nat := pdx UTOP

theorem pdxUTOP_eq : pdxUTOP = 955 := by decide

theorem pdx_lt_of_lt_UTOP {va : Word} (h : va < UTOP) : pdx va < pdxUTOP := by
  have hu : va.toNat < 0xEEC00000 := h
  rw [pdxUTOP_eq, pdx_eq]
  omega

theorem pgaddr_toNat {d t : Nat} (hd : d < 1024) (ht : t < 1024) :
    (pgaddr d t).toNat = d * 4194304 + t * 4096 := by
  simp only [pgaddr, BitVec.toNat_or, BitVec.toNat_shiftLeft,
    BitVec.toNat_ofNat,
    Nat.shiftLeft_eq]
  rw [Nat.mod_eq_of_lt (by omega : d < 2 ^ 32),
    Nat.mod_eq_of_lt (by omega : t < 2 ^ 32),
    Nat.mod_eq_of_lt (by omega : d * 2 ^ 22 < 2 ^ 32),
    Nat.mod_eq_of_lt (by omega : t * 2 ^ 12 < 2 ^ 32), Nat.mul_comm d,
    ← Nat.two_pow_add_eq_or_of_lt (by omega : t * 2 ^ 12 < 2 ^ 22)]
  omega

theorem pdx_pgaddr {d t : Nat} (hd : d < 1024) (ht : t < 1024) :
    pdx (pgaddr d t) = d := by
  rw [pdx_eq, pgaddr_toNat hd ht]
  omega

theorem ptx_pgaddr {d t : Nat} (hd : d < 1024) (ht : t < 1024) :
    ptx (pgaddr d t) = t := by
  rw [ptx_eq, pgaddr_toNat hd ht]
  omega

/-! ## Page-table entries -/

/-- The offset mask covers exactly the low twelve bits. -/
theorem offMask_bit (i : Nat) : (0xFFF#32).getLsbD i = decide (i < 12) := by
  rw [BitVec.getLsbD_ofNat, show (0xFFF : Nat) = 2 ^ 12 - 1 from rfl,
    Nat.testBit_two_pow_sub_one]
  by_cases h : i < 12
  · simp [h, Nat.lt_trans h (by decide : 12 < 32)]
  · simp [h]

theorem ppn_pteAddr (pte : Word) : ppn (pteAddr pte) = ppn pte := by
  have h : pteAddr pte >>> 12 = pte >>> 12 := by
    apply BitVec.eq_of_getLsbD_eq
    intro i _
    simp only [pteAddr, BitVec.getLsbD_ushiftRight, BitVec.getLsbD_and,
      BitVec.getLsbD_not, offMask_bit]
    by_cases h32 : 12 + i < 32
    · simp [h32]
    · simp [BitVec.getLsbD_of_ge pte (12 + i) (by omega)]
  rw [ppn, ppn, h]

theorem page2pa_toNat {pp : Nat} (h : pp < 2 ^ 20) :
    (page2pa pp).toNat = pp * 4096 := by
  simp only [page2pa, BitVec.toNat_shiftLeft, BitVec.toNat_ofNat,
    Nat.shiftLeft_eq]
  omega

theorem ppn_page2pa {pp : Nat} (h : pp < 2 ^ 20) : ppn (page2pa pp) = pp := by
  rw [ppn_eq, page2pa_toNat h]
  omega

/-- A page address combined with flags below the page size keeps its page. -/
theorem ppn_page2pa_or {pp : Nat} {flags : Word} (h : pp < 2 ^ 20)
    (hf : flags < 0x1000#32) : ppn (page2pa pp ||| flags) = pp := by
  have hf' : flags.toNat < 2 ^ 12 := hf
  rw [ppn_eq, BitVec.toNat_or, page2pa_toNat h, Nat.mul_comm,
    ← Nat.two_pow_add_eq_or_of_lt hf']
  omega

theorem pteAddr_eq_page2pa_iff {pp : Nat} (h : pp < 2 ^ 20) (w : Word) :
    pteAddr w = page2pa pp ↔ ppn w = pp := by
  constructor
  · intro he
    rw [← ppn_pteAddr, he, ppn_page2pa h]
  · rintro rfl
    apply BitVec.eq_of_getLsbD_eq
    intro i hi
    simp only [pteAddr, page2pa, ppn, BitVec.ofNat_toNat, BitVec.setWidth_eq,
      BitVec.getLsbD_and, BitVec.getLsbD_not, BitVec.getLsbD_shiftLeft,
      BitVec.getLsbD_ushiftRight, offMask_bit]
    by_cases h12 : i < 12
    · simp [h12]
    · simp [h12, hi, Nat.add_sub_cancel' (Nat.le_of_not_lt h12)]

theorem present_or_P (w : Word) : present (w ||| PTE_P) = true := by
  simp only [present, PTE_P, bne_iff_ne, ne_eq]
  intro h
  have := congrArg (fun x : Word => x.getLsbD 0) h
  simp at this

theorem present_zero : present 0#32 = false := by decide

/-- Flags that pass the system calls' check fit below the page address. -/
theorem lt_of_or_PTE_USER {perm : Word} (h : perm ||| PTE_USER = PTE_USER) :
    perm < 0x1000#32 := by
  have hle : perm.toNat ≤ (perm ||| PTE_USER).toNat := by
    rw [BitVec.toNat_or]
    exact Nat.left_le_or
  rw [h] at hle
  have : (PTE_USER).toNat = 0xE07 := by decide
  show perm.toNat < 0x1000
  omega

theorem or_P_lt {perm : Word} (h : perm < 0x1000#32) :
    perm ||| PTE_P < 0x1000#32 := by
  have hp : perm.toNat < 2 ^ 12 := h
  show (perm ||| PTE_P).toNat < 2 ^ 12
  rw [BitVec.toNat_or]
  exact Nat.or_lt_two_pow hp (by decide)

end Jos
