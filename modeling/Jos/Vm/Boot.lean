import Jos.Kern.Invariant
import Jos.Vm.Calls

/-!
# The state the kernel starts from

`i386_detect_memory`, `i386_vm_init` and `env_init`. The self-tests that
`i386_vm_init` runs (`check_page_alloc`, `page_check`, `check_boot_pgdir`) put
back what they take: `SelfTested` is what they may leave behind. Page tables
that `boot_map_segment` allocates stay in use for good, which `bootLayout`
counts as references held by the kernel.
-/

namespace Jos

open Slot (target)

/-! ## Physical memory at boot -/

def IOPHYSMEM : Nat := 0x0A0000
def EXTPHYSMEM : Nat := 0x100000
def KSTKSIZE : Nat := 8 * PGSIZE

def SIZEOF_STRUCT_PAGE : Nat := 12
def SIZEOF_STRUCT_ENV : Nat := 144

/-- `ROUNDUP(a, n)`. -/
def roundup (a n : Nat) : Nat := a + n - 1 - (a + n - 1) % n

/-- What the kernel finds when it is loaded: the sizes of base and extended
memory in kilobytes, and the physical addresses of `end` and `bootstack`. The
kernel is linked at 1 MB and has less than 4 MB. -/
structure BootParams where
  basemem : BitVec 16
  extmem : BitVec 16
  kernEnd : Nat
  bootstack : Word
  kernEnd_ge : EXTPHYSMEM ≤ kernEnd
  kernEnd_le : kernEnd ≤ PTSIZE
  bootstack_aligned : bootstack.toNat % PGSIZE = 0

namespace BootParams

/-- `i386_detect_memory`: the number of physical pages. -/
def npage (b : BootParams) : Nat :=
  let basemem := b.basemem.toNat * 1024 - b.basemem.toNat * 1024 % PGSIZE
  let extmem := b.extmem.toNat * 1024 - b.extmem.toNat * 1024 % PGSIZE
  let maxpa := if extmem ≠ 0 then EXTPHYSMEM + extmem else basemem
  maxpa / PGSIZE

/-- The page that `boot_alloc` gives out for the page directory. -/
def pgdir (b : BootParams) : Nat := roundup b.kernEnd PGSIZE / PGSIZE

/-- The physical address of the `pages` array. -/
def pages (b : BootParams) : Nat := (b.pgdir + 1) * PGSIZE

/-- The physical address of the `envs` array. -/
def envs (b : BootParams) : Nat :=
  roundup (b.pages + b.npage * SIZEOF_STRUCT_PAGE) PGSIZE

/-- `PADDR(boot_freemem)` when `page_init` runs. -/
def freemem (b : BootParams) : Nat := b.envs + NENV * SIZEOF_STRUCT_ENV

/-- `upperlimit` in `page_init`. -/
def upperlimit (b : BootParams) : Nat := roundup b.freemem PGSIZE / PGSIZE

/-- The pages that `page_init` puts on the free list. -/
def Managed (b : BootParams) (p : Nat) : Prop :=
  p < b.npage ∧ p ≠ 0 ∧ ¬(IOPHYSMEM / PGSIZE ≤ p ∧ p < b.upperlimit)

end BootParams

/-! ## `i386_vm_init` -/

/-- The boot page directory, before anything is mapped. -/
def initBootPgdir (b : BootParams) : VmM Unit := do
  Prog.update fun v => { v with
    npage := b.npage
    mem := v.mem.zeroPage b.pgdir
    bootPgdir := b.pgdir
    bootCr3 := page2pa b.pgdir }
  setPte (b.pgdir, pdx VPT) (page2pa b.pgdir ||| PTE_W ||| PTE_P)
  setPte (b.pgdir, pdx UVPT) (page2pa b.pgdir ||| PTE_U ||| PTE_P)

/-- `i386_vm_init` up to the self-tests of the allocator. -/
def initPages (b : BootParams) : VmM Unit := do
  initBootPgdir b
  pageInit (IOPHYSMEM / PGSIZE) b.upperlimit

/-- `i386_vm_init` after them: the mappings of the kernel. -/
def mapKernel (b : BootParams) : VmM Unit := do
  bootMapSegment b.pgdir UPAGES (roundup (b.npage * SIZEOF_STRUCT_PAGE)
  PGSIZE / PGSIZE)
    (BitVec.ofNat 32 b.pages) PTE_U
  bootMapSegment b.pgdir UENVS (roundup (NENV * SIZEOF_STRUCT_ENV)
  PGSIZE / PGSIZE)
    (BitVec.ofNat 32 b.envs) PTE_U
  bootMapSegment b.pgdir (KSTACKTOP -
  BitVec.ofNat 32 KSTKSIZE) (KSTKSIZE / PGSIZE)
    b.bootstack PTE_W
  bootMapSegment b.pgdir KERNBASE 65536 0 PTE_W
  let v ← Prog.ask
  setPte (b.pgdir, 0) (v.mem.entry b.pgdir (pdx KERNBASE))
  setPte (b.pgdir, 0) 0

/-- What `check_page_alloc` and `page_check` may leave behind: the free list in
another order, and other contents of free pages. -/
structure SelfTested (v v' : Vm) : Prop where
  npage : v'.npage = v.npage
  bootPgdir : v'.bootPgdir = v.bootPgdir
  bootCr3 : v'.bootCr3 = v.bootCr3
  ppRef : v'.ppRef = v.ppRef
  free : ∀ xs, v.pageFreeList.Rep xs → ∃ ys, v'.pageFreeList.Rep ys ∧ ys.Perm xs
  mem : ∀ p, (∀ xs, v.pageFreeList.Rep xs → p ∉ xs) → v'.mem p = v.mem p

/-- Memory of zero bytes. -/
def Vm.zero : Vm where
  mem := fun _ _ => 0
  npage := 0
  ppRef := fun _ => 0
  pageFreeList := ⟨none, fun _ => none, fun _ => none⟩
  bootPgdir := 0
  bootCr3 := 0

/-- `v` is a state that `i386_vm_init` leaves. -/
def VmBooted (b : BootParams) (v : Vm) : Prop :=
  ∃ v₀ v₁ v₂, initPages b v₀ = .ret () v₁ ∧ SelfTested v₁ v₂
    ∧ mapKernel b v₂ = .ret () v

/-- The references the kernel holds for good: `boot_pgdir` refers to the
page. -/
def bootHold (boot : Nat) (m : PhysMem) (p : Nat) : Nat :=
  if (List.range NPDENTRIES).any fun i => m.link boot i = some p then 1 else 0

theorem bootHold_pos {boot : Nat} {m : PhysMem} {p : Nat} :
    0 < bootHold boot m p ↔ ∃ i < NPDENTRIES, m.link boot i = some p := by
  unfold bootHold
  simp only [List.any_eq_true, List.mem_range, decide_eq_true_eq]
  split <;> simp_all

theorem bootHold_le (boot : Nat) (m : PhysMem) (p : Nat) :
    bootHold boot m p ≤ 1 := by
  unfold bootHold
  split <;> omega

-- Otherwise unification would search the directory.
attribute [irreducible] bootHold

theorem BootParams.npage_le (b : BootParams) : b.npage ≤ 16640 := by
  have h₁ := b.basemem.isLt
  have h₂ := b.extmem.isLt
  unfold npage
  refine Nat.div_le_of_le_mul ?_
  split
  · simp only [PGSIZE, EXTPHYSMEM]
    omega
  · simp only [PGSIZE]
    omega

/-- What the allocator manages after `i386_vm_init`. -/
def bootLayout (b : BootParams) (v : Vm) : Layout where
  npage := b.npage
  ndirs := NENV
  bootPgdir := b.pgdir
  managed := b.Managed
  hold := bootHold b.pgdir v.mem
  npage_le := Nat.le_trans b.npage_le (by decide)
  managed_lt _ h := h.1

/-! ## Kernel mappings -/

/-- User code may write through the entry. -/
def UserWritable (w : Word) : Prop :=
  present w ∧ w &&& PTE_U ≠ 0 ∧ w &&& PTE_W ≠ 0

/-- What directory `d` maps at `UTOP` and above is not writable for users: an
entry that allows it refers to a table of the kernel's in which no entry
does. -/
def KernelHalf (L : Layout) (m : PhysMem) (d : Nat) : Prop :=
  ∀ i, pdxUTOP ≤ i → i < NPDENTRIES → UserWritable (m.entry d i) →
    ¬L.User (ppn (m.entry d i))
      ∧ ∀ j < NPTENTRIES, ¬UserWritable (m.entry (ppn (m.entry d i)) j)

section

variable {b : BootParams} {v v' : Vm} {i j n p : Nat} {va pa perm w : Word}

theorem not_userWritable {w : Word} (h : w &&& PTE_U = 0 ∨ w &&& PTE_W = 0) :
    ¬UserWritable w :=
  fun hw => h.elim hw.2.1 hw.2.2

/-- A page address with other flags than `PTE_U` and `PTE_W` together. -/
theorem not_userWritable_page {w : Word} (hw : w.toNat % PGSIZE = 0)
    (hperm : perm = PTE_U ∨ perm = PTE_W) :
    ¬UserWritable (w ||| perm ||| PTE_P) := by
  have hlow : w &&& 0xFFF#32 = 0 := by
    apply BitVec.eq_of_toNat_eq
    exact (pgoff_eq w).trans hw
  have hbit : ∀ f : Word, f &&& 0xFFF#32 = f → w &&& f = 0 := by
    intro f hf
    rw [← hf, BitVec.and_comm f, ← BitVec.and_assoc, hlow]
    exact BitVec.zero_and
  have hdist : ∀ f g : Word, (w ||| g ||| PTE_P) &&& f =
      (w &&& f) ||| ((g ||| PTE_P) &&& f) := by
    intro f g
    rw [BitVec.or_assoc]
    ext k hk
    simp only [BitVec.getElem_and, BitVec.getElem_or]
    cases w[k] <;> cases f[k] <;> simp
  rcases hperm with rfl | rfl
  · refine not_userWritable (.inr ?_)
    rw [hdist, hbit PTE_W (by decide)]
    decide
  · refine not_userWritable (.inl ?_)
    rw [hdist, hbit PTE_U (by decide)]
    decide

/-! ## `page_init` -/

/-- The pages below `n` that `page_init` does not skip. -/
def BootParams.Free (b : BootParams) (n p : Nat) : Prop :=
  p < n ∧ p ≠ 0 ∧ ¬(IOPHYSMEM / PGSIZE ≤ p ∧ p < b.upperlimit)

/-- `page_init` puts exactly the pages it does not skip on the free list, with
no references. -/
theorem wp_pageInit (hn : v.npage = b.npage) :
    Prog.wp (pageInit (IOPHYSMEM / PGSIZE) b.upperlimit)
      (fun _ v' => v'.npage = v.npage ∧ v'.bootPgdir = v.bootPgdir
        ∧ v'.mem = v.mem
        ∧ (∃ xs, v'.pageFreeList.Rep xs ∧ ∀ p, p ∈ xs ↔ b.Managed p)
        ∧ ∀ p, b.Managed p → v'.ppRef p = 0)
      (fun _ => False) (fun _ _ => False) v := by
  unfold pageInit
  simp only [Prog.wp_bind, Prog.wp_update, Prog.wp_ask, hn]
  refine Prog.wp_forUp (fun n (v' : Vm) => v'.npage = b.npage ∧ v'.bootPgdir =
    v.bootPgdir
    ∧ v'.mem = v.mem ∧ (∃ xs, v'.pageFreeList.Rep xs ∧ ∀ p, p ∈ xs ↔ b.Free n p)
    ∧ ∀ p, b.Free n p → v'.ppRef p = 0) ⟨rfl, rfl, rfl,
    ⟨[], Queue.rep_init _, ?_⟩, ?_⟩ ?_
  · exact fun p => ⟨nofun, fun h => absurd h.1 (Nat.not_lt_zero p)⟩
  · exact fun p h => absurd h.1 (Nat.not_lt_zero p)
  · rintro i v' - ⟨h₁, h₂, h₃, ⟨xs, hrep, hmem⟩, href⟩
    have hsucc : ∀ p, b.Free (i + 1) p ↔ b.Free i p
        ∨ (p = i ∧ i ≠ 0 ∧ ¬(IOPHYSMEM / PGSIZE ≤ i ∧ i < b.upperlimit)) := by
      intro p
      unfold BootParams.Free
      constructor
      · rintro ⟨hlt, hp⟩
        rcases Nat.lt_succ_iff_lt_or_eq.mp hlt with hlt | rfl
        · exact .inl ⟨hlt, hp⟩
        · exact .inr ⟨rfl, hp⟩
      · rintro (⟨hlt, hp⟩ | ⟨rfl, hp⟩)
        · exact ⟨by omega, hp⟩
        · exact ⟨by omega, hp⟩
    refine Prog.wp_ite _ (fun hskip => ?_) fun hskip => ?_
    · have hsame : ∀ p, b.Free (i + 1) p ↔ b.Free i p := by
        intro p
        rw [hsucc]
        refine or_iff_left fun h => ?_
        exact hskip.elim h.2.1 h.2.2
      simp only [Prog.wp_update]
      refine ⟨h₁, h₂, h₃, ⟨xs, hrep, fun p => (hmem p).trans (hsame p).symm⟩,
        fun p hp => ?_⟩
      have hp := (hsame p).mp hp
      rw [Function.update_of_ne (Nat.ne_of_lt hp.1)]
      exact href p hp
    · have hi : i ∉ xs := fun h => Nat.lt_irrefl i ((hmem i).mp h).1
      simp only [Prog.wp_update]
      refine ⟨h₁, h₂, h₃, ⟨i :: xs, Queue.rep_insertHead hrep hi, fun p => ?_⟩,
        fun p hp => ?_⟩
      · rw [List.mem_cons, hmem, hsucc, or_comm]
        refine or_congr_right ⟨fun h => ⟨h, not_or.mp hskip⟩, fun h => h.1⟩
      · by_cases hpi : p = i
        · rw [hpi, Function.update_self]
        · rw [Function.update_of_ne hpi]
          exact href p (((hsucc p).mp hp).resolve_right fun h => hpi h.1)

/-! ## `boot_map_segment` -/

theorem BootParams.pgdir_not_managed (b : BootParams) : ¬b.Managed b.pgdir := by
  have h := b.kernEnd_ge
  refine fun hm => hm.2.2 ?_
  simp only [upperlimit, freemem, envs, pages, pgdir, roundup, PGSIZE,
    IOPHYSMEM, EXTPHYSMEM,
    SIZEOF_STRUCT_ENV, NENV] at h ⊢
  omega

/-- Whether the kernel holds a page depends on what `boot_pgdir` refers to. -/
theorem bootHold_congr {boot q : Nat} {m m' : PhysMem}
    (h : (∃ i < NPDENTRIES, m'.link boot i = some q) ↔ ∃ i < NPDENTRIES,
      m.link boot i = some q) :
    bootHold boot m' q = bootHold boot m q := by
  have h₁ : 0 < bootHold boot m' q ↔ _ := bootHold_pos
  have h₂ : 0 < bootHold boot m q ↔ _ := bootHold_pos
  have hle₁ := bootHold_le boot m' q
  have hle₂ := bootHold_le boot m q
  rw [h, ← h₂] at h₁
  generalize bootHold boot m' q = x at *
  generalize bootHold boot m q = y at *
  omega

/-- The invariant while the kernel's mappings are made: the free pages are those
that `boot_pgdir` does not refer to, and nothing it maps is writable for
users. -/
structure BootInv (b : BootParams) (v : Vm) : Prop where
  npage : v.npage = b.npage
  boot : v.bootPgdir = b.pgdir
  free : ∃ xs, v.pageFreeList.Rep xs
    ∧ ∀ p, p ∈ xs ↔ b.Managed p ∧ bootHold b.pgdir v.mem p = 0
  ref : ∀ p, b.Managed p →
    v.ppRef p = BitVec.ofNat 16 (bootHold b.pgdir v.mem p)
  entry : ∀ i < NPDENTRIES, ∀ p, v.mem.link b.pgdir i = some p →
    ((i = pdx VPT ∨ i = pdx UVPT) ∧ ¬UserWritable (v.mem.entry b.pgdir i))
    ∨ (pdxUTOP ≤ i ∧ b.Managed p ∧ ∀ j < NPTENTRIES,
      ¬UserWritable (v.mem.entry p j))

/-- A store to a table of the kernel's. -/
theorem BootInv.setPte (h : BootInv b v) (hp : b.Managed p)
    (hw : ¬UserWritable w) :
    BootInv b (v.setPte (p, j) w) := by
  have hne : b.pgdir ≠ p := fun he => b.pgdir_not_managed (he ▸ hp)
  have hentry : ∀ i, (v.mem.setEntry p j w).entry b.pgdir i =
      v.mem.entry b.pgdir i :=
    fun i => PhysMem.entry_setEntry_ne (.inl hne)
  have hlink : ∀ i, (v.mem.setEntry p j w).link b.pgdir i =
      v.mem.link b.pgdir i :=
    fun i => PhysMem.link_setEntry_ne (.inl hne)
  have hhold : ∀ q, bootHold b.pgdir (v.mem.setEntry p j w) q =
      bootHold b.pgdir v.mem q :=
    fun q => bootHold_congr (by simp only [hlink])
  refine ⟨h.npage, h.boot, ?_,
    fun q hq => (h.ref q hq).trans (by rw [← hhold]; rfl),
    fun i hi q hq => ?_⟩
  · obtain ⟨xs, hrep, hmem⟩ := h.free
    exact ⟨xs, hrep, fun q => (hmem q).trans (by rw [← hhold]; rfl)⟩
  · change (v.mem.setEntry p j w).link b.pgdir i = some q at hq
    rw [hlink] at hq
    change (_ ∧ ¬UserWritable ((v.mem.setEntry p j w).entry b.pgdir i))
      ∨ (_ ∧ _ ∧ ∀ j' < NPTENTRIES,
      ¬UserWritable ((v.mem.setEntry p j w).entry q j'))
    rw [hentry]
    refine (h.entry i hi q hq).imp_right fun ⟨hi', hq', hj⟩ =>
      ⟨hi', hq', fun j' hj' => ?_⟩
    by_cases hqj : q = p ∧ j' = j
    · rw [hqj.1, hqj.2, PhysMem.entry_setEntry_self]
      exact hw
    · rw [PhysMem.entry_setEntry_ne (Decidable.not_and_iff_or_not.mp hqj)]
      exact hj j' hj'

/-- A new page table of the kernel's. -/
theorem BootInv.addTable (h : BootInv b v) (hi : pdxUTOP ≤ i)
    (hi' : i < NPDENTRIES)
    (hnone : v.mem.link b.pgdir i = none)
    (hfirst : v.pageFreeList.first = some p) :
    b.Managed p ∧ BootInv b (v.addTable b.pgdir i p) := by
  obtain ⟨xs, hrep, hmem⟩ := h.free
  obtain ⟨ys, rfl⟩ := hrep.eq_cons hfirst
  obtain ⟨hp, hhold⟩ := (hmem p).mp (List.mem_cons_self ..)
  have hne : b.pgdir ≠ p := fun he => b.pgdir_not_managed (he ▸ hp)
  have hlt : p < 2 ^ 20 :=
    Nat.lt_of_lt_of_le hp.1 (Nat.le_trans b.npage_le (by decide))
  have hentry : ∀ q i', (q ≠ b.pgdir ∨ i' ≠ i) → q ≠ p →
      (v.addTable b.pgdir i p).mem.entry q i' = v.mem.entry q i' :=
    fun q i' hqi hqp =>
    (PhysMem.entry_setEntry_ne hqi).trans (PhysMem.entry_zeroPage_ne hqp)
  have hself : (v.addTable b.pgdir i p).mem.link b.pgdir i = some p :=
    PhysMem.link_setEntry_self.trans (mapped_table hlt)
  have hother : ∀ i', i' ≠ i →
      (v.addTable b.pgdir i p).mem.link b.pgdir i' = v.mem.link b.pgdir i' :=
    fun i' hi' => congrArg mapped (hentry b.pgdir i' (.inr hi') hne)
  have hheld : ∀ q,
      (∃ i' < NPDENTRIES, (v.addTable b.pgdir i p).mem.link b.pgdir i' = some q)
      ↔ q = p ∨ ∃ i' < NPDENTRIES, v.mem.link b.pgdir i' = some q := by
    intro q
    constructor
    · rintro ⟨i', hlt', hq⟩
      by_cases hii : i' = i
      · rw [hii, hself] at hq
        exact .inl (Option.some.inj hq).symm
      · exact .inr ⟨i', hlt', hother i' hii ▸ hq⟩
    · rintro (rfl | ⟨i', hlt', hq⟩)
      · exact ⟨i, hi', hself⟩
      · refine ⟨i', hlt', (hother i' ?_).trans hq⟩
        rintro rfl
        rw [hnone] at hq
        cases hq
  have hone : bootHold b.pgdir (v.addTable b.pgdir i p).mem p = 1 := by
    have h₁ := bootHold_pos.mpr ((hheld p).mpr (.inl rfl))
    have h₂ := bootHold_le b.pgdir (v.addTable b.pgdir i p).mem p
    omega
  have hsame : ∀ q, q ≠ p →
      bootHold b.pgdir (v.addTable b.pgdir i p).mem q =
        bootHold b.pgdir v.mem q :=
    fun q hq => bootHold_congr ((hheld q).trans (or_iff_right hq))
  have hnd := List.nodup_cons.mp hrep.nodup
  refine ⟨hp, h.npage, h.boot, ⟨ys, Queue.rep_removeFirst hrep, fun q => ?_⟩,
    fun q hq => ?_,
    fun i' hlt' q hq => ?_⟩
  · by_cases hqp : q = p
    · subst hqp
      rw [hone]
      exact ⟨fun hy => absurd hy hnd.1, fun h => absurd h.2 (by decide)⟩
    · rw [hsame q hqp, ← hmem, List.mem_cons]
      exact ⟨.inr, fun h => h.resolve_left hqp⟩
  · by_cases hqp : q = p
    · subst hqp
      rw [hone]
      exact Function.update_self ..
    · rw [hsame q hqp]
      exact (Function.update_of_ne hqp ..).trans (h.ref q hq)
  · by_cases hii : i' = i
    · subst hii
      obtain rfl : p = q := Option.some.inj (hself.symm.trans hq)
      refine .inr ⟨hi, hp, fun j hj => ?_⟩
      have hzero : (v.addTable b.pgdir i' p).mem.entry p j = 0#32 :=
        (PhysMem.entry_setEntry_ne (.inl hne.symm)).trans
          (PhysMem.entry_zeroPage_self hj)
      rw [hzero]
      exact fun hw => absurd hw.1 (by decide)
    · rw [hother i' hii] at hq
      rw [hentry b.pgdir i' (.inr hii) hne]
      refine (h.entry i' hlt' q hq).imp_right fun ⟨hi', hq', hj⟩ =>
        ⟨hi', hq', fun j' hj' => ?_⟩
      have hqp : q ≠ p := by
        rintro rfl
        have := bootHold_pos.mpr ⟨i', hlt', hq⟩
        omega
      have hqb : q ≠ b.pgdir := fun he => b.pgdir_not_managed (he ▸ hq')
      rw [hentry q j' (.inl hqb) hqp]
      exact hj j' hj'

/-- There are free pages for all the page tables that `boot_pgdir` does not have
yet. -/
def Room (b : BootParams) (v : Vm) : Prop :=
  ∃ xs, v.pageFreeList.Rep xs
    ∧ NPDENTRIES ≤ xs.length
      + ((Finset.range NPDENTRIES).filter fun i => v.mem.link b.pgdir i ≠
      none).card

theorem Room.congr (h : Room b v) (hl : v'.pageFreeList = v.pageFreeList)
    (hlink : ∀ i, v'.mem.link b.pgdir i = v.mem.link b.pgdir i) :
    Room b v' := by
  obtain ⟨xs, hrep, hle⟩ := h
  refine ⟨xs, hl ▸ hrep, ?_⟩
  simp only [hlink]
  exact hle

/-- A new page table uses a free page. -/
theorem Room.addTable (h : Room b v) (hi : i < NPDENTRIES)
    (hnone : v.mem.link b.pgdir i = none)
    (hfirst : v.pageFreeList.first = some p) (hne : b.pgdir ≠ p)
    (hp : p < 2 ^ 20) :
    Room b (v.addTable b.pgdir i p) := by
  obtain ⟨xs, hrep, hle⟩ := h
  obtain ⟨ys, rfl⟩ := hrep.eq_cons hfirst
  refine ⟨ys, Queue.rep_removeFirst hrep, ?_⟩
  have hlink : ∀ i', (v.addTable b.pgdir i p).mem.link b.pgdir i'
      = if i' = i then some p else v.mem.link b.pgdir i' := by
    intro i'
    by_cases hii : i' = i
    · rw [if_pos hii, hii]
      exact PhysMem.link_setEntry_self.trans (mapped_table hp)
    · rw [if_neg hii]
      exact (PhysMem.link_setEntry_ne (.inr hii)).trans
        (PhysMem.link_congr (PhysMem.zeroPage_of_ne hne))
  have hsub : insert i ((Finset.range NPDENTRIES).filter fun i =>
      v.mem.link b.pgdir i ≠ none)
      ⊆ (Finset.range NPDENTRIES).filter
        fun i' => (v.addTable b.pgdir i p).mem.link b.pgdir i' ≠ none := by
    intro j hj
    rw [Finset.mem_insert, Finset.mem_filter, Finset.mem_range] at hj
    rw [Finset.mem_filter, Finset.mem_range, hlink]
    rcases hj with rfl | ⟨hj, hjn⟩
    · rw [if_pos rfl]
      exact ⟨hi, nofun⟩
    · refine ⟨hj, ?_⟩
      split
      · nofun
      · exact hjn
  have hcard := Finset.card_le_card hsub
  rw [Finset.card_insert_of_notMem (by simp [hnone])] at hcard
  rw [List.length_cons] at hle
  omega

/-- With room for its page tables, a directory without a table finds a free
page. -/
theorem Room.first_ne_none (h : Room b v) (hi : i < NPDENTRIES)
    (hnone : v.mem.link b.pgdir i = none) : v.pageFreeList.first ≠ none := by
  obtain ⟨xs, hrep, hle⟩ := h
  intro hfirst
  obtain rfl : xs = [] := by
    rw [hrep.first_eq] at hfirst
    exact List.head?_eq_none_iff.mp hfirst
  have hlt : ((Finset.range NPDENTRIES).filter fun i => v.mem.link b.pgdir i ≠
      none).card
      < (Finset.range NPDENTRIES).card :=
    Finset.card_lt_card (Finset.filter_ssubset.mpr ⟨i, Finset.mem_range.mpr hi,
      by simp [hnone]⟩)
  rw [Finset.card_range] at hlt
  rw [List.length_nil] at hle
  omega

/-- `boot_map_segment` of a range above `UTOP` that does not touch the two
windows on the page directory keeps the invariant, and stops only if there is no
room for its page tables. -/
theorem wp_bootMapSegment (h : BootInv b v)
    (hva : ∀ i < n, pdxUTOP ≤ pdx (va + BitVec.ofNat 32 (i * PGSIZE))
      ∧ pdx (va + BitVec.ofNat 32 (i * PGSIZE)) ≠ pdx VPT
      ∧ pdx (va + BitVec.ofNat 32 (i * PGSIZE)) ≠ pdx UVPT)
    (hpa : pa.toNat % PGSIZE = 0) (hperm : perm = PTE_U ∨ perm = PTE_W) :
    Prog.wp (bootMapSegment b.pgdir va n pa perm)
      (fun _ v' => BootInv b v' ∧ (Room b v → Room b v')) (fun _ => False)
      (fun _ _ => ¬Room b v) v := by
  refine Prog.wp_forUp (fun _ v' => BootInv b v' ∧ (Room b v → Room b v'))
    ⟨h, fun h => h⟩ ?_
  rintro i v' hi ⟨h', hroom⟩
  obtain ⟨hlow, hvpt, huvpt⟩ := hva i hi
  have hi' : pdx (va + BitVec.ofNat 32 (i * PGSIZE)) < NPDENTRIES := pdx_lt _
  have hw : ¬UserWritable ((pa + BitVec.ofNat 32 (i * PGSIZE)) ||| perm |||
      PTE_P) := by
    refine not_userWritable_page ?_ hperm
    simp only [PGSIZE] at hpa ⊢
    rw [BitVec.toNat_add, BitVec.toNat_ofNat]
    omega
  have hnpage : b.npage ≤ 2 ^ 20 := Nat.le_trans b.npage_le (by decide)
  have hset : ∀ {u : Vm} {pte : Nat × Nat} {w : Word}, b.Managed pte.1 →
      Room b u →
      Room b (u.setPte pte w) := fun hm hr => hr.congr rfl fun i =>
    PhysMem.link_setEntry_ne (.inl fun he => b.pgdir_not_managed (he ▸ hm))
  rw [Prog.wp_bind]
  cases hpt : v'.mem.link b.pgdir (pdx (va + BitVec.ofNat 32 (i * PGSIZE))) with
  | some pt =>
      obtain ⟨-, hm, -⟩ := (h'.entry _ hi' pt hpt).resolve_left
        fun hself => hself.1.elim hvpt huvpt
      refine Prog.wp_ret (pgdirWalk_table hpt (h'.npage ▸ hm.1)) ?_
      exact Prog.wp_ret rfl ⟨h'.setPte hm hw, fun hr => hset hm (hroom hr)⟩
  | none =>
      cases hfirst : v'.pageFreeList.first with
      | none =>
          refine Prog.wp_ret (pgdirWalk_noMem (mapped_eq_none.mp hpt) hfirst) ?_
          exact Prog.wp_halt_intro fun hr =>
            (hroom hr).first_ne_none hi' hpt hfirst
      | some pp =>
          obtain ⟨hm, hadd⟩ := h'.addTable hlow hi' hpt hfirst
          have hlt : pp < 2 ^ 20 := Nat.lt_of_lt_of_le hm.1 hnpage
          refine Prog.wp_ret (pgdirWalk_new hpt hfirst hlt (h'.npage ▸ hm.1)) ?_
          exact Prog.wp_ret rfl ⟨hadd.setPte hm hw, fun hr => hset hm
            ((hroom hr).addTable hi' hpt hfirst
            (fun he => b.pgdir_not_managed (he ▸ hm)) hlt)⟩

/-! ## The state `i386_vm_init` leaves -/

theorem pdx_add_pages {la : Word} (h : la.toNat + i * PGSIZE < 2 ^ 32) :
    pdx (la + BitVec.ofNat 32 (i * PGSIZE)) =
      (la.toNat + i * PGSIZE) / 4194304 := by
  have hla := la.isLt
  rw [pdx_eq, BitVec.toNat_add, BitVec.toNat_ofNat,
    Nat.mod_eq_of_lt (by omega : i * PGSIZE < _),
    Nat.mod_eq_of_lt h]

theorem page2pa_aligned (p : Nat) : (page2pa p).toNat % PGSIZE = 0 := by
  simp only [page2pa, BitVec.toNat_shiftLeft, BitVec.toNat_ofNat,
    Nat.shiftLeft_eq, PGSIZE]
  omega

theorem BootParams.pgdir_lt (b : BootParams) : b.pgdir < 2 ^ 20 := by
  have h := b.kernEnd_le
  simp only [pgdir, roundup, PGSIZE, PTSIZE] at h ⊢
  omega

/-- The memory in which `boot_pgdir` maps only itself. -/
theorem initBootPgdir_apply {v₀ : Vm} :
    ∃ v, initBootPgdir b v₀ = .ret () v ∧ v.npage = b.npage
    ∧ v.bootPgdir = b.pgdir ∧ ∀ i < NPDENTRIES, v.mem.entry b.pgdir i
      = if i = pdx UVPT then page2pa b.pgdir ||| PTE_U ||| PTE_P
        else if i = pdx VPT then page2pa b.pgdir ||| PTE_W |||
          PTE_P else 0 := by
  refine ⟨_, rfl, rfl, rfl, fun i hi => ?_⟩
  by_cases hu : i = pdx UVPT
  · rw [if_pos hu, hu]
    exact PhysMem.entry_setEntry_self
  rw [if_neg hu]
  refine (PhysMem.entry_setEntry_ne (.inr hu)).trans ?_
  by_cases hv : i = pdx VPT
  · rw [if_pos hv, hv]
    exact PhysMem.entry_setEntry_self
  rw [if_neg hv]
  refine (PhysMem.entry_setEntry_ne (.inr hv)).trans ?_
  exact PhysMem.entry_zeroPage_self hi

/-- After the self-tests `boot_pgdir` still maps only itself. -/
theorem initPages_entry {v₀ v₁ v₂ : Vm} (h : initPages b v₀ = .ret () v₁)
    (ht : SelfTested v₁ v₂) :
    ∀ i < NPDENTRIES, v₂.mem.entry b.pgdir i
      = if i = pdx UVPT then page2pa b.pgdir ||| PTE_U ||| PTE_P
        else if i = pdx VPT then page2pa b.pgdir ||| PTE_W |||
          PTE_P else 0 := by
  obtain ⟨u, hu, hn, -, hentry⟩ := @initBootPgdir_apply b v₀
  rw [initPages, Prog.bind_ret hu] at h
  obtain ⟨-, -, hmem₁, ⟨xs, hrep, hxs⟩, -⟩ := (wp_pageInit hn).ret h
  have hpg : v₂.mem b.pgdir = u.mem b.pgdir := by
    rw [ht.mem b.pgdir fun zs hzs hmem => ?_, hmem₁]
    exact b.pgdir_not_managed ((hxs _).mp ((hrep.unique hzs).symm ▸ hmem))
  intro i hi
  rw [PhysMem.entry_congr hpg, hentry i hi]

theorem initPages_link {v₀ v₁ v₂ : Vm} (h : initPages b v₀ = .ret () v₁)
    (ht : SelfTested v₁ v₂)
    (hi : i < NPDENTRIES) (hp : v₂.mem.link b.pgdir i = some p) :
    p = b.pgdir ∧ (i = pdx VPT ∨ i = pdx UVPT)
      ∧ ¬UserWritable (v₂.mem.entry b.pgdir i) := by
  have hentry := initPages_entry h ht
  have hflags : ∀ f : Word, f < 0x1000#32 →
      mapped (page2pa b.pgdir ||| f ||| PTE_P) = some b.pgdir :=
    fun f hf => mapped_page2pa b.pgdir_lt hf
  rw [PhysMem.link, hentry i hi] at hp
  rw [hentry i hi]
  by_cases hu : i = pdx UVPT
  · rw [if_pos hu, hflags _ (by decide)] at hp
    rw [if_pos hu]
    exact ⟨(Option.some.inj hp).symm, .inr hu,
      not_userWritable_page (page2pa_aligned _) (.inl rfl)⟩
  · rw [if_neg hu] at hp ⊢
    by_cases hv : i = pdx VPT
    · rw [if_pos hv, hflags _ (by decide)] at hp
      rw [if_pos hv]
      exact ⟨(Option.some.inj hp).symm, .inl hv,
        not_userWritable_page (page2pa_aligned _) (.inr rfl)⟩
    · rw [if_neg hv, mapped_zero] at hp
      cases hp

theorem BootInv.of_initPages {v₀ v₁ v₂ : Vm} (h : initPages b v₀ = .ret () v₁)
    (ht : SelfTested v₁ v₂) : BootInv b v₂ := by
  have hcase : ∀ i < NPDENTRIES, ∀ p, v₂.mem.link b.pgdir i = some p →
      p = b.pgdir
      ∧ (i = pdx VPT ∨ i = pdx UVPT) ∧ ¬UserWritable (v₂.mem.entry b.pgdir i) :=
    fun i hi p hp => initPages_link h ht hi hp
  obtain ⟨u, hu, hn, hboot, -⟩ := @initBootPgdir_apply b v₀
  rw [initPages, Prog.bind_ret hu] at h
  obtain ⟨hn₁, hboot₁, hmem₁, ⟨xs, hrep, hxs⟩, href⟩ := (wp_pageInit hn).ret h
  obtain ⟨ys, hrep', hperm⟩ := ht.free xs hrep
  have hhold : ∀ p, b.Managed p → bootHold b.pgdir v₂.mem p = 0 := by
    intro p hp
    refine Nat.eq_zero_of_not_pos fun hpos => ?_
    obtain ⟨i, hi, hip⟩ := bootHold_pos.mp hpos
    exact b.pgdir_not_managed ((hcase i hi p hip).1 ▸ hp)
  refine ⟨ht.npage.trans (hn₁.trans hn),
    ht.bootPgdir.trans (hboot₁.trans hboot),
    ⟨ys, hrep', fun p => ?_⟩, fun p hp => ?_, fun i hi p hp =>
    .inl (hcase i hi p hp).2⟩
  · rw [hperm.mem_iff, hxs]
    exact ⟨fun hp => ⟨hp, hhold p hp⟩, fun hp => hp.1⟩
  · rw [ht.ppRef, href p hp, hhold p hp]
    rfl

/-- The temporary identity mapping goes away again. -/
theorem BootInv.clearFirst (h : BootInv b v) :
    BootInv b (v.setPte (b.pgdir, 0) 0) := by
  have hlow : v.mem.link b.pgdir 0 = none := by
    cases hp : v.mem.link b.pgdir 0 with
    | none => rfl
    | some p =>
        rcases h.entry 0 (by decide) p hp with ⟨h0, -⟩ | ⟨h0, -, -⟩
        · exact absurd h0 (by decide)
        · exact absurd h0 (by decide)
  have hlink : ∀ i, (v.mem.setEntry b.pgdir 0 0).link b.pgdir i =
      v.mem.link b.pgdir i := by
    intro i
    by_cases hi : i = 0
    · rw [hi, PhysMem.link_setEntry_self, mapped_zero, hlow]
    · exact PhysMem.link_setEntry_ne (.inr hi)
  have hhold : ∀ q, bootHold b.pgdir (v.mem.setEntry b.pgdir 0 0) q =
      bootHold b.pgdir v.mem q :=
    fun q => bootHold_congr (by simp only [hlink])
  refine ⟨h.npage, h.boot, ?_,
    fun q hq => (h.ref q hq).trans (by rw [← hhold]; rfl),
    fun i hi q hq => ?_⟩
  · obtain ⟨xs, hrep, hmem⟩ := h.free
    exact ⟨xs, hrep, fun q => (hmem q).trans (by rw [← hhold]; rfl)⟩
  · change (v.mem.setEntry b.pgdir 0 0).link b.pgdir i = some q at hq
    rw [hlink] at hq
    have hi0 : i ≠ 0 := by
      rintro rfl
      rw [hlow] at hq
      cases hq
    change (_ ∧ ¬UserWritable ((v.mem.setEntry b.pgdir 0 0).entry b.pgdir i))
      ∨ (_ ∧ _ ∧ ∀ j' < NPTENTRIES,
      ¬UserWritable ((v.mem.setEntry b.pgdir 0 0).entry q j'))
    rw [PhysMem.entry_setEntry_ne (.inr hi0)]
    refine (h.entry i hi q hq).imp_right fun ⟨hi', hq', hj⟩ =>
      ⟨hi', hq', fun j' hj' => ?_⟩
    rw [PhysMem.entry_setEntry_ne (.inl fun he : q = b.pgdir =>
      b.pgdir_not_managed (he ▸ hq'))]
    exact hj j' hj'

/-- A range within one region of the kernel's address space. -/
theorem segment_range {la : Word} (lo hi : Nat) (hla : lo * 4194304 ≤ la.toNat)
    (hend : la.toNat + n * PGSIZE ≤ (hi + 1) * 4194304) (hlo : 955 ≤ lo)
    (hhi : hi < 1024)
    (hvpt : hi < 957 ∨ 959 < lo ∨ (957 < lo ∧ hi < 959)) :
    ∀ i < n, pdxUTOP ≤ pdx (la + BitVec.ofNat 32 (i * PGSIZE))
      ∧ pdx (la + BitVec.ofNat 32 (i * PGSIZE)) ≠ pdx VPT
      ∧ pdx (la + BitVec.ofNat 32 (i * PGSIZE)) ≠ pdx UVPT := by
  intro i hin
  have hpu : pdx UVPT = 957 := by decide
  have hpv : pdx VPT = 959 := by decide
  simp only [PGSIZE] at hend
  rw [pdx_add_pages (by simp only [PGSIZE]; omega), pdxUTOP_eq, hpu, hpv]
  simp only [PGSIZE]
  omega

theorem roundup_aligned (a : Nat) : roundup a PGSIZE % PGSIZE = 0 := by
  simp only [roundup, PGSIZE]
  omega

theorem ofNat_aligned {a : Nat} (h : a % PGSIZE = 0) :
    (BitVec.ofNat 32 a).toNat % PGSIZE = 0 := by
  simp only [PGSIZE] at h ⊢
  rw [BitVec.toNat_ofNat]
  omega

theorem wp_mapKernel (h : BootInv b v) :
    Prog.wp (mapKernel b) (fun _ => BootInv b) (fun _ => False) (fun _ _ =>
      ¬Room b v) v := by
  have hn := b.npage_le
  have hstop : ∀ {u : Vm}, (Room b v → Room b u) →
      ∀ (_ : Stop) (_ : Vm), ¬Room b u → ¬Room b v :=
    fun hr _ _ hu hv => hu (hr hv)
  unfold mapKernel
  simp only [Prog.wp_bind, Prog.wp_ask]
  refine Prog.wp_imp (wp_bootMapSegment h
    (segment_range 956 956 (by decide) ?_ (by decide) (by decide) (by decide))
    (ofNat_aligned (Nat.mul_mod_left ..)) (.inl rfl)) ?_ (fun _ h =>
    h) fun _ _ h => h
  · have hla : UPAGES.toNat = 956 * 4194304 := by decide
    simp only [hla, roundup, PGSIZE, SIZEOF_STRUCT_PAGE]
    omega
  rintro _ v₁ ⟨h₁, hr₁⟩
  refine Prog.wp_imp (wp_bootMapSegment h₁
    (segment_range 955 955 (by decide) (by decide) (by decide) (by decide)
      (by decide))
    (ofNat_aligned (roundup_aligned _)) (.inl rfl)) ?_ (fun _ h => h)
    (hstop hr₁)
  rintro _ v₂ ⟨h₂, hr₂⟩
  refine Prog.wp_imp (wp_bootMapSegment h₂
    (segment_range 958 958 (by decide) (by decide) (by decide) (by decide)
      (by decide))
    b.bootstack_aligned (.inr rfl)) ?_ (fun _ h =>
    h) (hstop fun hr => hr₂ (hr₁ hr))
  rintro _ v₃ ⟨h₃, hr₃⟩
  refine Prog.wp_imp (wp_bootMapSegment h₃
    (segment_range 960 1023 (by decide) (by decide) (by decide) (by decide)
      (by decide))
    rfl (.inr rfl)) ?_ (fun _ h => h) (hstop fun hr => hr₃ (hr₂ (hr₁ hr)))
  rintro _ v₄ ⟨h₄, -⟩
  have hset : (v₄.setPte (b.pgdir, 0)
      (v₄.mem.entry b.pgdir (pdx KERNBASE))).setPte (b.pgdir, 0) 0
      = v₄.setPte (b.pgdir, 0) 0 := by
    simp only [Vm.setPte, PhysMem.setEntry_setEntry]
  refine Prog.wp_ret rfl (Prog.wp_ret rfl ?_)
  change BootInv b ((v₄.setPte (b.pgdir, 0) _).setPte (b.pgdir, 0) 0)
  rw [hset]
  exact h₄.clearFirst

/-- `page_init` leaves the managed pages on the free list. -/
theorem exists_initPages (b : BootParams) :
    ∃ v₁, initPages b Vm.zero = .ret () v₁ ∧ SelfTested v₁ v₁
    ∧ ∃ xs, v₁.pageFreeList.Rep xs ∧ ∀ p, p ∈ xs ↔ b.Managed p := by
  obtain ⟨u, hu, hn, -, -⟩ := @initBootPgdir_apply b Vm.zero
  obtain ⟨_, v₁, h₁, -, -, -, hfree, -⟩ := (wp_pageInit hn).exists_ret
  refine ⟨v₁, ?_, ⟨rfl, rfl, rfl, rfl, fun xs h => ⟨xs, h, .refl _⟩,
    fun _ _ => rfl⟩, hfree⟩
  rw [initPages, Prog.bind_ret hu]
  exact h₁

/-- With enough memory, `i386_vm_init` returns. -/
theorem exists_vmBooted (b : BootParams) (hroom : ∃ ps : List Nat, ps.Nodup
    ∧ NPDENTRIES ≤ ps.length ∧ ∀ p ∈ ps, b.Managed p) : ∃ v, VmBooted b v := by
  obtain ⟨v₁, hinit, htest, xs, hrep, hxs⟩ := exists_initPages b
  have hr : Room b v₁ := by
    obtain ⟨ps, hnd, hlen, hps⟩ := hroom
    refine ⟨xs, hrep, Nat.le_trans (Nat.le_trans hlen ?_) (Nat.le_add_right ..)⟩
    exact (hnd.subperm fun p hp => (hxs p).mpr (hps p hp)).length_le
  have hmap : Prog.wp (mapKernel b) (fun _ => BootInv b) (fun _ => False)
      (fun _ _ => False) v₁ :=
    Prog.wp_imp (wp_mapKernel (BootInv.of_initPages hinit htest))
      (fun _ _ h => h) (fun _ h => h)
      fun _ _ h => h hr
  obtain ⟨_, v, hv, -⟩ := hmap.exists_ret
  exact ⟨v, Vm.zero, v₁, v₁, hinit, htest, hv⟩

/-- The state that `i386_vm_init` leaves satisfies its invariant. -/
theorem VmBooted.inv (h : VmBooted b v) : BootInv b v := by
  obtain ⟨v₀, v₁, v₂, hinit, htest, hmap⟩ := h
  exact (wp_mapKernel (BootInv.of_initPages hinit htest)).ret hmap

/-- The allocator is consistent when `i386_vm_init` is done. -/
theorem VmBooted.owned (h : VmBooted b v) :
    Owned (bootLayout b v) (fun _ => none) [] v :=
  .of_noDirs h.inv.npage h.inv.boot h.inv.ref h.inv.free

/-- What `boot_pgdir` maps is not writable for users. -/
theorem VmBooted.kernelHalf (h : VmBooted b v) :
    KernelHalf (bootLayout b v) v.mem b.pgdir := by
  intro i _ hi hw
  have hlink : v.mem.link b.pgdir i = some (ppn (v.mem.entry b.pgdir i)) :=
    mapped_of_present hw.1
  obtain ⟨-, -, hj⟩ :=
    (h.inv.entry i hi _ hlink).resolve_left fun hself => hself.2 hw
  refine ⟨fun hu => ?_, hj⟩
  have hpos : 0 < bootHold b.pgdir v.mem (ppn (v.mem.entry b.pgdir i)) :=
    bootHold_pos.mpr ⟨i, hi, hlink⟩
  have h0 : bootHold b.pgdir v.mem (ppn (v.mem.entry b.pgdir i)) = 0 := hu.2
  omega

end

/-- A machine with 16 MB of memory. -/
def smallBoot : BootParams where
  basemem := 640#16
  extmem := 15360#16
  kernEnd := 0x120000
  bootstack := 0x118000#32
  kernEnd_ge := by decide
  kernEnd_le := by decide
  bootstack_aligned := by decide

theorem smallBoot_managed :
    ∀ p ∈ List.range' 1024 1024, smallBoot.Managed p := by
  have hn : smallBoot.npage = 4096 := by decide
  have hu : smallBoot.upperlimit = 337 := by decide
  intro p hp
  rw [List.mem_range'_1] at hp
  simp only [BootParams.Managed, hn, hu]
  omega

theorem exists_smallBoot : ∃ v, VmBooted smallBoot v :=
  exists_vmBooted smallBoot ⟨List.range' 1024 1024, List.nodup_range',
    by simp [NPDENTRIES], smallBoot_managed⟩

end Jos
