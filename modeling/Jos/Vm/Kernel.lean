import Jos.Vm.Space
import Jos.Vm.Boot

/-!
# The kernel's address space

What `boot_pgdir` maps after the calls of `boot_map_segment` in `i386_vm_init`,
page by page. `KernelMap` is the invariant of these calls: the entries of the
page tables made so far, the tables themselves, and the counters. The test of
`check_boot_pgdir` follows from it, and it says what that test leaves out: the
permissions, and that nothing else is mapped.
-/

namespace Jos

/-- A range of the kernel's address space and what it maps to. -/
structure Region where
  va : Word
  size : Nat
  pa : Word
  /-- For users to read, or for the kernel to read and write. -/
  user : Bool

/-- The region holds the address. -/
def Region.Covers (r : Region) (va : Word) : Prop :=
  r.va.toNat ≤ va.toNat ∧ va.toNat < r.va.toNat + r.size

/-- The region holds page number `n`. -/
def Region.Holds (r : Region) (n : Nat) : Prop :=
  ppn r.va ≤ n ∧ n < ppn r.va + r.size / PGSIZE

/-- The permissions of the region's pages. -/
def Region.perm (r : Region) : Word := if r.user then PTE_U else PTE_W

/-- The entry that maps page number `n` of the region. -/
def Region.pte (r : Region) (n : Nat) : Word :=
  (r.pa + BitVec.ofNat 32 ((n - ppn r.va) * PGSIZE)) ||| r.perm ||| PTE_P

/-- The entries after the regions have been mapped one after another, from
`f`. -/
def mapAll : List Region → (Nat → Word) → Nat → Word
  | [], f => f
  | r :: rs, f =>
      mapAll rs (within (ppn r.va) (ppn r.va + r.size / PGSIZE) r.pte f)

/-- The ranges that `i386_vm_init` maps. -/
def kernelRegions (b : BootParams) : List Region :=
  [⟨UPAGES, roundup (b.npage * SIZEOF_STRUCT_PAGE) PGSIZE,
    BitVec.ofNat 32 b.pages, true⟩,
   ⟨UENVS, roundup (NENV * SIZEOF_STRUCT_ENV) PGSIZE,
   BitVec.ofNat 32 b.envs, true⟩,
   ⟨KSTACKTOP - BitVec.ofNat 32 KSTKSIZE, KSTKSIZE, b.bootstack, false⟩,
   ⟨KERNBASE, 65536 * PGSIZE, 0, false⟩]

/-- Directory index `i` maps the directory itself. -/
def SelfMap (i : Nat) : Prop := i = pdx VPT ∨ i = pdx UVPT

instance (i : Nat) : Decidable (SelfMap i) := by unfold SelfMap; infer_instance

/-- `boot_pgdir` maps the kernel's regions and nothing else but itself. -/
structure KernelLayout (b : BootParams) (v : Vm) : Prop where
  mapped : ∀ r ∈ kernelRegions b, ∀ va, r.Covers va → ∃ p flags,
    translate v.mem v.bootCr3 va = some (p, flags)
    ∧ page2pa p + BitVec.ofNat 32 (pgoff va) = r.pa + (va - r.va)
    ∧ (flags &&& PTE_U ≠ 0 ↔ r.user = true)
    ∧ (flags &&& PTE_W ≠ 0 ↔ r.user = false)
  unmapped : ∀ va, (∀ r ∈ kernelRegions b, ¬r.Covers va) → ¬SelfMap (pdx va) →
    translate v.mem v.bootCr3 va = none

/-- The entry of `boot_pgdir` for page number `n`, or 0 without a page table. -/
def bootPte (b : BootParams) (m : PhysMem) (n : Nat) : Word :=
  match m.link b.pgdir (n / 1024) with
  | none => 0
  | some pt => m.entry pt (n % 1024)

/-- The directory indices for which `i386_vm_init` makes page tables. -/
def kernelTables : Finset Nat :=
  {pdx UENVS, pdx UPAGES, pdx (KSTACKTOP - 1)} ∪ Finset.Ico (pdx KERNBASE) 1024

/-- Starting from `v₀`, the entries are `f` so far. -/
structure KernelMap (b : BootParams) (f : Nat → Word) (v₀ v : Vm) : Prop where
  inv : BootInv b v
  cr3 : v.bootCr3 = page2pa b.pgdir
  pte : ∀ n, n / 1024 < NPDENTRIES → ¬SelfMap (n / 1024) →
    bootPte b v.mem n = f n
  table : ∀ i < NPDENTRIES, ¬SelfMap i → ∀ p, v.mem.link b.pgdir i = some p →
    i ∈ kernelTables ∧ v.mem.entry b.pgdir i = page2pa p ||| PTE_U |||
      PTE_W ||| PTE_P
  inj : ∀ i < NPDENTRIES, ∀ i' < NPDENTRIES, ¬SelfMap i → ¬SelfMap i' → ∀ p,
    v.mem.link b.pgdir i = some p → v.mem.link b.pgdir i' = some p → i = i'
  ref : ∀ p, v.ppRef p = v₀.ppRef p
    ∨ ∃ i ∈ kernelTables, v.mem.link b.pgdir i = some p
  room : ∃ xs, v.pageFreeList.Rep xs
    ∧ (kernelTables.filter fun i => v.mem.link b.pgdir i = none).card ≤
      xs.length

/-- The region is made of pages that the kernel's page tables map. -/
structure Region.Fits (r : Region) : Prop where
  va : r.va.toNat % PGSIZE = 0
  size : r.size % PGSIZE = 0
  pa : r.pa.toNat % PGSIZE = 0
  tables : ∀ n, r.Holds n → n / 1024 ∈ kernelTables

section

variable {b : BootParams} {v v₀ v' : Vm} {i n p : Nat} {va pa perm w : Word}
  {f : Nat → Word} {r : Region}
  {rs : List Region}

/-! ## Regions -/

theorem Region.Fits.holds_iff (h : r.Fits) :
    r.Holds (ppn va) ↔ r.Covers va := by
  have h₁ := h.va
  have h₂ := h.size
  simp only [PGSIZE] at h₁ h₂
  rw [Region.Holds, Region.Covers, ppn_eq, ppn_eq]
  simp only [PGSIZE]
  omega

theorem mapAll_of_not (h : ∀ r ∈ rs, ¬r.Holds n) : mapAll rs f n = f n := by
  induction rs generalizing f with
  | nil => rfl
  | cons r rs ih =>
      rw [mapAll, ih fun r' hr' => h r' (List.mem_cons_of_mem _ hr')]
      exact if_neg (h r (List.mem_cons_self ..))

/-- A page of one of several disjoint regions. -/
theorem mapAll_of_mem (hdis : rs.Pairwise fun r r' => ∀ n, r.Holds n →
      ¬r'.Holds n) (hr : r ∈ rs)
    (hn : r.Holds n) : mapAll rs f n = r.pte n := by
  induction rs generalizing f with
  | nil => cases hr
  | cons r' rs ih =>
      rw [List.pairwise_cons] at hdis
      rw [mapAll]
      rcases List.mem_cons.mp hr with rfl | hr
      · rw [mapAll_of_not fun r'' hr'' => hdis.1 r'' hr'' n hn]
        exact if_pos hn
      · exact ih hdis.2 hr

/-! ## Page tables -/

theorem mem_kernelTables : i ∈ kernelTables ↔ i = 955 ∨ i = 956 ∨ i = 958
      ∨ 960 ≤ i ∧ i < 1024 := by
  have h : kernelTables = {955, 956, 958} ∪ Finset.Ico 960 1024 := by
    unfold kernelTables
    rw [show pdx UENVS = 955 by decide, show pdx UPAGES = 956 by decide,
      show pdx (KSTACKTOP - 1) = 958 by decide,
      show pdx KERNBASE = 960 by decide]
  simp [h]

theorem kernelTables_card : kernelTables.card = 67 := by decide

-- Otherwise unification would enumerate the indices.
attribute [irreducible] kernelTables

/-- The tables of the kernel are above `UTOP` and not the windows. -/
theorem kernelTables_spec (h : i ∈ kernelTables) :
    pdxUTOP ≤ i ∧ i < NPDENTRIES ∧ ¬SelfMap i := by
  have hv : pdx VPT = 959 := by decide
  have hu : pdx UVPT = 957 := by decide
  rw [mem_kernelTables] at h
  rw [SelfMap, hv, hu, pdxUTOP_eq]
  change _ ∧ i < 1024 ∧ _
  omega

theorem BootParams.managed_lt (h : b.Managed p) : p < 2 ^ 20 :=
  Nat.lt_of_lt_of_le h.1 (Nat.le_trans b.npage_le (by decide))

theorem bootPte_none {m : PhysMem} (h : m.link b.pgdir (n / 1024) = none) :
    bootPte b m n = 0 := by
  rw [bootPte, h]

theorem bootPte_some {m : PhysMem} (h : m.link b.pgdir (n / 1024) = some p) :
    bootPte b m n = m.entry p (n % 1024) := by
  rw [bootPte, h]

theorem initPages_bootCr3 {v₁ : Vm} (h : initPages b v₀ = .ret () v₁) :
    v₁.bootCr3 = page2pa b.pgdir := by
  refine Prog.wp.ret (Q := fun _ v => v.bootCr3 = page2pa b.pgdir)
    (A := fun _ => True)
    (E := fun _ _ => True) ?_ h
  unfold initPages
  apply Prog.wp_bind_intro
  refine Prog.wp_ret rfl ?_
  unfold pageInit
  apply Prog.wp_update_bind
  apply Prog.wp_ask_bind
  refine Prog.wp_forUp (fun _ (v : Vm) => v.bootCr3 = page2pa b.pgdir) rfl
    fun i v' _ hv' => ?_
  exact Prog.wp_ite _ (fun _ => Prog.wp_update_intro hv') fun _ =>
    Prog.wp_update_intro hv'

namespace KernelMap

/-- Before the calls, with enough free pages. -/
theorem start {v₁ : Vm} (hinit : initPages b v₀ = .ret () v₁)
    (htest : SelfTested v₁ v)
    (hroom : ∃ xs, v.pageFreeList.Rep xs ∧ kernelTables.card ≤ xs.length) :
    KernelMap b (fun _ => 0) v v := by
  have hentry := initPages_entry hinit htest
  have hnone : ∀ i < NPDENTRIES, ¬SelfMap i → v.mem.link b.pgdir i = none := by
    intro i hi hself
    rw [SelfMap, not_or] at hself
    rw [PhysMem.link, hentry i hi, if_neg hself.2, if_neg hself.1, mapped_zero]
  have habs : ∀ i < NPDENTRIES, ¬SelfMap i → ∀ p, v.mem.link b.pgdir i ≠
      some p := by
    intro i hi hself p hp
    rw [hnone i hi hself] at hp
    cases hp
  constructor
  case inv => exact .of_initPages hinit htest
  case cr3 =>
    rw [htest.bootCr3]
    exact initPages_bootCr3 hinit
  case pte =>
    intro n hn hself
    rw [bootPte, hnone _ hn hself]
  case table => exact fun i hi hself p hp => absurd hp (habs i hi hself p)
  case inj => exact fun i hi _ _ hself _ p hp => absurd hp (habs i hi hself p)
  case ref => exact fun _ => .inl rfl
  case room =>
    obtain ⟨xs, hrep, hle⟩ := hroom
    exact ⟨xs, hrep, Nat.le_trans (Finset.card_filter_le ..) hle⟩

/-- The page tables are the allocator's. -/
theorem managed (h : KernelMap b f v₀ v) (hi : i < NPDENTRIES)
    (hself : ¬SelfMap i)
    (hp : v.mem.link b.pgdir i = some p) : b.Managed p :=
  ((h.inv.entry i hi p hp).resolve_left fun hs => hself hs.1).2.1

/-- A store to a page table. -/
theorem setPte (h : KernelMap b f v₀ v) (hn : n / 1024 < NPDENTRIES)
    (hself : ¬SelfMap (n / 1024))
    (hp : v.mem.link b.pgdir (n / 1024) = some p) (hw : ¬UserWritable w) :
    KernelMap b (Function.update f n w) v₀ (v.setPte (p, n % 1024) w) := by
  have hm := h.managed hn hself hp
  have hne : b.pgdir ≠ p := fun he => b.pgdir_not_managed (he ▸ hm)
  have hentry : ∀ i, (v.setPte (p, n % 1024) w).mem.entry b.pgdir i =
      v.mem.entry b.pgdir i := fun i =>
    PhysMem.entry_setEntry_ne (.inl hne)
  have hlink : ∀ i, (v.setPte (p, n % 1024) w).mem.link b.pgdir i =
      v.mem.link b.pgdir i := fun i =>
    congrArg mapped (hentry i)
  constructor
  case inv => exact h.inv.setPte hm hw
  case cr3 => exact h.cr3
  case pte =>
    intro k hk hks
    by_cases hkn : k = n
    · subst hkn
      rw [Function.update_self, bootPte, hlink, hp]
      exact PhysMem.entry_setEntry_self
    · rw [Function.update_of_ne hkn, ← h.pte k hk hks, bootPte, bootPte, hlink]
      cases hpt : v.mem.link b.pgdir (k / 1024) with
      | none => rfl
      | some q =>
          refine PhysMem.entry_setEntry_ne ?_
          by_cases hqp : q = p
          · subst hqp
            have hidx := h.inj _ hk _ hn hks hself q hpt hp
            exact .inr (by omega)
          · exact .inl hqp
  case table =>
    intro i hi hs q hq
    rw [hlink] at hq
    rw [hentry]
    exact h.table i hi hs q hq
  case inj =>
    intro i hi i' hi' hs hs' q hq hq'
    rw [hlink] at hq hq'
    exact h.inj i hi i' hi' hs hs' q hq hq'
  case ref =>
    intro q
    simp only [hlink]
    exact h.ref q
  case room =>
    simp only [hlink]
    exact h.room

/-- A new page table. -/
theorem addTable (h : KernelMap b f v₀ v) (hi : i ∈ kernelTables)
    (hnone : v.mem.link b.pgdir i = none)
    (hfirst : v.pageFreeList.first = some p) :
    KernelMap b f v₀ (v.addTable b.pgdir i p) ∧ b.Managed p
      ∧ (v.addTable b.pgdir i p).mem.link b.pgdir i = some p := by
  obtain ⟨hlow, hlt, hself⟩ := kernelTables_spec hi
  obtain ⟨hm, hinv⟩ := h.inv.addTable hlow hlt hnone hfirst
  have hpow := BootParams.managed_lt hm
  have hne : b.pgdir ≠ p := fun he => b.pgdir_not_managed (he ▸ hm)
  have hentry : ∀ q i', (q ≠ b.pgdir ∨ i' ≠ i) → q ≠ p →
      (v.addTable b.pgdir i p).mem.entry q i' = v.mem.entry q i' :=
    fun q i' hqi hqp =>
    (PhysMem.entry_setEntry_ne hqi).trans (PhysMem.entry_zeroPage_ne hqp)
  have hnew : (v.addTable b.pgdir i p).mem.link b.pgdir i = some p :=
    PhysMem.link_setEntry_self.trans (mapped_table hpow)
  have hother : ∀ i', i' ≠ i → (v.addTable b.pgdir i p).mem.link b.pgdir i' =
      v.mem.link b.pgdir i' :=
    fun i' hi' => congrArg mapped (hentry b.pgdir i' (.inr hi') hne)
  -- the new page was free, so no entry refers to it
  obtain ⟨xs, hrep, hroom⟩ := h.room
  obtain ⟨ys, rfl⟩ := hrep.eq_cons hfirst
  have hfresh : ∀ i' < NPDENTRIES, v.mem.link b.pgdir i' ≠ some p := by
    intro i' hi' hp
    obtain ⟨zs, hzs, hmem⟩ := h.inv.free
    have hz : p ∈ zs := (hrep.unique hzs) ▸ List.mem_cons_self ..
    have hpos : 0 < bootHold b.pgdir v.mem p := bootHold_pos.mpr ⟨i', hi', hp⟩
    have hzero := ((hmem p).mp hz).2
    omega
  refine ⟨?_, hm, hnew⟩
  constructor
  case inv => exact hinv
  case cr3 => exact h.cr3
  case pte =>
    intro n hn hs
    rw [← h.pte n hn hs, bootPte, bootPte]
    by_cases hni : n / 1024 = i
    · rw [hni, hnew, hnone]
      exact (PhysMem.entry_setEntry_ne (.inl hne.symm)).trans
        (PhysMem.entry_zeroPage_self (Nat.mod_lt _ (by decide)))
    · rw [hother _ hni]
      cases hpt : v.mem.link b.pgdir (n / 1024) with
      | none => rfl
      | some q =>
          have hq := h.managed hn hs hpt
          refine hentry q _ (.inl fun he => b.pgdir_not_managed (he ▸ hq))
            fun hqp => ?_
          exact hfresh _ hn (hqp ▸ hpt)
  case table =>
    intro i' hi' hs q hq
    by_cases hii : i' = i
    · subst hii
      obtain rfl := Option.some.inj (hnew.symm.trans hq)
      exact ⟨hi, PhysMem.entry_setEntry_self⟩
    · rw [hother _ hii] at hq
      rw [hentry _ _ (.inr hii) hne]
      exact h.table i' hi' hs q hq
  case inj =>
    intro i₁ h₁ i₂ h₂ hs₁ hs₂ q hq₁ hq₂
    by_cases hi₁ : i₁ = i <;> by_cases hi₂ : i₂ = i
    · rw [hi₁, hi₂]
    · subst hi₁
      rw [hother _ hi₂, ← hq₁, hnew] at hq₂
      exact absurd hq₂ (hfresh _ h₂)
    · subst hi₂
      rw [hother _ hi₁, ← hq₂, hnew] at hq₁
      exact absurd hq₁ (hfresh _ h₁)
    · rw [hother _ hi₁] at hq₁
      rw [hother _ hi₂] at hq₂
      exact h.inj i₁ h₁ i₂ h₂ hs₁ hs₂ q hq₁ hq₂
  case ref =>
    intro q
    by_cases hqp : q = p
    · subst hqp
      exact .inr ⟨i, hi, hnew⟩
    · rcases h.ref q with hq | ⟨i', hi', hq⟩
      · exact .inl ((Function.update_of_ne hqp ..).trans hq)
      · refine .inr ⟨i', hi', (hother i' ?_).trans hq⟩
        rintro rfl
        rw [hnone] at hq
        cases hq
  case room =>
    refine ⟨ys, Queue.rep_removeFirst hrep, ?_⟩
    have hsub : (kernelTables.filter fun i' =>
        (v.addTable b.pgdir i p).mem.link b.pgdir i' = none)
        = (kernelTables.filter fun i' => v.mem.link b.pgdir i' =
          none).erase i := by
      ext i'
      rw [Finset.mem_erase, Finset.mem_filter, Finset.mem_filter]
      by_cases hii : i' = i
      · subst hii
        simp [hnew]
      · rw [hother i' hii]
        simp [hii]
    have hmem : i ∈ kernelTables.filter fun i' =>
        v.mem.link b.pgdir i' = none := by
      rw [Finset.mem_filter]
      exact ⟨hi, hnone⟩
    rw [hsub, Finset.card_erase_of_mem hmem]
    rw [List.length_cons] at hroom
    omega

variable (va) in
/-- One step of `boot_map_segment`. -/
theorem step (h : KernelMap b f v₀ v) (hi : n / 1024 ∈ kernelTables)
    (hpdx : pdx va = n / 1024)
    (hptx : ptx va = n % 1024) (hw : ¬UserWritable w) :
    ∃ v', (pgdirWalk b.pgdir va true >>= fun pte => match pte with
        | none => Prog.halt .nullPointer
        | some pte => Jos.setPte pte w) v = .ret () v'
            ∧ KernelMap b (Function.update f n w) v₀ v' := by
  obtain ⟨-, hlt, hself⟩ := kernelTables_spec hi
  cases hpt : v.mem.link b.pgdir (n / 1024) with
  | some p =>
      have hm := h.managed hlt hself hpt
      refine ⟨_, ?_, h.setPte hlt hself hpt hw⟩
      rw [Prog.bind_ret (pgdirWalk_table (hpdx ▸ hpt) (h.inv.npage ▸ hm.1)),
        hptx]
      rfl
  | none =>
      obtain ⟨xs, hrep, hroom⟩ := h.room
      have hfirst : v.pageFreeList.first ≠ none := by
        have hpos : 0 < (kernelTables.filter fun i => v.mem.link b.pgdir i =
            none).card := by
          rw [Finset.card_pos]
          exact ⟨_, Finset.mem_filter.mpr ⟨hi, hpt⟩⟩
        rw [hrep.first_eq]
        intro hnil
        rw [List.head?_eq_none_iff.mp hnil, List.length_nil] at hroom
        omega
      obtain ⟨p, hfirst⟩ := Option.ne_none_iff_exists'.mp hfirst
      obtain ⟨hadd, hm, hnew⟩ := h.addTable hi hpt hfirst
      refine ⟨_, ?_, hadd.setPte hlt hself hnew hw⟩
      rw [Prog.bind_ret (pgdirWalk_new (hpdx ▸ hpt) hfirst
        (BootParams.managed_lt hm) (h.inv.npage ▸ hm.1)),
        hptx, hpdx]
      rfl

/-- `boot_map_segment` of a region. -/
theorem mapRegion (h : KernelMap b f v₀ v) (hr : r.Fits) :
    ∃ v', bootMapSegment b.pgdir r.va (r.size / PGSIZE) r.pa r.perm v =
      .ret () v'
      ∧ KernelMap b (within (ppn r.va) (ppn r.va + r.size / PGSIZE) r.pte f)
        v₀ v' := by
  have hva := hr.va
  simp only [PGSIZE] at hva
  suffices hloop :
      Prog.wp (bootMapSegment b.pgdir r.va (r.size / PGSIZE) r.pa r.perm)
      (fun _ =>
        KernelMap b (within (ppn r.va) (ppn r.va + r.size / PGSIZE) r.pte f) v₀)
      (fun _ => False) (fun _ _ => False) v by
    obtain ⟨_, v', hret, hv'⟩ := hloop.exists_ret
    exact ⟨v', hret, hv'⟩
  refine Prog.wp_forUp (fun i v =>
    KernelMap b (within (ppn r.va) (ppn r.va + i) r.pte f) v₀ v) ?_ ?_
  · rwa [Nat.add_zero, within_self]
  · intro i v' hi hv'
    have hholds : r.Holds (ppn r.va + i) := ⟨Nat.le_add_right .., by omega⟩
    have htable := hr.tables _ hholds
    have hlt : (ppn r.va + i) / 1024 < 1024 := (kernelTables_spec htable).2.1
    rw [ppn_eq] at hlt
    have hla : (r.va + BitVec.ofNat 32 (i * PGSIZE)).toNat =
        (ppn r.va + i) * 4096 := by
      rw [BitVec.toNat_add, BitVec.toNat_ofNat, ppn_eq]
      simp only [PGSIZE]
      omega
    have hw : ¬UserWritable (r.pte (ppn r.va + i)) := by
      refine not_userWritable_page ?_ ?_
      · have hpa := hr.pa
        simp only [PGSIZE] at hpa ⊢
        rw [BitVec.toNat_add, BitVec.toNat_ofNat]
        omega
      · unfold Region.perm
        split
        · exact .inl rfl
        · exact .inr rfl
    obtain ⟨v'', hret, hv''⟩ :=
      hv'.step (r.va + BitVec.ofNat 32 (i * PGSIZE)) htable
      (by rw [pdx_eq, hla]; omega) (by rw [ptx_eq, hla]; omega) hw
    rw [within_succ (Nat.le_add_right ..)] at hv''
    have hpte : r.pte (ppn r.va + i) = (r.pa + BitVec.ofNat 32 (i * PGSIZE)) |||
        r.perm ||| PTE_P := by
      rw [Region.pte, Nat.add_sub_cancel_left]
    rw [hpte] at hret
    exact Prog.wp_ret hret hv''

end KernelMap

/-! ## The calls of `i386_vm_init` -/

/-- The arrays fit their windows of `PTSIZE` bytes, and the regions are made of
pages. -/
theorem kernelRegions_fits : ∀ r ∈ kernelRegions b, r.Fits := by
  have hn := b.npage_le
  have hpages : b.npage * SIZEOF_STRUCT_PAGE + 4095 ≤ PTSIZE := by
    simp only [SIZEOF_STRUCT_PAGE, PTSIZE]
    omega
  have htables : ∀ (r : Region) (i : Nat), ppn r.va / 1024 = i →
      i ∈ kernelTables →
      ppn r.va % 1024 + r.size / PGSIZE ≤ 1024 → ∀ n, r.Holds n →
      n / 1024 ∈ kernelTables := by
    rintro r i hi htable hle n ⟨h₁, h₂⟩
    rwa [show n / 1024 = i by omega]
  intro r hr
  simp only [kernelRegions, List.mem_cons, List.not_mem_nil, or_false] at hr
  rcases hr with rfl | rfl | rfl | rfl
  · refine ⟨show UPAGES.toNat % PGSIZE = 0 by decide, roundup_aligned _,
      ofNat_aligned (Nat.mul_mod_left ..), ?_⟩
    refine htables _ 956 (show ppn UPAGES / 1024 = 956 by decide)
      (mem_kernelTables.mpr (by decide)) ?_
    simp only [roundup, PGSIZE, PTSIZE, show ppn UPAGES = 978944 by
      decide] at hpages ⊢
    omega
  · refine ⟨show UENVS.toNat % PGSIZE = 0 by decide, roundup_aligned _,
      ofNat_aligned (roundup_aligned _), ?_⟩
    exact htables _ 955 (show ppn UENVS / 1024 = 955 by decide)
      (mem_kernelTables.mpr (by decide))
      (show ppn UENVS % 1024 + roundup (NENV * SIZEOF_STRUCT_ENV) PGSIZE /
      PGSIZE ≤ 1024 by decide)
  · refine ⟨show (KSTACKTOP - BitVec.ofNat 32 KSTKSIZE).toNat % PGSIZE =
      0 by decide,
      show KSTKSIZE % PGSIZE = 0 by decide, b.bootstack_aligned, ?_⟩
    exact htables _ 958 (show ppn (KSTACKTOP - BitVec.ofNat 32 KSTKSIZE) /
      1024 = 958 by decide)
      (mem_kernelTables.mpr (by decide))
      (show ppn (KSTACKTOP - BitVec.ofNat 32 KSTKSIZE) % 1024 + KSTKSIZE /
      PGSIZE ≤ 1024 by decide)
  · refine ⟨by decide, by decide, by decide, fun n hn => ?_⟩
    simp only [Region.Holds, show ppn KERNBASE = 983040 by decide, PGSIZE] at hn
    exact mem_kernelTables.mpr (by omega)

/-- The regions do not overlap. -/
theorem kernelRegions_disjoint :
    (kernelRegions b).Pairwise fun r r' => ∀ n, r.Holds n → ¬r'.Holds n := by
  have hn := b.npage_le
  have hnum : ppn UPAGES = 978944 ∧ ppn UENVS = 977920
      ∧ ppn (KSTACKTOP - BitVec.ofNat 32 (8 * 4096)) = 982008
      ∧ ppn KERNBASE = 983040 := by decide
  simp only [kernelRegions, List.pairwise_cons, List.mem_cons, List.not_mem_nil,
    or_false, forall_eq_or_imp,
    forall_eq, Region.Holds, hnum, roundup, PGSIZE, SIZEOF_STRUCT_PAGE,
    SIZEOF_STRUCT_ENV, NENV, KSTKSIZE,
    List.Pairwise.nil, IsEmpty.forall_iff, implies_true, and_true]
  refine ⟨⟨?_, ?_, ?_⟩, ⟨?_, ?_⟩, ?_⟩ <;>
  · intro n _
    omega

namespace KernelMap

/-- What the processor makes of the entries, outside the windows. -/
theorem translate_eq (h : KernelMap b f v₀ v) (hself : ¬SelfMap (pdx va)) :
    translate v.mem v.bootCr3 va
      = if present (f (ppn va)) = true then
          some (ppn (f (ppn va)), v.mem.entry b.pgdir (pdx va) &&& f (ppn va))
        else none := by
  have hpdx : ppn va / 1024 = pdx va := by
    rw [pdx_eq, ppn_eq]
    omega
  have hptx : ppn va % 1024 = ptx va := by
    rw [ptx_eq, ppn_eq]
  have hpte := h.pte (ppn va) (hpdx ▸ pdx_lt va) (hpdx ▸ hself)
  unfold translate
  simp only [h.cr3, ppn_page2pa b.pgdir_lt]
  cases hpt : v.mem.link b.pgdir (pdx va) with
  | none =>
      rw [bootPte_none (hpdx ▸ hpt)] at hpte
      rw [if_neg fun hp => mapped_eq_none.mp hpt hp.1, ← hpte]
      rfl
  | some pt =>
      obtain ⟨hp, hppn⟩ := mapped_eq_some.mp hpt
      rw [bootPte_some (hpdx ▸ hpt), hptx] at hpte
      rw [hppn, hpte]
      exact if_congr (and_iff_right hp) rfl rfl

/-- A page of a region is mapped with the region's permissions. -/
theorem translate_region (h : KernelMap b f v₀ v) (hr : r.Fits)
    (hva : r.Covers va)
    (hf : f (ppn va) = r.pte (ppn va)) :
    ∃ p flags, translate v.mem v.bootCr3 va = some (p, flags)
      ∧ page2pa p + BitVec.ofNat 32 (pgoff va) = r.pa + (va - r.va)
      ∧ (flags &&& PTE_U ≠ 0 ↔ r.user = true)
      ∧ (flags &&& PTE_W ≠ 0 ↔ r.user = false) := by
  have hholds := hr.holds_iff.mpr hva
  have htable := hr.tables _ hholds
  have hpdx : ppn va / 1024 = pdx va := by
    rw [pdx_eq, ppn_eq]
    omega
  rw [hpdx] at htable
  obtain ⟨-, hlt, hself⟩ := kernelTables_spec htable
  -- the physical page
  have hpa := hr.pa
  have hla := hr.va
  simp only [PGSIZE] at hpa hla
  obtain ⟨q, hq, hqpa⟩ : ∃ q < 2 ^ 20,
      r.pa + BitVec.ofNat 32 ((ppn va - ppn r.va) * PGSIZE) = page2pa q := by
    have hmod : (r.pa + BitVec.ofNat 32 ((ppn va - ppn r.va) * PGSIZE)).toNat %
        4096 = 0 := by
      rw [BitVec.toNat_add, BitVec.toNat_ofNat]
      simp only [PGSIZE]
      omega
    generalize r.pa + BitVec.ofNat 32 ((ppn va - ppn r.va) * PGSIZE) = x at hmod
    have hx := x.isLt
    refine ⟨x.toNat / 4096, by omega, BitVec.eq_of_toNat_eq ?_⟩
    rw [page2pa_toNat (by omega)]
    omega
  have hpte : f (ppn va) = page2pa q ||| (r.perm ||| PTE_P) := by
    rw [hf, Region.pte, hqpa, BitVec.or_assoc]
  have hperm : r.perm ||| PTE_P < 0x1000#32 := by
    unfold Region.perm
    split <;> decide
  have hpres : present (f (ppn va)) = true := by
    rw [present_iff, hpte, flag_P.page2pa_or, flag_P.or_iff]
    exact .inr (by decide)
  have hlink : v.mem.link b.pgdir (pdx va) ≠ none := by
    intro hnone
    have hzero := h.pte (ppn va) (hpdx ▸ hlt) (hpdx ▸ hself)
    rw [bootPte_none (hpdx ▸ hnone)] at hzero
    rw [← hzero] at hpres
    cases hpres
  obtain ⟨pt, hpt⟩ := Option.ne_none_iff_exists'.mp hlink
  have hopen : v.mem.entry b.pgdir (pdx va) &&& PTE_U ≠ 0
      ∧ v.mem.entry b.pgdir (pdx va) &&& PTE_W ≠ 0 := by
    rw [(h.table _ hlt hself pt hpt).2]
    exact open_table
  refine ⟨q, v.mem.entry b.pgdir (pdx va) &&&
    (page2pa q ||| (r.perm ||| PTE_P)),
    (h.translate_eq hself).trans ?_, ?_, ?_, ?_⟩
  · rw [if_pos hpres, hpte, ppn_page2pa_or hq hperm]
  · have hoff : va = r.va + BitVec.ofNat 32 ((ppn va - ppn r.va) * PGSIZE) +
        BitVec.ofNat 32 (pgoff va) := by
      obtain ⟨h₁, -⟩ := hva
      have hlt := va.isLt
      apply BitVec.eq_of_toNat_eq
      rw [BitVec.toNat_add, BitVec.toNat_add, BitVec.toNat_ofNat,
        BitVec.toNat_ofNat, ppn_eq, ppn_eq, pgoff_eq]
      simp only [PGSIZE]
      omega
    have hsub : va - r.va = BitVec.ofNat 32 ((ppn va - ppn r.va) * PGSIZE) +
        BitVec.ofNat 32 (pgoff va) := by
      conv_lhs => rw [hoff]
      rw [BitVec.add_assoc, BitVec.add_comm, BitVec.add_sub_cancel]
    rw [hsub, ← BitVec.add_assoc, hqpa]
  · rw [flag_U.and_iff, and_iff_right hopen.1, flag_U.page2pa_or]
    unfold Region.perm
    cases r.user <;> decide
  · rw [flag_W.and_iff, and_iff_right hopen.2, flag_W.page2pa_or]
    unfold Region.perm
    cases r.user <;> decide

/-- The layout is the one that the entries of all regions give. -/
theorem layout (h : KernelMap b (mapAll (kernelRegions b) fun _ => 0) v₀ v) :
    KernelLayout b v where
  mapped r hr va hva := h.translate_region (kernelRegions_fits r hr) hva
    (mapAll_of_mem kernelRegions_disjoint hr
    ((kernelRegions_fits r hr).holds_iff.mpr hva))
  unmapped va hno hself := by
    rw [h.translate_eq hself, mapAll_of_not fun r hr hn =>
      hno r hr ((kernelRegions_fits r hr).holds_iff.mp hn)]
    rfl

/-- The temporary mapping at directory index 0 goes away again. -/
theorem clearFirst (h : KernelMap b f v₀ v) :
    KernelMap b f v₀ (v.setPte (b.pgdir, 0) 0) := by
  have h0 : v.mem.link b.pgdir 0 = none := by
    cases hp : v.mem.link b.pgdir 0 with
    | none => rfl
    | some p =>
        have h0 := (h.table 0 (by decide) (by decide) p hp).1
        rw [mem_kernelTables] at h0
        exact absurd h0 (by decide)
  have hlink : ∀ i, (v.setPte (b.pgdir, 0) 0).mem.link b.pgdir i =
      v.mem.link b.pgdir i := by
    intro i
    by_cases hi : i = 0
    · rw [hi, h0]
      exact PhysMem.link_setEntry_self.trans mapped_zero
    · exact PhysMem.link_setEntry_ne (.inr hi)
  constructor
  case inv => exact h.inv.clearFirst
  case cr3 => exact h.cr3
  case pte =>
    intro n hn hself
    rw [← h.pte n hn hself, bootPte, bootPte, hlink]
    cases hpt : v.mem.link b.pgdir (n / 1024) with
    | none => rfl
    | some q =>
        exact PhysMem.entry_setEntry_ne (.inl fun he : q = b.pgdir =>
          b.pgdir_not_managed (he ▸ h.managed hn hself hpt))
  case table =>
    intro i hi hself p hp
    rw [hlink] at hp
    have hi0 : i ≠ 0 := by
      rintro rfl
      rw [h0] at hp
      cases hp
    obtain ⟨htable, hentry⟩ := h.table i hi hself p hp
    exact ⟨htable, (PhysMem.entry_setEntry_ne (.inr hi0)).trans hentry⟩
  case inj =>
    simp only [hlink]
    exact h.inj
  case ref =>
    simp only [hlink]
    exact h.ref
  case room =>
    simp only [hlink]
    exact h.room

end KernelMap

/-- The mappings of `i386_vm_init`, with a free page for each page table. -/
theorem mapKernel_map (h : KernelMap b (fun _ => 0) v₀ v) :
    ∃ v', mapKernel b v = .ret () v'
      ∧ KernelMap b (mapAll (kernelRegions b) fun _ => 0) v₀ v' := by
  have hfits := kernelRegions_fits (b := b)
  simp only [kernelRegions, List.mem_cons, List.not_mem_nil, or_false,
    forall_eq_or_imp, forall_eq] at hfits
  obtain ⟨hr₁, hr₂, hr₃, hr₄⟩ := hfits
  obtain ⟨v₁, hret₁, h₁⟩ := h.mapRegion hr₁
  obtain ⟨v₂, hret₂, h₂⟩ := h₁.mapRegion hr₂
  obtain ⟨v₃, hret₃, h₃⟩ := h₂.mapRegion hr₃
  obtain ⟨v₄, hret₄, h₄⟩ := h₃.mapRegion hr₄
  refine ⟨_, ?_, h₄.clearFirst⟩
  unfold mapKernel
  refine (Prog.bind_ret hret₁).trans
    ((Prog.bind_ret hret₂).trans ((Prog.bind_ret hret₃).trans
    ((Prog.bind_ret hret₄).trans ?_)))
  simp only [setPte, Prog.ask_bind, Prog.update_bind, Prog.update_apply,
    Vm.setPte, PhysMem.setEntry_setEntry]

/-- After the calls of `boot_map_segment`, which need 67 free pages,
`boot_pgdir` maps the kernel's regions as it should and nothing else, and only
the counters of the pages that became page tables have changed. -/
theorem mapKernel_layout {v₁ v₂ : Vm} (hinit : initPages b v₀ = .ret () v₁)
    (htest : SelfTested v₁ v₂)
    (hroom : ∃ xs, v₂.pageFreeList.Rep xs ∧ 67 ≤ xs.length) :
    ∃ v, mapKernel b v₂ = .ret () v ∧ KernelLayout b v ∧ ∀ p,
    v.ppRef p ≠ v₂.ppRef p →
      (∃ xs, v₂.pageFreeList.Rep xs ∧ p ∈ xs) ∧ ∃ i, ¬SelfMap i
        ∧ v.mem.link b.pgdir i = some p := by
  obtain ⟨v, hret, h⟩ :=
    mapKernel_map (KernelMap.start hinit htest (kernelTables_card ▸ hroom))
  refine ⟨v, hret, h.layout, fun p hp => ?_⟩
  obtain ⟨i, hi, hlink⟩ := (h.ref p).resolve_left hp
  obtain ⟨-, hlt, hself⟩ := kernelTables_spec hi
  refine ⟨?_, i, hself, hlink⟩
  have hm := h.managed hlt hself hlink
  have hinv := BootInv.of_initPages hinit htest
  obtain ⟨xs, hrep, hmem⟩ := hinv.free
  refine ⟨xs, hrep, (hmem p).mpr ⟨hm, Nat.eq_zero_of_not_pos fun hpos => ?_⟩⟩
  obtain ⟨k, hk, hkp⟩ := bootHold_pos.mp hpos
  exact b.pgdir_not_managed ((initPages_link hinit htest hk hkp).1 ▸ hm)

/-- A machine with 16 MB. -/
theorem mapKernel_layout_small :
    ∃ v₀ v₁ v₂, initPages smallBoot v₀ = .ret () v₁ ∧ SelfTested v₁ v₂
    ∧ ∃ v, mapKernel smallBoot v₂ = .ret () v ∧ KernelLayout smallBoot v ∧ ∀ p,
    v.ppRef p ≠ v₂.ppRef p →
      (∃ xs, v₂.pageFreeList.Rep xs ∧ p ∈ xs) ∧ ∃ i, ¬SelfMap i
        ∧ v.mem.link smallBoot.pgdir i = some p := by
  obtain ⟨v₁, hinit, htest, xs, hrep, hxs⟩ := exists_initPages smallBoot
  refine ⟨Vm.zero, v₁, v₁, hinit, htest,
    mapKernel_layout hinit htest ⟨xs, hrep, ?_⟩⟩
  have hle := (List.Nodup.subperm List.nodup_range' fun p hp =>
    (hxs p).mpr (smallBoot_managed p hp)).length_le
  rw [List.length_range'] at hle
  omega

end

end Jos
