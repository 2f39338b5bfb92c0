import Jos.Vm.Map
import Jos.User.Prog

/-!
# The page fault handler of fork

`pgfault` of lib/fork.c is to answer a write to a copy-on-write page with a
private copy. The test that the page is copy-on-write is joined to the test that
the page table is there by `&&`, so it is made only when there is no page table,
and then reading the entry faults.
-/

namespace Jos

open Slot (target)

/-- The fault was caused by a write. -/
def FEC_WR : Word := 0x2#32

/-- `ROUNDDOWN(addr, PGSIZE)`. -/
def pageOf (addr : Word) : Word := addr &&& ~~~0xFFF#32

/-- The test of `pgfault` for pages that are not copy-on-write. The entry is
read only if the directory entry is not present. -/
def notCow (addr : Word) : UserM Bool := do
  let pde ← vpd (pdx addr)
  if pde &&& PTE_P ≠ PTE_P then
    let pte ← vpt (ppn addr)
    pure (decide (pte &&& PTE_COW ≠ PTE_COW))
  else
    pure false

/-- Custom page fault handler: map a private writable copy of the page at
`addr`. -/
def pgfault (addr err : Word) : UserM Unit := do
  panicIf (err &&& FEC_WR ≠ FEC_WR)
    "lib/fork.c/pgfault(): the faulting access was not a write!" []
  let bad ← notCow addr
  panicIf (bad =
  true) "lib/fork.c/pgfault(): the page is not a copy-on-write page!" []
  let r ← Lib.sysPageAlloc 0 PFTEMP (PTE_U ||| PTE_P ||| PTE_W)
  panicIf (r.slt 0) "lib/fork.c/pgfault(): sys_page_alloc failed. %e" [r]
  movePage PFTEMP (pageOf addr)
  let r ← Lib.sysPageMap 0 PFTEMP 0 (pageOf addr) (PTE_U ||| PTE_P ||| PTE_W)
  panicIf (r.slt 0) "lib/fork.c/pgfault(): sys_page_map failed. %e" [r]
  let r ← Lib.sysPageUnmap 0 PFTEMP
  panicIf (r.slt 0) "lib/fork.c/pgfault(): sys_page_unmap failed. %e" [r]

/-- The program ends as `panic` does. A read of the handler that faults comes
back to `pgfault`, which panics because it was not a write. -/
def UserStop.Panics : UserStop → Prop
  | .panic _ _ => True
  | .fault _ write => write = false
  | .kernel _ => False

/-- The entry that maps `va` for `c`. -/
def Kern.pteOf (s : Kern) (c : Nat) (va : Word) : Word :=
  pteAt s.vm.mem s.dirs c (pdx va) (ptx va)

/-- The page at `va` is present and copy-on-write. -/
def CowPage (s : Kern) (c : Nat) (va : Word) : Prop :=
  present (s.pteOf c va) = true ∧ s.pteOf c va &&& PTE_COW ≠ 0

/-- Every entry of every address space is the same. -/
def SameMappings (L : Layout) (s t : Kern) : Prop :=
  ∀ e i j, e < L.ndirs → i < pdxUTOP → j < NPTENTRIES →
    pteAt t.vm.mem t.dirs e i j = pteAt s.vm.mem s.dirs e i j

/-- In `t`, the page of `c` at `va` is a writable copy that nothing else maps,
and no other mapping has changed but that at `PFTEMP`, where nothing is left. -/
structure Copied (L : Layout) (s t : Kern) (c : Nat) (va : Word) : Prop where
  page : ∃ pp, t.pteOf c va = page2pa pp ||| (PTE_U ||| PTE_P ||| PTE_W) |||
    PTE_P ∧ pp < 2 ^ 20
    ∧ (∀ e i j, e < L.ndirs → i < pdxUTOP → j < NPTENTRIES →
      target t.vm.mem t.dirs (.pte e i j) = some pp → e = c ∧ i = pdx va
        ∧ j = ptx va)
    ∧ ∀ o < PGSIZE, t.vm.mem pp o = s.vm.mem (ppn (s.pteOf c va)) o
  other : ∀ e i j, e < L.ndirs → i < pdxUTOP → j < NPTENTRIES →
    ¬(e = c ∧ i = pdx va ∧ j = ptx va) →
    ¬(e = c ∧ i = pdx PFTEMP ∧ j = ptx PFTEMP) →
    pteAt t.vm.mem t.dirs e i j = pteAt s.vm.mem s.dirs e i j
  temp : t.pteOf c PFTEMP = 0

/-- What the handler should do about a fault at `addr` with error code `err`:
copy the page if the fault was a write to a copy-on-write page, and otherwise
panic and change no mapping. -/
def Answers (L : Layout) (s : Kern) (c : Nat) (addr err : Word) : Prop :=
  (err &&& FEC_WR = FEC_WR ∧ CowPage s c addr →
    ∃ t, pgfault addr err s = .ret () t ∧ Copied L s t c addr)
  ∧ (¬(err &&& FEC_WR = FEC_WR ∧ CowPage s c addr) →
    ∃ x t, pgfault addr err s = .stop x t ∧ x.Panics ∧ SameMappings L s t)

/-- There is memory for a page at `PFTEMP`. -/
def Kern.RoomForCopy (s : Kern) (c : Nat) : Prop :=
  HasRoom (s.envs c).envPgdir PFTEMP s.vm

/-- The page at `addr` can be copied and mapped again. -/
structure Copyable (s : Kern) (c : Nat) (addr : Word) : Prop where
  room : s.RoomForCopy c
  user : addr < UTOP
  readable : s.pteOf c addr &&& PTE_U ≠ 0
  temp : ¬SamePage addr PFTEMP

section

variable {L : Layout} {s t : Kern} {c d e pp : Nat}
  {addr err va perm srcva r : Word} {v v' : Vm}

/-! ## The page of an address -/

theorem pageOf_toNat : (pageOf addr).toNat = addr.toNat / 4096 * 4096 := by
  have hlt : ppn addr < 2 ^ 20 := by
    have := addr.isLt
    rw [ppn_eq]
    omega
  have h : pageOf addr = page2pa (ppn addr) :=
    (pteAddr_eq_page2pa_iff hlt addr).mpr rfl
  rw [h, page2pa_toNat hlt, ppn_eq]

@[simp] theorem pdx_pageOf : pdx (pageOf addr) = pdx addr := by
  rw [pdx_eq, pdx_eq, pageOf_toNat]
  omega

@[simp] theorem ptx_pageOf : ptx (pageOf addr) = ptx addr := by
  rw [ptx_eq, ptx_eq, pageOf_toNat]
  omega

theorem pageOf_lt : pageOf addr < UTOP ↔ addr < UTOP := by
  rw [BitVec.lt_def, BitVec.lt_def, pageOf_toNat, show UTOP.toNat =
    0xEEC00000 from rfl]
  omega

theorem userPage_pageOf : userPage (pageOf addr) ↔ addr < UTOP := by
  rw [userPage, pageOf_lt, pageOf_toNat]
  simp [PGSIZE]

/-! ## Room for a page -/

theorem hasRoom_iff : HasRoom d va v ↔ ∃ pp, v.pageFreeList.first = some pp
    ∧ ¬(v.mem.link d (pdx va) = none ∧ (v.take pp).pageFreeList.first =
      none) := by
  refine exists_congr fun pp => and_congr_right fun _ => ?_
  rw [PhysMem.link, mapped_eq_none, not_and_or, not_not]
  rfl

/-- `sys_page_alloc` on one's own address space maps a new page if there is
room, and otherwise changes nothing. -/
theorem InUser.sysPageAlloc (h : InUser L s c) (hva : userPage va)
    (hperm : validPerm perm) :
    (HasRoom (s.envs c).envPgdir va s.vm →
      ∃ v pp, Jos.sysPageAlloc 0 va perm s = .ret 0 (s.withVm v)
      ∧ Owned.NewPage L s.dirs [] c pp va perm s.vm v)
    ∧ (¬HasRoom (s.envs c).envPgdir va s.vm → Jos.sysPageAlloc 0 va perm s =
      .ret (-E_NO_MEM) s) := by
  rw [hasRoom_iff]
  rcases h.pages.owned.pageAllocAt_newPage h.lt h.dirs hva.1
    (validPerm_lt hperm) with
    ⟨v, pp, hret, hnew⟩ | ⟨hret, hno⟩
  · refine ⟨fun _ => ⟨v, pp, sysPageAlloc_ret h.run.cur resolve_zero hva hperm
      hret, hnew⟩, fun hroom => ?_⟩
    have hhas := hasRoom_of_pageAllocAt hret
    rw [hasRoom_iff] at hhas
    exact absurd hhas hroom
  · exact ⟨fun ⟨pp, hfirst, hroom⟩ => absurd (hno pp hfirst) hroom,
      fun _ => sysPageAlloc_ret h.run.cur resolve_zero hva hperm hret⟩

/-! ## The steps of the handler -/

section Steps

variable {A : Kern → Prop} {E : UserStop → Kern → Prop}

/-- The test finds every page copy-on-write whose page table is there, and
faults otherwise. -/
theorem wp_notCow {Q : Bool → Kern → Prop} (h : InUser L s c)
    (hpres : present (s.vm.mem.entry (s.envs c).envPgdir (pdx addr)) = true →
      Q false s)
    (habs : ¬present (s.vm.mem.entry (s.envs c).envPgdir (pdx addr)) = true →
      E (.fault (windowVa (ppn addr)) false) s) :
    Prog.wp (notCow addr) Q A E s := by
  unfold notCow
  apply Prog.wp_bind_intro
  refine wp_vpd h h.shaped (pdx_lt addr) ?_
  refine Prog.wp_ite _ (fun hp => ?_) fun hp => ?_
  · have hno : ¬present (s.vm.mem.entry (s.envs c).envPgdir (pdx addr)) =
        true := by
      rw [present_iff, ← flag_P.and_eq]
      exact hp
    have hnum : ppn addr = pdx addr * 1024 + ptx addr := by
      rw [ppn_eq, pdx_eq, ptx_eq]
      omega
    apply Prog.wp_bind_intro
    unfold vpt
    rw [hnum] at habs ⊢
    exact wp_window h h.shaped (pdx_lt addr) (ptx_lt addr)
      (fun hp => absurd hp hno)
      fun _ => habs hno
  · refine Prog.wp_pure_intro (hpres ?_)
    rw [present_iff, ← flag_P.and_eq]
    exact not_not.mp hp

/-- Copying to a page that is mapped writable. -/
theorem wp_movePage {Q : Unit → Kern → Prop} {dst src : Word} (h : InUser L s c)
    (hv : Shaped L s.dirs v) (hdst : dst < UTOP)
    (hpte : pteAt v.mem s.dirs c (pdx dst) (ptx dst)
      = page2pa pp ||| (PTE_U ||| PTE_P ||| PTE_W) ||| PTE_P) (hpp :
      pp < 2 ^ 20)
    (hno : userAccess v.mem s.cr3 src false = none →
      E (.fault src false) (s.withVm v))
    (hQ : ∀ q, userAccess v.mem s.cr3 src false = some q →
      Q () (s.withVm { v with
      mem :=
        Function.update v.mem pp ((v.mem pp).copy 0 (v.mem q) 0 PGSIZE) })) :
    Prog.wp (movePage dst src) Q A E (s.withVm v) := by
  have hflags : pteAt v.mem s.dirs c (pdx dst) (ptx dst)
      = page2pa pp ||| ((PTE_U ||| PTE_P ||| PTE_W) ||| PTE_P) := by
    rw [hpte, BitVec.or_assoc]
  have hwrite : userAccess v.mem s.cr3 dst true = some pp := by
    rw [h.cr3_eq, hv.userAccess h.dirs hdst, hflags,
      ppn_page2pa_or hpp (by decide), if_pos]
    rw [present_iff, flag_P.page2pa_or, flag_U.page2pa_or, flag_W.page2pa_or]
    exact ⟨by decide, by decide, fun _ => by decide⟩
  unfold movePage
  apply Prog.wp_ask_bind
  simp only [Kern.withVm_vm, Kern.withVm_cr3]
  rw [hwrite]
  cases hsrc : userAccess v.mem s.cr3 src false with
  | none => exact Prog.wp_halt_intro (hno hsrc)
  | some q => exact Prog.wp_update_intro (hQ q hsrc)

end Steps

/-! ## What the handler does when there is memory for a copy -/

/-- The entry for the copy. -/
def copyPte (pp : Nat) : Word :=
  page2pa pp ||| (PTE_U ||| PTE_P ||| PTE_W) ||| PTE_P

theorem mapped_copyPte (hpp : pp < 2 ^ 20) : mapped (copyPte pp) = some pp :=
  mapped_page2pa hpp (by decide)

/-- The new page `pp` is at `PFTEMP`, and no other mapping has changed. -/
structure Filled (L : Layout) (s : Kern) (c pp : Nat) (v : Vm) : Prop where
  shaped : Shaped L s.dirs v
  user : L.User pp
  fresh : ∀ k ∈ L.slots, target s.vm.mem s.dirs k ≠ some pp
  pte : ∀ e i j, e < L.ndirs → i < pdxUTOP → j < NPTENTRIES →
    pteAt v.mem s.dirs e i j
    = if e = c ∧ i = pdx PFTEMP ∧ j = ptx PFTEMP then copyPte pp else
    pteAt s.vm.mem s.dirs e i j
  tables : ∀ d i pt, s.dirs c = some d → s.vm.mem.link d i = some pt →
    v.mem.link d i = some pt

section NewPage

variable (h : InUser L s c)
  (hn : Owned.NewPage L s.dirs [] c pp PFTEMP
    (PTE_U ||| PTE_P ||| PTE_W) s.vm v)
include h hn

theorem Owned.NewPage.filled : Filled L s c pp v where
  shaped :=
    ⟨hn.npage.trans h.shaped.npage, hn.tree, hn.opened h.opened h.shaped.dir_lt,
    h.shaped.dir_lt⟩
  user := hn.user
  fresh := hn.fresh
  pte := hn.pte
  tables d i pt hd hpt := by
    rw [PhysMem.link, hn.pdes d i hd
      (.inr (by rw [hpt]; exact Option.some_ne_none _))]
    exact hpt

/-- The page that is mapped at another address is not touched. -/
theorem Owned.NewPage.source {q : Nat} (hva : addr < UTOP)
    (hne : ¬SamePage addr PFTEMP)
    (hq : mapped (s.pteOf c addr) = some q) : v.mem q = s.vm.mem q := by
  have hi := pdx_lt_of_lt_UTOP hva
  have hslot : Slot.pte c (pdx addr) (ptx addr) ∈ L.slots :=
    mem_slots.mpr ⟨h.lt, hi, ptx_lt addr⟩
  have htarget : target v.mem s.dirs (.pte c (pdx addr) (ptx addr)) =
      some q := by
    rw [target, hn.pte c _ _ h.lt hi (ptx_lt addr), if_neg fun h => hne h.2]
    exact hq
  exact hn.data q (fun hqp => hn.fresh _ hslot (hqp ▸ hq))
    (hn.tree.not_nodeOf hslot Slot.not_node htarget c)

end NewPage

/-- The entry for `PFTEMP`. -/
theorem temp_slot (h : InUser L s c) :
    Slot.pte c (pdx PFTEMP) (ptx PFTEMP) ∈ L.slots :=
  mem_slots.mpr ⟨h.lt, by decide, ptx_lt PFTEMP⟩

namespace Filled

variable (hf : Filled L s c pp v)
include hf

theorem pow : pp < 2 ^ 20 := Owned.lt_pow hf.user

/-- The new page is at `PFTEMP`. -/
theorem temp (h : InUser L s c) :
    pteAt v.mem s.dirs c (pdx PFTEMP) (ptx PFTEMP) = copyPte pp := by
  rw [hf.pte c _ _ h.lt (by decide) (ptx_lt _), if_pos ⟨rfl, rfl, rfl⟩]

theorem target_temp (h : InUser L s c) :
    target v.mem s.dirs (.pte c (pdx PFTEMP) (ptx PFTEMP)) = some pp := by
  rw [target, hf.temp h, mapped_copyPte hf.pow]

/-- The new page is a data page. -/
theorem not_nodeOf (h : InUser L s c) (e : Nat) : ¬NodeOf L v.mem s.dirs e pp :=
  hf.shaped.tree.not_nodeOf (temp_slot h) Slot.not_node (hf.target_temp h) e

/-- A mapping has changed. -/
theorem not_same (h : InUser L s c) : ¬SameMappings L s (s.withVm v) := by
  intro hsame
  refine hf.fresh _ (temp_slot h) ?_
  rw [← hf.target_temp h]
  exact congrArg mapped (hsame c _ _ h.lt (by decide) (ptx_lt _)).symm

/-- The page that the user reads at another address is the one he read
before. -/
theorem readable (h : InUser L s c) (hva : addr < UTOP)
    (hne : ¬SamePage addr PFTEMP) :
    userAccess v.mem s.cr3 (pageOf addr) false
      = if present (s.pteOf c addr) = true ∧ s.pteOf c addr &&& PTE_U ≠ 0 then
          some (ppn (s.pteOf c addr))
        else none := by
  have hpte : pteAt v.mem s.dirs c (pdx addr) (ptx addr) = s.pteOf c addr :=
    (hf.pte c _ _ h.lt (pdx_lt_of_lt_UTOP hva) (ptx_lt addr)).trans
      (if_neg fun h => hne h.2)
  rw [h.cr3_eq, hf.shaped.userAccess h.dirs (pageOf_lt.mpr hva), pdx_pageOf,
    ptx_pageOf, hpte]
  refine if_congr ?_ rfl rfl
  exact ⟨fun h => ⟨h.1, h.2.1⟩, fun h => ⟨h.1, h.2, nofun⟩⟩

/-- Copying does not touch the mappings. -/
theorem copied (h : InUser L s c) (b : Bytes) :
    Filled L s c pp { v with mem := Function.update v.mem pp b } := by
  have hm : ∀ p, p ≠ pp → Function.update v.mem pp b p = v.mem p :=
    fun p hp => Function.update_of_ne hp ..
  refine ⟨hf.shaped.setData (hf.not_nodeOf h) hm, hf.user, hf.fresh,
    fun e i j he hi hj => ?_,
    fun d i pt hd hpt => ?_⟩
  · refine (pteAt_of_ne he hi fun p hp => hm p fun hpp =>
      hf.not_nodeOf h e (hpp ▸ hp)).trans ?_
    exact hf.pte e i j he hi hj
  · have hdp : d ≠ pp := fun hdp => hf.not_nodeOf h c (hdp ▸ nodeOf_dir h.lt hd)
    exact (PhysMem.link_congr (hm d hdp)).trans (hf.tables d i pt hd hpt)

/-- The new page is mapped at `addr` and taken from `PFTEMP`. -/
theorem remapped (h : InUser L s c) (hva : addr < UTOP)
    (hp : present (s.vm.mem.entry (s.envs c).envPgdir (pdx addr)) = true) :
    ∃ v₁ v₂, sysPageMap 0 PFTEMP 0 (pageOf addr) (PTE_U ||| PTE_P ||| PTE_W)
      (s.withVm v)
        = .ret 0 (s.withVm v₁)
      ∧ sysPageUnmap 0 PFTEMP (s.withVm v₁) = .ret 0 (s.withVm v₂)
      ∧ v₂.mem pp = v.mem pp
      ∧ ∀ e i j, e < L.ndirs → i < pdxUTOP → j < NPTENTRIES →
      pteAt v₂.mem s.dirs e i j
        = if e = c ∧ i = pdx PFTEMP ∧ j = ptx PFTEMP then 0
          else if e = c ∧ i = pdx addr ∧ j = ptx addr then copyPte pp
          else pteAt s.vm.mem s.dirs e i j := by
  have hpt := hf.tables _ _ _ h.dirs (mapped_of_present hp)
  rw [← pdx_pageOf] at hpt
  have hw : (PTE_U ||| PTE_P ||| PTE_W) &&& PTE_W ≠ 0 →
      pteAt v.mem s.dirs c (pdx PFTEMP) (ptx PFTEMP) &&& PTE_W ≠ 0 := by
    intro _
    rw [hf.temp h, copyPte, BitVec.or_assoc, flag_W.page2pa_or]
    decide
  obtain ⟨v₁, hret₁, hput₁⟩ :=
    hf.shaped.pageMapAt h.lt h.dirs (by decide) (hf.target_temp h) hw
    h.lt h.dirs (pageOf_lt.mpr hva) (by decide) hpt
  have htemp : target v₁.mem s.dirs (.pte c (pdx PFTEMP) (ptx PFTEMP)) =
      some pp := by
    rw [target, hput₁.pte c _ _ h.lt (by decide), pdx_pageOf, ptx_pageOf]
    split
    · exact mapped_copyPte hf.pow
    · exact hf.target_temp h
  obtain ⟨v₂, hret₂, hput₂⟩ :=
    hput₁.shaped.pageRemove h.lt h.dirs (by decide) htemp
  have hnode₁ : ∀ e, ¬NodeOf L v₁.mem s.dirs e pp :=
    hput₁.shaped.tree.not_nodeOf (temp_slot h) Slot.not_node htemp
  refine ⟨v₁, v₂, ?_, ?_, ?_, fun e i j he hi hj => ?_⟩
  · exact sysPageMap_ret (s := s.withVm v) h.run.cur resolve_zero resolve_zero
      (by decide)
      (userPage_pageOf.mpr hva) (by decide) hret₁
  · exact sysPageUnmap_ret (s := s.withVm v₁) h.run.cur resolve_zero
      (by decide) hret₂
  · rw [hput₂.data pp hnode₁, hput₁.data pp (hf.not_nodeOf h)]
  · rw [hput₂.pte e i j he hi, hput₁.pte e i j he hi, hf.pte e i j he hi hj,
      pdx_pageOf, ptx_pageOf]
    split
    · rfl
    · rfl

/-- The copy that results. -/
theorem copied_of (h : InUser L s c) (hva : addr < UTOP)
    (hne : ¬SamePage addr PFTEMP)
    (hbytes : ∀ o < PGSIZE, v'.mem pp o = s.vm.mem (ppn (s.pteOf c addr)) o)
    (hpte : ∀ e i j, e < L.ndirs → i < pdxUTOP → j < NPTENTRIES →
      pteAt v'.mem s.dirs e i j
      = if e = c ∧ i = pdx PFTEMP ∧ j = ptx PFTEMP then 0
        else if e = c ∧ i = pdx addr ∧ j = ptx addr then copyPte pp
        else pteAt s.vm.mem s.dirs e i j) :
          Copied L s (s.withVm v') c addr where
  page := by
    refine ⟨pp, ?_, hf.pow, fun e i j he hi hj hmap => ?_, hbytes⟩
    · refine (hpte c _ _ h.lt (pdx_lt_of_lt_UTOP hva) (ptx_lt addr)).trans ?_
      rw [if_neg fun h => hne h.2, if_pos ⟨rfl, rfl, rfl⟩]
      rfl
    · by_contra hother
      change mapped (pteAt v'.mem s.dirs e i j) = some pp at hmap
      rw [hpte e i j he hi hj, if_neg hother] at hmap
      split at hmap
      · rw [mapped_zero] at hmap
        cases hmap
      · exact hf.fresh (.pte e i j) (mem_slots.mpr ⟨he, hi, hj⟩) hmap
  other e i j he hi hj hself htemp := by
    refine (hpte e i j he hi hj).trans ?_
    rw [if_neg htemp, if_neg hself]
  temp := (hpte c _ _ h.lt (by decide) (ptx_lt PFTEMP)).trans
    (if_pos ⟨rfl, rfl, rfl⟩)

end Filled

/-- What the handler does about a write, if the page table is there and there is
memory. -/
theorem wp_pgfault_room (h : InUser L s c) (hw : err &&& FEC_WR = FEC_WR)
    (hp : present (s.vm.mem.entry (s.envs c).envPgdir (pdx addr)) = true)
    (hroom : s.RoomForCopy c) :
    Prog.wp (pgfault addr err)
      (fun _ t => addr < UTOP ∧ (SamePage addr PFTEMP → t.pteOf c addr = 0)
        ∧ (¬SamePage addr PFTEMP → s.pteOf c addr &&& PTE_U ≠ 0
          ∧ Copied L s t c addr))
      (fun _ => False)
      (fun _ t => ¬SameMappings L s t
        ∧ ¬(CowPage s c addr ∧ Copyable s c addr)) s := by
  obtain ⟨v, pp, halloc,
      hnew⟩ := (h.sysPageAlloc (show userPage PFTEMP by decide)
    (show validPerm (PTE_U ||| PTE_P ||| PTE_W) by decide)).1 hroom
  have hf := hnew.filled h
  unfold pgfault
  apply Prog.wp_bind_intro
  refine wp_panicIf (fun hno => absurd hw hno) fun _ => ?_
  apply Prog.wp_bind_intro
  refine wp_notCow h (fun _ => ?_) fun hno => absurd hp hno
  apply Prog.wp_bind_intro
  refine wp_panicIf nofun fun _ => ?_
  apply Prog.wp_bind_intro
  refine wp_stub halloc (fun _ => by decide) ?_
  apply Prog.wp_bind_intro
  refine wp_panicIf (fun hneg => absurd hneg (by decide)) fun _ => ?_
  apply Prog.wp_bind_intro
  refine wp_movePage h hf.shaped (by decide) (hf.temp h) hf.pow
    (fun hsrc => ⟨hf.not_same h, ?_⟩)
    fun q hsrc => ?_
  · rintro ⟨hcow, hcopy⟩
    rw [hf.readable h hcopy.user hcopy.temp,
      if_pos ⟨hcow.1, hcopy.readable⟩] at hsrc
    cases hsrc
  have hf₁ := hf.copied h ((v.mem pp).copy 0 (v.mem q) 0 PGSIZE)
  apply Prog.wp_bind_intro
  by_cases hva : addr < UTOP
  · obtain ⟨v₁, v₂, hmap, hunmap, hbytes, hpte⟩ := hf₁.remapped h hva hp
    refine wp_stub hmap (fun _ => by decide) ?_
    apply Prog.wp_bind_intro
    refine wp_panicIf (fun hneg => absurd hneg (by decide)) fun _ => ?_
    apply Prog.wp_bind_intro
    refine wp_stub hunmap (fun _ => by decide) ?_
    refine wp_panicIf (fun hneg => absurd hneg (by decide)) fun _ =>
      ⟨hva, fun htemp => ?_, fun htemp => ?_⟩
    · exact (hpte c _ _ h.lt (pdx_lt_of_lt_UTOP hva) (ptx_lt addr)).trans
        (if_pos ⟨rfl, htemp⟩)
    · rw [hf.readable h hva htemp] at hsrc
      obtain ⟨hread, hq⟩ := Option.ite_none_right_eq_some.mp hsrc
      obtain rfl := Option.some.inj hq
      refine ⟨hread.2, hf.copied_of h hva htemp (fun o ho => ?_) hpte⟩
      have hbyte := congrFun hbytes o
      simp only [Function.update_self] at hbyte
      rw [Bytes.copy_of_mem ⟨Nat.zero_le _, by omega⟩, Nat.zero_add,
        Nat.sub_zero,
        hnew.source h hva htemp (mapped_of_present hread.1)] at hbyte
      exact hbyte
  · have hbad : ∀ u : Kern, sysPageMap 0 PFTEMP 0 (pageOf addr)
        (PTE_U ||| PTE_P ||| PTE_W) u
        = .ret (-E_INVAL) u := by
      intro u
      unfold sysPageMap
      rw [if_neg (by decide), if_pos fun h => hva (userPage_pageOf.mp h)]
      rfl
    refine wp_stub (hbad _) (fun _ => by decide) ?_
    apply Prog.wp_bind_intro
    refine wp_panicIf (fun _ => ⟨hf₁.not_same h, fun hcopy => hva hcopy.2.user⟩)
      fun hneg => absurd (by decide) hneg

/-- Without memory for the copy the handler panics and nothing has changed. -/
theorem wp_pgfault_noRoom (h : InUser L s c) (hw : err &&& FEC_WR = FEC_WR)
    (hp : present (s.vm.mem.entry (s.envs c).envPgdir (pdx addr)) = true)
    (hroom : ¬s.RoomForCopy c) :
    Prog.wp (pgfault addr err) (fun _ _ => False) (fun _ => False) (fun x t =>
      x.Panics ∧ t = s) s := by
  have halloc := (h.sysPageAlloc (show userPage PFTEMP by decide)
    (show validPerm (PTE_U ||| PTE_P ||| PTE_W) by decide)).2 hroom
  unfold pgfault
  apply Prog.wp_bind_intro
  refine wp_panicIf (fun hno => absurd hw hno) fun _ => ?_
  apply Prog.wp_bind_intro
  refine wp_notCow h (fun _ => ?_) fun hno => absurd hp hno
  apply Prog.wp_bind_intro
  refine wp_panicIf nofun fun _ => ?_
  apply Prog.wp_bind_intro
  refine wp_stub halloc (fun _ => by decide) ?_
  apply Prog.wp_bind_intro
  exact wp_panicIf (fun _ => ⟨trivial, rfl⟩) fun hneg => absurd (by decide) hneg

/-- A read, and a write where there is no page table, end in a panic. -/
theorem wp_pgfault_panics (h : InUser L s c) (hno : err &&& FEC_WR ≠ FEC_WR
      ∨ ¬present (s.vm.mem.entry (s.envs c).envPgdir (pdx addr)) = true) :
    Prog.wp (pgfault addr err) (fun _ _ => False) (fun _ => False)
      (fun x t => x.Panics ∧ t = s) s := by
  unfold pgfault
  apply Prog.wp_bind_intro
  refine wp_panicIf (fun _ => ⟨trivial, rfl⟩) fun hw => ?_
  apply Prog.wp_bind_intro
  refine wp_notCow h (fun hp => ?_) fun _ => ⟨rfl, rfl⟩
  exact absurd (hno.resolve_left hw) (not_not.mpr hp)

/-- The fault handler of fork does what it should about a fault exactly in these
cases: the fault was a read, or there is no page table, or the page is
copy-on-write and can be copied, or it is not copy-on-write and there is no
memory for a copy. -/
theorem pgfault_answers (h : InUser L s c) (addr err : Word) :
    Answers L s c addr err
    ↔ err &&& FEC_WR ≠ FEC_WR
      ∨ ¬present (s.vm.mem.entry (s.envs c).envPgdir (pdx addr)) = true
      ∨ (CowPage s c addr → Copyable s c addr)
      ∧ (¬CowPage s c addr → ¬s.RoomForCopy c) := by
  have hsame : SameMappings L s s := fun _ _ _ _ _ _ => rfl
  have hquiet : ¬(err &&& FEC_WR = FEC_WR ∧ CowPage s c addr) →
      (∃ x t, pgfault addr err s = .stop x t ∧ x.Panics ∧ t = s) →
      Answers L s c addr err := by
    rintro hno ⟨x, t, hret, hx, rfl⟩
    exact ⟨fun h => absurd h hno, fun _ => ⟨x, t, hret, hx, hsame⟩⟩
  by_cases hw : err &&& FEC_WR = FEC_WR
  case neg =>
    exact iff_of_true (hquiet (fun h => hw h.1)
      (wp_pgfault_panics h (.inl hw)).exists_stop) (.inl hw)
  by_cases hp : present (s.vm.mem.entry (s.envs c).envPgdir (pdx addr)) = true
  case neg =>
    have hcow : ¬CowPage s c addr := by
      rintro ⟨hpte, -⟩
      rw [Kern.pteOf, pteAt_noTable h.dirs (mapped_of_absent hp)] at hpte
      cases hpte
    exact iff_of_true (hquiet (fun h => hcow h.2)
      (wp_pgfault_panics h (.inr hp)).exists_stop)
      (.inr (.inl hp))
  have hrhs : (err &&& FEC_WR ≠ FEC_WR
      ∨ ¬present (s.vm.mem.entry (s.envs c).envPgdir (pdx addr)) = true
        ∨ (CowPage s c addr → Copyable s c addr)
        ∧ (¬CowPage s c addr → ¬s.RoomForCopy c))
      ↔ (CowPage s c addr → Copyable s c addr)
        ∧ (¬CowPage s c addr → ¬s.RoomForCopy c) :=
    ⟨fun h => (h.resolve_left (not_not.mpr hw)).resolve_left (not_not.mpr hp),
      fun h => .inr (.inr h)⟩
  rw [hrhs]
  by_cases hroom : s.RoomForCopy c
  · have hspec := wp_pgfault_room h hw hp hroom
    constructor
    · rintro ⟨hcopy, hpanic⟩
      refine ⟨fun hcow => ?_, fun hcow => ?_⟩
      · obtain ⟨t, hret, hcopied⟩ := hcopy ⟨hw, hcow⟩
        obtain ⟨hva, htemp, hother⟩ := hspec.ret hret
        have hne : ¬SamePage addr PFTEMP := by
          intro hsp
          obtain ⟨pp, hpte, hlt, -⟩ := hcopied.page
          rw [htemp hsp] at hpte
          have hmap := mapped_copyPte hlt
          rw [copyPte, ← hpte, mapped_zero] at hmap
          cases hmap
        exact ⟨hroom, hva, (hother hne).1, hne⟩
      · obtain ⟨x, t, hret, -, hs⟩ := hpanic fun h => hcow h.2
        exact absurd hs (hspec.stop hret).1
    · rintro ⟨hcopy, hno⟩
      by_cases hcow : CowPage s c addr
      · refine ⟨fun _ => ?_, fun h => absurd ⟨hw, hcow⟩ h⟩
        cases hret : pgfault addr err s with
        | ret _ t => exact ⟨t, rfl, ((hspec.ret hret).2.2 (hcopy hcow).temp).2⟩
        | away t => exact (hspec.away hret).elim
        | stop x t => exact absurd ⟨hcow, hcopy hcow⟩ (hspec.stop hret).2
      · exact absurd hroom (hno hcow)
  · obtain ⟨x, t, hret, hx, rfl⟩ :=
      (wp_pgfault_noRoom h hw hp hroom).exists_stop
    constructor
    · rintro ⟨hcopy, -⟩
      refine ⟨fun hcow => ?_, fun _ => hroom⟩
      obtain ⟨t', hret', -⟩ := hcopy ⟨hw, hcow⟩
      cases hret.symm.trans hret'
    · rintro ⟨hcopy, -⟩
      exact hquiet (fun h => hroom (hcopy h.2).room) ⟨x, _, hret, hx, rfl⟩

end

/-- A read at an unmapped address of the small kernel. -/
theorem pgfault_answers_small :
    Answers (smallLayout 3 (by decide)) (smallUserKern 3) 2 UTEXT 4 :=
  (pgfault_answers (smallUserKern_inUser (by decide)) UTEXT 4).mpr
    (.inl (by decide))

/-- A write to a page that is mapped read-only makes it writable. -/
theorem pgfault_readOnly :
    ¬∀ L s c addr err, InUser L s c → Answers L s c addr err := by
  intro h
  have hu := smallUserKern_inUser (show 6 ≤ 10000 by decide)
  have hrun : ((sysPageAlloc 0 UTEXT (PTE_P ||| PTE_U)
      (smallUserKern 6)).returned.any fun x =>
      decide (x.1 = 0 ∧ x.2.pteOf 2 UTEXT &&&
        PTE_COW = 0) && (pgfault UTEXT 7 x.2).returned.isSome) = true := by
    decide +kernel
  have hnone : target (smallUserKern 6).vm.mem (smallUserKern 6).dirs
      (.pte 2 (pdx UTEXT) (ptx UTEXT))
      = none := by decide +kernel
  obtain ⟨hroom, hno⟩ := hu.sysPageAlloc (show userPage UTEXT by decide)
    (show validPerm (PTE_P ||| PTE_U) by decide)
  by_cases hr : HasRoom ((smallUserKern 6).envs 2).envPgdir UTEXT
    (smallUserKern 6).vm
  · obtain ⟨v, pp, hret, hnew⟩ := hroom hr
    rw [hret] at hrun
    obtain ⟨hcow, hok⟩ := Bool.and_eq_true_iff.mp hrun
    have hcow := (of_decide_eq_true hcow).2
    have hstate :=
      hu.withVm (hnew.owned fun q hq => by rw [hnone] at hq; cases hq)
      (hnew.opened hu.opened hu.shaped.dir_lt)
    obtain ⟨x, t, hstop, -⟩ := (h _ _ 2 UTEXT 7 hstate).2 fun hw => hw.2.2 hcow
    rw [hstop] at hok
    cases hok
  · rw [hno hr] at hrun
    cases hrun

end Jos
