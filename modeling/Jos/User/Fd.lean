import Jos.Fs.Client
import Jos.User.Dup

/-!
# File descriptors

lib/fd.c keeps the file descriptors of a program in its address space.
Descriptor `i` is open if a page is mapped at `INDEX2FD(i)`, and a device may
keep a page at `INDEX2DATA(i)`. Another descriptor for the same file is another
mapping of the same pages, which is how `dup` makes one. What a program asks of
the file server comes in as a parameter: other environments run until the reply
is there.
-/

namespace Jos

open Slot (target)

/-- A request to the file server, as its client sees it: of a type, with words
in the request page, up to the reply, with an address for the page that may come
with it. -/
abbrev FsCall : Type := Word → List Word → Word → UserM Word

namespace Lib

/-- Bottom of file descriptor area. -/
def FDTABLE : Word := 0xD0000000#32

/-- Bottom of file data area. -/
def FILEDATA : Word := FDTABLE + BitVec.ofNat 32 (MAXFD * PGSIZE)

/-- `INDEX2FD(i)`. -/
def index2fd (i : Word) : Word := FDTABLE + i * BitVec.ofNat 32 PGSIZE

/-- `INDEX2DATA(i)`. -/
def index2data (i : Word) : Word := FILEDATA + i * BitVec.ofNat 32 PGSIZE

def fd2num (fd : Word) : Word := (fd - FDTABLE) / BitVec.ofNat 32 PGSIZE

def fd2data (fd : Word) : Word := index2data (fd2num fd)

/-- The word at `va`. -/
def load (va : Word) : UserM Word := do
  let s ← Prog.ask
  match userAccess s.vm.mem s.cr3 va false with
  | none => Prog.halt (.fault va false)
  | some p => pure ((s.vm.mem p).load32 (pgoff va))

/-- `(vpd[PDX(va)] & PTE_P) && (vpt[VPN(va)] & PTE_P)`. -/
def pagePresent (va : Word) : UserM Bool := do
  let pde ← vpd (pdx va)
  if pde &&& PTE_P = 0 then
    pure false
  else
    let pte ← vpt (ppn va)
    pure (decide (pte &&& PTE_P ≠ 0))

/-- Check that `fdnum` is in range and mapped. -/
def fdLookup (fdnum : Word) : UserM (Except Word Word) := do
  if fdnum.slt 0 ∨ (BitVec.ofNat 32 MAXFD).sle fdnum then
    pure (.error (-E_INVAL))
  else if ← pagePresent (index2fd fdnum) then
    pure (.ok (index2fd fdnum))
  else
    pure (.error (-E_INVAL))

/-- Flush the file descriptor: `dev_close` of `devfile`. -/
def devfileFlush (fsipc : FsCall) (fd : Word) : UserM Word := do
  let id ← load (fd + 12)
  fsipc FSREQ_FLUSH [id] 0

/-- The end of `fd_close`. -/
def unmapFd (fd r : Word) : UserM Word := do
  let _ ← sysPageUnmap 0 fd
  pure r

/-- Free file descriptor `fd` by closing the corresponding file and unmapping
the page. -/
def fdClose (fsipc : FsCall) (fd : Word) (mustExist : Bool) : UserM Word := do
  match ← fdLookup (fd2num fd) with
  | .error r => pure (if mustExist then r else 0)
  | .ok fd2 =>
      if fd ≠ fd2 then
        pure 0
      else
        match devLookup (← load fd) with
        | .error r => unmapFd fd r
        | .ok () =>
            let r ← devfileFlush fsipc fd
            unmapFd fd r

def close (fsipc : FsCall) (fdnum : Word) : UserM Word := do
  match ← fdLookup fdnum with
  | .error r => pure r
  | .ok fd => fdClose fsipc fd true

/-- `sys_page_map(0, src, 0, dst, vpt[VPN(src)] & PTE_USER)`. -/
def mapAgain (src dst : Word) : UserM Word := do
  let pte ← vpt (ppn src)
  sysPageMap 0 src 0 dst (pte &&& PTE_USER)

/-- Map the data page, if there is one. -/
def dupData (ova nva : Word) : UserM Word := do
  if ← pagePresent ova then
    mapAgain ova nva
  else
    pure 0

/-- `err:` of `dup`. -/
def undoDup (newfd nva r : Word) : UserM Word := do
  let _ ← sysPageUnmap 0 newfd
  let _ ← sysPageUnmap 0 nva
  pure r

/-- `dup` from the second mapping on. -/
def dupFd (oldfd newfd nva newfdnum : Word) : UserM Word := do
  let r ← mapAgain oldfd newfd
  if r.slt 0 then
    undoDup newfd nva r
  else
    pure newfdnum

/-- `dup` after `close`. -/
def dupPages (oldfd newfdnum : Word) : UserM Word := do
  let newfd := index2fd newfdnum
  let nva := fd2data newfd
  let r ← dupData (fd2data oldfd) nva
  if r.slt 0 then
    undoDup newfd nva r
  else
    dupFd oldfd newfd nva newfdnum

/-- Make file descriptor `newfdnum` a duplicate of file descriptor
`oldfdnum`. -/
def dup (fsipc : FsCall) (oldfdnum newfdnum : Word) : UserM Word := do
  match ← fdLookup oldfdnum with
  | .error r => pure r
  | .ok oldfd =>
      let _ ← close fsipc newfdnum
      dupPages oldfd newfdnum

end Lib

open Lib

/-- The entry for the page of entry `w`, mapped again with its flags. -/
def again (w : Word) : Word := remap w (w &&& PTE_USER)

/-! ## The calls of the library on shaped memory -/

section

variable {L : Layout} {u s t : Kern} {c d pt : Nat}
  {va src dst w perm num r x y : Word} {v v' : Vm}
  {call : K Word} {Q : Word → Kern → Prop} {A : Kern → Prop}
  {E : UserStop → Kern → Prop}

/-- A system call in which the kernel stops. -/
theorem wp_stub_stop {z : Stop} {check : Bool} (hret : call s = .stop z t)
    (hE : E (.kernel z) t) :
    Prog.wp (stub num check call) Q A E s := by
  have hcall : Prog.mapStop UserStop.kernel call s = .stop (.kernel z) t := by
    rw [Prog.mapStop, hret]
  unfold stub
  apply Prog.wp_bind_intro
  exact Prog.wp_stop hcall hE

/-- The flags that the calls of `dup` keep are a permission if the page is the
user's. -/
theorem validPerm_user : validPerm (w &&& PTE_USER) ↔ UserPte w := by
  have hP : PTE_USER &&& PTE_P = PTE_P := by decide
  have hU : PTE_USER &&& PTE_U = PTE_U := by decide
  have hor : w &&& PTE_USER ||| PTE_USER = PTE_USER := by
    apply BitVec.eq_of_getLsbD_eq
    intro k _
    rw [BitVec.getLsbD_or, BitVec.getLsbD_and]
    cases PTE_USER.getLsbD k <;> simp
  unfold validPerm UserPte
  rw [BitVec.and_assoc, BitVec.and_assoc, hP, hU, present_iff]
  tauto

/-- The entry of `va` in the small print: through its page table, or 0. -/
theorem pteOf_table (hd : u.dirs c = some d)
    (hpt : v.mem.link d (pdx va) = some pt) :
    (u.withVm v).pteOf c va = v.mem.entry pt (ptx va) := pteAt_table hd hpt

theorem pteOf_noTable (hd : u.dirs c = some d)
    (hpt : v.mem.link d (pdx va) = none) :
    (u.withVm v).pteOf c va = 0 := pteAt_noTable hd hpt

/-- What is present is in a page table. -/
theorem table_of_present (hd : u.dirs c = some d)
    (hp : present ((u.withVm v).pteOf c va) = true) :
    ∃ pt, v.mem.link d (pdx va) = some pt := by
  cases hpt : v.mem.link d (pdx va) with
  | some pt => exact ⟨pt, rfl⟩
  | none =>
      rw [pteOf_noTable hd hpt] at hp
      exact absurd hp (by decide)

/-- An address of a page is its page number. -/
theorem page_ext (hx : userPage x) (hy : userPage y) :
    pdx x = pdx y ∧ ptx x = ptx y ↔ x = y := by
  have hxp := hx.2
  have hyp := hy.2
  simp only [PGSIZE] at hxp hyp
  constructor
  · rintro ⟨hd, ht⟩
    rw [pdx_eq, pdx_eq] at hd
    rw [ptx_eq, ptx_eq] at ht
    apply BitVec.eq_of_toNat_eq
    omega
  · rintro rfl
    exact ⟨rfl, rfl⟩

section

variable (h : InUser L u c) (hv : Shaped L u.dirs v)
include h hv

/-- `vpt[VPN(va)]` where a page table is. -/
theorem wp_vptOf (hva : va < UTOP)
    (hpt : v.mem.link (u.envs c).envPgdir (pdx va) = some pt)
    (hQ : Q ((u.withVm v).pteOf c va) (u.withVm v)) :
    Prog.wp (vpt (ppn va)) Q A E (u.withVm v) := by
  have hi := pdx_lt_of_lt_UTOP hva
  have hp : present (v.mem.entry (u.envs c).envPgdir (pdx va)) = true :=
    (mapped_eq_some.mp hpt).1
  have hopen := (hv.opened.table c _ (pdx va) h.dirs hi hp).1
  have hnum : ppn va = pdx va * 1024 + ptx va := by
    rw [ppn_eq, pdx_eq, ptx_eq]
    omega
  rw [pteOf_table h.dirs hpt, ← (mapped_eq_some.mp hpt).2] at hQ
  unfold vpt
  rw [hnum]
  exact wp_window h hv (Nat.lt_trans hi (by decide)) (ptx_lt va) (fun _ _ => hQ)
    fun hno => absurd ⟨hp, hopen⟩ hno

theorem wp_pagePresent {Q : Bool → Kern → Prop} (hva : va < UTOP)
    (hQ : Q (present ((u.withVm v).pteOf c va)) (u.withVm v)) :
    Prog.wp (pagePresent va) Q A E (u.withVm v) := by
  have hi := pdx_lt_of_lt_UTOP hva
  apply Prog.wp_bind_intro
  refine wp_vpd h hv (Nat.lt_trans hi (by decide)) ?_
  refine Prog.wp_ite _ (fun hno => Prog.wp_pure_intro ?_) fun hp => ?_
  · have habs : v.mem.link (u.envs c).envPgdir (pdx va) = none := by
      rw [PhysMem.link, mapped_eq_none, present_iff]
      exact fun hyes => hyes hno
    rw [pteOf_noTable h.dirs habs] at hQ
    exact hQ
  · have hpt := mapped_of_present (present_iff.mpr hp)
    apply Prog.wp_bind_intro
    refine wp_vptOf h hv hva hpt (Prog.wp_pure_intro ?_)
    rwa [show decide ((u.withVm v).pteOf c va &&& PTE_P ≠ 0) =
      present ((u.withVm v).pteOf c va) by
      rw [Bool.eq_iff_iff, decide_eq_true_iff, present_iff]]

/-- A load faults unless the page is the user's. -/
theorem wp_load (hva : va < UTOP)
    (hQ : UserPte ((u.withVm v).pteOf c va) → ∀ x, Q x (u.withVm v))
    (hE : ¬UserPte ((u.withVm v).pteOf c va) →
      E (.fault va false) (u.withVm v)) :
    Prog.wp (load va) Q A E (u.withVm v) := by
  have hacc := hv.userAccess h.dirs hva false
  rw [← h.cr3_eq] at hacc
  unfold load
  apply Prog.wp_ask_bind
  change Prog.wp (match userAccess v.mem u.cr3 va false with
    | none => Prog.halt (UserStop.fault va false)
    | some p => pure ((v.mem p).load32 (pgoff va))) _ _ _ _
  rw [hacc]
  by_cases hu : UserPte ((u.withVm v).pteOf c va)
  · rw [if_pos ⟨hu.1, hu.2, nofun⟩]
    exact Prog.wp_pure_intro (hQ hu _)
  · rw [if_neg fun hno => hu ⟨hno.1, hno.2.1⟩]
    exact Prog.wp_halt_intro (hE hu)

/-- `sys_page_unmap`: nothing is there, or the page is unmapped, or the entry is
empty. -/
theorem wp_sysPageUnmap (hx : x.toNat % PGSIZE = 0)
    (hnone : UTOP ≤ x ∨ v.mem.link (u.envs c).envPgdir (pdx x) = none →
      ∀ r, Q r (u.withVm v))
    (hput : x < UTOP → present ((u.withVm v).pteOf c x) = true →
      ∀ v', Shaped.Put L u.dirs c x 0 v v' → Q 0 (u.withVm v'))
    (hstop : x < UTOP → v.mem.link (u.envs c).envPgdir (pdx x) ≠ none →
      ¬present ((u.withVm v).pteOf c x) → E
      (.kernel .nullPointer) (u.withVm v)) :
    Prog.wp (Lib.sysPageUnmap 0 x) Q A E (u.withVm v) := by
  have hcur : (u.withVm v).curenv = some c := h.run.cur
  by_cases hlt : x < UTOP
  · have hpage : userPage x := ⟨hlt, hx⟩
    have hi := pdx_lt_of_lt_UTOP hlt
    cases hpt : v.mem.link (u.envs c).envPgdir (pdx x) with
    | none =>
        exact wp_stub (sysPageUnmap_ret hcur resolve_zero hpage
          (pageRemove_none hpt)) (fun _ => by decide)
          (hnone (.inr hpt) 0)
    | some pt =>
        have hltp := hv.lt
          (hv.tree.user_of_nodeOf (nodeOf_pde h.lt hi h.dirs hpt))
        rw [pteOf_table h.dirs hpt] at hput hstop
        cases hpp : v.mem.link pt (ptx x) with
        | none =>
            have hrun : Jos.sysPageUnmap 0 x (u.withVm v) =
                .stop .nullPointer (u.withVm v) := by
              unfold Jos.sysPageUnmap
              rw [if_neg (not_not.mpr hpage), withEnv_ok hcur resolve_zero,
                Prog.ask_bind]
              refine Prog.bind_stop ?_
              have hrem : pageRemove ((u.withVm v).envs c).envPgdir x
                  (u.withVm v).vm = .stop .nullPointer v :=
                pageRemove_absent hpt hltp hpp
              rw [inVm, Prog.zoom_apply, hrem]
              rfl
            exact wp_stub_stop hrun (hstop hlt (by
              rw [hpt]; exact Option.some_ne_none _) (mapped_eq_none.mp hpp))
        | some q =>
            obtain ⟨v', hv', hset⟩ :=
              hv.pageRemove h.lt h.dirs hlt ((target_pte h.dirs hpt).trans hpp)
            exact wp_stub (sysPageUnmap_ret hcur resolve_zero hpage hv')
              (fun _ => by decide)
              (hput hlt (mapped_eq_some.mp hpp).1 v' hset)
  · have hrun : Jos.sysPageUnmap 0 x (u.withVm v) =
        .ret (-E_INVAL) (u.withVm v) := by
      unfold Jos.sysPageUnmap
      rw [if_pos fun hpage => hlt hpage.1]
      rfl
    exact wp_stub hrun (fun _ => by decide)
      (hnone (.inl (BitVec.not_lt.mp hlt)) _)

omit h hv in
/-- An insertion in the address space of `c`, seen page by page. -/
theorem Shaped.Put.pteOf (hset : Shaped.Put L u.dirs c x w v v')
    (hc : c < L.ndirs) (hx : userPage x)
    (hva : userPage va) : (u.withVm v').pteOf c va = if va = x then w else
    (u.withVm v).pteOf c va := by
  have hpte := hset.pte c (pdx va) (ptx va) hc (pdx_lt_of_lt_UTOP hva.1)
  refine hpte.trans (if_congr ?_ rfl rfl)
  rw [page_ext hva hx]
  exact and_iff_right rfl

section MapAgain

variable (h : InUser L u c) (hv : Shaped L u.dirs v) (hsrc : userPage src)
  (hpt : v.mem.link (u.envs c).envPgdir (pdx src) = some pt)
  (hw : (u.withVm v).pteOf c src = w)
include h hv hsrc hpt hw

/-- The kernel refuses a page that is not the user's, and an address that is no
user page. -/
theorem wp_mapAgain_refused (hno : ¬(UserPte w ∧ userPage dst))
    (hQ : Q (-E_INVAL) (u.withVm v)) :
    Prog.wp (mapAgain src dst) Q A E (u.withVm v) := by
  apply Prog.wp_bind_intro
  refine wp_vptOf h hv hsrc.1 hpt ?_
  rw [hw]
  have hrun : Jos.sysPageMap 0 src 0 dst (w &&& PTE_USER) (u.withVm v) =
      .ret (-E_INVAL) (u.withVm v) := by
    unfold Jos.sysPageMap
    rw [if_neg (not_not.mpr hsrc)]
    by_cases hdst : userPage dst
    · rw [if_neg (not_not.mpr hdst), if_pos fun hperm =>
        hno ⟨validPerm_user.mp hperm, hdst⟩]
      rfl
    · rw [if_pos hdst]
      rfl
  exact wp_stub hrun (fun _ => by decide) hQ

section Call

variable (hu : UserPte w) (hdst : userPage dst)
include hu hdst

omit hv hpt hw in
/-- The call of `sys_page_map` for a page of the user's. -/
theorem sysPageMap_ok
    (hret : pageMapAt (u.envs c).envPgdir src (u.envs c).envPgdir dst
      (w &&& PTE_USER) v = .ret (.ok ()) v') :
    Jos.sysPageMap 0 src 0 dst (w &&& PTE_USER) (u.withVm v) =
      .ret 0 (u.withVm v') :=
  sysPageMap_ret (s := u.withVm v) h.run.cur resolve_zero resolve_zero hsrc hdst
    (validPerm_user.mpr hu) hret

omit hv hpt hw in
theorem sysPageMap_error
    (hret : pageMapAt (u.envs c).envPgdir src (u.envs c).envPgdir dst
      (w &&& PTE_USER) v = .ret (.error r) v') :
    Jos.sysPageMap 0 src 0 dst (w &&& PTE_USER) (u.withVm v) =
      .ret r (u.withVm v') :=
  sysPageMap_ret (s := u.withVm v) h.run.cur resolve_zero resolve_zero hsrc hdst
    (validPerm_user.mpr hu) hret

end Call

theorem wp_mapAgain_of (hr : (0 : Word).slt r = false)
    (hrun : Jos.sysPageMap 0 src 0 dst (w &&& PTE_USER) (u.withVm v) =
      .ret r (u.withVm v'))
    (hQ : Q r (u.withVm v')) :
    Prog.wp (mapAgain src dst) Q A E (u.withVm v) := by
  apply Prog.wp_bind_intro
  refine wp_vptOf h hv hsrc.1 hpt ?_
  rw [hw]
  exact wp_stub hrun (fun _ => hr) hQ

omit h hv hsrc hpt in
theorem target_src (hu : UserPte w) :
    target v.mem u.dirs (.pte c (pdx src) (ptx src)) = some (ppn w) := by
  rw [target, show pteAt v.mem u.dirs c (pdx src) (ptx src) = w from hw]
  exact mapped_of_present hu.1

omit h hv hsrc hpt in
theorem write_src : (w &&& PTE_USER) &&& PTE_W ≠ 0 →
    pteAt v.mem u.dirs c (pdx src) (ptx src) &&& PTE_W ≠ 0 := by
  rw [show pteAt v.mem u.dirs c (pdx src) (ptx src) = w from hw, flag_W.and_iff]
  exact And.left

variable (hu : UserPte w) (hdst : userPage dst)
include hu hdst

/-- Where a page table is, the page is mapped. -/
theorem wp_mapAgain_table {q : Nat}
    (hq : v.mem.link (u.envs c).envPgdir (pdx dst) = some q)
    (hQ : ∀ v', Shaped.Put L u.dirs c dst (again w) v v' →
      (v'.pageFreeList = v.pageFreeList
      ∨ ∃ p, target v.mem u.dirs (.pte c (pdx dst) (ptx dst)) = some p
      ∧ v'.pageFreeList.first = some p) →
      Q 0 (u.withVm v')) : Prog.wp (mapAgain src dst) Q A E (u.withVm v) := by
  have hpp := target_src hw hu
  obtain ⟨huser, hdata, -⟩ := hv.source h.lt h.dirs hsrc.1 hpp
  obtain ⟨v', hv', hset⟩ := hv.pageInsert h.lt h.dirs hdst.1 hq huser hdata
    (validPerm_lt (validPerm_user.mpr hu))
  refine wp_mapAgain_of h hv hsrc hpt hw (by decide)
    (sysPageMap_ok h hsrc hu hdst
    (hv.pageMapAt_ok h.lt h.dirs hsrc.1 hpp (write_src hw) hv')) ?_
  exact hQ v' hset (hv.pageInsert_list h.lt h.dirs hdst.1 hq
    (Owned.lt_pow huser) hv')

/-- Where no page table is and no page is free, the page is freed. -/
theorem wp_mapAgain_noMem (hq : v.mem.link (u.envs c).envPgdir (pdx dst) = none)
    (hfirst : v.pageFreeList.first = none)
    (hQ : Q (-E_NO_MEM) (u.withVm (v.give (ppn w)))) :
    Prog.wp (mapAgain src dst) Q A E (u.withVm v) := by
  have hpp := target_src hw hu
  have hins : Jos.pageInsert (u.envs c).envPgdir (ppn w) dst
      (w &&& PTE_USER) v = .ret (.error (-E_NO_MEM)) v :=
    pageInsert_noMem (mapped_eq_none.mp hq) hfirst
  exact wp_mapAgain_of h hv hsrc hpt hw (by decide)
    (sysPageMap_error h hsrc hu hdst
    (hv.pageMapAt_error h.lt h.dirs hsrc.1 hpp (write_src hw) hins)) hQ

/-- Where no page table is, the page in front of the free list becomes one. -/
theorem wp_mapAgain_new {q : Nat}
    (hq : v.mem.link (u.envs c).envPgdir (pdx dst) = none)
    (hfirst : v.pageFreeList.first = some q) (hqu : L.User q)
    (hqd : q ≠ (u.envs c).envPgdir)
    (hQ : ∀ v', pageMapAt (u.envs c).envPgdir src (u.envs c).envPgdir dst
      (w &&& PTE_USER) v = .ret (.ok ()) v' →
      (u.withVm v').pteOf c dst = again w →
      v'.pageFreeList = v.pageFreeList.remove q →
      Q 0 (u.withVm v')) : Prog.wp (mapAgain src dst) Q A E (u.withVm v) := by
  have hpp := target_src hw hu
  obtain ⟨v', hv', hpte, hlist⟩ :
      ∃ v', Jos.pageInsert (u.envs c).envPgdir (ppn w) dst (w &&& PTE_USER) v =
        .ret (.ok ()) v' ∧ _ ∧ _ :=
    hv.pageInsert_new h.dirs hq hfirst hqu hqd
  have hmap := hv.pageMapAt_ok h.lt h.dirs hsrc.1 hpp (write_src hw) hv'
  exact wp_mapAgain_of h hv hsrc hpt hw (by decide)
    (sysPageMap_ok h hsrc hu hdst hmap)
    (hQ v' hmap hpte hlist)

end MapAgain

end

end

/-- After `sys_page_alloc` for an empty address, `c` still runs. -/
theorem InUser.sysPageAlloc_state {L : Layout} {s : Kern} {c : Nat}
    {va perm : Word} (h : InUser L s c)
    (hva : userPage va) (hperm : validPerm perm)
    (hempty : target s.vm.mem s.dirs (.pte c (pdx va) (ptx va)) = none) :
    InUser L (Jos.sysPageAlloc 0 va perm s).state c := by
  obtain ⟨hroom, hfull⟩ := h.sysPageAlloc hva hperm
  by_cases hr : HasRoom (s.envs c).envPgdir va s.vm
  · obtain ⟨v, pp, hret, hnew⟩ := hroom hr
    rw [hret]
    exact h.withVm (hnew.owned fun q hq => nomatch hempty.symm.trans hq)
      (hnew.opened h.opened h.pages.owned.dir_lt)
  · rw [hfull hr]
    exact h

/-! ## The slots of a descriptor -/

section

variable {i j : Word}

theorem index2fd_aligned (i : Word) : (index2fd i).toNat % PGSIZE = 0 := by
  simp only [index2fd, FDTABLE, PGSIZE, BitVec.toNat_add, BitVec.toNat_mul,
    BitVec.toNat_ofNat]
  omega

theorem index2data_aligned (i : Word) : (index2data i).toNat % PGSIZE = 0 := by
  simp only [index2data, FILEDATA, FDTABLE, MAXFD, PGSIZE, BitVec.toNat_add,
    BitVec.toNat_mul,
    BitVec.toNat_ofNat]
  omega

/-- The data slot of a descriptor is where the Fd slot says, whatever the
descriptor. -/
theorem fd2data_index2fd (i : Word) : fd2data (index2fd i) = index2data i := by
  apply BitVec.eq_of_toNat_eq
  simp only [fd2data, fd2num, index2data, index2fd, FILEDATA, FDTABLE, MAXFD,
    PGSIZE, BitVec.toNat_add,
    BitVec.toNat_mul, BitVec.toNat_ofNat, BitVec.toNat_udiv, BitVec.toNat_sub,
    Nat.reducePow,
    Nat.reduceMod]
  omega

variable (hi : i.toNat < MAXFD)
include hi

theorem index2fd_toNat : (index2fd i).toNat = 0xD0000000 + 4096 * i.toNat := by
  have hlt : i.toNat < 32 := hi
  simp only [index2fd, FDTABLE, PGSIZE, BitVec.toNat_add, BitVec.toNat_mul,
    BitVec.toNat_ofNat]
  omega

theorem index2data_toNat :
    (index2data i).toNat = 0xD0020000 + 4096 * i.toNat := by
  have hlt : i.toNat < 32 := hi
  simp only [index2data, FILEDATA, FDTABLE, MAXFD, PGSIZE, BitVec.toNat_add,
    BitVec.toNat_mul,
    BitVec.toNat_ofNat]
  omega

theorem fd2num_index2fd : fd2num (index2fd i) = i := by
  have hlt : i.toNat < 32 := hi
  apply BitVec.eq_of_toNat_eq
  simp only [fd2num, index2fd, FDTABLE, PGSIZE, BitVec.toNat_add,
    BitVec.toNat_mul, BitVec.toNat_ofNat,
    BitVec.toNat_udiv, BitVec.toNat_sub, Nat.reducePow, Nat.reduceMod]
  omega

theorem userPage_index2fd : userPage (index2fd i) := by
  have hlt : i.toNat < 32 := hi
  refine ⟨?_, index2fd_aligned i⟩
  rw [BitVec.lt_def, index2fd_toNat hi, show UTOP.toNat = 0xEEC00000 from rfl]
  omega

theorem userPage_index2data : userPage (index2data i) := by
  have hlt : i.toNat < 32 := hi
  refine ⟨?_, index2data_aligned i⟩
  rw [BitVec.lt_def, index2data_toNat hi, show UTOP.toNat = 0xEEC00000 from rfl]
  omega

/-- All slots are in one page table. -/
theorem pdx_index2fd : pdx (index2fd i) = pdx FDTABLE := by
  have hlt : i.toNat < 32 := hi
  rw [pdx_eq, index2fd_toNat hi, show pdx FDTABLE = 832 by decide]
  omega

theorem pdx_index2data : pdx (index2data i) = pdx FDTABLE := by
  have hlt : i.toNat < 32 := hi
  rw [pdx_eq, index2data_toNat hi, show pdx FDTABLE = 832 by decide]
  omega

/-- The third field of a `struct Fd` is on the page of the first. -/
theorem index2fd_field :
    index2fd i + 12 < UTOP ∧ pdx (index2fd i + 12) = pdx (index2fd i)
    ∧ ptx (index2fd i + 12) = ptx (index2fd i) := by
  have hlt : i.toNat < 32 := hi
  have hnat : (index2fd i + 12).toNat = 0xD0000000 + 4096 * i.toNat + 12 := by
    rw [BitVec.toNat_add, index2fd_toNat hi, show (12 : Word).toNat =
      12 from rfl]
    omega
  refine ⟨?_, ?_, ?_⟩
  · rw [BitVec.lt_def, hnat, show UTOP.toNat = 0xEEC00000 from rfl]
    omega
  · rw [pdx_eq, pdx_eq, hnat, index2fd_toNat hi]
    omega
  · rw [ptx_eq, ptx_eq, hnat, index2fd_toNat hi]
    omega

end

/-- Descriptor `fdnum` of `c` is open. -/
def FdOpen (s : Kern) (c : Nat) (fdnum : Word) : Prop :=
  fdnum.toNat < MAXFD ∧ present (s.pteOf c (index2fd fdnum)) = true

instance (s : Kern) (c : Nat) (fdnum : Word) :
    Decidable (FdOpen s c fdnum) := by
  unfold FdOpen
  infer_instance

/-- The file server answers a flush that `c` asks for in state `s`, and the
address space of `c` is then as before. -/
def Flushes (L : Layout) (fsipc : FsCall) (s : Kern) (c : Nat) : Prop :=
  ∀ id, ∃ r t, fsipc FSREQ_FLUSH [id] 0 s = .ret r t ∧ InUser L t c
    ∧ ∀ va, userPage va → t.pteOf c va = s.pteOf c va

section

variable {L : Layout} {u s : Kern} {c : Nat} {fdnum : Word} {v : Vm}
  {fsipc : FsCall}
  {A : Kern → Prop} {E : UserStop → Kern → Prop}

/-- The range check. -/
theorem not_maxfd : (fdnum.slt 0 ∨ (BitVec.ofNat 32 MAXFD).sle fdnum) ↔
      ¬fdnum.toNat < MAXFD := by
  have h0 : (0 : Word).toInt = 0 := by decide
  have h32 : (BitVec.ofNat 32 MAXFD).toInt = 32 := by decide
  have hM : MAXFD = 32 := rfl
  have hlt := fdnum.isLt
  rw [BitVec.slt_iff_toInt_lt, BitVec.sle_iff_toInt_le, h0, h32,
    BitVec.toInt_eq_toNat_cond]
  split <;> omega

theorem wp_lookup {Q : Except Word Word → Kern → Prop} (h : InUser L u c)
    (hv : Shaped L u.dirs v)
    (hok : FdOpen (u.withVm v) c fdnum → Q (.ok (index2fd fdnum)) (u.withVm v))
    (hno : ¬FdOpen (u.withVm v) c fdnum → Q (.error (-E_INVAL)) (u.withVm v)) :
    Prog.wp (Lib.fdLookup fdnum) Q A E (u.withVm v) := by
  refine Prog.wp_ite _ (fun hbad =>
    Prog.wp_pure_intro (hno fun ho => not_maxfd.mp hbad ho.1)) fun hin => ?_
  rw [not_maxfd, not_not] at hin
  apply Prog.wp_bind_intro
  refine wp_pagePresent h hv (userPage_index2fd hin).1 ?_
  exact Prog.wp_ite _ (fun hp => Prog.wp_pure_intro (hok ⟨hin, hp⟩))
    fun hp => Prog.wp_pure_intro (hno fun ho => hp ho.2)

/-- Closing a descriptor unmaps its Fd page, if the program may read that. -/
theorem wp_close {Q : Word → Kern → Prop} (h : InUser L s c)
    (ha : Flushes L fsipc s c)
    (hclosed : ¬FdOpen s c fdnum → ∀ r, Q r s)
    (hfault : FdOpen s c fdnum → ¬UserPte (s.pteOf c (index2fd fdnum)) →
      ∀ va, E (.fault va false) s)
    (hopen : FdOpen s c fdnum → UserPte (s.pteOf c (index2fd fdnum)) → ∀ r u v,
      InUser L u c →
      Shaped L u.dirs v → (∃ pt, v.mem.link (u.envs c).envPgdir (pdx FDTABLE) =
        some pt) →
      (∀ va, userPage va →
        (u.withVm v).pteOf c va = if va = index2fd fdnum then 0 else
        s.pteOf c va) →
      Q r (u.withVm v)) : Prog.wp (Lib.close fsipc fdnum) Q A E s := by
  have hv := h.shaped
  apply Prog.wp_bind_intro
  refine wp_lookup (u := s) (v := s.vm) h hv (fun ho => ?_) fun hno => ?_
  swap
  · exact Prog.wp_pure_intro (hclosed hno _)
  have hpage := userPage_index2fd ho.1
  have hunmap : ∀ r t, InUser L t c →
      (∀ va, userPage va → t.pteOf c va = s.pteOf c va) →
      UserPte (s.pteOf c (index2fd fdnum)) →
      Prog.wp (unmapFd (index2fd fdnum) r) Q A E t := by
    intro r t ht hsame hu
    have hpres : present (t.pteOf c (index2fd fdnum)) = true := by
      rw [hsame _ hpage]
      exact ho.2
    obtain ⟨pt, hpt⟩ := table_of_present (v := t.vm) ht.dirs hpres
    apply Prog.wp_bind_intro
    refine wp_sysPageUnmap (u := t) (v := t.vm) ht ht.shaped hpage.2
      (fun hin => ?_) (fun _ _ v' hset => ?_)
      fun _ _ hno => absurd hpres hno
    · refine absurd hin (not_or.mpr ⟨BitVec.not_le.mpr hpage.1, ?_⟩)
      rw [hpt]
      nofun
    · refine Prog.wp_pure_intro
        (hopen ho hu r t v' ht hset.shaped ⟨pt, ?_⟩ fun va hva => ?_)
      · rw [← pdx_index2fd ho.1, hset.link c _ _ ht.dirs]
        exact hpt
      · rw [hset.pteOf ht.lt hpage hva]
        exact if_congr Iff.rfl rfl (hsame va hva)
  -- `fd_close` looks the descriptor up again
  change Prog.wp (fdClose fsipc (index2fd fdnum) true) Q A E s
  unfold fdClose
  rw [fd2num_index2fd ho.1]
  apply Prog.wp_bind_intro
  refine wp_lookup (u := s) (v := s.vm) h hv (fun _ => ?_) fun hno =>
    absurd ho hno
  refine Prog.wp_ite _ (fun hne => absurd rfl hne) fun _ => ?_
  apply Prog.wp_bind_intro
  refine wp_load (u := s) (v := s.vm) h hv hpage.1 (fun hu x => ?_) fun hno =>
    hfault ho hno _
  cases devLookup x with
  | error r => exact hunmap r s h (fun _ _ => rfl) hu
  | ok _ =>
      obtain ⟨hlt, hpdx, hptx⟩ := index2fd_field ho.1
      have hfield : s.pteOf c (index2fd fdnum + 12) =
          s.pteOf c (index2fd fdnum) := by
        rw [Kern.pteOf, Kern.pteOf, hpdx, hptx]
      apply Prog.wp_bind_intro
      apply Prog.wp_bind_intro
      refine wp_load (u := s) (v := s.vm) h hv hlt (fun _ id => ?_) fun hno =>
        absurd (hfield ▸ hu) hno
      obtain ⟨r, t, hret, ht, hsame⟩ := ha id
      exact Prog.wp_ret hret (hunmap r t ht hsame hu)

end

end Jos
