import Jos.User.Fork
import Jos.Vm.Room

/-!
# Copying an address space

The loops of `fork` and `sfork` in lib/fork.c go through the pages of the parent
and map each into the child. `Duping` is what the two address spaces look like
in between: the entries of the parent and of the child, page by page, with the
allocator consistent and enough memory left for the child's page tables.
-/

namespace Jos

open Slot (target)

/-- The page of the exception stack. -/
def UXSTACK : Word := UXSTACKTOP - 0x1000#32

/-- The address of page `pn`. -/
def pageVa (pn : Nat) : Word := BitVec.ofNat 32 (pn * PGSIZE)

/-- Set the page fault handler; `installed` if there is one already. -/
def setPgfaultHandler (installed : Bool) (upcall : Word) : UserM Unit :=
  if installed then pure ()
  else do
    let r ← Lib.sysUxstackPgfaultStatus 0 UXSTACK (PTE_P ||| PTE_U ||| PTE_W)
        upcall ENV_NOT_SET
    panicIf (r.slt 0) "set pgfault handler: %e" [r]

/-- The result of a system call, or a panic that names the environment
itself. -/
def orPanic (call : UserM Word) (fmt : String) (args : Word → List Word) :
    UserM Unit := do
  let r ← call
  if r.slt 0 then
    let self ← stub 2 false sysGetenvid
    Prog.halt (.panic fmt (args self))

/-- The test of the loops: page `pn` is present and the user's. -/
def pageMapped (pn : Nat) : UserM Bool := do
  let pde ← vpd (pn / 1024)
  if pde &&& PTE_P = 0 then
    pure false
  else
    let pte ← vpt pn
    if pte &&& PTE_P = 0 then
      pure false
    else
      let pte ← vpt pn
      pure (decide (pte &&& PTE_U ≠ 0))

/-- Map page `pn` into `envid`, copy-on-write in both if it is writable or
copy-on-write. -/
def duppage (envid : Word) (pn : Nat) : UserM Unit := do
  let addr := pageVa pn
  let pte ← vpt pn
  panicIf (pte &&& PTE_P = 0 ∨ pte &&& PTE_U = 0)
    "lib/fork.c/duppage(): pte unpresent or unuser!" []
  if pte &&& PTE_COW = PTE_COW ∨ pte &&& PTE_W = PTE_W then
    orPanic (Lib.sysPageMapUpdatePerm 0 addr envid addr
    (PTE_COW ||| PTE_P ||| PTE_U))
      "lib/fork.c/duppage(): COW addr %08x's page_map from envid %08x to envid %08x and envid %08x failed.\n"
      fun self => [addr, self, envid, self]
  else
    orPanic (Lib.sysPageMap 0 addr envid addr (PTE_P ||| PTE_U))
      "lib/fork.c/duppage(): READONLY addr %08x's page_map from envid %08x to envid %08x failed.\n"
      fun self => [addr, self, envid]

/-- The body of the first loop of `sfork`: map page `pn` into `envid` as it
is. -/
def sharePage (envid : Word) (pn : Nat) : UserM Unit := do
  let addr := pageVa pn
  let pte ← vpt pn
  panicIf (pte &&& PTE_P = 0 ∨ pte &&& PTE_U =
  0) "lib/fork.c/sfork(): pte unpresent or unuser!" []
  if pte &&& PTE_COW = PTE_COW ∨ pte &&& PTE_W = PTE_W then
    orPanic (Lib.sysPageMap 0 addr envid addr (PTE_W ||| PTE_P ||| PTE_U))
      "lib/fork.c/sfork(): READWRITE addr %08x's page_map from envid %08x to envid %08x failed.\n"
      fun self => [addr, self, envid]
  else
    orPanic (Lib.sysPageMap 0 addr envid addr (PTE_P ||| PTE_U))
      "lib/fork.c/sfork(): READONLY addr %08x's page_map from envid %08x to envid %08x failed.\n"
      fun self => [addr, self, envid]

/-- The loop over the mapped pages from `lo` up to `hi`. -/
def forPages (lo hi : Nat) (body : Nat → UserM Unit) : UserM Unit :=
  Prog.forUp (hi - lo) fun k => do
    if ← pageMapped (lo + k) then
      body (lo + k)

/-- What the parent does to start the child, up to the loops. -/
def startFork (installed : Bool) (upcall : Word) : UserM Word := do
  setPgfaultHandler installed upcall
  let envid ← Lib.sysExofork
  panicIf (envid.slt 0) "lib/fork.c/fork(): sys exofork failed. %e" [envid]
  pure envid

/-- User-level fork with copy-on-write. In the child, where `sys_exofork`
returns 0, it returns at once. -/
def fork (installed : Bool) (upcall : Word) : UserM Word := do
  let envid ← startFork installed upcall
  if envid = 0 then
    pure 0
  else
    forPages (ppn UTEXT) (ppn UXSTACK) (duppage envid)
    let r ← Lib.sysUxstackPgfaultStatus envid UXSTACK
        (PTE_P ||| PTE_U ||| PTE_W) upcall ENV_RUNNABLE
    panicIf (r.slt 0)
      "lib/fork.c/fork(): sys uxstack alloc/set pgfault upcall/set status failed: %e" [r]
    pure envid

/-- Fork with shared memory. -/
def sfork (installed : Bool) (upcall : Word) : UserM Word := do
  let envid ← startFork installed upcall
  if envid = 0 then
    pure 0
  else
    forPages 0 (ppn (USTACKTOP - 0x1000#32)) (sharePage envid)
    forPages (ppn (USTACKTOP - 0x1000#32)) (ppn UXSTACK) (duppage envid)
    let r ← Lib.sysPageAlloc envid UXSTACK (PTE_P ||| PTE_U ||| PTE_W)
    panicIf (r.slt
    0) "lib/fork.c/sfork(): sys page alloc for child UXSTACK failed: %e" [r]
    let _ ← Lib.sysEnvSetPgfaultUpcall envid upcall
    let r ← Lib.sysEnvSetStatus envid ENV_RUNNABLE
    panicIf (r.slt 0) "lib/fork.c/sfork(): sys env set status failed. %e" [r]
    pure envid

/-! ## Entries -/

/-- The user may read the page of the entry. -/
def UserPte (w : Word) : Prop := present w = true ∧ w &&& PTE_U ≠ 0

/-- The page of the entry is writable or copy-on-write. -/
def Dirty (w : Word) : Prop := w &&& PTE_COW ≠ 0 ∨ w &&& PTE_W ≠ 0

instance (w : Word) : Decidable (UserPte w) := by unfold UserPte; infer_instance
instance (w : Word) : Decidable (Dirty w) := by unfold Dirty; infer_instance

/-- The page of entry `w`, mapped with `perm`. -/
def remap (w perm : Word) : Word := page2pa (ppn w) ||| perm ||| PTE_P

/-- What the first loop of `sfork` maps into the child. -/
def sharedPte (w : Word) : Word :=
  if UserPte w then remap w (if Dirty w then PTE_W ||| PTE_P ||| PTE_U else
    PTE_P ||| PTE_U) else 0

/-- The kernel refuses to map the page writable, and `sfork` asks for that. -/
def Refused (w : Word) : Prop := UserPte w ∧ w &&& PTE_COW ≠ 0 ∧ w &&& PTE_W = 0

/-- What `duppage` maps into the child. -/
def dupChild (w : Word) : Word :=
  if UserPte w then remap w (if Dirty w then PTE_COW ||| PTE_P ||| PTE_U else
    PTE_P ||| PTE_U) else 0

/-- What `duppage` leaves in the parent. -/
def dupParent (w : Word) : Word :=
  if UserPte w ∧ Dirty w then remap w (PTE_COW ||| PTE_P ||| PTE_U) else w

theorem flag_COW : Flag PTE_COW := ⟨11, by decide, by decide⟩

/-- The test of `duppage` and `sfork`. -/
theorem dirty_iff {w : Word} :
    Dirty w ↔ w &&& PTE_COW = PTE_COW ∨ w &&& PTE_W = PTE_W := by
  rw [flag_COW.and_eq, flag_W.and_eq]
  rfl

theorem ppn_lt (w : Word) : ppn w < 2 ^ 20 := by
  have := w.isLt
  rw [ppn_eq]
  omega

theorem mapped_remap {w perm : Word} (hperm : perm < 0x1000#32) :
    mapped (remap w perm) = some (ppn w) := mapped_page2pa (ppn_lt w) hperm

theorem remap_and {w perm b : Word} (hb : Flag b) :
    remap w perm &&& b ≠ 0 ↔ (perm ||| PTE_P) &&& b ≠ 0 := by
  rw [remap, BitVec.or_assoc, hb.page2pa_or]

theorem userPte_remap {w perm : Word} (hperm : perm < 0x1000#32)
    (hu : perm &&& PTE_U ≠ 0) :
    UserPte (remap w perm) := by
  refine ⟨(mapped_eq_some.mp (mapped_remap hperm)).1, ?_⟩
  rw [remap_and flag_U, flag_U.or_iff]
  exact .inl hu

/-! ## Pages -/

section

variable {L : Layout} {s u t : Kern} {c b e i j n k lo hi : Nat}
  {w perm envid upcall r : Word} {v v' : Vm}
  {P C : Nat → Word}

theorem pageVa_toNat (hn : n < pdxUTOP * 1024) :
    (pageVa n).toNat = n * 4096 := by
  rw [pdxUTOP_eq] at hn
  simp only [pageVa, PGSIZE, BitVec.toNat_ofNat]
  omega

theorem pdx_pageVa (hn : n < pdxUTOP * 1024) : pdx (pageVa n) = n / 1024 := by
  rw [pdx_eq, pageVa_toNat hn]
  omega

theorem ptx_pageVa (hn : n < pdxUTOP * 1024) : ptx (pageVa n) = n % 1024 := by
  rw [ptx_eq, pageVa_toNat hn]
  omega

theorem ppn_pageVa (hn : n < pdxUTOP * 1024) : ppn (pageVa n) = n := by
  rw [ppn_eq, pageVa_toNat hn]
  omega

theorem userPage_pageVa (hn : n < pdxUTOP * 1024) : userPage (pageVa n) := by
  have hva := pageVa_toNat hn
  rw [pdxUTOP_eq] at hn
  refine ⟨?_, by rw [hva]; exact Nat.mul_mod_left ..⟩
  rw [BitVec.lt_def, hva, show UTOP.toNat = 0xEEC00000 from rfl]
  omega

/-! ## Calls that panic when they fail -/

theorem sysGetenvid_ret (hc : s.curenv = some c) :
    sysGetenvid s = .ret (s.envs c).envId s := by
  rw [sysGetenvid, Prog.bind_ret (currentEnv_apply hc)]
  rfl

section OrPanic

variable {A : Kern → Prop} {E : UserStop → Kern → Prop} {Q : Unit → Kern → Prop}
  {num : Word}
  {call : K Word} {fmt : String} {args : Word → List Word}

theorem wp_orPanic (hret : call s = .ret 0 t) (hQ : Q () t) :
    Prog.wp (orPanic (stub num true call) fmt args) Q A E s := by
  unfold orPanic
  apply Prog.wp_bind_intro
  refine wp_stub hret (fun _ => by decide) ?_
  exact Prog.wp_ite _ (fun hneg => absurd hneg (by decide)) fun _ =>
    Prog.wp_pure_intro hQ

theorem wp_orPanic_fails (hret : call s = .ret r t) (hr : r.slt 0 = true)
    (hc : t.curenv = some c)
    (hE : E (.panic fmt (args (t.envs c).envId)) t) :
    Prog.wp (orPanic (stub num true call) fmt args) Q A E s := by
  have hnot : (0 : Word).slt r = false := by
    rw [BitVec.slt, decide_eq_true_iff] at hr
    rw [BitVec.slt, decide_eq_false_iff_not]
    omega
  unfold orPanic
  apply Prog.wp_bind_intro
  refine wp_stub hret (fun _ => hnot) ?_
  refine Prog.wp_ite _ (fun _ => ?_) fun hno => absurd hr hno
  apply Prog.wp_bind_intro
  exact wp_stub (sysGetenvid_ret hc) nofun (Prog.wp_halt_intro hE)

end OrPanic

/-! ## Two address spaces -/

/-- Environment `c` runs, and may change `b`. -/
structure Parent (L : Layout) (u : Kern) (c b : Nat) (envid : Word) : Prop where
  user : InUser L u c
  child : u.Live b
  ne : b ≠ c
  named : u.resolve c envid true = .ok b

/-- The entries of the parent `c` are `P` and those of the child `b` are `C`;
other address spaces and the pages of the parent are as in `u`, and memory is
left for all page tables of the child and `k` pages more. -/
structure Duping (L : Layout) (u : Kern) (c b k : Nat) (P C : Nat → Word)
    (v : Vm) : Prop where
  owned : Owned L u.dirs [] v
  opened : Opened v.mem u.dirs
  parent : ∀ n < pdxUTOP * 1024, pteNo v.mem u.dirs c n = P n
  child : ∀ n < pdxUTOP * 1024, pteNo v.mem u.dirs b n = C n
  other : ∀ e n, e < L.ndirs → e ≠ c → e ≠ b → n < pdxUTOP * 1024 →
    pteNo v.mem u.dirs e n = pteNo u.vm.mem u.dirs e n
  data : ∀ n < pdxUTOP * 1024, ∀ q, mapped (P n) = some q → v.mem q = u.vm.mem q
  spare : Spare L u.dirs v.mem (u.envs b).envPgdir (pdxUTOP + k + 1)

namespace Duping

variable (h : Duping L u c b k P C v)
include h

theorem shaped : Shaped L u.dirs v := h.owned.shaped h.opened

/-- There is memory for a page table. -/
theorem first_ne_none : v.pageFreeList.first ≠ none := by
  exact h.owned.first_of_free (h.spare.free)

section Parent

variable (hp : Parent L u c b envid)
include hp

/-- Page `n` of the parent is mapped into the address space of `e` with `perm`,
if it may be. -/
theorem mapAt (hn : n < pdxUTOP * 1024) {q : Nat} (hq : mapped (P n) = some q)
    (he : u.Live e)
    (hres : u.resolve c r true = .ok e) (hperm : validPerm perm) :
    (∃ v', sysPageMap 0 (pageVa n) r (pageVa n) perm (u.withVm v) =
      .ret 0 (u.withVm v')
        ∧ (perm &&& PTE_W ≠ 0 → P n &&& PTE_W ≠ 0) ∧ Opened v'.mem u.dirs
        ∧ Stored L u.dirs [] (ReplaceFits L u.dirs e q (pageVa n) v.mem) e
          (pageVa n)
          (remap (P n) perm) v v')
      ∨ (sysPageMap 0 (pageVa n) r (pageVa n) perm (u.withVm v) =
        .ret (-E_INVAL) (u.withVm v)
        ∧ perm &&& PTE_W ≠ 0 ∧ P n &&& PTE_W = 0) := by
  have hva := userPage_pageVa hn
  have hpte : pteAt v.mem u.dirs c (pdx (pageVa n)) (ptx (pageVa n)) = P n := by
    rw [pdx_pageVa hn, ptx_pageVa hn]
    exact h.parent n hn
  have htarget : target v.mem u.dirs
      (.pte c (pdx (pageVa n)) (ptx (pageVa n))) = some q := by
    rw [target, hpte, hq]
  have hcur : (u.withVm v).curenv = some c := hp.user.run.cur
  rcases h.owned.pageMapAt hp.user.lt hp.user.dirs hva.1
    (hp.user.pages.lt he) he.dirs hva.1
      (validPerm_lt hperm) with
      ⟨v', p, hret, hpp, hw, hst⟩ | ⟨hret, hno⟩ | ⟨p, -, -, -, -, hfirst⟩
  · obtain rfl := Option.some.inj (htarget.symm.trans hpp)
    have hop := h.owned.pageMapAt_opened h.opened hp.user.lt hp.user.dirs hva.1
      hpp (hp.user.pages.lt he)
      he.dirs hva.1 (validPerm_lt hperm) hret hst
    rw [hpte] at hw
    rw [← (mapped_eq_some.mp hq).2] at hst ⊢
    exact .inl ⟨v', sysPageMap_ret hcur resolve_zero hres hva hva hperm hret,
      hw, hop, hst⟩
  · have hno := hno q htarget
    rw [hpte] at hno
    exact .inr ⟨sysPageMap_ret hcur resolve_zero hres hva hva hperm hret, hno⟩
  · exact absurd hfirst h.first_ne_none

/-- Page `n` of the parent is mapped, with a new entry, in the parent or in the
child. -/
theorem stored {fits : Prop} {P' C' : Nat → Word} (hn : n < pdxUTOP * 1024)
    (hpn : mapped (P n) ≠ none) (he : e = c ∨ e = b)
    (hst : Stored L u.dirs [] fits e (pageVa n) w v v') (hfits : fits)
    (hop : Opened v'.mem u.dirs)
    (hw : mapped w = mapped (P n))
    (hP : ∀ m, P' m = if e = c ∧ m = n then w else P m)
    (hC : ∀ m, C' m = if e = b ∧ m = n then w else C m) :
    Duping L u c b k P' C' v' := by
  have hlive : u.Live e := by
    rcases he with rfl | rfl
    · exact hp.user.live
    · exact hp.child
  have hpte : ∀ e' m, e' < L.ndirs → m < pdxUTOP * 1024 →
      pteNo v'.mem u.dirs e' m
      = if e' = e ∧ m = n then w else pteNo v.mem u.dirs e' m := by
    intro e' m he' hm
    rw [hst.pteNo he' hm, ppn_pageVa hn]
  have hmapped : ∀ m q, mapped (P' m) = some q → mapped (P m) = some q := by
    intro m q hq
    rw [hP] at hq
    split at hq
    · rename_i hm
      rwa [hm.2, ← hw]
    · exact hq
  have hparent : ∀ m < pdxUTOP * 1024, pteNo v'.mem u.dirs c m = P' m := by
    intro m hm
    rw [hpte c m hp.user.lt hm, h.parent m hm, hP]
    exact if_congr (and_congr_left fun _ => eq_comm) rfl rfl
  have hslot : ∀ m < pdxUTOP * 1024, Slot.pte c (m / 1024) (m % 1024) ∈
      L.slots := fun m hm =>
    mem_slots.mpr ⟨hp.user.lt, Nat.div_lt_of_lt_mul (by rwa [Nat.mul_comm]),
      Nat.mod_lt _ (by decide)⟩
  have hused : ∀ p, mapped w = some p → ∃ l ∈ L.slots, target v.mem u.dirs l =
      some p := by
    intro p hp
    refine ⟨_, hslot n hn, ?_⟩
    rw [target, ← pteNo, h.parent n hn, ← hw, hp]
  constructor
  case owned => exact hst.owned hfits
  case opened => exact hop
  case parent => exact hparent
  case child =>
    intro m hm
    rw [hpte b m (hp.user.pages.lt hp.child) hm, h.child m hm, hC]
    exact if_congr (and_congr_left fun _ => eq_comm) rfl rfl
  case other =>
    intro e' m he' hec heb hm
    rw [hpte e' m he' hm, if_neg, h.other e' m he' hec heb hm]
    rintro ⟨rfl, -⟩
    exact he.elim hec heb
  case data =>
    intro m hm q hq
    have htarget : target v'.mem u.dirs (.pte c (m / 1024) (m % 1024)) =
        some q := by
      rw [target, ← pteNo, hparent m hm, hq]
    rw [hst.data q (hst.separate.tree.not_nodeOf (hslot m hm) Slot.not_node
      htarget e)]
    exact h.data m hm q (hmapped m q hq)
  case spare =>
    have hva := (userPage_pageVa hn).1
    rcases he with rfl | rfl
    · refine h.spare.other hst hp.user.dirs hp.child.dirs
        (hp.user.pages.lt hp.child) hp.ne ?_ hused
      intro hnone
      rw [pdx_pageVa hn] at hnone
      have hpte := h.parent n hn
      rw [pteNo, pteAt_noTable hp.user.dirs hnone] at hpte
      exact hpn (hpte ▸ mapped_zero)
    · exact h.spare.stored hst hp.child.dirs hva hused (by omega)

/-! ### The steps of the loops -/

section Steps

variable {A : Kern → Prop} {E : UserStop → Kern → Prop}

/-- `vpt[n]` can be read if the page table is there. -/
theorem wp_vpt {Q : Word → Kern → Prop} (hn : n < pdxUTOP * 1024)
    (hpt : present (v.mem.entry (u.envs c).envPgdir (n / 1024)) = true)
    (hQ : Q (P n) (u.withVm v)) :
    Prog.wp (vpt n) Q A E (u.withVm v) := by
  have hi : n / 1024 < pdxUTOP := Nat.div_lt_of_lt_mul (by rwa [Nat.mul_comm])
  have hopen := (h.opened.table c _ (n / 1024) hp.user.dirs hi hpt).1
  have hnum : n = n / 1024 * 1024 + n % 1024 := by omega
  have hpte := h.parent n hn
  rw [pteNo, pteAt_table hp.user.dirs (mapped_of_present hpt)] at hpte
  unfold vpt
  rw [hnum]
  refine wp_window hp.user h.shaped (Nat.lt_trans hi (by decide))
    (Nat.mod_lt _ (by decide))
    (fun _ _ => ?_) fun hno => absurd ⟨hpt, hopen⟩ hno
  rwa [hpte]

/-- A page that is not `0` has a page table. -/
theorem table_of_ne_zero (hn : n < pdxUTOP * 1024) (hP : P n ≠ 0) :
    present (v.mem.entry (u.envs c).envPgdir (n / 1024)) = true := by
  by_contra hno
  have hpte := h.parent n hn
  rw [pteNo, pteAt_noTable hp.user.dirs (mapped_of_absent hno)] at hpte
  exact hP hpte.symm

/-- The test of the loops. -/
theorem wp_pageMapped {Q : Bool → Kern → Prop} (hn : n < pdxUTOP * 1024)
    (hQ : Q (decide (UserPte (P n))) (u.withVm v)) :
    Prog.wp (pageMapped n) Q A E (u.withVm v) := by
  have hi : n / 1024 < 1024 :=
    Nat.lt_trans (Nat.div_lt_of_lt_mul (by rwa [Nat.mul_comm])) (by decide)
  unfold pageMapped
  apply Prog.wp_bind_intro
  refine wp_vpd hp.user h.shaped hi
    (Prog.wp_ite _ (fun hpde => ?_) fun hpde => ?_)
  · -- no page table
    have hP : P n = 0 := by
      by_contra hP
      exact present_iff.mp (h.table_of_ne_zero hp hn hP) hpde
    rw [decide_eq_false fun hu : UserPte (P n) => by
      rw [hP] at hu; cases hu.1] at hQ
    exact Prog.wp_pure_intro hQ
  · have hpt := present_iff.mpr hpde
    apply Prog.wp_bind_intro
    refine h.wp_vpt hp hn hpt (Prog.wp_ite _ (fun hpte => ?_) fun hpte => ?_)
    · rw [decide_eq_false fun hu : UserPte (P n) =>
        present_iff.mp hu.1 hpte] at hQ
      exact Prog.wp_pure_intro hQ
    · apply Prog.wp_bind_intro
      refine h.wp_vpt hp hn hpt (Prog.wp_pure_intro ?_)
      have huser : (P n &&& PTE_U ≠ 0) = UserPte (P n) :=
        propext ⟨fun hu => ⟨present_iff.mpr hpte, hu⟩, fun hu => hu.2⟩
      simpa only [huser] using hQ

/-- Page `n` of the parent is mapped into the child. -/
theorem toChild (hn : n < pdxUTOP * 1024) (hu : UserPte (P n)) (hC : C n = 0)
    (hperm : validPerm perm) :
    (∃ v', sysPageMap 0 (pageVa n) envid (pageVa n) perm (u.withVm v) =
      .ret 0 (u.withVm v')
        ∧ (perm &&& PTE_W ≠ 0 → P n &&& PTE_W ≠ 0)
        ∧ Duping L u c b k P (Function.update C n (remap (P n) perm)) v')
      ∨ (sysPageMap 0 (pageVa n) envid (pageVa n) perm (u.withVm v) =
        .ret (-E_INVAL) (u.withVm v)
        ∧ perm &&& PTE_W ≠ 0 ∧ P n &&& PTE_W = 0) := by
  have hq := mapped_of_present hu.1
  rcases h.mapAt hp hn hq hp.child hp.named hperm with
    ⟨v', hret, hw, hop, hst⟩ | hno
  · refine .inl ⟨v', hret, hw, h.stored hp hn (hq ▸ nofun)
      (.inr rfl) hst ?_ hop ?_ (fun m => ?_) fun m => ?_⟩
    · intro q hq'
      rw [target, pdx_pageVa hn, ptx_pageVa hn, ← pteNo, h.child n hn, hC,
        mapped_zero] at hq'
      cases hq'
    · rw [mapped_remap (validPerm_lt hperm), hq]
    · rw [if_neg fun h => hp.ne h.1]
    · rw [Function.update_apply]
      exact if_congr (by simp) rfl rfl
  · exact .inr hno

/-- Page `n` of the parent is mapped again with `perm`. -/
theorem toParent (hn : n < pdxUTOP * 1024) (hu : UserPte (P n))
    (hperm : validPerm perm)
    (hw : perm &&& PTE_W = 0) :
    ∃ v', sysPageMap 0 (pageVa n) 0 (pageVa n) perm (u.withVm v) =
      .ret 0 (u.withVm v')
      ∧ Duping L u c b k (Function.update P n (remap (P n) perm)) C v' := by
  have hq := mapped_of_present hu.1
  rcases h.mapAt hp hn hq hp.user.live resolve_zero hperm with
    ⟨v', hret, -, hop, hst⟩ | hno
  · refine ⟨v', hret, h.stored hp hn (hq ▸ nofun) (.inl rfl) hst ?_ hop ?_
      (fun m => ?_) fun m => ?_⟩
    · intro q hq' hne
      rw [target, pdx_pageVa hn, ptx_pageVa hn, ← pteNo, h.parent n hn,
        hq] at hq'
      exact absurd (Option.some.inj hq').symm hne
    · rw [mapped_remap (validPerm_lt hperm), hq]
    · rw [Function.update_apply]
      exact if_congr (by simp) rfl rfl
    · rw [if_neg fun h => hp.ne h.1.symm]
  · exact absurd hw hno.2.1

/-- `sharePage` maps the page into the child, or panics if the page is
copy-on-write and not writable. -/
theorem wp_sharePage {Q : Unit → Kern → Prop} (hn : n < pdxUTOP * 1024)
    (hu : UserPte (P n)) (hC : C n = 0)
    (hQ : ∀ v', ¬Refused (P n) → Duping L u c b k P
      (Function.update C n (sharedPte (P n))) v' →
      Q () (u.withVm v'))
    (hE : ∀ fmt args, Refused (P n) → E (.panic fmt args) (u.withVm v)) :
    Prog.wp (sharePage envid n) Q A E (u.withVm v) := by
  have hne : P n ≠ 0 := fun h0 => by
    rw [h0] at hu
    cases hu.1
  have hcur : (u.withVm v).curenv = some c := hp.user.run.cur
  unfold sharePage
  apply Prog.wp_bind_intro
  refine h.wp_vpt hp hn (h.table_of_ne_zero hp hn hne) ?_
  apply Prog.wp_bind_intro
  refine wp_panicIf (fun hno => ?_) fun _ => ?_
  · exact (hno.elim (present_iff.mp hu.1) hu.2).elim
  refine Prog.wp_ite _ (fun hd => ?_) fun hd => ?_
  · rw [← dirty_iff] at hd
    rcases h.toChild hp hn hu hC
      (show validPerm (PTE_W ||| PTE_P ||| PTE_U) by decide) with
      ⟨v', hret, hw, hdup⟩ | ⟨hret, -, hw⟩
    · refine wp_orPanic hret (hQ v' (fun hr => hw (by decide) hr.2.2) ?_)
      rwa [sharedPte, if_pos hu, if_pos hd]
    · exact wp_orPanic_fails hret (by decide) hcur
        (hE _ _ ⟨hu, hd.resolve_right (not_not.mpr hw), hw⟩)
  · rw [← dirty_iff] at hd
    rcases h.toChild hp hn hu hC
      (show validPerm (PTE_P ||| PTE_U) by decide) with
      ⟨v', hret, -, hdup⟩ | ⟨-, hw, -⟩
    · refine wp_orPanic hret (hQ v' (fun hr => hd (.inl hr.2.1)) ?_)
      rwa [sharedPte, if_pos hu, if_neg hd]
    · exact absurd (by decide) hw

/-- `duppage` maps the page copy-on-write or as it is. -/
theorem wp_duppage {Q : Unit → Kern → Prop} (hn : n < pdxUTOP * 1024)
    (hu : UserPte (P n)) (hC : C n = 0)
    (hQ : ∀ v', Duping L u c b k (Function.update P n (dupParent (P n)))
      (Function.update C n (dupChild (P n))) v' → Q () (u.withVm v')) :
    Prog.wp (duppage envid n) Q A E (u.withVm v) := by
  have hne : P n ≠ 0 := fun h0 => by
    rw [h0] at hu
    cases hu.1
  unfold duppage
  apply Prog.wp_bind_intro
  refine h.wp_vpt hp hn (h.table_of_ne_zero hp hn hne) ?_
  apply Prog.wp_bind_intro
  refine wp_panicIf (fun hno => ?_) fun _ => ?_
  · exact (hno.elim (present_iff.mp hu.1) hu.2).elim
  refine Prog.wp_ite _ (fun hd => ?_) fun hd => ?_
  · rw [← dirty_iff] at hd
    have hperm : validPerm (PTE_COW ||| PTE_P ||| PTE_U) := by decide
    rcases h.toChild hp hn hu hC hperm with ⟨v₁, hret₁, -, hdup₁⟩ | ⟨-, hw, -⟩
    · obtain ⟨v₂, hret₂, hdup₂⟩ := hdup₁.toParent hp hn hu hperm (by decide)
      have hret : sysPageMapUpdatePerm 0 (pageVa n) envid (pageVa n)
          (PTE_COW ||| PTE_P ||| PTE_U)
          (u.withVm v) = .ret 0 (u.withVm v₂) := by
        rw [sysPageMapUpdatePerm, Prog.bind_ret hret₁,
          if_neg (by decide), hret₂]
      refine wp_orPanic hret (hQ v₂ ?_)
      rwa [dupParent, dupChild, if_pos ⟨hu, hd⟩, if_pos hu, if_pos hd]
    · exact absurd (by decide) hw
  · rw [← dirty_iff] at hd
    rcases h.toChild hp hn hu hC
      (show validPerm (PTE_P ||| PTE_U) by decide) with
      ⟨v', hret, -, hdup⟩ | ⟨-, hw, -⟩
    · refine wp_orPanic hret (hQ v' ?_)
      rwa [dupParent, dupChild, if_neg fun h => hd h.2, if_pos hu, if_neg hd,
        Function.update_eq_self]
    · exact absurd (by decide) hw

variable (lo hi) in
/-- The first loop of `sfork`. It panics at a page that the kernel refuses to
map writable. -/
theorem wp_shareLoop (hlo : lo ≤ hi) (hhi : hi ≤ pdxUTOP * 1024)
    (hC : ∀ n, lo ≤ n → n < hi → C n = 0)
    (hE : ∀ s fmt args n, lo ≤ n → n < hi → Refused (P n) →
      E (.panic fmt args) s) :
    Prog.wp (forPages lo hi (sharePage envid))
      (fun _ s => (∀ n, lo ≤ n → n < hi → ¬Refused (P n)) ∧ ∃ v',
        s = u.withVm v'
        ∧ Duping L u c b k P (within lo hi (fun n => sharedPte (P n)) C) v') A E
          (u.withVm v) := by
  refine Prog.wp_imp
    (Prog.wp_forUp (fun j s => (∀ n, lo ≤ n → n < lo + j → ¬Refused (P n))
    ∧ ∃ v', s = u.withVm v' ∧ Duping L u c b k P
    (within lo (lo + j) (fun n => sharedPte (P n)) C) v') ?_ ?_)
    (fun _ s hs => ?_) (fun _ h => h) fun _ _ h => h
  · refine ⟨fun n h₁ h₂ => absurd h₁ (by omega), v, rfl, ?_⟩
    rwa [Nat.add_zero, within_self]
  · rintro j _ hj ⟨hno, v', rfl, hv'⟩
    have hn : lo + j < pdxUTOP * 1024 := by omega
    have h0 : within lo (lo + j) (fun n => sharedPte (P n)) C (lo + j) = 0 := by
      rw [within, if_neg (by omega), hC _ (by omega) (by omega)]
    have hmore : ¬Refused (P (lo + j)) → ∀ n, lo ≤ n → n < lo + (j + 1) →
        ¬Refused (P n) := by
      intro hr n h₁ h₂
      by_cases hnj : n = lo + j
      · rwa [hnj]
      · exact hno n h₁ (by omega)
    apply Prog.wp_bind_intro
    refine hv'.wp_pageMapped hp hn (Prog.wp_ite _ (fun hu => ?_) fun hu => ?_)
    · rw [decide_eq_true_eq] at hu
      refine hv'.wp_sharePage hp hn hu h0
        (fun v'' hr hv'' => ⟨hmore hr, v'', rfl, ?_⟩) fun fmt args hr => ?_
      · rwa [within_succ (Nat.le_add_right ..)] at hv''
      · exact hE _ fmt args _ (by omega) (by omega) hr
    · rw [decide_eq_true_eq] at hu
      refine Prog.wp_pure_intro ⟨hmore fun hr => hu hr.1, v', rfl, ?_⟩
      have hsame := within_succ (f := fun n => sharedPte (P n)) (g := C)
        (Nat.le_add_right lo j)
      rw [sharedPte, if_neg hu, ← h0, Function.update_eq_self] at hsame
      rwa [← Nat.add_assoc, ← hsame]
  · rwa [show lo + (hi - lo) = hi by omega] at hs

variable (lo hi) in
/-- The loop of `fork`, and the second loop of `sfork`. -/
theorem wp_dupLoop (hlo : lo ≤ hi) (hhi : hi ≤ pdxUTOP * 1024)
    (hC : ∀ n, lo ≤ n → n < hi → C n = 0) :
    Prog.wp (forPages lo hi (duppage envid))
      (fun _ s => ∃ v', s = u.withVm v'
        ∧ Duping L u c b k (within lo hi (fun n => dupParent (P n)) P)
        (within lo hi (fun n => dupChild (P n)) C) v') A E (u.withVm v) := by
  refine Prog.wp_imp
    (Prog.wp_forUp (fun j s => ∃ v', s = u.withVm v' ∧ Duping L u c b k
    (within lo (lo + j) (fun n => dupParent (P n)) P)
    (within lo (lo + j) (fun n => dupChild (P n)) C) v') ?_ ?_)
    (fun _ s hs => ?_) (fun _ h => h) fun _ _ h => h
  · refine ⟨v, rfl, ?_⟩
    rwa [Nat.add_zero, within_self, within_self]
  · rintro j _ hj ⟨v', rfl, hv'⟩
    have hn : lo + j < pdxUTOP * 1024 := by omega
    have h0 : within lo (lo + j) (fun n => dupChild (P n)) C (lo + j) = 0 := by
      rw [within, if_neg (by omega), hC _ (by omega) (by omega)]
    have hP : within lo (lo + j) (fun n => dupParent (P n)) P (lo + j) =
        P (lo + j) := if_neg (by omega)
    have hnextP := within_succ (f := fun n => dupParent (P n)) (g := P)
      (Nat.le_add_right lo j)
    have hnextC := within_succ (f := fun n => dupChild (P n)) (g := C)
      (Nat.le_add_right lo j)
    rw [Nat.add_assoc] at hnextP hnextC
    apply Prog.wp_bind_intro
    refine hv'.wp_pageMapped hp hn ?_
    rw [hP]
    refine Prog.wp_ite _ (fun hu => ?_) fun hu => ?_
    · rw [decide_eq_true_eq] at hu
      refine hv'.wp_duppage hp hn (by rwa [hP]) h0 fun v'' hv'' =>
        ⟨v'', rfl, ?_⟩
      rwa [hP, hnextP, hnextC] at hv''
    · rw [decide_eq_true_eq] at hu
      refine Prog.wp_pure_intro ⟨v', rfl, ?_⟩
      rw [dupParent, if_neg fun h => hu h.1, ← hP,
        Function.update_eq_self] at hnextP
      rw [dupChild, if_neg hu, ← h0, Function.update_eq_self] at hnextC
      rwa [← hnextP, ← hnextC]
  · rwa [show lo + (hi - lo) = hi by omega] at hs

end Steps

end Parent

end Duping

end

end Jos
