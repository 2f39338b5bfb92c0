import Jos.Kern.History
import Jos.Kern.PageCalls
import Jos.Vm.Space

/-!
# User programs

The library of lib/ runs in user mode: it reads the page tables in the window at
`UVPT`, and everything else it does to an address space is a system call. Its
own variables are not in the modelled memory.
-/

namespace Jos

open Slot (target)

/-- A page that lib/fork.c copies when it is written to. -/
def PTE_COW : Word := 0x800#32

/-- Why a user program comes to an end. -/
inductive UserStop where
  | panic (fmt : String) (args : List Word)
  /-- An access that faults. -/
  | fault (va : Word) (write : Bool)
  | kernel (x : Stop)
deriving DecidableEq

/-- A user program, over the state of the machine while its environment is the
current one. -/
abbrev UserM (α : Type) := Prog Kern UserStop α

/-- `panic` of lib/panic.c, if `c`. -/
def panicIf (c : Prop) [Decidable c] (fmt : String) (args : List Word) :
    UserM Unit :=
  if c then Prog.halt (.panic fmt args) else pure ()

/-- The system call stub of lib/syscall.c: with `check`, a positive result is a
panic. -/
def stub (num : Word) (check : Bool) (call : K Word) : UserM Word := do
  let ret ← Prog.mapStop .kernel call
  panicIf (check ∧ (0 : Word).slt ret) "syscall %d returned %d (> 0)" [num, ret]
  pure ret

namespace Lib

def sysPageAlloc (envid va perm : Word) : UserM Word :=
  stub 4 true (Jos.sysPageAlloc envid va perm)

def sysPageMap (srcenv srcva dstenv dstva perm : Word) : UserM Word :=
  stub 5 true (Jos.sysPageMap srcenv srcva dstenv dstva perm)

def sysPageUnmap (envid va : Word) : UserM Word :=
  stub 6 true (Jos.sysPageUnmap envid va)

/-- `sys_exofork` of inc/lib.h, which does not go through the stub. -/
def sysExofork : UserM Word := Prog.mapStop .kernel Jos.sysExofork

def sysEnvSetStatus (envid status : Word) : UserM Word :=
  stub 8 true (Jos.sysEnvSetStatus envid status)

def sysEnvSetPgfaultUpcall (envid upcall : Word) : UserM Word :=
  stub 10 true (Jos.sysEnvSetPgfaultUpcall envid upcall)

def sysPageMapUpdatePerm (srcenv srcva dstenv dstva perm : Word) : UserM Word :=
  stub 19 true (Jos.sysPageMapUpdatePerm srcenv srcva dstenv dstva perm)

def sysUxstackPgfaultStatus (envid va perm upcall status : Word) : UserM Word :=
  stub 20 true (Jos.sysUxstackPgfaultStatus envid va perm upcall status)

end Lib

/-- Word `n` of the window at `UVPT`. -/
def window (n : Nat) : UserM Word := do
  let s ← Prog.ask
  match userAccess s.vm.mem s.cr3 (windowVa n) false with
  | none => Prog.halt (.fault (windowVa n) false)
  | some p => pure ((s.vm.mem p).load32 (pgoff (windowVa n)))

/-- `vpt[n]`. -/
def vpt (n : Nat) : UserM Word := window n

/-- `vpd[i]`: the window shows the directory where it shows its own page
table. -/
def vpd (i : Nat) : UserM Word := window (ppn UVPT + i)

/-- `memmove((void *) dst, (void *) src, PGSIZE)`, with addresses of pages. -/
def movePage (dst src : Word) : UserM Unit := do
  let s ← Prog.ask
  match userAccess s.vm.mem s.cr3 src false with
  | none => Prog.halt (.fault src false)
  | some q =>
      match userAccess s.vm.mem s.cr3 dst true with
      | none => Prog.halt (.fault dst true)
      | some p => Prog.update fun s => s.withVm { s.vm with
          mem := Function.update s.vm.mem p
            ((s.vm.mem p).copy 0 (s.vm.mem q) 0 PGSIZE) }

/-- Environment `c` runs user code, with its directory loaded. -/
structure InUser (L : Layout) (s : Kern) (c : Nat) : Prop where
  pages : PagesOk L s
  run : Running s c
  cr3 : s.cr3 = (s.envs c).envCr3
  opened : Opened s.vm.mem s.dirs

section

variable {L : Layout} {s s' t : Kern} {c d i j n e pp : Nat}
  {va dst src perm w num r envid dstenvid : Word} {v v' : Vm}
  {check : Bool} {call : K Word} {Q : Word → Kern → Prop} {A : Kern → Prop}
  {E : UserStop → Kern → Prop}

theorem wp_panicIf {p : Prop} [Decidable p] {fmt : String} {args : List Word}
    {Q : Unit → Kern → Prop}
    (hp : p → E (.panic fmt args) s) (hno : ¬p → Q () s) :
    Prog.wp (panicIf p fmt args) Q A E s :=
  Prog.wp_ite _ (fun h => Prog.wp_halt_intro (hp h)) fun h =>
    Prog.wp_pure_intro (hno h)

/-- A system call that returns no positive number. -/
theorem wp_stub (hret : call s = .ret r t)
    (hr : check = true → (0 : Word).slt r = false) (hQ : Q r t) :
    Prog.wp (stub num check call) Q A E s := by
  have hcall : Prog.mapStop UserStop.kernel call s = .ret r t := by
    rw [Prog.mapStop, hret]
  unfold stub
  apply Prog.wp_bind_intro
  refine Prog.wp_ret hcall ?_
  apply Prog.wp_bind_intro
  refine wp_panicIf (fun h => ?_) fun _ => Prog.wp_pure_intro hQ
  rw [hr h.1] at h
  cases h.2

/-! ## System calls on address spaces -/

theorem sysPageAlloc_ret (hc : s.curenv = some c)
    (he : s.resolve c envid true = .ok e)
    (hva : userPage va) (hperm : validPerm perm)
    (hret : pageAllocAt (s.envs e).envPgdir va perm s.vm = .ret r v) :
    sysPageAlloc envid va perm s = .ret r (s.withVm v) := by
  unfold sysPageAlloc
  rw [if_neg (not_not.mpr hva), if_neg (not_not.mpr hperm), withEnv_ok hc he,
    Prog.ask_bind, inVm,
    Prog.zoom_apply, hret]

theorem sysPageMap_ret (hc : s.curenv = some c)
    (he : s.resolve c envid true = .ok e)
    (hd : s.resolve c dstenvid true = .ok d) (hsrc : userPage src)
    (hva : userPage va)
    (hperm : validPerm perm) {x : Except Word Unit}
    (hret : pageMapAt (s.envs e).envPgdir src (s.envs d).envPgdir va perm s.vm =
      .ret x v) :
    sysPageMap envid src dstenvid va perm s
      = .ret (match x with | .error r => r | .ok () => 0) (s.withVm v) := by
  have hrun :
      inVm (pageMapAt (s.envs e).envPgdir src (s.envs d).envPgdir va perm) s
      = .ret x (s.withVm v) := by
    rw [inVm, Prog.zoom_apply, hret]
  unfold sysPageMap
  rw [if_neg (not_not.mpr hsrc), if_neg (not_not.mpr hva),
    if_neg (not_not.mpr hperm),
    withEnv_ok hc he, withEnv_ok hc hd, Prog.ask_bind, Prog.bind_ret hrun]
  cases x <;> rfl

theorem sysPageUnmap_ret (hc : s.curenv = some c)
    (he : s.resolve c envid true = .ok e)
    (hva : userPage va)
    (hret : pageRemove (s.envs e).envPgdir va s.vm = .ret () v) :
    sysPageUnmap envid va s = .ret 0 (s.withVm v) := by
  have hrun : inVm (pageRemove (s.envs e).envPgdir va) s =
      .ret () (s.withVm v) := by
    rw [inVm, Prog.zoom_apply, hret]
  unfold sysPageUnmap
  rw [if_neg (not_not.mpr hva), withEnv_ok hc he, Prog.ask_bind,
    Prog.bind_ret hrun]
  rfl

/-! ## The windows are there in every run -/

/-- The operations on page tables keep the windows. -/
theorem PageOp.opened {op : PageOp} (h : PagesOk L s)
    (ho : Opened s.vm.mem s.dirs)
    (hfits : Fits L s.dirs s.vm.mem) (hop : op.Allowed s)
    (hstep : PageOp.Step s op t) :
    Opened t.vm.mem t.dirs := by
  obtain ⟨r, hret⟩ := hstep
  refine Prog.wp.ret (Q := fun _ t => Opened t.vm.mem t.dirs)
    (A := fun _ => True)
    (E := fun _ _ => True) ?_ hret
  cases op with
  | sysPageAlloc c id va perm =>
      simp only [PageOp.run, Prog.wp_bind, Prog.wp_update]
      unfold Jos.sysPageAlloc
      refine Prog.wp_ite _ (fun _ => Prog.wp_pure_intro (Prog.wp_pure_intro ho))
        fun hva => ?_
      refine Prog.wp_ite _ (fun _ => Prog.wp_pure_intro (Prog.wp_pure_intro ho))
        fun hperm => ?_
      refine wp_withEnv (c := c) rfl (fun _ _ => Prog.wp_pure_intro ho)
        fun e he => ?_
      have hlive : s.Live e := live_of_resolve he hop
      rw [not_not] at hva hperm
      simp only [Prog.wp_bind, Prog.wp_ask, inVm, Prog.wp_zoom]
      rcases h.owned.pageAllocAt_newPage (h.lt hlive) hlive.dirs hva.1
        (validPerm_lt hperm) with
        ⟨v, pp, hv, hnew⟩ | ⟨hv, -⟩
      · exact Prog.wp_ret hv
          (Prog.wp_pure_intro (hnew.opened ho h.owned.dir_lt))
      · exact Prog.wp_ret hv (Prog.wp_pure_intro ho)
  | pageInsert e pp va perm =>
      obtain ⟨he, hva, hperm, k, hk, hdata, hpp⟩ := hop
      rw [← h.ndirs] at hk
      simp only [PageOp.run, Prog.wp_bind, Prog.wp_ask, inVm, Prog.wp_zoom]
      rcases h.owned.pageInsert (.shared hk hdata hpp)
        (h.lt he) he.dirs hva hperm with
        ⟨v, hv, hst⟩ | ⟨-, -, hv⟩
      · exact Prog.wp_ret hv
          (h.owned.pageInsert_opened ho (.shared hk hdata hpp)
          (h.lt he) he.dirs hva hperm hv hst)
      · exact Prog.wp_ret hv ho
  | pageRemove e va =>
      obtain ⟨he, hva, hmapped⟩ := hop
      obtain ⟨q, hq⟩ := Option.ne_none_iff_exists'.mp hmapped
      obtain ⟨v, hv, hst⟩ := h.owned.pageRemove (h.lt he) he.dirs hva hq
      simp only [PageOp.run, Prog.wp_bind, Prog.wp_ask, inVm, Prog.wp_zoom]
      refine Prog.wp_ret hv
        (Prog.wp_pure_intro (hst.opened ho h.owned.dir_lt fun d hd hnone => ?_))
      rw [target_pte_none hd hnone] at hq
      cases hq
  | envAlloc pid =>
      simp only [PageOp.run, Prog.wp_bind]
      cases hfirst : s.envFreeList.first with
      | none =>
          obtain ⟨x, hx⟩ := envAlloc_error pid (r := 0) (.inl hfirst)
          exact Prog.wp_ret hx (Prog.wp_pure_intro ho)
      | some e =>
          obtain ⟨he, hfree, -⟩ := h.env.alloced hfirst pid (0, 0) s.vm
          have hnone : s.dirs e = none := if_neg fun hl => hl.2 hfree
          rcases h.owned.setupPgdir (h.ndirs ▸ he) hnone with
            ⟨d, -, hd, -, -, hfresh⟩ | ⟨herr, -⟩
          · refine Prog.wp_ret (envAlloc_ret hfirst hd) (Prog.wp_pure_intro ?_)
            rw [dirs_alloced he]
            exact ho.newPgdir h.owned.dir_lt hfresh
          · obtain ⟨x, hx⟩ := envAlloc_error pid (.inr herr)
            exact Prog.wp_ret hx (Prog.wp_pure_intro ho)
  | envFree e =>
      obtain ⟨v, hv, -, hframe⟩ := h.freed hop hfits
      simp only [PageOp.run, Prog.wp_bind]
      refine Prog.wp_ret (envFree_ret hv) (Prog.wp_pure_intro ?_)
      rw [dirs_freed]
      exact ho.drop h.owned.dir_lt hframe

/-- In every run of page operations from the state that `i386_vm_init` and
`env_init` leave, every environment can read its page tables in the window and
reach memory through them. -/
theorem opened_of_runs {b : BootParams} {s₀ s₁ : Kern}
    (hboot : VmBooted b s₀.vm)
    (hinit : envInit s₀ = .ret () s₁)
    (hrun : Runs PageOp.Step
      (fun s op => Fits (bootLayout b s₀.vm) s.dirs s.vm.mem
      ∧ op.Allowed s) s₁ s) : PagesOk (bootLayout b s₀.vm) s
      ∧ Opened s.vm.mem s.dirs := by
  have hok := hboot.pagesOk hinit
  have hnone : ∀ e d, s₁.dirs e = some d → False := fun e d hd =>
    (envInv_of_envInit hinit).2 e (dirs_eq_some.mp hd).1
  have hopen : Opened s₁.vm.mem s₁.dirs :=
    ⟨fun e d hd => (hnone e d hd).elim, fun e d _ hd => (hnone e d hd).elim⟩
  refine hrun.invariant (I := fun s => PagesOk (bootLayout b s₀.vm) s
    ∧ Opened s.vm.mem s.dirs)
    (fun t op u ht hP hstep => ?_) ⟨hok, hopen⟩
  obtain ⟨r, u', hu', hdone⟩ := PageOp.run_spec ht.1 hP.1 hP.2
  obtain ⟨r', hr'⟩ := hstep
  cases hu'.symm.trans hr'
  exact ⟨hdone.pages, PageOp.opened ht.1 ht.2 hP.1 hP.2 ⟨_, hr'⟩⟩

/-! ## What the windows show -/

namespace InUser

theorem live (h : InUser L s c) : s.Live c := ⟨h.run.lt, h.run.runnable ▸ nofun⟩

theorem dirs (h : InUser L s c) : s.dirs c = some (s.envs c).envPgdir :=
  h.live.dirs

theorem shaped (h : InUser L s c) : Shaped L s.dirs s.vm :=
  h.pages.owned.shaped h.opened

theorem cr3_eq (h : InUser L s c) : s.cr3 = page2pa (s.envs c).envPgdir :=
  h.cr3.trans (h.pages.cr3 c h.live)

theorem lt (h : InUser L s c) : c < L.ndirs := h.pages.lt h.live

/-- Memory has changed, and `c` still runs. -/
theorem withVm (h : InUser L s c) (ho : Owned L s.dirs [] v)
    (hop : Opened v.mem s.dirs) :
    InUser L (s.withVm v) c :=
  ⟨h.pages.withVm ho, ⟨h.run.cur, h.run.lt, h.run.runnable⟩, h.cr3, hop⟩

end InUser

/-- The memory is `v`, and `c` still runs user code on its directory. -/
theorem wp_window {Q : Word → Kern → Prop} (h : InUser L s c)
    (hv : Shaped L s.dirs v) (hi : i < 1024)
    (hj : j < 1024) (hQ : present (v.mem.entry (s.envs c).envPgdir i) = true →
      v.mem.entry (s.envs c).envPgdir i &&& PTE_U ≠ 0 →
      Q (v.mem.entry (ppn (v.mem.entry (s.envs c).envPgdir i)) j) (s.withVm v))
    (hE : ¬(present (v.mem.entry (s.envs c).envPgdir i) = true
        ∧ v.mem.entry (s.envs c).envPgdir i &&& PTE_U ≠ 0) →
      E (.fault (windowVa (i * 1024 + j)) false) (s.withVm v)) :
    Prog.wp (window (i * 1024 + j)) Q A E (s.withVm v) := by
  have hacc := hv.opened.userAccess_window h.dirs (hv.dir_pow h.dirs) hi hj
  rw [← h.cr3_eq] at hacc
  unfold window
  apply Prog.wp_ask_bind
  change Prog.wp (match userAccess v.mem s.cr3 (windowVa (i * 1024 + j))
    false with
    | none => Prog.halt (UserStop.fault (windowVa (i * 1024 + j)) false)
    | some p =>
        pure ((v.mem p).load32 (pgoff (windowVa (i * 1024 + j))))) _ _ _ _
  rw [hacc, pgoff_windowVa hi hj]
  by_cases hp : present (v.mem.entry (s.envs c).envPgdir i) = true
      ∧ v.mem.entry (s.envs c).envPgdir i &&& PTE_U ≠ 0
  · rw [if_pos hp]
    exact Prog.wp_pure_intro (hQ hp.1 hp.2)
  · rw [if_neg hp]
    exact Prog.wp_halt_intro (hE hp)

/-- `vpd[i]` is entry `i` of the directory. -/
theorem wp_vpd {Q : Word → Kern → Prop} (h : InUser L s c)
    (hv : Shaped L s.dirs v) (hi : i < 1024)
    (hQ : Q (v.mem.entry (s.envs c).envPgdir i) (s.withVm v)) :
    Prog.wp (vpd i) Q A E (s.withVm v) := by
  have hwin := hv.opened.window c _ h.dirs
  have hppn : ppn (page2pa (s.envs c).envPgdir ||| PTE_P ||| PTE_U) =
      (s.envs c).envPgdir := by
    rw [BitVec.or_assoc]
    exact ppn_page2pa_or (hv.dir_pow h.dirs) (by decide)
  have hnum : ppn UVPT + i = pdx UVPT * 1024 + i := rfl
  unfold vpd
  rw [hnum]
  refine wp_window h hv (by decide) hi (fun _ _ => ?_) fun hno =>
    absurd ⟨?_, ?_⟩ hno
  · rw [hwin, hppn]
    exact hQ
  · rw [hwin, present_iff, flag_P.or_iff, flag_P.page2pa_or]
    exact .inl (by decide)
  · rw [hwin, flag_U.or_iff]
    exact .inr (by decide)

end

/-! ## A small instance -/

/-- The memory of the small kernel, with the windows of its directories. -/
def smallUserVm (k : Nat) : Vm := { smallVm k with
  mem := fun p => if 400 ≤ p ∧ p < 404 then
      ((smallVm k).mem p).store32 (4 * pdx UVPT) (page2pa p ||| PTE_P ||| PTE_U)
    else (smallVm k).mem p }

/-- The small kernel, whose environments can read their page tables. -/
def smallUserKern (k : Nat) : Kern := (smallKern k).withVm (smallUserVm k)

theorem smallUserVm_entry {k p i : Nat} : (smallUserVm k).mem.entry p i
    = if (400 ≤ p ∧ p < 404) ∧ i = pdx UVPT then page2pa p ||| PTE_P |||
      PTE_U else 0 := by
  have hzero : ∀ j, (smallVm k).mem.entry p j = 0 := fun j => by
    simp [PhysMem.entry, Bytes.load32, smallVm]
  unfold PhysMem.entry smallUserVm
  dsimp only
  by_cases hp : 400 ≤ p ∧ p < 404
  · rw [if_pos hp]
    by_cases hi : i = pdx UVPT
    · rw [if_pos ⟨hp, hi⟩, hi, Bytes.load32_store32]
    · rw [if_neg fun h => hi h.2, Bytes.load32_store32_of_ne (by omega)]
      exact hzero i
  · rw [if_neg hp, if_neg fun h => hp h.1]
    exact hzero i

/-- Nothing is mapped. -/
theorem smallUserVm_link {k p i : Nat} (hi : i < pdxUTOP) :
    (smallUserVm k).mem.link p i = none := by
  rw [PhysMem.link, smallUserVm_entry, if_neg, mapped_zero]
  rintro ⟨-, rfl⟩
  exact absurd hi (by decide)

theorem smallUserKern_target {k : Nat} {l : Slot} (hl : l ∈ slots NENV) :
    target (smallUserKern k).vm.mem (smallUserKern k).dirs l
      = target (smallKern k).vm.mem (smallKern k).dirs l := by
  have hslot := mem_slots.mp hl
  cases l with
  | dir e => rfl
  | pde e i =>
      refine target_pde_congr rfl fun d _ => ?_
      exact (smallUserVm_link hslot.2).trans (smallVm_link k d i).symm
  | pte e i j =>
      refine congrArg mapped (pteAt_congr rfl (fun d _ => ?_)
        fun d pt _ hpt => ?_)
      · exact (smallUserVm_link hslot.2.1).trans (smallVm_link k d i).symm
      · exact absurd (hpt.symm.trans (smallVm_link k d i)) nofun

theorem smallUserKern_inUser {k : Nat} (hk : k ≤ 10000) :
    InUser (smallLayout k hk) (smallUserKern k) 2 := by
  have hdirs : (smallUserKern k).dirs = (smallKern k).dirs := rfl
  have hok := smallKern_pagesOk hk
  constructor
  case pages => exact hok.withVm (hok.owned.congr rfl rfl rfl rfl fun l hl =>
    smallUserKern_target hl)
  case run => exact ⟨rfl, by decide, rfl⟩
  case cr3 => rfl
  case opened =>
    constructor
    · intro e d hd
      rw [hdirs, smallKern_dirs] at hd
      change (smallUserVm k).mem.entry d (pdx UVPT) = _
      rw [smallUserVm_entry, if_pos]
      split at hd
      · obtain rfl := Option.some.inj hd
        omega
      · cases hd
    · intro e d i _ hi hp
      exact absurd hp (mapped_eq_none.mp (smallUserVm_link hi))

end Jos
