import Jos.Ipc.Delivery
import Jos.Kern.PageCalls
import Jos.Kern.Switch
import Jos.User.Frame
import Jos.Vm.Guard

/-!
# Protection of memory

What every trap does to memory, on behalf of the environment that runs:
`Confined` is the effect on the address spaces that it does not control, and
`Guarded` the invariant that keeps free pages, page tables and the kernel out of
the reach of user code. The one way to break it is a mapping call that finds no
page for a page table: it frees the page that it was to map.
-/

namespace Jos

open Slot (target)

/-- The page allocator is consistent, and no directory lets user code write at
`UTOP` or above. -/
structure Guarded (L : Layout) (s : Kern) : Prop where
  pages : PagesOk L s
  halved : Halved L s.dirs s.vm.mem

/-- The `sys_ipc_try_send` of `c` is to map a page for `e`. -/
structure Kern.Sends (s : Kern) (c e : Nat) : Prop where
  call : (s.envs c).envTf.sysNo = some .ipcTrySend
  dst : s.resolve c (s.envs c).envTf.a1 false = .ok e
  ready : (s.envs e).envIpcRecving = true ∧ (s.envs e).envIpcFrom = 0
  dstva : (s.envs e).envIpcDstva < UTOP
  srcva : userPage (s.envs c).envTf.a3
  perm : validPerm (s.envs c).envTf.a4

/-- The `sys_ipc_try_send` of `c` returns 0 and maps a page for `e`. -/
structure Kern.Gives (s : Kern) (c e : Nat) : Prop extends SendsTo s c e where
  dstva : (s.envs e).envIpcDstva < UTOP
  srcva : userPage (s.envs c).envTf.a3

/-- The call finds no page for a page table and frees the page that is to be
mapped. -/
def MapCall.Fails (a : MapCall) (s : Kern) : Prop :=
  ∃ src dst, a.Names s src dst ∧ InsertFails s src a.srcva dst a.dstva a.perm

/-- The `sys_page_map` with the arguments that `c` passes. -/
def Kern.mapCall (s : Kern) (c : Nat) : MapCall where
  c := c
  srcenvid := (s.envs c).envTf.a1
  srcva := (s.envs c).envTf.a2
  dstenvid := (s.envs c).envTf.a3
  dstva := (s.envs c).envTf.a4
  perm := (s.envs c).envTf.a5

/-- The second mapping of `SYS_page_map_update_perm`. -/
def Kern.mapBack (s : Kern) (c : Nat) : MapCall :=
  { s.mapCall c with dstenvid := (s.envs c).envTf.a1 }

/-- The trap of `c` is a call that is to map a page where there is no page
table, and no page is free. -/
inductive Starves (s : Kern) (c : Nat) : Prop where
  | map (hno : (s.envs c).envTf.sysNo = some .pageMap)
      (h : (s.mapCall c).Fails s)
  | mapFirst (hno : (s.envs c).envTf.sysNo = some .pageMapUpdatePerm)
      (h : (s.mapCall c).Fails s)
  | mapBack {r : Word} {v : Vm}
      (hno : (s.envs c).envTf.sysNo = some .pageMapUpdatePerm)
      (hfirst : (s.mapCall c).run s = .ret r (s.withVm v)) (hr : ¬r.slt 0)
      (h : (s.mapBack c).Fails (s.withVm v))
  | send {e : Nat} (hsend : s.Sends c e)
      (h : InsertFails s c (s.envs c).envTf.a3 e (s.envs e).envIpcDstva
      (s.envs c).envTf.a4)

/-- What handling a trap of `c` does to memory. Where the environments that `c`
does not control map something else afterwards, they were receiving a page. -/
structure Confined (L : Layout) (c : Nat) (s t : Kern) : Prop where
  guarded : Guarded L t
  kernel : ∀ p, ¬L.User p → t.vm.mem p = s.vm.mem p
  dir : ∀ e, s.Live e → ¬s.Controls c e → t.dirs e = s.dirs e
  pde : ∀ e d i, s.dirs e = some d → ¬s.Controls c e →
    t.vm.mem.entry d i = s.vm.mem.entry d i
    ∨ s.Gives c e ∧ i = pdx (s.envs e).envIpcDstva ∧ s.vm.mem.link d i = none
  pte : ∀ e i j, s.Live e → ¬s.Controls c e → i < pdxUTOP → j < NPTENTRIES →
    pteAt t.vm.mem t.dirs e i j = pteAt s.vm.mem s.dirs e i j
      ∨ s.Gives c e ∧ i = pdx (s.envs e).envIpcDstva
      ∧ j = ptx (s.envs e).envIpcDstva
  data : ∀ e i j p, s.Live e → ¬s.Controls c e → i < pdxUTOP → j < NPTENTRIES →
    target s.vm.mem s.dirs (.pte e i j) = some p → t.vm.mem p = s.vm.mem p
      ∨ CanWrite s.vm.mem s.dirs c p
  apart : ∀ p, (∃ l ∈ L.slots, target s.vm.mem s.dirs l = some p) →
    (∀ l ∈ L.slots, target s.vm.mem s.dirs l = some p → ¬s.Controls c l.env) →
    ∀ k ∈ L.slots, target t.vm.mem t.dirs k = some p →
    target s.vm.mem s.dirs k = some p

/-- The program `p`, run for a trap of `c`, leaves the other environments
alone. -/
def Confines {α : Type} (L : Layout) (c : Nat) (s : Kern) (p : K α) : Prop :=
  Prog.wp p (fun _ t => Confined L c s t) (fun t => Confined L c s t)
    (fun _ _ => True) s

/-- The address spaces of `t` are those of `s`. -/
structure SameSpaces (s t : Kern) : Prop where
  ids : SameIds s t
  vm : t.vm = s.vm
  pgdir : ∀ d, (t.envs d).envPgdir = (s.envs d).envPgdir
  cr3 : ∀ d, (t.envs d).envCr3 = (s.envs d).envCr3

section

variable {α : Type} {L : Layout} {s s₁ t u : Kern} {c d e i j p : Nat}
  {r va id perm : Word} {v : Vm}
  {m : PhysMem}

/-! ## The same address spaces -/

namespace SameSpaces

theorem refl (s : Kern) : SameSpaces s s :=
  ⟨.refl s, rfl, fun _ => rfl, fun _ => rfl⟩

theorem setEnv (h : SameSpaces s t) {f : Env → Env}
    (hfree : (f (t.envs e)).envStatus = .free ↔ (t.envs e).envStatus = .free)
    (hid : (f (t.envs e)).envId = (t.envs e).envId)
    (hpar : (f (t.envs e)).envParentId = (t.envs e).envParentId)
    (hdir : (f (t.envs e)).envPgdir = (t.envs e).envPgdir)
    (hcr3 : (f (t.envs e)).envCr3 = (t.envs e).envCr3) :
    SameSpaces s (t.setEnv e f) where
  ids := h.ids.setEnv hfree hid hpar
  vm := h.vm
  pgdir d := (Kern.setEnv_proj Env.envPgdir hdir).trans (h.pgdir d)
  cr3 d := (Kern.setEnv_proj Env.envCr3 hcr3).trans (h.cr3 d)

/-- A live environment changes and stays live. -/
theorem setLive (h : SameSpaces s t) {f : Env → Env}
    (he : (s.envs e).envStatus ≠ .free)
    (hf : (f (t.envs e)).envStatus ≠ .free)
    (hid : (f (t.envs e)).envId = (t.envs e).envId)
    (hpar : (f (t.envs e)).envParentId = (t.envs e).envParentId)
    (hdir : (f (t.envs e)).envPgdir = (t.envs e).envPgdir)
    (hcr3 : (f (t.envs e)).envCr3 = (t.envs e).envCr3) :
    SameSpaces s (t.setEnv e f) :=
  h.setEnv (iff_of_false hf fun hfree => he ((h.ids.free e).mp hfree)) hid
    hpar hdir hcr3

theorem runOn (h : SameSpaces s t) : SameSpaces s (t.runOn e) where
  ids := {
    id := fun d => (Kern.runOn_proj Env.envId fun _ _ => rfl).trans (h.ids.id d)
    parent := fun d => (Kern.runOn_proj Env.envParentId fun _ _ => rfl).trans
      (h.ids.parent d)
    free := fun d => (Iff.of_eq (Kern.runOn_proj (·.envStatus = .free)
      fun _ _ => rfl)).trans (h.ids.free d)
    list := Kern.runOn_envFreeList.trans h.ids.list }
  vm := Kern.runOn_vm.trans h.vm
  pgdir d := (Kern.runOn_proj Env.envPgdir fun _ _ => rfl).trans (h.pgdir d)
  cr3 d := (Kern.runOn_proj Env.envCr3 fun _ _ => rfl).trans (h.cr3 d)

theorem dropCur (h : SameSpaces s t) : SameSpaces s t.dropCur :=
  ⟨⟨h.ids.id, h.ids.parent, h.ids.free, h.ids.list⟩, h.vm, h.pgdir, h.cr3⟩

theorem dirs (h : SameSpaces s t) : t.dirs = s.dirs :=
  dirs_congr h.ids.free h.pgdir

theorem pagesOk (h : SameSpaces s t) (hs : PagesOk L s) : PagesOk L t :=
  hs.congr (h.ids.envInv hs.env) h.vm h.ids.free h.pgdir h.cr3

theorem guarded (h : SameSpaces s t) (hs : Guarded L s) : Guarded L t := by
  refine ⟨h.pagesOk hs.pages, ?_⟩
  rw [h.dirs, h.vm]
  exact hs.halved

end SameSpaces

/-! ## Effects -/

theorem Kern.Live.dirs_ne_none (h : s.Live e) : s.dirs e ≠ none := by
  rw [h.dirs]
  exact Option.some_ne_none _

namespace Confined

/-- A change on behalf of environments that `c` controls. -/
theorem of_altered (hg : Guarded L t)
    (h : Altered L (s.Controls c) (CanWrite s.vm.mem s.dirs c) s.dirs t.dirs
    s.vm.mem t.vm.mem) : Confined L c s t where
  guarded := hg
  kernel := h.kernel
  dir _ he hno := h.dir (hg.pages.ndirs ▸ he.1) hno he.dirs_ne_none
  pde e d i hd hno := .inl (h.pde e d i hd hno)
  pte e i j he hno hi _ :=
    .inl (h.pte e i j (hg.pages.ndirs ▸ he.1) hi hno he.dirs_ne_none)
  data e i j p he hno hi hj hp :=
    h.data (.pte e i j) (pte_mem (hg.pages.ndirs ▸ he.1) hi hj)
      Slot.not_node hno p hp
  apart := h.apart

/-- Environments change, but no address space. -/
theorem congr (h : Confined L c s t) (hsame : SameSpaces t u) :
    Confined L c s u where
  guarded := hsame.guarded h.guarded
  kernel := by
    rw [hsame.vm]
    exact h.kernel
  dir := by
    rw [hsame.dirs]
    exact h.dir
  pde := by
    rw [hsame.vm]
    exact h.pde
  pte := by
    rw [hsame.vm, hsame.dirs]
    exact h.pte
  data := by
    rw [hsame.vm]
    exact h.data
  apart := by
    rw [hsame.vm, hsame.dirs]
    exact h.apart

theorem quiet (hg : Guarded L s) (hsame : SameSpaces s t) : Confined L c s t :=
  congr (of_altered hg .refl) hsame

end Confined

theorem confines_pure {a : α} (hg : Guarded L s) :
    Confines L c s (pure a : K α) :=
  Prog.wp_pure_intro (.quiet hg (.refl s))

/-- `sched_yield` after an effect. -/
theorem SameSpaces.yield {Q : α → Kern → Prop} (h : SameSpaces s t) :
    Prog.wp (schedYield : K α) Q (fun u => SameSpaces s u)
      (fun _ _ => True) t :=
  wp_schedYield (fun _ _ _ => h.runOn) trivial

/-- After a handler returns, `trap` resumes some environment. -/
theorem SameSpaces.resume (h : SameSpaces s t) :
    Prog.wp Jos.resume (fun _ u => SameSpaces s u) (fun u => SameSpaces s u)
      (fun _ _ => True) t := by
  unfold Jos.resume
  apply Prog.wp_ask_bind
  cases t.curenv with
  | none => exact h.yield
  | some e =>
      exact Prog.wp_ite _ (fun _ => wp_envRun h.runOn) fun _ => h.yield

theorem Confined.yield {Q : α → Kern → Prop} (h : Confined L c s t) :
    Prog.wp (schedYield : K α) Q (fun u => Confined L c s u)
      (fun _ _ => True) t :=
  wp_schedYield (fun _ _ _ => h.congr (SameSpaces.refl t).runOn) trivial

theorem confines_withEnv (hg : Guarded L s) (hc : s.curenv = some c) {b : Bool}
    {f : Nat → K Word}
    (hok : ∀ e, s.resolve c id b = .ok e → Confines L c s (f e)) :
    Confines L c s (withEnv id b f) :=
  wp_withEnv hc (fun _ _ => .quiet hg (.refl s)) hok

theorem confines_ite {q : Prop} [Decidable q] {f g : K α}
    (hf : q → Confines L c s f)
    (hno : ¬q → Confines L c s g) : Confines L c s (if q then f else g) :=
  Prog.wp_ite _ hf hno

/-! ## Stores of the kernel -/

theorem Guarded.lt_pow (h : Guarded L s) (he : s.Live e) :
    (s.envs e).envPgdir < 2 ^ 20 :=
  Owned.lt_pow (h.pages.owned.tree.user_of_nodeOf
    (nodeOf_dir (h.pages.lt he) he.dirs))

section Push

variable {dirs : Nat → Option Nat} {out : List Nat} {x : Word}
  {y : BitVec 8} {v' : Vm}

/-- The kernel's stores below `UTOP` go to pages that user code may write. -/
theorem kstore8_stores (hd : dirs c = some d) (hlt : d < 2 ^ 20)
    (hva : va < UTOP)
    (h : kstore8 (page2pa d) va y v = .ret () v') :
    Stores dirs c v.mem v'.mem ∧ v' = { v with mem := v'.mem } := by
  unfold kstore8 at h
  rw [Prog.ask_bind] at h
  cases htr : translate v.mem (page2pa d) va with
  | none =>
      rw [htr] at h
      cases h
  | some x =>
      obtain ⟨p, flags⟩ := x
      rw [htr] at h
      dsimp only at h
      split at h
      · cases h
      · rename_i hw
        cases h
        refine ⟨fun q => ?_, rfl⟩
        by_cases hq : q = p
        · subst hq
          exact .inr (canWrite_of_translate hd hlt hva htr hw)
        · exact .inl (Function.update_of_ne hq ..)

/-- The stores that a run of them comes to. -/
structure KernelStores (L : Layout) (dirs : Nat → Option Nat) (c : Nat)
    (v v' : Vm) : Prop where
  stores : Stores dirs c v.mem v'.mem
  same : v' = { v with mem := v'.mem }
  tree : Tree L (target v'.mem dirs)

theorem KernelStores.refl (ht : Tree L (target v.mem dirs)) :
    KernelStores L dirs c v v :=
  ⟨.refl, rfl, ht⟩

theorem KernelStores.step (h : KernelStores L dirs c v v')
    (ht : Tree L (target v.mem dirs)) (hc : c < L.ndirs)
    (hd : dirs c = some d) (hlt : d < 2 ^ 20) (hva : va < UTOP) {w : Vm}
    (hret : kstore8 (page2pa d) va y v' = .ret () w) :
    KernelStores L dirs c v w := by
  obtain ⟨hs, hw⟩ := kstore8_stores hd hlt hva hret
  refine ⟨h.stores.trans hs ht hc, ?_, h.tree.congr fun k hk =>
    hs.target_eq h.tree hc hk⟩
  rw [hw, h.same]

theorem KernelStores.word (h : KernelStores L dirs c v v')
    (ht : Tree L (target v.mem dirs)) (hc : c < L.ndirs)
    (hd : dirs c = some d) (hlt : d < 2 ^ 20)
    (hva : va.toNat + 4 ≤ UTOP.toNat) {w : Vm}
    (hret : kstore32 (page2pa d) va x v' = .ret () w) :
    KernelStores L dirs c v w := by
  have hu : UTOP.toNat = 0xEEC00000 := rfl
  have hbelow : ∀ k : Word, k.toNat < 4 → va + k < UTOP := by
    intro k hk
    show (va + k).toNat < UTOP.toNat
    rw [BitVec.toNat_add]
    omega
  have hfirst : va < UTOP := by
    show va.toNat < UTOP.toNat
    omega
  unfold kstore32 at hret
  obtain ⟨_, v₁, h₁, hret⟩ := Prog.bind_eq_ret.mp hret
  obtain ⟨_, v₂, h₂, hret⟩ := Prog.bind_eq_ret.mp hret
  obtain ⟨_, v₃, h₃, h₄⟩ := Prog.bind_eq_ret.mp hret
  exact (((h.step ht hc hd hlt hfirst h₁).step ht hc hd hlt
    (hbelow 1 (by decide)) h₂).step ht hc hd hlt
    (hbelow 2 (by decide)) h₃).step ht hc hd hlt (hbelow 3 (by decide)) h₄

theorem KernelStores.words {stores : List (Word × Word)}
    (h : KernelStores L dirs c v v')
    (ht : Tree L (target v.mem dirs)) (hc : c < L.ndirs) (hd : dirs c = some d)
    (hlt : d < 2 ^ 20)
    (hva : ∀ y ∈ stores, (va + y.1).toNat + 4 ≤ UTOP.toNat) {w : Vm}
    (hret : (stores.forM fun y => kstore32 (page2pa d) (va + y.1) y.2) v' =
      .ret () w) :
    KernelStores L dirs c v w := by
  induction stores generalizing v' with
  | nil =>
      cases hret
      exact h
  | cons y stores ih =>
      obtain ⟨_, v₁, h₁, hret⟩ := Prog.bind_eq_ret.mp hret
      exact ih (h.word ht hc hd hlt (hva y (List.mem_cons_self ..)) h₁)
        (fun z hz => hva z (List.mem_cons_of_mem _ hz)) hret

/-- The frame of an upcall lies below `UTOP`, wherever the stack pointer was. -/
theorem utfAddr_lt (esp : Word) : (utfAddr esp).toNat + 52 ≤ UTOP.toNat := by
  have hu : UTOP.toNat = 0xEEC00000 := rfl
  have hx : UXSTACKTOP = UTOP := rfl
  have hw : (UTOP - BitVec.ofNat 32 SIZEOF_STRUCT_TRAPFRAME).toNat =
      0xEEC00000 - 68 := rfl
  unfold utfAddr
  rw [hx, hu]
  split
  · rename_i hin
    have hlow : (UTOP - 0x1000#32).toNat ≤ esp.toNat := hin.2
    have hhigh : esp.toNat ≤ (UTOP - 1).toNat := hin.1
    rw [show (UTOP - 0x1000#32).toNat = 0xEEC00000 - 0x1000 from rfl] at hlow
    rw [show (UTOP - 1).toNat = 0xEEC00000 - 1 from rfl] at hhigh
    rw [BitVec.toNat_sub, BitVec.toNat_sub, show (4 : Word).toNat = 4 from rfl,
      show (BitVec.ofNat 32 SIZEOF_STRUCT_TRAPFRAME).toNat = 68 from rfl]
    omega
  · rw [hw]
    omega

/-- The frame of an upcall is stored to pages that user code may write. -/
theorem pushUtf_stores (ho : Owned L dirs out v) (hc : c < L.ndirs)
    (hd : dirs c = some d) (hlt : d < 2 ^ 20)
    {tf : Trapframe} (hret : pushUtf (page2pa d) (utfAddr tf.tfEsp) tf va v =
      .ret () v') :
    KernelStores L dirs c v v' := by
  rw [pushUtf_eq] at hret
  refine (KernelStores.refl ho.tree).words ho.tree hc hd hlt
    (fun y hy => ?_) hret
  obtain ⟨hmod, hoff⟩ := utfStores_fit hy
  have hutf := utfAddr_lt tf.tfEsp
  have hu : UTOP.toNat = 0xEEC00000 := rfl
  rw [BitVec.toNat_add]
  omega

end Push

/-- A frame is pushed for `c`. -/
theorem Guarded.pushUtf (h : Guarded L s) (hc : s.Live c) {tf : Trapframe}
    (hret : Jos.pushUtf (s.envs c).envCr3 (utfAddr tf.tfEsp) tf va s.vm =
      .ret () v) :
    Confined L c s (s.withVm v) := by
  have hlt := h.pages.lt hc
  rw [h.pages.cr3 c hc] at hret
  have hs := pushUtf_stores h.pages.owned hlt hc.dirs (h.lt_pow hc) hret
  have hdirs : (s.withVm v).dirs = s.dirs := rfl
  refine .of_altered ⟨h.pages.withVm ?_, ?_⟩ ?_
  · rw [hs.same]
    exact h.pages.owned.stores hlt hs.stores
  · exact h.halved.frame h.pages.owned.dir_lt
      (hs.stores.frame (e := c) h.pages.owned.tree hlt h.pages.owned.dir_lt)
  · exact hs.stores.altered h.pages.owned.tree hlt h.pages.owned.dir_lt

/-! ## Page tables -/

/-- The page tables changed on behalf of the environments in `mine`. -/
structure Rewired (L : Layout) (mine W : Nat → Prop) (s : Kern) (v : Vm) :
    Prop where
  guarded : Guarded L (s.withVm v)
  altered : Altered L mine W s.dirs s.dirs s.vm.mem v.mem

section Rewire

variable {mine W : Nat → Prop} {w srcva dstva : Word} {src dst : Nat}
  {x : Except Word Unit} {a : MapCall}

theorem Rewired.refl (h : Guarded L s) : Rewired L mine W s s.vm := ⟨h, .refl⟩

theorem Rewired.confined
    (h : Rewired L (s.Controls c) (CanWrite s.vm.mem s.dirs c) s v) :
    Confined L c s (s.withVm v) := .of_altered h.guarded h.altered

/-- Without a counter at its limit, the page that an entry maps can lose a
reference. -/
theorem Guarded.countable (h : Guarded L s) (hf : Fits L s.dirs s.vm.mem)
    (he : s.Live e) (hva : va < UTOP)
    (hp : target s.vm.mem s.dirs (.pte e (pdx va) (ptx va)) = some p) :
    Countable L s.dirs s.vm.mem p :=
  hf p (h.pages.owned.user
    (pte_mem (h.pages.lt he) (pdx_lt_of_lt_UTOP hva) (ptx_lt va)) hp)

theorem Guarded.patched (h : Guarded L s) (ho : Owned L s.dirs [] v)
    (he : s.Live e)
    (hp : Patched L s.dirs e va w s.vm.mem v.mem) (hmine : mine e)
    (hw : ∀ p, mapped w = some p →
      (∀ l ∈ L.slots, target s.vm.mem s.dirs l ≠ some p)
        ∨ ∃ l ∈ L.slots, mine l.env ∧ target s.vm.mem s.dirs l = some p) :
        Rewired L mine W s v where
  guarded := ⟨h.pages.withVm ho, h.halved.frame h.pages.owned.dir_lt hp.frame⟩
  altered := hp.altered h.pages.owned.tree h.pages.owned.dir_lt he.dirs hmine hw

/-- `sys_page_alloc` on a checked address. -/
theorem Guarded.allocAt (h : Guarded L s) (hf : Fits L s.dirs s.vm.mem)
    (he : s.Live e) (hmine : mine e)
    (hva : userPage va) (hperm : validPerm perm)
    (hret : pageAllocAt (s.envs e).envPgdir va perm s.vm = .ret r v) :
    Rewired L mine W s v := by
  rcases h.pages.owned.pageAllocAt_newPage (h.pages.lt he) he.dirs hva.1
    (validPerm_lt hperm) with
    ⟨v', pp, hv', hn⟩ | ⟨hv', -⟩
  · cases hret.symm.trans hv'
    refine h.patched (hn.owned fun q hq => h.countable hf he hva.1 hq) he
      hn.patched hmine fun p hp => .inl ?_
    rw [mapped_page2pa (Owned.lt_pow hn.user) (validPerm_lt hperm)] at hp
    obtain rfl := Option.some.inj hp
    exact hn.fresh
  · cases hret.symm.trans hv'
    exact .refl h

/-- The mapping of a page that `src` maps, if no page is freed. -/
theorem Guarded.mapAt (h : Guarded L s) (hsrc : s.Live src) (hdst : s.Live dst)
    (hmsrc : mine src) (hmdst : mine dst)
    (hsrcva : srcva < UTOP) (hperm : perm < 0x1000#32)
    (hfit : ∀ pp, target s.vm.mem s.dirs (.pte src (pdx srcva) (ptx srcva)) =
      some pp →
      ReplaceFits L s.dirs dst pp dstva s.vm.mem)
    (hno : ¬InsertFails s src srcva dst dstva perm)
    (hres : MapResult L s src srcva dst dstva perm x v) :
    Rewired L mine W s v := by
  have hslot := pte_mem (h.pages.lt hsrc) (pdx_lt_of_lt_UTOP hsrcva)
    (ptx_lt srcva)
  cases hres with
  | refused => exact .refl h
  | freed _ hfail => exact absurd hfail hno
  | mapped hpp _ hst =>
      refine h.patched (hst.owned (hfit _ hpp)) hdst hst.patched hmdst
        fun p hp => .inr ⟨_, hslot, hmsrc, ?_⟩
      rw [mapped_page2pa (Owned.lt_pow (h.pages.owned.user hslot hpp))
        hperm] at hp
      obtain rfl := Option.some.inj hp
      exact hpp

/-- A `sys_page_map` that does not fail half way. -/
theorem Guarded.mapCall (mine W : Nat → Prop) (h : Guarded L s)
    (hc : s.Live a.c) (hcur : s.curenv = some a.c)
    (hmine : ∀ e, s.Controls a.c e → mine e)
    (hfit : ∀ src dst pp, a.Names s src dst →
      target s.vm.mem s.dirs (.pte src (pdx a.srcva) (ptx a.srcva)) = some pp →
      ReplaceFits L s.dirs dst pp a.dstva s.vm.mem) (hno : ¬a.Fails s) :
    ∃ r v, a.run s = .ret r (s.withVm v) ∧ a.Result L s r v
      ∧ Rewired L mine W s v := by
  obtain ⟨r, v, hret, hres⟩ := h.pages.sysPageMap hc hcur
  refine ⟨r, v, hret, hres, ?_⟩
  cases hres with
  | failed => exact .refl h
  | freed hnames _ _ _ hfail => exact absurd ⟨_, _, hnames, hfail⟩ hno
  | @mapped src dst pp v hnames hsrc hdst hpp hw hst =>
      exact h.mapAt hsrc hdst (hmine _ (controls_of_resolve hnames.src))
        (hmine _ (controls_of_resolve hnames.dst))
        hnames.srcva.1 (validPerm_lt hnames.perm)
        (fun pp hpp => hfit src dst pp hnames hpp)
        (fun hfail => hno ⟨src, dst, hnames, hfail⟩) (.mapped hpp hw hst)

/-- `page_remove` of a checked address, if it returns. -/
theorem Guarded.removeAt (h : Guarded L s) (hf : Fits L s.dirs s.vm.mem)
    (he : s.Live e) (hmine : mine e)
    (hva : userPage va) (hret : pageRemove (s.envs e).envPgdir va s.vm =
      .ret () v) : Rewired L mine W s v := by
  have hi := pdx_lt_of_lt_UTOP hva.1
  cases hpt : s.vm.mem.link (s.envs e).envPgdir (pdx va) with
  | none =>
      cases hret.symm.trans (pageRemove_none hpt)
      exact .refl h
  | some pt =>
      cases hpp : s.vm.mem.link pt (ptx va) with
      | none =>
          have hlt := h.pages.owned.lt (h.pages.owned.tree.user_of_nodeOf
            (nodeOf_pde (h.pages.lt he) hi he.dirs hpt))
          cases hret.symm.trans (pageRemove_absent hpt hlt hpp)
      | some pp =>
          have htarget := (target_pte he.dirs hpt).trans hpp
          obtain ⟨v', hv', hst⟩ :=
            h.pages.owned.pageRemove (h.pages.lt he) he.dirs hva.1 htarget
          cases hret.symm.trans hv'
          refine h.patched (hst.owned (h.countable hf he hva.1 htarget)) he
            hst.patched hmine fun p hp => ?_
          cases hp.symm.trans mapped_zero

/-! ## Address spaces -/

/-- An environment is freed. -/
theorem Guarded.freed (mine W : Nat → Prop) (h : Guarded L s)
    (hf : Fits L s.dirs s.vm.mem) (he : s.Live e) (hmine : mine e)
    (hret : freeVm (s.envs e).envPgdir (s.envs e).envCr3 s.vm = .ret () v) :
    Guarded L (s.freed e v) ∧ Altered L mine W s.dirs
      (s.freed e v).dirs s.vm.mem v.mem := by
  obtain ⟨v', hv', hok, hframe⟩ := h.pages.freed he hf
  cases hret.symm.trans hv'
  refine ⟨⟨hok, ?_⟩, ?_⟩
  · rw [dirs_freed]
    exact (h.halved.frame h.pages.owned.dir_lt hframe).drop
  · rw [dirs_freed]
    exact altered_freeVm h.pages.owned he.dirs hmine hret hframe

/-- An environment is made. -/
theorem Guarded.alloced (mine W : Nat → Prop) {pid : Word} {dir : Nat × Word}
    (h : Guarded L s) (hfirst : s.envFreeList.first = some e)
    (hret : setupPgdir s.vm = .ret (.ok dir) v) :
    Guarded L (s.alloced e pid dir v) ∧ Altered L mine W s.dirs
      (s.alloced e pid dir v).dirs s.vm.mem v.mem := by
  obtain ⟨he, hfree, -⟩ := h.pages.env.alloced hfirst pid dir v
  have hnone : s.dirs e = none := if_neg fun hl => hl.2 hfree
  rcases h.pages.owned.setupPgdir (h.pages.ndirs ▸ he) hnone with
    ⟨d, -, hd, -, hu, hfresh⟩ | ⟨herr, -⟩
  · cases hret.symm.trans hd
    rw [dirs_alloced he]
    refine ⟨⟨?_, ?_⟩, altered_newPgdir h.pages.owned.dir_lt hu hnone hfresh⟩
    · rcases h.pages.alloced hfirst pid with ⟨d', hd', hok⟩ | herr
      · cases hd.symm.trans hd'
        exact hok
      · cases hd.symm.trans herr
    · rw [dirs_alloced he]
      exact h.halved.newPgdir h.pages.owned.boot h.pages.owned.dir_lt hu hfresh
  · cases hret.symm.trans herr

/-! ## Messages -/

/-- A page is sent to an environment that waits for one, if it is not freed
instead. -/
theorem Guarded.sends (h : Guarded L s) (hf : Fits L s.dirs s.vm.mem)
    (hc : s.Live c) (hcur : s.curenv = some c) (hsend : s.Sends c e)
    (hno : ¬InsertFails s c (s.envs c).envTf.a3 e (s.envs e).envIpcDstva
      (s.envs c).envTf.a4)
    (hret : pageMapAt (s.envs c).envPgdir (s.envs c).envTf.a3
      (s.envs e).envPgdir (s.envs e).envIpcDstva
      (s.envs c).envTf.a4 s.vm = .ret x v) : Confined L c s (s.withVm v) := by
  have he := live_of_resolve hsend.dst hc
  have hperm := validPerm_lt hsend.perm
  have hfit : ∀ pp, ReplaceFits L s.dirs e pp (s.envs e).envIpcDstva s.vm.mem :=
    fun pp q hq _ =>
    h.countable hf he hsend.dstva hq
  obtain ⟨x', v', hret', hres⟩ :=
    h.pages.pageMapAt hc he hsend.srcva.1 hsend.dstva hperm
  cases hret.symm.trans hret'
  have hrew : Rewired L (fun e' => s.Controls c e' ∨ e' = e)
      (CanWrite s.vm.mem s.dirs c) s v :=
    h.mapAt hc he (.inl (.inl rfl)) (.inr rfl) hsend.srcva.1 hperm
      (fun pp _ => hfit pp) hno hres
  cases hres with
  | refused => exact .of_altered hrew.guarded .refl
  | freed _ hfail => exact absurd hfail hno
  | @mapped pp v hpp _ hst =>
      have hgive : s.Gives c e :=
        ⟨⟨hsend.call, hsend.dst, _, sysIpcTrySend_of_transfers hcur hsend.dst
          hsend.ready (.inr ⟨rfl, hsend.dstva, hsend.srcva, hsend.perm, hret⟩)⟩,
          hsend.dstva, hsend.srcva⟩
      have hp := hst.patched
      have ht := h.pages.owned.tree
      have hslot := pte_mem (h.pages.lt hc) (pdx_lt_of_lt_UTOP hsend.srcva.1)
        (ptx_lt (s.envs c).envTf.a3)
      refine ⟨hrew.guarded, hrew.altered.kernel, fun _ _ _ => rfl,
        fun e' d i hd _ => ?_,
        fun e' i j he' _ hi hj => ?_, fun e' i j p he' _ hi hj hp' =>
        ?_, fun p hused honly k hk hkp => ?_⟩
      · by_cases he' : e' = e
        · subst he'
          refine (em (i = pdx (s.envs e').envIpcDstva ∧ s.vm.mem.link d i =
            none)).symm.imp (fun hne => ?_)
            fun hboth => ⟨hgive, hboth⟩
          refine hp.pdes d i hd ?_
          rwa [ne_eq, ne_eq, ← not_and_or]
        · exact .inl (PhysMem.entry_congr
            (hp.frame.other e' d he'
            (nodeOf_dir (h.pages.owned.dir_lt e' d hd) hd)))
      · refine (em (e' = e ∧ i = pdx (s.envs e).envIpcDstva
          ∧ j = ptx (s.envs e).envIpcDstva)).symm.imp
          (fun hne => (hp.pte e' i j (h.pages.lt he') hi hj).trans
          (if_neg hne)) ?_
        rintro ⟨rfl, hi', hj'⟩
        exact ⟨hgive, hi', hj'⟩
      · exact .inl (hp.kept ht he.dirs (pte_mem (h.pages.lt he') hi hj)
          Slot.not_node hp')
      · obtain ⟨l, hl, hlp⟩ := hused
        refine (hp.used he.dirs hk hkp hl hlp).resolve_right fun hwp => ?_
        -- the page that was sent is mapped by `c`
        rw [mapped_page2pa (Owned.lt_pow (h.pages.owned.user hslot hpp))
          hperm] at hwp
        obtain rfl := Option.some.inj hwp
        exact honly _ hslot hpp (.inl rfl)

end Rewire

/-! ## System calls -/

section Calls

variable (hg : Guarded L s) (hf : Fits L s.dirs s.vm.mem) (hr : Running s c)
include hg hf hr

/-- The destruction of an environment that `c` controls, after a change `s₁` of
the environments. -/
theorem wp_envDestroy_confined {Q : Unit → Kern → Prop}
    (hsame : SameSpaces s s₁) (he : s.Live e)
    (hctl : s.Controls c e) (hcur : s₁.curenv = s.curenv)
    (hQ : e ≠ c → ∀ t, Confined L c s t → Q () t) :
    Prog.wp (envDestroy e) Q (fun t => Confined L c s t)
      (fun _ _ => True) s₁ := by
  have hconf : ∀ v, freeVm (s₁.envs e).envPgdir (s₁.envs e).envCr3 s₁.vm =
      .ret () v →
      Confined L c s (s₁.freed e v) := by
    intro v hv
    have hlive : s₁.Live e := hsame.ids.live.mpr he
    obtain ⟨hg', hm⟩ := (hsame.guarded hg).freed (s.Controls c)
      (CanWrite s.vm.mem s.dirs c)
      (by rw [hsame.dirs, hsame.vm]; exact hf) hlive hctl hv
    rw [hsame.dirs, hsame.vm] at hm
    exact .of_altered hg' hm
  refine wp_envDestroy (fun v hv hne => hQ ?_ _ (hconf v hv))
    (fun v e' hv _ _ _ => ?_) fun _ _ _ => trivial
  · rintro rfl
    exact hne (hcur.trans hr.cur)
  · exact (hconf v hv).congr (SameSpaces.refl _).dropCur.runOn

theorem wp_userMemAssert_confined {Q : Unit → Kern → Prop} {len : Word}
    (hQ : Q () s) :
    Prog.wp (userMemAssert c va len perm) Q (fun t => Confined L c s t)
      (fun _ _ => True) s := by
  unfold userMemAssert
  simp only [Prog.wp_bind, Prog.wp_ask, inVm, Prog.wp_zoom]
  refine (userMemCheck_reads ..).wp (fun x _ => ?_) fun _ _ => trivial
  cases x with
  | ok _ => exact Prog.wp_pure_intro hQ
  | error a =>
      exact wp_envDestroy_confined hg hf hr (.refl s) hr.live (.inl rfl) rfl
        fun hne => absurd rfl hne

theorem confines_sysCputs {str len : Word} :
    Confines L c s (do sysCputs str len; pure (0 : Word)) := by
  unfold Confines sysCputs
  simp only [Prog.wp_bind]
  refine Prog.wp_ret (currentEnv_apply hr.cur)
    (wp_userMemAssert_confined hg hf hr ?_)
  refine Prog.wp_ite _ (fun _ => ?_) fun _ =>
    Prog.wp_pure_intro (Prog.wp_pure_intro (.quiet hg (.refl s)))
  simp only [Prog.wp_bind, Prog.wp_ask, Prog.wp_pure, inVm, Prog.wp_zoom]
  exact (printString_reads ..).wp (fun _ _ => .quiet hg (.refl s))
    fun _ _ => trivial

theorem confines_sysEnvDestroy : Confines L c s (sysEnvDestroy id) := by
  refine confines_withEnv hg hr.cur fun e he => ?_
  unfold Confines
  rw [Prog.wp_bind]
  exact wp_envDestroy_confined hg hf hr (.refl s) (live_of_resolve he hr.live)
    (controls_of_resolve he) rfl
    fun _ t ht => Prog.wp_pure_intro ht

omit hg hf hr in
/-- A change of the fields of an environment that leaves its address space,
after an effect. -/
theorem Confined.setLive (h : Confined L c s t) (hcur : t.curenv = some c)
    (hc : t.Live c) {f : Env → Env}
    (hst : ∀ env : Env, env.envStatus ≠ .free → (f env).envStatus ≠ .free)
    (hid : ∀ env, (f env).envId = env.envId)
    (hpar : ∀ env, (f env).envParentId = env.envParentId)
    (hdir : ∀ env, (f env).envPgdir = env.envPgdir)
    (hcr3 : ∀ env, (f env).envCr3 = env.envCr3) {b : Bool} :
    Prog.wp (withEnv id b fun e => do
        Prog.update fun s => s.setEnv e f
        pure 0) (fun _ u => Confined L c s u ∧ u.curenv = some c ∧ u.Live c)
      (fun u => Confined L c s u) (fun _ _ => True) t := by
  refine wp_withEnv hcur (fun _ _ => ⟨h, hcur, hc⟩) fun e he => ?_
  have hlive := live_of_resolve he hc
  have hsame : SameSpaces t (t.setEnv e f) :=
    (SameSpaces.refl t).setLive hlive.2 (hst _ hlive.2) (hid _) (hpar _)
      (hdir _) (hcr3 _)
  simp only [Prog.wp_bind, Prog.wp_update, Prog.wp_pure]
  exact ⟨h.congr hsame, hcur, hsame.ids.live.mpr hc⟩

omit hf in
/-- A change of the fields of an environment that leaves its address space. -/
theorem confines_setLive {f : Env → Env}
    (hst : ∀ env : Env, env.envStatus ≠ .free → (f env).envStatus ≠ .free)
    (hid : ∀ env, (f env).envId = env.envId)
    (hpar : ∀ env, (f env).envParentId = env.envParentId)
    (hdir : ∀ env, (f env).envPgdir = env.envPgdir)
    (hcr3 : ∀ env, (f env).envCr3 = env.envCr3) {b : Bool} :
    Confines L c s (withEnv id b fun e => do
      Prog.update fun s => s.setEnv e f
      pure 0) :=
  Prog.wp_imp ((Confined.quiet hg (.refl s)).setLive hr.cur hr.live hst hid hpar
    hdir hcr3)
    (fun _ _ h => h.1) (fun _ h => h) fun _ _ h => h

omit hf in
theorem confines_sysEnvSetStatus {status : Word} :
    Confines L c s (sysEnvSetStatus id status) := by
  unfold sysEnvSetStatus
  cases hst : validStatus status with
  | none => exact confines_pure hg
  | some st =>
      exact confines_setLive (f := fun env =>
        { env with envStatus := st }) hg hr
        (fun _ _ => validStatus_ne_free hst) (fun _ => rfl) (fun _ => rfl)
        (fun _ => rfl) fun _ => rfl

omit hf in
theorem confines_sysEnvSetTrapframe {tf : Word} :
    Confines L c s (sysEnvSetTrapframe id tf) := by
  refine confines_withEnv hg hr.cur fun e he => ?_
  unfold Confines
  simp only [Prog.wp_bind, Prog.wp_ask, Prog.wp_update, Prog.wp_pure, inVm,
    Prog.wp_zoom]
  refine (userMemCheck_reads ..).wp (fun _ _ => ?_) fun _ _ => trivial
  refine (kload_reads ..).wp (fun bytes _ => ?_) fun _ _ => trivial
  exact .quiet hg ((SameSpaces.refl s).setEnv Iff.rfl rfl rfl rfl rfl)

theorem confines_sysEnvRestore : Confines L c s (sysEnvRestore id) := by
  refine confines_withEnv hg hr.cur fun e he => ?_
  unfold Confines
  simp only [Prog.wp_bind, Prog.wp_ask]
  refine Prog.wp_ite _ (fun _ => Prog.wp_pure_intro (.quiet hg (.refl s)))
    fun _ => ?_
  simp only [Prog.wp_bind, Prog.wp_update, Prog.wp_pure]
  have hlive := live_of_resolve he hr.live
  have hsame : SameSpaces s
      (s.setEnv e fun env => { env with envStatus := .runnable }) :=
    (SameSpaces.refl s).setLive hlive.2 nofun rfl rfl rfl rfl
  unfold sysEnvDestroy
  refine wp_withEnv (c := c) (by simpa using hr.cur) (fun r h => ?_)
    fun e' he' => ?_
  · rw [resolve_zero] at h
    cases h
  rw [resolve_zero] at he'
  obtain rfl := Except.ok.inj he'
  rw [Prog.wp_bind]
  exact wp_envDestroy_confined hg hf hr hsame hr.live (.inl rfl) rfl fun hne =>
    absurd rfl hne

omit hf in
theorem confines_sysExofork : Confines L c s sysExofork := by
  unfold Confines sysExofork
  simp only [Prog.wp_bind, Prog.wp_ask]
  refine Prog.wp_ret (currentEnv_apply hr.cur) ?_
  refine Prog.wp_imp (wp_envAlloc (A := fun _ => False)
    (Q := fun x t => Confined L c s t ∧ ∀ e, x = .ok e →
    (t.envs e).envStatus ≠ .free)
    (fun _ => ⟨.quiet hg (.refl s), fun _ h => by cases h⟩)
    fun e dir v hfirst hv => ?_) ?_ (fun _ h => h.elim)
    fun _ _ _ => trivial
  · obtain ⟨hg', hm⟩ :=
      hg.alloced (s.Controls c) (CanWrite s.vm.mem s.dirs c) hfirst hv
    refine ⟨.of_altered hg' hm, fun e' he' => ?_⟩
    cases he'
    rw [Kern.alloced_envs_self]
    nofun
  · rintro x t ⟨ht, hlive⟩
    cases x with
    | error r => exact Prog.wp_pure_intro ht
    | ok e =>
        simp only [Prog.wp_bind, Prog.wp_ask, Prog.wp_update, Prog.wp_pure]
        exact ht.congr ((SameSpaces.refl t).setLive (hlive e rfl) nofun rfl
          rfl rfl rfl)

theorem confines_sysPageAlloc : Confines L c s (sysPageAlloc id va perm) :=
  Prog.wp_imp (wp_sysPageAlloc hr.cur (Q := fun _ t => Confined L c s t)
    (A := fun _ => False)
      (fun _ _ => .quiet hg (.refl s)) fun _ _ _ he hva hperm hv =>
        (hg.allocAt hf (live_of_resolve he hr.live) (controls_of_resolve he) hva
          hperm hv).confined)
    (fun _ _ h => h) (fun _ h => h.elim) fun _ _ _ => trivial

theorem confines_sysPageUnmap : Confines L c s (sysPageUnmap id va) := by
  refine confines_ite (fun _ => confines_pure hg) fun hva =>
    confines_withEnv hg hr.cur fun e he => ?_
  unfold Confines
  simp only [Prog.wp_bind, Prog.wp_ask, Prog.wp_pure, inVm, Prog.wp_zoom]
  exact (pageRemove_stays ..).wp
    (fun _ v hv => (hg.removeAt hf (live_of_resolve he hr.live)
    (controls_of_resolve he) (not_not.mp hva) hv).confined) fun _ _ _ => trivial

/-- The counters of the pages that the call may unmap are exact. -/
theorem fits_mapCall {a : MapCall} {src dst : Nat} (ha : a.c = c)
    (hnames : a.Names s src dst) (pp : Nat) :
    ReplaceFits L s.dirs dst pp a.dstva s.vm.mem := by
  subst ha
  exact fun q hq _ => hg.countable hf (live_of_resolve hnames.dst hr.live)
    hnames.dstva.1 hq

theorem confines_sysPageMap (hno : ¬(s.mapCall c).Fails s) :
    Confines L c s (s.mapCall c).run := by
  obtain ⟨r, v, hret, -, hrew⟩ :=
    hg.mapCall (s.Controls c) (CanWrite s.vm.mem s.dirs c)
    hr.live hr.cur (fun _ h => h)
    (fun _ _ pp hnames _ => fits_mapCall hg hf hr rfl hnames pp) hno
  exact Prog.wp_ret hret hrew.confined

/-- After the first mapping, the page is the only one whose counter may have
grown. -/
theorem fits_mapBack {v : Vm}
    (hrew : Rewired L (s.Controls c) (CanWrite s.vm.mem s.dirs c) s v)
    (hres : (s.mapCall c).Result L s r v) (hno : ¬(s.mapCall c).Fails s)
    {src dst pp : Nat}
    (hnames : (s.mapBack c).Names (s.withVm v) src dst)
    (hpp : target v.mem s.dirs (.pte src (pdx (s.mapBack c).srcva)
      (ptx (s.mapBack c).srcva)) = some pp) :
    ReplaceFits L s.dirs dst pp (s.mapBack c).dstva v.mem := by
  have hsrc : s.resolve c (s.envs c).envTf.a1 true = .ok src := hnames.src
  have hdst : s.resolve c (s.envs c).envTf.a1 true = .ok dst := hnames.dst
  have hld := live_of_resolve hdst hr.live
  cases hres with
  | failed => exact fun q hq _ => hg.countable hf hld hnames.dstva.1 hq
  | freed hnames' _ _ _ hfail => exact absurd ⟨_, _, hnames', hfail⟩ hno
  | @mapped src' dst' pp' v hnames' hls' hld' hpp' _ hst =>
      intro q hq hqp
      have hsrc' : s.resolve c (s.envs c).envTf.a1 true = .ok src' :=
        hnames'.src
      obtain rfl := Except.ok.inj (hsrc.symm.trans hsrc')
      have hi := pdx_lt_of_lt_UTOP hnames.srcva.1
      have hslot := pte_mem (hg.pages.lt hls') hi (ptx_lt (s.mapBack c).srcva)
      have hw : mapped (page2pa pp' ||| (s.mapCall c).perm ||| PTE_P) =
          some pp' :=
        mapped_page2pa (Owned.lt_pow (hg.pages.owned.user hslot hpp'))
          (validPerm_lt hnames'.perm)
      -- the source still maps the same page, perhaps by the entry that was set
      have hsame : pp' = pp := by
        rw [target, hst.pte src _ _ (hg.pages.lt hls') hi (ptx_lt _)] at hpp
        split at hpp
        · exact Option.some.inj (hw.symm.trans hpp)
        · exact Option.some.inj (hpp'.symm.trans hpp)
      subst hsame
      have ho := hrew.guarded.pages.owned
      refine hst.countable ho (fun h =>
        hqp (Option.some.inj (hw.symm.trans h)).symm) (hf q ?_)
      exact ho.user (pte_mem (hg.pages.lt hld)
        (pdx_lt_of_lt_UTOP hnames.dstva.1) (ptx_lt _)) hq

theorem confines_sysPageMapUpdatePerm (hno : ¬(s.mapCall c).Fails s)
    (hback : ∀ r v, (s.mapCall c).run s = .ret r (s.withVm v) → ¬r.slt 0 →
      ¬(s.mapBack c).Fails (s.withVm v)) :
    Confines L c s (sysPageMapUpdatePerm (s.envs c).envTf.a1 (s.envs c).envTf.a2
      (s.envs c).envTf.a3
      (s.envs c).envTf.a4 (s.envs c).envTf.a5) := by
  obtain ⟨r, v, hret, hres, hrew⟩ :=
    hg.mapCall (s.Controls c) (CanWrite s.vm.mem s.dirs c)
    hr.live hr.cur (fun _ h => h)
    (fun _ _ pp hnames _ => fits_mapCall hg hf hr rfl hnames pp) hno
  unfold Confines sysPageMapUpdatePerm
  apply Prog.wp_bind_intro
  refine Prog.wp_ret hret ?_
  refine Prog.wp_ite _ (fun _ => Prog.wp_pure_intro hrew.confined)
    fun hslt => ?_
  obtain ⟨r', v', hret', -, hrew'⟩ :=
    hrew.guarded.mapCall (a := s.mapBack c) (s.Controls c)
    (CanWrite s.vm.mem s.dirs c) hr.live hr.cur (fun _ h => h)
    (fun _ _ _ hnames hpp => fits_mapBack hg hf hr hrew hres hno hnames hpp)
    (hback r v hret hslt)
  refine Prog.wp_ret hret' (.of_altered hrew'.guarded ?_)
  exact hrew.altered.trans hrew'.altered hg.pages.owned.dir_lt

theorem confines_sysUxstackPgfaultStatus {func status : Word} :
    Confines L c s (sysUxstackPgfaultStatus id va perm func status) := by
  -- the allocation leaves the caller as it was
  have halloc : Prog.wp (sysPageAlloc id va perm)
      (fun _ t => Confined L c s t ∧ t.curenv = some c ∧ t.Live c)
        (fun _ => False) (fun _ _ => True) s :=
    Prog.wp_imp (wp_sysPageAlloc hr.cur (A := fun _ => False)
      (fun _ _ => ⟨.quiet hg (.refl s), hr.cur, hr.live⟩)
      fun _ _ _ he hva hperm hv =>
        ⟨(hg.allocAt hf (live_of_resolve he hr.live) (controls_of_resolve he)
          hva hperm hv).confined,
          hr.cur, hr.live⟩) (fun _ _ h => h) (fun _ h => h) fun _ _ _ => trivial
  unfold Confines sysUxstackPgfaultStatus
  apply Prog.wp_bind_intro
  refine Prog.wp_imp halloc (fun r t h => ?_) (fun _ h => h.elim)
    fun _ _ _ => trivial
  obtain ⟨ht, hcur, hlive⟩ := h
  refine Prog.wp_ite _ (fun _ => Prog.wp_pure_intro ht) fun _ => ?_
  apply Prog.wp_bind_intro
  refine Prog.wp_imp (ht.setLive
    (f := fun env => { env with envPgfaultUpcall := func }) hcur hlive
    (fun _ h => h) (fun _ => rfl) (fun _ => rfl) (fun _ => rfl) fun _ =>
    rfl) (fun r' u h => ?_) (fun _ h => h) fun _ _ h => h
  obtain ⟨hu, hcur', hlive'⟩ := h
  refine Prog.wp_ite _ (fun _ => Prog.wp_pure_intro hu) fun _ => ?_
  refine Prog.wp_ite _ (fun _ => ?_) fun _ => Prog.wp_pure_intro hu
  unfold sysEnvSetStatus
  cases hst : validStatus status with
  | none => exact Prog.wp_pure_intro hu
  | some st =>
      exact Prog.wp_imp
        (hu.setLive (f := fun env => { env with envStatus := st }) hcur' hlive'
        (fun _ _ => validStatus_ne_free hst) (fun _ => rfl) (fun _ => rfl)
        (fun _ => rfl) fun _ => rfl) (fun _ _ h => h.1) (fun _ h =>
        h) fun _ _ h => h

/-! ## Messages -/

theorem confines_sysIpcTrySend (hno : (s.envs c).envTf.sysNo = some .ipcTrySend)
    (hstarve : ¬Starves s c) :
    Confines L c s (sysIpcTrySend (s.envs c).envTf.a1 (s.envs c).envTf.a2
      (s.envs c).envTf.a3
      (s.envs c).envTf.a4) := by
  refine wp_sysIpcTrySend hr.cur (fun _ _ => .quiet hg (.refl s))
    (fun _ => trivial) (fun e he _ _ => ?_)
    (fun e r v he hready hdst hva hperm hv => ?_)
    (fun e perm v he hready htr => ?_) fun _ _ _ => trivial
  · have hqueue : SameSpaces s (enqueueSender c (s.envs c).envTf.a1 s) :=
      ⟨⟨fun _ => rfl, fun _ => rfl, fun _ => Iff.rfl, rfl⟩, rfl, fun _ => rfl,
        fun _ => rfl⟩
    exact (Confined.quiet hg (hqueue.setLive
      (f := fun env => { env with envStatus := .notRunnable }) hr.live.2
      nofun rfl rfl rfl rfl)).yield
  · have hsend : s.Sends c e := ⟨hno, he, hready, hdst, hva, hperm⟩
    exact hg.sends hf hr.live hr.cur hsend
      (fun hfail => hstarve (.send hsend hfail)) hv
  · have hlive := live_of_resolve he hr.live
    have hto : SameSpaces (s.withVm v)
        ((s.withVm v).setEnv e (deliver (s.envs c).envId
          (s.envs c).envTf.a2 perm)) :=
      (SameSpaces.refl (s.withVm v)).setLive hlive.2 nofun rfl rfl rfl rfl
    have hsame : SameSpaces (s.withVm v) (s.delivered c e perm v) :=
      hto.setEnv Iff.rfl rfl rfl rfl rfl
    rcases htr with ⟨-, rfl, -⟩ | ⟨rfl, hdst, hva, hperm, hv⟩
    · exact .quiet hg hsame
    · have hsend : s.Sends c e := ⟨hno, he, hready, hdst, hva, hperm⟩
      exact (hg.sends hf hr.live hr.cur hsend
        (fun hfail => hstarve (.send hsend hfail)) hv).congr hsame

omit hg hf in
/-- Waiting for a message leaves the address spaces as they are. -/
theorem sameSpaces_sysIpcRecv {dstva : Word} :
    Prog.wp (sysIpcRecv dstva) (fun _ t => SameSpaces s t)
      (fun t => SameSpaces s t) (fun _ _ => True) s := by
  have hblock : SameSpaces s (s.setEnv c (blockRecv dstva)) :=
    (SameSpaces.refl s).setLive hr.live.2 nofun rfl rfl rfl rfl
  refine wp_sysIpcRecv hr (fun _ => hblock) (fun _ _ _ => hblock)
    (fun e _ _ he => ?_) fun _ _ => hblock.yield
  have hwake :
      SameSpaces s ((s.setEnv c (blockRecv dstva)).setEnv e wakeSender) :=
    hblock.setLive (live_of_resolve he hr.live).2 nofun rfl rfl rfl rfl
  have hsame : SameSpaces s (dequeueSender (findWaiting s (s.envs c).envId)
      ((s.setEnv c (blockRecv dstva)).setEnv e wakeSender)) :=
    ⟨⟨hwake.ids.id, hwake.ids.parent, hwake.ids.free, hwake.ids.list⟩, hwake.vm,
      hwake.pgdir, hwake.cr3⟩
  exact hsame.yield

omit hf in
theorem confines_sysIpcRecv {dstva : Word} :
    Confines L c s (sysIpcRecv dstva) :=
  Prog.wp_imp (sameSpaces_sysIpcRecv hr) (fun _ _ h => .quiet hg h)
    (fun _ h => .quiet hg h) fun _ _ h => h

/-! ## Traps -/

/-- Any system call, with any arguments. -/
theorem confines_syscall (hsys : (s.envs c).envTf.tfTrapno = T_SYSCALL)
    (hstarve : ¬Starves s c) (getc : Word) :
    Confines L c s (syscall (s.envs c).envTf.tfRegs.regEax (s.envs c).envTf.a1
      (s.envs c).envTf.a2
      (s.envs c).envTf.a3 (s.envs c).envTf.a4 (s.envs c).envTf.a5 getc) := by
  have hno : (s.envs c).envTf.sysNo =
      SysNo.all[(s.envs c).envTf.tfRegs.regEax.toNat]? :=
    if_pos hsys
  have hset : ∀ {f : Env → Env}, (∀ env, f env = { env with
      envPgfaultUpcall := (f env).envPgfaultUpcall
      envPriority := (f env).envPriority
      envDivideUpcall := (f env).envDivideUpcall
      envGpfaultUpcall := (f env).envGpfaultUpcall
      envIllopUpcall := (f env).envIllopUpcall }) →
        ∀ id, Confines L c s (setField f id) := by
    intro f hf id
    refine confines_setLive hg hr (fun env h => ?_) (fun env => ?_) (fun env =>
      ?_) (fun env => ?_) fun env => ?_
    · rw [hf env]
      exact h
    all_goals rw [hf env]
  unfold syscall
  cases h : SysNo.all[(s.envs c).envTf.tfRegs.regEax.toNat]? with
  | none => exact confines_pure hg
  | some no =>
      rw [h] at hno
      cases no with
      | cputs => exact confines_sysCputs hg hf hr
      | cgetc => exact confines_pure hg
      | getenvid =>
          unfold Confines sysGetenvid
          simp only [Prog.wp_bind, Prog.wp_ask, Prog.wp_pure]
          exact Prog.wp_ret (currentEnv_apply hr.cur) (.quiet hg (.refl s))
      | envDestroy => exact confines_sysEnvDestroy hg hf hr
      | pageAlloc => exact confines_sysPageAlloc hg hf hr
      | pageMap =>
          exact confines_sysPageMap hg hf hr fun hfail =>
            hstarve (.map hno hfail)
      | pageUnmap => exact confines_sysPageUnmap hg hf hr
      | exofork => exact confines_sysExofork hg hr
      | envSetStatus => exact confines_sysEnvSetStatus hg hr
      | envSetTrapframe => exact confines_sysEnvSetTrapframe hg hr
      | envSetPgfaultUpcall => exact hset (fun _ => rfl) _
      | yield => exact (Confined.quiet hg (.refl s)).yield
      | ipcTrySend => exact confines_sysIpcTrySend hg hf hr hno hstarve
      | ipcRecv => exact confines_sysIpcRecv hg hr
      | envSetPriority => exact hset (fun _ => rfl) _
      | envRestore => exact confines_sysEnvRestore hg hf hr
      | envSetGpfaultUpcall => exact hset (fun _ => rfl) _
      | envSetDivideUpcall => exact hset (fun _ => rfl) _
      | envSetIllopUpcall => exact hset (fun _ => rfl) _
      | pageMapUpdatePerm =>
          exact confines_sysPageMapUpdatePerm hg hf hr
            (fun hfail => hstarve (.mapFirst hno hfail))
            fun r v hfirst hslt hfail =>
            hstarve (.mapBack hno hfirst hslt hfail)
      | uxstackPgfaultStatus => exact confines_sysUxstackPgfaultStatus hg hf hr

theorem confines_upcallHandler (hcr3 : s.cr3 = (s.envs c).envCr3)
    {upcall : Env → Word} {msg : String} :
    Confines L c s (upcallHandler upcall msg c va) := by
  unfold Confines upcallHandler
  apply Prog.wp_ask_bind
  refine Prog.wp_ite _ (fun _ => Prog.wp_halt_intro trivial) fun _ => ?_
  refine Prog.wp_ite _ (fun _ => ?_) fun _ =>
    wp_envDestroy_confined hg hf hr (.refl s) hr.live (.inl rfl) rfl fun hne =>
      absurd rfl hne
  apply Prog.wp_bind_intro
  refine wp_userMemAssert_confined hg hf hr ?_
  simp only [Prog.wp_bind, Prog.wp_update, inVm, Prog.wp_zoom]
  refine (pushUtf_stays ..).wp (fun _ v hv => ?_) fun _ _ _ => trivial
  rw [hcr3] at hv
  refine wp_envRun ((hg.pushUtf hr.live hv).congr (SameSpaces.runOn ?_))
  exact (SameSpaces.refl (s.withVm v)).setEnv Iff.rfl rfl rfl rfl rfl

theorem confines_trapDispatch (hcr3 : s.cr3 = (s.envs c).envCr3)
    (hstarve : ¬Starves s c) (cr2 getc : Word) :
    Confines L c s (trapDispatch c cr2 getc) := by
  have hidle : Confined L c s s := .quiet hg (.refl s)
  unfold Confines trapDispatch
  apply Prog.wp_ask_bind
  refine Prog.wp_ite _ (fun _ => Prog.wp_pure_intro hidle) fun _ => ?_
  refine Prog.wp_ite _ (fun _ => hidle.yield) fun _ => ?_
  refine Prog.wp_ite _ (fun _ => confines_upcallHandler hg hf hr hcr3)
    fun _ => ?_
  refine Prog.wp_ite _ (fun _ => confines_upcallHandler hg hf hr hcr3)
    fun _ => ?_
  refine Prog.wp_ite _ (fun _ => confines_upcallHandler hg hf hr hcr3)
    fun _ => ?_
  refine Prog.wp_ite _ (fun _ => confines_upcallHandler hg hf hr hcr3)
    fun _ => ?_
  refine Prog.wp_ite _ (fun _ => Prog.wp_pure_intro hidle) fun _ => ?_
  refine Prog.wp_ite _ (fun hsys => ?_) fun _ => ?_
  · apply Prog.wp_bind_intro
    refine Prog.wp_imp (confines_syscall hg hf hr hsys hstarve getc)
      (fun r t ht => ?_) (fun _ h => h)
      fun _ _ h => h
    exact Prog.wp_update_intro
      (ht.congr ((SameSpaces.refl t).setEnv Iff.rfl rfl rfl rfl rfl))
  · exact Prog.wp_ite _ (fun _ => Prog.wp_halt_intro trivial) fun _ =>
      wp_envDestroy_confined hg hf hr (.refl s) hr.live (.inl rfl) rfl
        fun hne => absurd rfl hne

end Calls

theorem Confined.resume (h : Confined L c s t) :
    Prog.wp Jos.resume (fun _ u => Confined L c s u) (fun u => Confined L c s u)
      (fun _ _ => True) t :=
  Prog.wp_imp (SameSpaces.refl t).resume (fun _ _ hsame => h.congr hsame)
    (fun _ hsame => h.congr hsame) fun _ _ h => h

/-- Every trap of `c` leaves the address spaces of the others alone. -/
theorem confined_of_trap {tr : Trap} (hr : Running s c)
    (hg : Guarded L (s.saved c tr))
    (hf : Fits L (s.saved c tr).dirs (s.saved c tr).vm.mem)
    (hcr3 : s.cr3 = (s.envs c).envCr3)
    (hstarve : ¬Starves (s.saved c tr) c)
    (htrap : trap tr (s.enter tr) = .away t) :
    Confined L c (s.saved c tr) t := by
  have hcs : tr.tf.tfCs &&& 3 = 3 := by
    by_contra hcs
    unfold trap at htrap
    rw [if_neg hcs] at htrap
    cases htrap
  rw [trap_of_curenv hr.cur hcs] at htrap
  have hwp := confines_trapDispatch hg hf (hr.saved tr)
    (Kern.saved_cr3 hcr3) hstarve tr.cr2 tr.getc
  exact Prog.wp.away
    (Prog.wp_bind_intro (Prog.wp_imp hwp (fun _ _ h => h.resume) (fun _ h => h)
    fun _ _ h => h)) htrap

end

end Jos
