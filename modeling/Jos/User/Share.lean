import Jos.User.Dup

/-!
# Fork with shared memory

`sfork` of lib/fork.c is to make a child that shares all memory below the stack.
It asks the kernel to map every writable or copy-on-write page writable into the
child, and the kernel refuses that for a page that is copy-on-write only, which
is what an earlier `fork` leaves.
-/

namespace Jos

open Slot (target)

/-- What `sfork` needs: a free environment, memory for the child's page tables
and three pages more, with `k` to spare, and a page that `set_pgfault_handler`
can replace on the exception stack. -/
structure Ready (L : Layout) (s : Kern) (c : Nat) (installed : Bool) (k : Nat) :
    Prop where
  slot : s.envFreeList.first ≠ none
  room : FreeAtLeast L s.dirs s.vm.mem (pdxUTOP + k + 5)
  stack : installed = false →
    ∀ q, target s.vm.mem s.dirs (.pte c (pdx UXSTACK) (ptx UXSTACK)) = some q →
    Countable L s.dirs s.vm.mem q

/-- The byte that user code reads at `va`, if it may. -/
def userLoad (m : PhysMem) (cr3 va : Word) : Option (BitVec 8) :=
  (userAccess m cr3 va false).map fun p => m p (pgoff va)

/-- What `a` stores at `va`, `b` reads there. -/
def SharedAt (t : Kern) (a b : Nat) (va : Word) : Prop :=
  ∀ x, userLoad (userStore t.vm.mem (t.envs a).envCr3 va x)
    (t.envs b).envCr3 va = some x

/-- In `t`, `e` reads at `va` what `c` reads there in `s`, and a store to it
faults, where the page is copy-on-write if `c` could write it or it was so
before. -/
structure PrivateAt (s t : Kern) (c e : Nat) (va : Word) : Prop where
  load : userLoad t.vm.mem (t.envs e).envCr3 va =
    userLoad s.vm.mem (s.envs c).envCr3 va
  fault : userAccess t.vm.mem (t.envs e).envCr3 va true = none
  cow : Dirty (s.pteOf c va) → t.pteOf e va &&& PTE_COW ≠ 0

/-- The stack page and the one above it. -/
def OnStack (va : Word) : Prop := USTACKTOP - 0x1000#32 ≤ va ∧ va < UXSTACK

/-- In `t` the new environment `b`, whose id is `id`, can run. It shares the
pages of `c` below the stack that `c` could write or that were copy-on-write,
has a copy of the stack, and an exception stack that `c` does not map. -/
structure Sforked (s t : Kern) (c b : Nat) (id : Word) : Prop where
  named : t.resolve c id true = .ok b
  fresh : (s.envs b).envStatus = .free
  runnable : (t.envs b).envStatus = .runnable
  shared : ∀ va < USTACKTOP - 0x1000#32, UserPte (s.pteOf c va) →
    Dirty (s.pteOf c va) →
    SharedAt t c b va ∧ SharedAt t b c va
  stack : ∀ va, OnStack va → UserPte (s.pteOf c va) → PrivateAt s t c c va
    ∧ PrivateAt s t c b va
  exception : ∃ pp, t.pteOf b UXSTACK = copyPte pp
    ∧ ∀ va < UTOP, mapped (t.pteOf c va) ≠ some pp

section

variable {L : Layout} {s t u : Kern} {c b e k n : Nat}
  {id upcall envid status : Word} {v : Vm} {f : Env → Env}
  {installed : Bool} {A : Kern → Prop} {E : UserStop → Kern → Prop}

/-! ## System calls on environments -/

theorem sysEnvSetPgfaultUpcall_ret (hc : s.curenv = some c)
    (he : s.resolve c envid true = .ok e) :
    sysEnvSetPgfaultUpcall envid upcall s
      = .ret 0 (s.setEnv e fun env =>
        { env with envPgfaultUpcall := upcall }) := by
  rw [sysEnvSetPgfaultUpcall, setField, withEnv_ok hc he]
  rfl

theorem sysEnvSetStatus_ret (hc : s.curenv = some c)
    (he : s.resolve c envid true = .ok e) :
    sysEnvSetStatus envid ENV_RUNNABLE s
      = .ret 0 (s.setEnv e fun env => { env with envStatus := .runnable }) := by
  rw [sysEnvSetStatus, show validStatus ENV_RUNNABLE = some .runnable by decide]
  simp only
  rw [withEnv_ok hc he]
  rfl

/-- A change of environments that affects neither which are live nor their
directories. -/
theorem dirs_setEnv (hfree : (f (s.envs e)).envStatus = .free ↔
      (s.envs e).envStatus = .free)
    (hdir : (f (s.envs e)).envPgdir = (s.envs e).envPgdir) :
    (s.setEnv e f).dirs = s.dirs :=
  dirs_congr (fun _ => Iff.of_eq
    (Kern.setEnv_proj (fun env => env.envStatus = .free) (propext hfree)))
    fun _ => Kern.setEnv_proj _ hdir

theorem InUser.setEnv (h : InUser L s c)
    (hrun : e = c → (f (s.envs e)).envStatus = .runnable)
    (hfree : (f (s.envs e)).envStatus = .free ↔ (s.envs e).envStatus = .free)
    (hid : (f (s.envs e)).envId = (s.envs e).envId)
    (hdir : (f (s.envs e)).envPgdir = (s.envs e).envPgdir)
    (hcr3 : (f (s.envs e)).envCr3 = (s.envs e).envCr3) :
    InUser L (s.setEnv e f) c := by
  constructor
  case pages =>
    exact h.pages.congr (h.pages.env.setEnv hfree hid) rfl
      (fun _ => Iff.of_eq (Kern.setEnv_proj (fun env => env.envStatus = .free)
      (propext hfree)))
      (fun _ => Kern.setEnv_proj _ hdir) fun _ => Kern.setEnv_proj _ hcr3
  case run =>
    refine ⟨h.run.cur, h.run.lt, ?_⟩
    by_cases he : e = c
    · subst he
      rw [Kern.setEnv_envs_self]
      exact hrun rfl
    · rw [Kern.setEnv_envs_ne (Ne.symm he)]
      exact h.run.runnable
  case cr3 =>
    rw [Kern.setEnv_proj _ hcr3]
    exact h.cr3
  case opened =>
    rw [dirs_setEnv hfree hdir]
    exact h.opened

/-! ## Up to the loops -/

/-- In `t` the address spaces are as in `s`, but for the exception stack of
`c`. -/
structure Same (L : Layout) (s t : Kern) (c : Nat) : Prop where
  pte : ∀ n < pdxUTOP * 1024, n ≠ ppn UXSTACK → pteNo t.vm.mem t.dirs c n =
    pteNo s.vm.mem s.dirs c n
  data : ∀ n < pdxUTOP * 1024, n ≠ ppn UXSTACK →
    ∀ q, mapped (pteNo s.vm.mem s.dirs c n) = some q →
    t.vm.mem q = s.vm.mem q

theorem Same.refl : Same L s s c := ⟨fun _ _ _ => rfl, fun _ _ _ _ _ => rfl⟩

theorem Same.trans (h : Same L s t c) (h' : Same L t u c) : Same L s u c where
  pte n hn hne := (h'.pte n hn hne).trans (h.pte n hn hne)
  data n hn hne q hq := (h'.data n hn hne q (h.pte n hn hne ▸ hq)).trans
    (h.data n hn hne q hq)

theorem InUser.slot (h : InUser L s c) (hn : n < pdxUTOP * 1024) :
    Slot.pte c (n / 1024) (n % 1024) ∈ L.slots :=
  mem_slots.mpr ⟨h.lt, pageNo_lt hn⟩

/-- A new page on the exception stack of the environment or of another one. -/
theorem InUser.same_newPage (h : InUser L s c) {pp : Nat} {perm : Word}
    (hn : Owned.NewPage L s.dirs [] e pp UXSTACK perm s.vm v) :
    Same L s (s.withVm v) c := by
  have hpte : ∀ n < pdxUTOP * 1024, n ≠ ppn UXSTACK →
      pteNo v.mem s.dirs c n = pteNo s.vm.mem s.dirs c n := by
    intro n hlt hne
    obtain ⟨hi, hj⟩ := pageNo_lt hlt
    rw [pteNo, hn.pte c _ _ h.lt hi hj, if_neg]
    · rfl
    · rintro ⟨-, h₁, h₂⟩
      have hpdx : pdx UXSTACK = 954 := by decide
      have hptx : ptx UXSTACK = 1023 := by decide
      have hppn : ppn UXSTACK = 977919 := by decide
      omega
  refine ⟨hpte, fun n hlt hne q hq => ?_⟩
  have hold : target s.vm.mem s.dirs (.pte c (n / 1024) (n % 1024)) =
      some q := hq
  have hnew : target v.mem s.dirs (.pte c (n / 1024) (n % 1024)) = some q := by
    rw [target, ← pteNo, hpte n hlt hne, hq]
  exact hn.data q (fun hqp => hn.fresh _ (h.slot hlt) (hqp ▸ hold))
    (hn.tree.not_nodeOf (h.slot hlt) Slot.not_node hnew e)

variable (upcall) in
/-- `set_pgfault_handler` leaves the address space as it is, but for the
exception stack. -/
theorem wp_setPgfaultHandler (h : InUser L s c) (hr : Ready L s c installed k) :
    Prog.wp (setPgfaultHandler installed upcall)
      (fun _ t => InUser L t c ∧ Same L s t c
        ∧ FreeAtLeast L t.dirs t.vm.mem (pdxUTOP + k + 3) ∧ t.envFreeList =
          s.envFreeList
        ∧ ∀ e, (t.envs e).envStatus = (s.envs e).envStatus) A E s := by
  unfold setPgfaultHandler
  refine Prog.wp_ite _ (fun _ =>
    Prog.wp_pure_intro ⟨h, .refl, hr.room.mono (by omega), rfl, fun _ => rfl⟩)
    fun hno => ?_
  rw [Bool.not_eq_true] at hno
  have hva : userPage UXSTACK := by decide
  have hperm : validPerm (PTE_P ||| PTE_U ||| PTE_W) := by decide
  obtain ⟨v, pp, hv, hnew⟩ :=
    h.pages.owned.pageAllocAt_free h.lt h.dirs hva.1 (validPerm_lt hperm)
    (hr.room.mono (by omega))
  have hin :=
    h.withVm (hnew.owned (hr.stack hno)) (hnew.opened h.opened h.shaped.dir_lt)
  have halloc := sysPageAlloc_ret (s := s) h.run.cur resolve_zero hva hperm hv
  have hcall : sysUxstackPgfaultStatus 0 UXSTACK (PTE_P ||| PTE_U ||| PTE_W)
      upcall ENV_NOT_SET s
      = .ret 0 ((s.withVm v).setEnv c fun env =>
        { env with envPgfaultUpcall := upcall }) := by
    rw [sysUxstackPgfaultStatus, Prog.bind_ret halloc, if_neg (by decide),
      Prog.bind_ret (sysEnvSetPgfaultUpcall_ret (s := s.withVm v) hin.run.cur
      resolve_zero), if_neg (by decide),
      if_neg (not_not.mpr rfl)]
    rfl
  apply Prog.wp_bind_intro
  refine wp_stub hcall (fun _ => by decide)
    (wp_panicIf (fun hneg => absurd hneg (by decide)) fun _ => ?_)
  have hset := hin.setEnv (e := c)
    (f := fun env => { env with envPgfaultUpcall := upcall })
    (fun _ => hin.run.runnable) Iff.rfl rfl rfl rfl
  have hdirs : ((s.withVm v).setEnv c fun env =>
      { env with envPgfaultUpcall := upcall }).dirs = s.dirs :=
    dirs_setEnv Iff.rfl rfl
  have hsame := h.same_newPage hnew
  refine ⟨hset, ⟨fun n => ?_, hsame.data⟩, ?_, rfl, fun e =>
    Kern.setEnv_proj Env.envStatus rfl⟩
  · rw [hdirs]
    exact hsame.pte n
  · rw [hdirs]
    exact hnew.free h.dirs (validPerm_lt hperm) hr.room

/-- `u` is `s` after `sys_exofork` made `b`, an environment without memory, and
`k` pages are free. -/
structure Started (L : Layout) (s u : Kern) (c b k : Nat) (id : Word) :
    Prop where
  parent : Parent L u c b id
  same : Same L s u c
  slot : (s.envs b).envStatus = .free
  pos : 0 < id.toNat ∧ id.toNat < 2 ^ 31
  others : ∀ e, e ≠ b → (u.envs e).envStatus = (s.envs e).envStatus
  status : (u.envs b).envStatus = .notRunnable
  empty : ∀ n < pdxUTOP * 1024, pteNo u.vm.mem u.dirs b n = 0
  room : FreeAtLeast L u.dirs u.vm.mem k

/-- `sys_exofork` when there are a free environment and a free page. -/
theorem wp_sysExofork (h : InUser L s c) (hslot : s.envFreeList.first ≠ none)
    (hfree : FreeAtLeast L s.dirs s.vm.mem (k + 1)) :
    Prog.wp Lib.sysExofork (fun id u => ∃ b, Started L s u c b k id) A E s := by
  obtain ⟨b, hfirst⟩ := Option.ne_none_iff_exists'.mp hslot
  obtain ⟨hb, hbfree, -⟩ := h.pages.env.alloced hfirst 0 (0, 0) s.vm
  have hnone : s.dirs b = none := if_neg fun hl => hl.2 hbfree
  have hbc : b ≠ c := fun hbc => h.live.2 (hbc ▸ hbfree)
  have hbL : b < L.ndirs := h.pages.ndirs ▸ hb
  rcases h.pages.owned.setupPgdir hbL hnone with
    ⟨d, -, hd, ho, -, hfresh⟩ | ⟨-, hno⟩
  case inr => exact absurd hno (h.pages.owned.first_of_free hfree)
  -- the environment that `env_alloc` makes, and what `sys_exofork` sets in it
  let t := s.alloced b (s.envs c).envId (d, page2pa d) (Owned.newPgdir d s.vm)
  let set := fun env : Env =>
    { env with envStatus := .notRunnable, envTf := (s.envs c).envTf.setEax 0 }
  have halloc : envAlloc (s.envs c).envId s = .ret (.ok b) t :=
    envAlloc_ret hfirst hd
  have htc : t.envs c = s.envs c := Kern.alloced_envs_ne (Ne.symm hbc)
  have htdirs : t.dirs = Function.update s.dirs b (some d) := dirs_alloced hb
  have htb : t.envs b = initEnv b (s.envs c).envId
      { s.envs b with envPgdir := d, envCr3 := page2pa d } :=
    Kern.alloced_envs_self
  have ht : PagesOk L t := by
    rcases h.pages.alloced hfirst (s.envs c).envId with ⟨d', hd', hok⟩ | herr
    · obtain ⟨rfl, -⟩ :=
        Prod.mk.inj (Except.ok.inj (Outcome.ret.inj (hd.symm.trans hd')).1)
      exact hok
    · cases hd.symm.trans herr
  have htin : InUser L t c := by
    refine ⟨ht, ⟨h.run.cur, h.run.lt, by rw [htc]; exact h.run.runnable⟩,
      by rw [htc]; exact h.cr3, ?_⟩
    rw [htdirs]
    exact h.opened.newPgdir h.shaped.dir_lt hfresh
  have hfree' : (set (t.envs b)).envStatus = .free ↔
      (t.envs b).envStatus = .free := by
    rw [htb]
    exact iff_of_false nofun nofun
  have hu : InUser L (t.setEnv b set) c :=
    htin.setEnv (fun hc => absurd hc hbc) hfree' rfl rfl rfl
  have hdirs : (t.setEnv b set).dirs = Function.update s.dirs b (some d) :=
    (dirs_setEnv hfree' rfl).trans htdirs
  have hub : (t.setEnv b set).Live b :=
    ⟨hb, by rw [Kern.setEnv_envs_self]; exact EnvStatus.noConfusion⟩
  have hid : ((t.setEnv b set).envs b).envId = (t.envs b).envId := by
    rw [Kern.setEnv_envs_self]
  have hpos := hu.pages.env.pos b hub
  have hcall : Lib.sysExofork s = .ret (t.envs b).envId (t.setEnv b set) := by
    unfold Lib.sysExofork Prog.mapStop
    rw [sysExofork, Prog.bind_ret (currentEnv_apply h.run.cur), Prog.ask_bind,
      Prog.bind_ret halloc]
    simp only
    rw [Prog.ask_bind, Prog.update_bind, Prog.ask_bind, htc]
    simp only [Prog.pure_apply]
    exact congrArg₂ _ hid rfl
  refine Prog.wp_ret hcall ⟨b, ?_⟩
  have hmem : ∀ q, q ≠ d → (t.setEnv b set).vm.mem q = s.vm.mem q :=
    fun q hq => Owned.initPgdir_of_ne hq
  have hnotd : ∀ e p, NodeOf L s.vm.mem s.dirs e p → p ≠ d := by
    rintro e p ⟨l, hl, -, -, hlp⟩ rfl
    exact hfresh l hl hlp
  have hdc : (t.setEnv b set).dirs c = s.dirs c := by
    rw [hdirs, Function.update_of_ne (Ne.symm hbc)]
  constructor
  case parent =>
    refine ⟨hu, hub, hbc, ?_⟩
    have hne0 : (t.envs b).envId ≠ 0 := hid ▸ hu.pages.env.id_ne_zero hub
    have hidx : envx (t.envs b).envId = b := hid ▸ hu.pages.env.idx b hub
    unfold Kern.resolve
    rw [if_neg hne0, hidx, if_neg, if_neg]
    · rintro ⟨-, -, hpar⟩
      refine hpar ?_
      rw [Kern.setEnv_envs_self, Kern.setEnv_envs_ne (Ne.symm hbc), htb, htc]
      rfl
    · rw [not_or, not_not]
      exact ⟨hub.2, hid⟩
  case same =>
    constructor
    · intro n hn _
      obtain ⟨hi, -⟩ := pageNo_lt hn
      refine pteAt_congr hdc (fun d' hd' => PhysMem.link_congr (hmem d' ?_))
        fun d' pt hd' hpt => ?_
      · exact hnotd c d' (nodeOf_dir h.lt hd')
      · exact PhysMem.entry_congr
          (hmem pt (hnotd c pt (nodeOf_pde h.lt hi hd' hpt)))
    · intro n hn _ q hq
      exact hmem q fun hqd => hfresh _ (h.slot hn) (hqd ▸ hq)
  case slot => exact hbfree
  case pos => rwa [hid] at hpos
  case others =>
    intro e he
    rw [Kern.setEnv_envs_ne he]
    exact congrArg Env.envStatus (Kern.alloced_envs_ne he)
  case status => rw [Kern.setEnv_envs_self]
  case empty =>
    intro n hn
    have hd' : (t.setEnv b set).dirs b = some d := by
      rw [hdirs, Function.update_self]
    exact pteAt_noTable hd' (Owned.newPgdir_link (pageNo_lt hn).1)
  case room =>
    rw [hdirs]
    exact hfree.newPgdir hnone hfresh

variable (upcall) in
/-- What `fork` and `sfork` do before their loops. -/
theorem wp_startFork (h : InUser L s c) (hr : Ready L s c installed k) :
    Prog.wp (startFork installed upcall)
      (fun id u => ∃ b, Started L s u c b (pdxUTOP + k + 2) id) A E s := by
  unfold startFork
  apply Prog.wp_bind_intro
  refine Prog.wp_imp (wp_setPgfaultHandler upcall h hr (A := A) (E := E)) ?_
    (fun _ h => h)
    fun _ _ h => h
  rintro - t ⟨ht, hsame, hfree, hlist, hstatus⟩
  apply Prog.wp_bind_intro
  refine Prog.wp_imp (wp_sysExofork ht (hlist ▸ hr.slot) hfree (A := A)
    (E := E)) ?_ (fun _ h => h)
    fun _ _ h => h
  rintro id u ⟨b, hb⟩
  apply Prog.wp_bind_intro
  refine wp_panicIf (fun hneg => ?_) fun _ => Prog.wp_pure_intro ⟨b, ?_⟩
  · have := hb.pos.2
    rw [BitVec.slt, decide_eq_true_iff,
      BitVec.toInt_eq_toNat_of_lt (by omega)] at hneg
    exact absurd hneg (by simp)
  · exact { hb with
      same := hsame.trans hb.same
      slot := (hstatus b).symm.trans hb.slot
      others := fun e he => (hb.others e he).trans (hstatus e) }

/-! ## After the loops -/

/-- The loops can begin. -/
theorem Started.duping (h : Started L s u c b (pdxUTOP + k + 2) id) :
    Duping L u c b (k + 1) (pteNo u.vm.mem u.dirs c) (fun _ => 0) u.vm where
  owned := h.parent.user.pages.owned
  opened := h.parent.user.opened
  parent _ _ := rfl
  child := h.empty
  other _ _ _ _ _ _ := rfl
  data _ _ _ _ := rfl
  spare := ⟨_, h.room, by omega⟩

/-- In `t` the child `b` of `c` can run, the entries of the parent are `P` and
those of the child are `C`, and the child has an exception stack of its own. -/
structure Forked (L : Layout) (u t : Kern) (c b k : Nat) (id : Word)
    (P C : Nat → Word) : Prop where
  user : InUser L t c
  child : t.Live b
  ne : b ≠ c
  named : t.resolve c id true = .ok b
  runnable : (t.envs b).envStatus = .runnable
  others : ∀ e, e ≠ b → (t.envs e).envStatus = (u.envs e).envStatus
  parent : ∀ n < pdxUTOP * 1024, pteNo t.vm.mem t.dirs c n = P n
  entries : ∀ n < pdxUTOP * 1024, n ≠ ppn UXSTACK →
    pteNo t.vm.mem t.dirs b n = C n
  data : ∀ n < pdxUTOP * 1024, ∀ q, mapped (P n) = some q →
    t.vm.mem q = u.vm.mem q
  stack : ∃ pp, pteNo t.vm.mem t.dirs b (ppn UXSTACK) = copyPte pp ∧ pp < 2 ^ 20
    ∧ (∀ n < pdxUTOP * 1024, mapped (P n) ≠ some pp) ∧ ∀ o < PGSIZE,
    t.vm.mem pp o = 0
  room : FreeAtLeast L t.dirs t.vm.mem k

variable (upcall) in
/-- The child's exception stack, its upcall and its status. -/
theorem Duping.finish {P C : Nat → Word} (h : Duping L u c b (k + 1) P C v)
    (hp : Parent L u c b id)
    (hC : C (ppn UXSTACK) = 0) :
    ∃ v', sysPageAlloc id UXSTACK (PTE_P ||| PTE_U ||| PTE_W) (u.withVm v) =
      .ret 0 (u.withVm v')
      ∧ Forked L u (((u.withVm v').setEnv b
        fun env => { env with envPgfaultUpcall := upcall }).setEnv b
        fun env => { env with envStatus := .runnable }) c b k id P C := by
  have hva : userPage UXSTACK := by decide
  have hperm : validPerm (PTE_P ||| PTE_U ||| PTE_W) := by decide
  have hbL := hp.user.pages.lt hp.child
  have hX : ppn UXSTACK < pdxUTOP * 1024 := by decide
  have hspare : FreeAtLeast L u.dirs v.mem (k + 2) := h.spare.free
  obtain ⟨v', pp, hv, hnew⟩ :=
    h.owned.pageAllocAt_free hbL hp.child.dirs hva.1 (validPerm_lt hperm)
    (hspare.mono (Nat.le_add_left ..))
  have hold : pteAt v.mem u.dirs b (pdx UXSTACK) (ptx UXSTACK) = 0 := by
    rw [pteAt_eq_pteNo, h.child _ hX, hC]
  have howned : Owned L u.dirs [] v' := hnew.owned fun q hq => by
    rw [target, hold, mapped_zero] at hq
    cases hq
  have hin := (hp.user.withVm howned
    (hnew.opened h.opened h.shaped.dir_lt)).setEnv (e := b)
    (f := fun env => { env with envPgfaultUpcall := upcall })
    (fun hc => absurd hc hp.ne) Iff.rfl rfl rfl rfl
  have hlive : ((u.withVm v').setEnv b fun env =>
      { env with envPgfaultUpcall := upcall }).Live b :=
    ⟨hp.child.1, by rw [Kern.setEnv_envs_self]; exact hp.child.2⟩
  have hdirs₁ : ((u.withVm v').setEnv b fun env =>
      { env with envPgfaultUpcall := upcall }).dirs = u.dirs :=
    dirs_setEnv Iff.rfl rfl
  refine ⟨v', sysPageAlloc_ret (s := u.withVm v) hp.user.run.cur hp.named hva
    hperm hv, ?_⟩
  generalize hs₁ : (u.withVm v').setEnv b
    (fun env => { env with envPgfaultUpcall := upcall }) = s₁ at *
  have hfree : EnvStatus.runnable = EnvStatus.free ↔
      (s₁.envs b).envStatus = .free :=
    iff_of_false (by decide) hlive.2
  have hdirs : (s₁.setEnv b fun env =>
      { env with envStatus := .runnable }).dirs = u.dirs :=
    (dirs_setEnv hfree rfl).trans hdirs₁
  have hvm : (s₁.setEnv b fun env => { env with envStatus := .runnable }).vm =
    v' := by
    rw [← hs₁]
    rfl
  have hpte : ∀ e n, e < L.ndirs → n < pdxUTOP * 1024 → pteNo v'.mem u.dirs e n
      = if e = b ∧ n = ppn UXSTACK then copyPte pp else
      pteNo v.mem u.dirs e n := by
    intro e n he hn
    rw [pteNo, hnew.pte e _ _ he (pageNo_lt hn).1 (pageNo_lt hn).2]
    exact if_congr (and_congr_right fun _ => pageNo_iff) rfl rfl
  have hparent : ∀ n < pdxUTOP * 1024, pteNo v'.mem u.dirs c n = P n :=
    fun n hn => by
    rw [hpte c n hp.user.lt hn, if_neg fun h => hp.ne h.1.symm, h.parent n hn]
  have hfresh : ∀ n < pdxUTOP * 1024, mapped (P n) ≠ some pp := by
    intro n hn hpp
    rw [← h.parent n hn] at hpp
    exact hnew.fresh _ (hp.user.slot hn) hpp
  constructor
  case user => exact hin.setEnv (fun hc => absurd hc hp.ne) hfree rfl rfl rfl
  case child => exact ⟨hp.child.1,
    by rw [Kern.setEnv_envs_self]; exact EnvStatus.noConfusion⟩
  case ne => exact hp.ne
  case named =>
    rw [resolve_setEnv hfree rfl rfl, ← hs₁, resolve_setEnv Iff.rfl rfl rfl]
    exact hp.named
  case runnable => rw [Kern.setEnv_envs_self]
  case others =>
    intro e he
    rw [Kern.setEnv_envs_ne he, ← hs₁, Kern.setEnv_envs_ne he]
    rfl
  case parent =>
    rw [hdirs, hvm]
    exact hparent
  case entries =>
    intro n hn hne
    rw [hdirs, hvm, hpte b n hbL hn, if_neg fun h => hne h.2, h.child n hn]
  case data =>
    intro n hn q hq
    rw [hvm, ← h.data n hn q hq]
    refine hnew.data q (fun hqp => hfresh n hn (hqp ▸ hq)) ?_
    refine hnew.tree.not_nodeOf (hp.user.slot hn) Slot.not_node ?_ b
    rw [target, ← pteNo, hparent n hn, hq]
  case stack =>
    refine ⟨pp, ?_, Owned.lt_pow hnew.user, hfresh, ?_⟩
    · rw [hdirs, hvm, hpte b _ hbL hX, if_pos ⟨rfl, rfl⟩]
    · rw [hvm]
      exact hnew.zero
  case room =>
    rw [hdirs, hvm]
    exact hnew.free hp.child.dirs (validPerm_lt hperm) hspare

/-! ## `sfork` and `fork` -/

/-- The pages that the two loops of `sfork` go through. -/
def stackPages : Nat × Nat := (ppn (USTACKTOP - 0x1000#32), ppn UXSTACK)

/-- The child's entries after the loops of `sfork`, from those of the parent. -/
def sforkChild (P : Nat → Word) : Nat → Word :=
  within stackPages.1 stackPages.2 (fun n => dupChild (P n))
    (within 0 stackPages.1 (fun n => sharedPte (P n)) fun _ => 0)

theorem sforkChild_stack {P : Nat → Word} : sforkChild P (ppn UXSTACK) = 0 := by
  unfold sforkChild within
  rw [if_neg fun h => absurd h.2 (by decide), if_neg fun h =>
    absurd h.2 (by decide)]

variable (upcall) in
/-- `sfork` returns with the two address spaces set up, or panics at a page
below the stack that is copy-on-write and not writable. -/
theorem wp_sfork (h : InUser L s c) (hr : Ready L s c installed k) :
    Prog.wp (sfork installed upcall)
      (fun id t => (∀ n < stackPages.1, ¬Refused (pteNo s.vm.mem s.dirs c n))
        ∧ ∃ u b, Started L s u c b (pdxUTOP + k + 2) id
          ∧ Forked L u t c b k id (within stackPages.1 stackPages.2
              (fun n => dupParent (pteNo u.vm.mem u.dirs c n))
                (pteNo u.vm.mem u.dirs c))
            (sforkChild (pteNo u.vm.mem u.dirs c)))
      A (fun _ _ => ∃ n < stackPages.1,
        Refused (pteNo s.vm.mem s.dirs c n)) s := by
  unfold sfork
  apply Prog.wp_bind_intro
  refine Prog.wp_imp (wp_startFork upcall h hr (A := A)) ?_ (fun _ h => h)
    fun _ _ h => h
  rintro id u ⟨b, hu⟩
  have hne : id ≠ 0 := fun h0 => absurd hu.pos.1 (by rw [h0]; decide)
  refine Prog.wp_ite _ (fun h0 => absurd h0 hne) fun _ => ?_
  have hsame : ∀ n < stackPages.1, pteNo u.vm.mem u.dirs c n =
      pteNo s.vm.mem s.dirs c n := fun n hn =>
    hu.same.pte n (Nat.lt_trans hn (by decide))
      (Nat.ne_of_lt (Nat.lt_trans hn (by decide)))
  apply Prog.wp_bind_intro
  refine Prog.wp_imp (hu.duping.wp_shareLoop 0 stackPages.1 hu.parent
    (Nat.zero_le _) (by decide)
    (fun _ _ _ => rfl) fun _ _ _ n _ hn hn' =>
    ⟨n, hn, hsame n hn ▸ hn'⟩) ?_ (fun _ h => h) fun _ _ h => h
  rintro - _ ⟨hno, v₁, rfl, hv₁⟩
  apply Prog.wp_bind_intro
  refine Prog.wp_imp (hv₁.wp_dupLoop stackPages.1 stackPages.2 hu.parent
    (by decide) (by decide)
    fun n hn _ => if_neg fun h => absurd h.2 (by omega)) ?_ (fun _ h =>
    h) fun _ _ h => h
  rintro - _ ⟨v₂, rfl, hv₂⟩
  obtain ⟨v₃, halloc, hforked⟩ := hv₂.finish upcall hu.parent sforkChild_stack
  apply Prog.wp_bind_intro
  refine wp_stub halloc (fun _ => by decide) ?_
  apply Prog.wp_bind_intro
  refine wp_panicIf (fun hneg => absurd hneg (by decide)) fun _ => ?_
  apply Prog.wp_bind_intro
  refine wp_stub (sysEnvSetPgfaultUpcall_ret
    (s := u.withVm v₃) hu.parent.user.run.cur hu.parent.named)
    (fun _ => by decide) ?_
  apply Prog.wp_bind_intro
  refine wp_stub (sysEnvSetStatus_ret (s := (u.withVm v₃).setEnv b _)
    hu.parent.user.run.cur
    ((resolve_setEnv Iff.rfl rfl rfl).trans hu.parent.named)) (fun _ => by
    decide) ?_
  apply Prog.wp_bind_intro
  refine wp_panicIf (fun hneg => absurd hneg (by decide)) fun _ =>
    Prog.wp_pure_intro
    ⟨fun n hn => hsame n hn ▸ hno n (Nat.zero_le n) hn, u, b, hu, hforked⟩

/-! ## What the two processes see -/

section See

variable {a va w w' : Word}

theorem pteOf_eq : s.pteOf c va = pteNo s.vm.mem s.dirs c (ppn va) :=
  pteAt_eq_pteNo

/-- An access of a live environment. -/
theorem InUser.userAccess (h : InUser L t c) (he : t.Live e) (hva : va < UTOP)
    (write : Bool) :
    Jos.userAccess t.vm.mem (t.envs e).envCr3 va write
      = if UserPte (t.pteOf e va) ∧ (write → t.pteOf e va &&& PTE_W ≠ 0) then
      some (ppn (t.pteOf e va))
        else none := by
  rw [h.pages.cr3 e he, h.shaped.userAccess he.dirs hva]
  refine if_congr ?_ rfl rfl
  rw [UserPte, and_assoc]
  rfl

/-- What is stored through a writable entry is read through every entry for the
same page. -/
theorem InUser.sharedAt {a : Nat} (h : InUser L t c) (ha : t.Live a)
    (hb : t.Live b) (hva : va < UTOP)
    (hw : UserPte (t.pteOf a va)) (hwrite : t.pteOf a va &&& PTE_W ≠ 0)
    (hr : UserPte (t.pteOf b va))
    (hpage : ppn (t.pteOf b va) = ppn (t.pteOf a va)) : SharedAt t a b va := by
  intro x
  have hslot : Slot.pte a (pdx va) (ptx va) ∈ L.slots :=
    mem_slots.mpr ⟨h.pages.lt ha, pdx_lt_of_lt_UTOP hva, ptx_lt va⟩
  have htarget : target t.vm.mem t.dirs (.pte a (pdx va) (ptx va)) =
      some (ppn (t.pteOf a va)) :=
    mapped_of_present hw.1
  have hdata := h.shaped.tree.not_nodeOf hslot Slot.not_node htarget
  have hstore : userStore t.vm.mem (t.envs a).envCr3 va x =
      Function.update t.vm.mem (ppn (t.pteOf a va))
      (Function.update (t.vm.mem (ppn (t.pteOf a va))) (pgoff va) x) := by
    rw [userStore, h.userAccess ha hva, if_pos ⟨hw, fun _ => hwrite⟩]
  have hm : ∀ q, q ≠ ppn (t.pteOf a va) →
      userStore t.vm.mem (t.envs a).envCr3 va x q = t.vm.mem q := by
    intro q hq
    rw [hstore, Function.update_of_ne hq]
  have hshaped := h.shaped.setData hdata hm
  have hpte : pteAt (userStore t.vm.mem (t.envs a).envCr3 va x) t.dirs b
      (pdx va) (ptx va) = t.pteOf b va :=
    pteAt_of_ne (h.pages.lt hb) (pdx_lt_of_lt_UTOP hva) fun p hp =>
      hm p fun hpa => hdata b (hpa ▸ hp)
  have hread : Jos.userAccess (userStore t.vm.mem (t.envs a).envCr3 va x)
      (t.envs b).envCr3 va false
      = some (ppn (t.pteOf a va)) := by
    rw [h.pages.cr3 b hb]
    refine (hshaped.userAccess hb.dirs hva false).trans ?_
    simp only [hpte]
    rw [if_pos ⟨hr.1, hr.2, nofun⟩, hpage]
  rw [userLoad, hread, hstore]
  simp

/-- A page that is mapped as `remap w` has the bytes of the page of `w`. -/
theorem ppn_remap {perm : Word} (hperm : perm < 0x1000#32) :
    ppn (remap w perm) = ppn w :=
  (mapped_eq_some.mp (mapped_remap hperm)).2

/-- An entry for the page that `c` maps at `va` in `s`, not writable. -/
theorem privateAt (hs : InUser L s c) (ht : InUser L t c) (he : t.Live e)
    (hva : va < UTOP)
    (hu : UserPte (s.pteOf c va)) (hut : UserPte (t.pteOf e va))
    (hpage : ppn (t.pteOf e va) = ppn (s.pteOf c va))
    (hw : t.pteOf e va &&& PTE_W = 0)
    (hcow : Dirty (s.pteOf c va) → t.pteOf e va &&& PTE_COW ≠ 0)
    (hdata : t.vm.mem (ppn (s.pteOf c va)) = s.vm.mem (ppn (s.pteOf c va))) :
    PrivateAt s t c e va where
  load := by
    rw [userLoad, userLoad, ht.userAccess he hva, hs.userAccess hs.live hva,
      if_pos ⟨hut, nofun⟩,
      if_pos ⟨hu, nofun⟩, hpage, Option.map_some, Option.map_some, hdata]
  fault := by rw [ht.userAccess he hva, if_neg fun h => h.2 rfl hw]
  cow := hcow

end See

/-! ## What the entries of the loops allow -/

section Entries

variable {w : Word}

theorem remap_W {perm : Word} : remap w perm &&& PTE_W ≠ 0 ↔
      (perm ||| PTE_P) &&& PTE_W ≠ 0 := remap_and flag_W

/-- A page that can be shared is mapped for the child with the parent's
permission. -/
theorem sharedPte_spec (hu : UserPte w) (hd : Dirty w) (hno : ¬Refused w) :
    w &&& PTE_W ≠ 0 ∧ UserPte (sharedPte w) ∧ sharedPte w &&& PTE_W ≠ 0
      ∧ ppn (sharedPte w) = ppn w := by
  have hw : w &&& PTE_W ≠ 0 := by
    intro hw
    exact hno ⟨hu, hd.resolve_right (not_not.mpr hw), hw⟩
  rw [sharedPte, if_pos hu, if_pos hd]
  exact ⟨hw, userPte_remap (by decide) (by decide), remap_W.mpr (by decide),
    ppn_remap (by decide)⟩

/-- What `duppage` leaves is not writable. -/
theorem dup_spec (hu : UserPte w) : ∀ w', w' = dupParent w ∨ w' = dupChild w →
    UserPte w' ∧ ppn w' = ppn w ∧ w' &&& PTE_W = 0
      ∧ (Dirty w → w' &&& PTE_COW ≠ 0) := by
  have hcow : UserPte (remap w (PTE_COW ||| PTE_P ||| PTE_U))
      ∧ ppn (remap w (PTE_COW ||| PTE_P ||| PTE_U)) = ppn w
      ∧ remap w (PTE_COW ||| PTE_P ||| PTE_U) &&& PTE_W = 0
      ∧ (Dirty w → remap w (PTE_COW ||| PTE_P ||| PTE_U) &&& PTE_COW ≠ 0) := by
    refine ⟨userPte_remap (by decide) (by decide), ppn_remap (by decide), ?_,
      fun _ => ?_⟩
    · by_contra hw
      exact remap_W.mp hw (by decide)
    · exact (remap_and flag_COW).mpr (by decide)
  have hread : ¬Dirty w → UserPte (remap w (PTE_P ||| PTE_U))
      ∧ ppn (remap w (PTE_P ||| PTE_U)) = ppn w
      ∧ remap w (PTE_P ||| PTE_U) &&& PTE_W = 0
      ∧ (Dirty w → remap w (PTE_P ||| PTE_U) &&& PTE_COW ≠ 0) := by
    intro hd
    refine ⟨userPte_remap (by decide) (by decide), ppn_remap (by decide), ?_,
      fun h => absurd h hd⟩
    by_contra hw
    exact remap_W.mp hw (by decide)
  rintro w' (rfl | rfl)
  · unfold dupParent
    by_cases hd : Dirty w
    · rwa [if_pos ⟨hu, hd⟩]
    · rw [if_neg fun h => hd h.2]
      exact ⟨hu, rfl, not_not.mp fun hw => hd (.inr hw), fun h => absurd h hd⟩
  · unfold dupChild
    rw [if_pos hu]
    by_cases hd : Dirty w
    · rwa [if_pos hd]
    · rw [if_neg hd]
      exact hread hd

end Entries

/-- After the loops of `sfork`, what lies below the stack is shared and the
stack is copied. -/
theorem Forked.sforked (h : InUser L s c) (hu : Started L s u c b n id)
    (hf : Forked L u t c b k id (within stackPages.1 stackPages.2
        (fun n => dupParent (pteNo u.vm.mem u.dirs c n))
        (pteNo u.vm.mem u.dirs c))
      (sforkChild (pteNo u.vm.mem u.dirs c)))
    (hno : ∀ n < stackPages.1, ¬Refused (pteNo s.vm.mem s.dirs c n)) :
    Sforked s t c b id := by
  have hX : stackPages.2 = ppn UXSTACK := rfl
  have hstackX : stackPages.1 < stackPages.2 := by decide
  have hlow : ∀ va < UXSTACK, va < UTOP ∧ ppn va < stackPages.2 := by
    intro va hva
    have hUX : UXSTACK.toNat = 0xEEBFF000 := rfl
    rw [BitVec.lt_def, hUX] at hva
    refine ⟨?_, ?_⟩
    · rw [BitVec.lt_def, show UTOP.toNat = 0xEEC00000 from rfl]
      omega
    · rw [hX, ppn_eq, ppn_eq, hUX]
      omega
  have hP0 : ∀ va < UXSTACK, pteNo u.vm.mem u.dirs c (ppn va) =
      s.pteOf c va := by
    intro va hva
    rw [pteOf_eq]
    exact hu.same.pte _ (ppn_lt_of_lt_UTOP (hlow va hva).1)
      (Nat.ne_of_lt (hlow va hva).2)
  have hchild : ∀ va < UXSTACK,
      t.pteOf b va = sforkChild (pteNo u.vm.mem u.dirs c) (ppn va) := by
    intro va hva
    rw [pteOf_eq]
    exact hf.entries _ (ppn_lt_of_lt_UTOP (hlow va hva).1)
      (Nat.ne_of_lt (hlow va hva).2)
  constructor
  case named => exact hf.named
  case fresh => exact hu.slot
  case runnable => exact hf.runnable
  case shared =>
    intro va hva hus hd
    have hvaX : va < UXSTACK := BitVec.lt_trans hva (by decide)
    have hutop := (hlow va hvaX).1
    have hn : ppn va < stackPages.1 := by
      have hS : (USTACKTOP - 0x1000#32).toNat = 0xEEBFD000 := rfl
      rw [BitVec.lt_def, hS] at hva
      show ppn va < ppn (USTACKTOP - 0x1000#32)
      rw [ppn_eq, ppn_eq, hS]
      omega
    have hpc : t.pteOf c va = s.pteOf c va := by
      rw [pteOf_eq, hf.parent _ (ppn_lt_of_lt_UTOP hutop), within,
        if_neg fun h => absurd h.1 (by omega),
        hP0 va hvaX]
    have hpb : t.pteOf b va = sharedPte (s.pteOf c va) := by
      rw [hchild va hvaX, sforkChild, within,
        if_neg fun h => absurd h.1 (by omega), within,
        if_pos ⟨Nat.zero_le _, hn⟩, hP0 va hvaX]
    obtain ⟨hw, huc, hwc, hpage⟩ := sharedPte_spec hus hd (pteOf_eq ▸ hno _ hn)
    rw [← hpb] at huc hwc hpage
    rw [← hpc] at hus hw hpage
    exact ⟨hf.user.sharedAt hf.user.live hf.child hutop hus hw huc hpage,
      hf.user.sharedAt hf.child hf.user.live hutop huc hwc hus hpage.symm⟩
  case stack =>
    rintro va ⟨hge, hvaX⟩ hus
    have hutop := (hlow va hvaX).1
    have hn : stackPages.1 ≤ ppn va ∧ ppn va < stackPages.2 := by
      refine ⟨?_, (hlow va hvaX).2⟩
      have hS : (USTACKTOP - 0x1000#32).toNat = 0xEEBFD000 := rfl
      rw [BitVec.le_def, hS] at hge
      show ppn (USTACKTOP - 0x1000#32) ≤ ppn va
      rw [ppn_eq, ppn_eq, hS]
      omega
    have hpc : t.pteOf c va = dupParent (s.pteOf c va) := by
      rw [pteOf_eq, hf.parent _ (ppn_lt_of_lt_UTOP hutop), within, if_pos hn,
        hP0 va hvaX]
    have hpb : t.pteOf b va = dupChild (s.pteOf c va) := by
      rw [hchild va hvaX, sforkChild, within, if_pos hn, hP0 va hvaX]
    have hspec := dup_spec hus
    obtain ⟨huc, hpagec, hwc, hcowc⟩ := hspec _ (.inl hpc)
    obtain ⟨hub, hpageb, hwb, hcowb⟩ := hspec _ (.inr hpb)
    have hdata : t.vm.mem (ppn (s.pteOf c va)) =
        s.vm.mem (ppn (s.pteOf c va)) := by
      have hmap : mapped (pteNo s.vm.mem s.dirs c (ppn va)) =
          some (ppn (s.pteOf c va)) := by
        rw [← pteOf_eq]
        exact mapped_of_present hus.1
      rw [← hu.same.data _ (ppn_lt_of_lt_UTOP hutop) (Nat.ne_of_lt hn.2) _ hmap]
      refine hf.data _ (ppn_lt_of_lt_UTOP hutop) _ ?_
      rw [← hf.parent _ (ppn_lt_of_lt_UTOP hutop), ← pteOf_eq,
        mapped_of_present huc.1, hpagec]
    exact ⟨privateAt h hf.user hf.user.live hutop hus huc hpagec hwc
      hcowc hdata,
      privateAt h hf.user hf.child hutop hus hub hpageb hwb hcowb hdata⟩
  case exception =>
    obtain ⟨pp, hpp, -, hfresh, -⟩ := hf.stack
    refine ⟨pp, by rw [pteOf_eq, hpp], fun va hva => ?_⟩
    rw [pteOf_eq, hf.parent _ (ppn_lt_of_lt_UTOP hva)]
    exact hfresh _ (ppn_lt_of_lt_UTOP hva)

/-- The pages of the first loop are the addresses below the stack. -/
theorem forall_below_stack {p : Word → Prop} :
    (∀ n < stackPages.1, p (pteNo s.vm.mem s.dirs c n)) ↔
    ∀ va < USTACKTOP - 0x1000#32, p (s.pteOf c va) := by
  have hS : (USTACKTOP - 0x1000#32).toNat = 0xEEBFD000 := rfl
  have hn : stackPages.1 = 0xEEBFD := by
    show ppn (USTACKTOP - 0x1000#32) = _
    rw [ppn_eq, hS]
  constructor
  · intro h va hva
    rw [pteOf_eq]
    refine h _ ?_
    rw [BitVec.lt_def, hS] at hva
    rw [hn, ppn_eq]
    omega
  · intro h n hlt
    have hlt' : n < pdxUTOP * 1024 := Nat.lt_trans hlt (by decide)
    have hva : pageVa n < USTACKTOP - 0x1000#32 := by
      rw [BitVec.lt_def, pageVa_toNat hlt', hS]
      omega
    have := h _ hva
    rwa [pteOf_eq, ppn_pageVa hlt'] at this

/-- `sfork` makes the child that it should exactly when no page below the stack
is copy-on-write without being writable. -/
theorem sfork_shares (h : InUser L s c) (hr : Ready L s c installed 0)
    (upcall : Word) :
    (∃ b id t, sfork installed upcall s = .ret id t ∧ Sforked s t c b id)
      ↔ ∀ va < USTACKTOP - 0x1000#32, ¬Refused (s.pteOf c va) := by
  have hspec := wp_sfork upcall h hr (A := fun _ => False)
  rw [← forall_below_stack (p := fun w => ¬Refused w)]
  constructor
  · rintro ⟨b, id, t, hret, -⟩
    exact (hspec.ret hret).1
  · intro hno
    cases hret : sfork installed upcall s with
    | ret id t =>
        obtain ⟨-, u, b, hu, hf⟩ := hspec.ret hret
        exact ⟨b, id, t, rfl, hf.sforked h hu hno⟩
    | away t => exact (hspec.away hret).elim
    | stop x t =>
        obtain ⟨n, hn, hr⟩ := hspec.stop hret
        exact absurd hr (hno n hn)

variable (upcall) in
/-- `fork` returns with the two address spaces set up. -/
theorem wp_fork (h : InUser L s c) (hr : Ready L s c installed k) :
    Prog.wp (fork installed upcall)
      (fun id t => ∃ u b, Started L s u c b (pdxUTOP + k + 2) id
        ∧ Forked L u t c b k id
          (within (ppn UTEXT) (ppn UXSTACK)
            (fun n => dupParent (pteNo u.vm.mem u.dirs c n))
            (pteNo u.vm.mem u.dirs c))
          (within (ppn UTEXT) (ppn UXSTACK)
            (fun n => dupChild (pteNo u.vm.mem u.dirs c n)) fun _ => 0))
      A E s := by
  unfold fork
  apply Prog.wp_bind_intro
  refine Prog.wp_imp (wp_startFork upcall h hr (A := A) (E := E)) ?_
    (fun _ h => h) fun _ _ h => h
  rintro id u ⟨b, hu⟩
  have hne : id ≠ 0 := fun h0 => absurd hu.pos.1 (by rw [h0]; decide)
  refine Prog.wp_ite _ (fun h0 => absurd h0 hne) fun _ => ?_
  apply Prog.wp_bind_intro
  refine Prog.wp_imp (hu.duping.wp_dupLoop (ppn UTEXT) (ppn UXSTACK) hu.parent
    (by decide) (by decide)
    fun _ _ _ => rfl) ?_ (fun _ h => h) fun _ _ h => h
  rintro - _ ⟨v₂, rfl, hv₂⟩
  obtain ⟨v₃, halloc, hforked⟩ :=
    hv₂.finish upcall hu.parent (if_neg fun h => absurd h.2 (by decide))
  have hcall : sysUxstackPgfaultStatus id UXSTACK (PTE_P ||| PTE_U ||| PTE_W)
      upcall ENV_RUNNABLE (u.withVm v₂)
      = .ret 0 (((u.withVm v₃).setEnv b fun env =>
        { env with envPgfaultUpcall := upcall }).setEnv b
        fun env => { env with envStatus := .runnable }) := by
    rw [sysUxstackPgfaultStatus, Prog.bind_ret halloc, if_neg (by decide),
      Prog.bind_ret (sysEnvSetPgfaultUpcall_ret
      (s := u.withVm v₃) hu.parent.user.run.cur hu.parent.named),
      if_neg (by decide), if_pos (by decide)]
    exact sysEnvSetStatus_ret (s := (u.withVm v₃).setEnv b _)
      hu.parent.user.run.cur
      ((resolve_setEnv Iff.rfl rfl rfl).trans hu.parent.named)
  apply Prog.wp_bind_intro
  refine wp_stub hcall (fun _ => by decide) ?_
  apply Prog.wp_bind_intro
  exact wp_panicIf (fun hneg => absurd hneg (by decide)) fun _ =>
    Prog.wp_pure_intro ⟨u, b, hu, hforked⟩

end

/-! ## A small instance -/

theorem EnvInv.first_ne_none {s : Kern} {e : Nat} (h : EnvInv s) (he : e < NENV)
    (hfree : (s.envs e).envStatus = .free) : s.envFreeList.first ≠ none := by
  obtain ⟨ys, hrep, hmem⟩ := h.freeList
  have hy := (hmem e).mpr ⟨he, hfree⟩
  rw [hrep.first_eq]
  intro hnil
  rw [List.head?_eq_none_iff.mp hnil] at hy
  cases hy

/-- The small kernel has as many free pages as it should. -/
theorem smallUserKern_free {k : Nat} (hk : k ≤ 10000) :
    FreeAtLeast (smallLayout k hk) (smallUserKern k).dirs
      (smallUserKern k).vm.mem k := by
  refine ⟨Finset.Ico 404 (404 + k), by simp, fun p hp => ?_⟩
  rw [Finset.mem_Ico] at hp
  refine ⟨⟨⟨by omega, hp.2⟩, rfl⟩, fun l hl hlp => ?_⟩
  rw [smallUserKern_target hl] at hlp
  obtain ⟨e, he, -, rfl⟩ := smallKern_target hlp
  omega

theorem smallUserKern_pte {k e n : Nat} (hn : n < pdxUTOP * 1024) :
    pteNo (smallUserKern k).vm.mem (smallUserKern k).dirs e n = 0 := by
  cases hd : (smallUserKern k).dirs e with
  | none => exact pteAt_noDir hd
  | some d => exact pteAt_noTable hd (smallUserVm_link (pageNo_lt hn).1)

theorem smallUserKern_ready {k : Nat} (hk : k ≤ 10000) (j : Nat)
    (hj : pdxUTOP + j + 5 ≤ k) :
    Ready (smallLayout k hk) (smallUserKern k) 2 false j where
  slot := (smallUserKern_inUser hk).pages.env.first_ne_none (e := 500)
    (by decide) rfl
  room := (smallUserKern_free hk).mono hj
  stack _ q hq := by
    have hzero := smallUserKern_pte (k := k) (e := 2) (n := ppn UXSTACK)
      (by decide)
    rw [← pteOf_eq] at hzero
    rw [target, ← Kern.pteOf, hzero, mapped_zero] at hq
    cases hq

/-- Slot 2 of the small kernel has a writable page at `UTEXT`, and nothing
else. -/
theorem exists_textPage : ∃ v pp,
    sysPageAlloc 0 UTEXT (PTE_P ||| PTE_U ||| PTE_W) (smallUserKern 3000) =
      .ret 0 ((smallUserKern 3000).withVm v)
    ∧ InUser (smallLayout 3000 (by decide)) ((smallUserKern 3000).withVm v) 2
    ∧ Ready (smallLayout 3000 (by decide)) ((smallUserKern 3000).withVm v) 2
      false 1000
    ∧ ∀ va < UTOP, ((smallUserKern 3000).withVm v).pteOf 2 va = if ppn va =
      ppn UTEXT then copyPte pp else 0 := by
  have hk : 3000 ≤ 10000 := by decide
  have hu := smallUserKern_inUser hk
  have hva : userPage UTEXT := by decide
  have hperm : validPerm (PTE_P ||| PTE_U ||| PTE_W) := by decide
  obtain ⟨v, pp, hv, hnew⟩ :=
    hu.pages.owned.pageAllocAt_free hu.lt hu.dirs hva.1 (validPerm_lt hperm)
    ((smallUserKern_free hk).mono (by decide))
  have hX : ∀ va < UTOP, (smallUserKern 3000).pteOf 2 va = 0 := fun va hva => by
    rw [pteOf_eq, smallUserKern_pte (ppn_lt_of_lt_UTOP hva)]
  refine ⟨v, pp, sysPageAlloc_ret hu.run.cur resolve_zero hva hperm hv, ?_, ?_,
    fun va hlt => ?_⟩
  · exact hu.withVm (hnew.owned fun q hq => by
      rw [target, ← Kern.pteOf, hX _ (by decide), mapped_zero] at hq
      cases hq) (hnew.opened hu.opened hu.shaped.dir_lt)
  · refine ⟨(smallUserKern_ready hk 0 (by decide)).slot, ?_, fun _ q hq => ?_⟩
    · exact (hnew.free hu.dirs (validPerm_lt hperm)
        (smallUserKern_free hk)).mono (by decide)
    · change mapped (pteAt v.mem (smallUserKern 3000).dirs 2 _ _) = _ at hq
      rw [hnew.pte 2 _ _ hu.lt (by decide) (ptx_lt _), if_neg (by decide),
        ← Kern.pteOf, hX _ (by decide),
        mapped_zero] at hq
      cases hq
  · refine (hnew.pte 2 _ _ hu.lt (pdx_lt_of_lt_UTOP hlt) (ptx_lt _)).trans
      (if_congr ?_ rfl (hX va hlt))
    rw [ppn_eq, ppn_eq, pdx_eq, pdx_eq, ptx_eq, ptx_eq, show UTEXT.toNat =
      8388608 from rfl]
    omega

theorem copyPte_user {pp : Nat} :
    UserPte (copyPte pp) ∧ Dirty (copyPte pp) ∧ copyPte pp &&& PTE_W ≠ 0 := by
  have hflags : copyPte pp =
      page2pa pp ||| ((PTE_U ||| PTE_P ||| PTE_W) ||| PTE_P) := by
    rw [copyPte, BitVec.or_assoc]
  rw [UserPte, Dirty, present_iff, hflags, flag_P.page2pa_or, flag_U.page2pa_or,
    flag_W.page2pa_or]
  exact ⟨⟨by decide, by decide⟩, .inr (by decide), by decide⟩

/-- A writable page at `UTEXT` comes to be shared. -/
theorem sfork_shares_small : ∃ s b id t,
    sysPageAlloc 0 UTEXT (PTE_P ||| PTE_U ||| PTE_W) (smallUserKern 3000) =
      .ret 0 s
    ∧ sfork false 0 s = .ret id t ∧ Sforked s t 2 b id ∧ SharedAt t 2 b UTEXT
    ∧ SharedAt t b 2 UTEXT := by
  obtain ⟨v, pp, halloc, hu, hr, hpte⟩ := exists_textPage
  have hr : Ready (smallLayout 3000 (by decide)) ((smallUserKern 3000).withVm v)
      2 false 0 :=
    ⟨hr.slot, hr.room.mono (by decide), hr.stack⟩
  obtain ⟨b, id, t, hret, hs⟩ :=
    (sfork_shares hu hr 0).mpr fun va hva hbad => by
    rw [hpte va (BitVec.lt_trans hva (by decide))] at hbad
    split at hbad
    · exact copyPte_user.2.2 hbad.2.2
    · exact absurd hbad.1.1 (by decide)
  have htext : ((smallUserKern 3000).withVm v).pteOf 2 UTEXT = copyPte pp :=
    (hpte UTEXT (by decide)).trans (if_pos rfl)
  have hshared := hs.shared UTEXT (by decide)
  rw [htext] at hshared
  obtain ⟨huser, hdirty, -⟩ := @copyPte_user pp
  exact ⟨_, b, id, t, halloc, hret, hs, hshared huser hdirty⟩

/-- A program with a writable page at `UTEXT` forks, and then `sfork` panics. -/
theorem sfork_after_fork : ∃ L s id t, sysPageAlloc 0 UTEXT
      (PTE_P ||| PTE_U ||| PTE_W) (smallUserKern 3000) = .ret 0 s
    ∧ fork false 0 s = .ret id t ∧ InUser L t 2 ∧ Ready L t 2 true 0
    ∧ ¬∃ b id' t', sfork true 0 t = .ret id' t' ∧ Sforked t t' 2 b id' := by
  obtain ⟨v, pp, halloc, hs, hr, hpte⟩ := exists_textPage
  obtain ⟨id, t, hret, u, b, hstarted, hf⟩ :=
    (wp_fork 0 hs hr (A := fun _ => False)
    (E := fun _ _ => False)).exists_ret
  -- slot 500 or slot 501 is still free
  have hfree : ∀ e, 4 ≤ e → e ≠ b → (t.envs e).envStatus = .free := by
    intro e he hb
    rw [hf.others e hb, hstarted.others e hb]
    exact if_neg (by omega)
  have hslot : t.envFreeList.first ≠ none := by
    by_cases hb : 500 = b
    · exact hf.user.pages.env.first_ne_none (by decide)
        (hfree 501 (by decide) (by omega))
    · exact hf.user.pages.env.first_ne_none (by decide)
        (hfree 500 (by decide) hb)
  have hready : Ready (smallLayout 3000 (by decide)) t 2 true 0 :=
    ⟨hslot, hf.room.mono (by decide), fun h => by cases h⟩
  refine ⟨_, _, id, t, halloc, hret, hf.user, hready, ?_⟩
  rintro ⟨b', id', t', hret', -⟩
  refine ((wp_sfork 0 hf.user hready (A := fun _ => False)).ret hret').1
    (ppn UTEXT) (by decide) ?_
  have hentry : pteNo u.vm.mem u.dirs 2 (ppn UTEXT) = copyPte pp := by
    rw [hstarted.same.pte _ (by decide) (by decide)]
    rw [← pteOf_eq]
    exact (hpte UTEXT (by decide)).trans (if_pos rfl)
  obtain ⟨hcopy, hdirty, -⟩ := @copyPte_user pp
  rw [hf.parent _ (by decide), within, if_pos (by decide), hentry]
  obtain ⟨huser, -, hw, hcow⟩ := dup_spec hcopy _ (.inl rfl)
  exact ⟨huser, hcow hdirty, hw⟩

end Jos
