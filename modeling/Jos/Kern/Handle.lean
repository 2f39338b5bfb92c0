import Jos.Kern.Effect

/-!
# Every step is one of the effects

The specification of every system call and handler by `Handled`, from the
functions called first to `trap` itself; `step_cases` is the result.
-/

namespace Jos

section

variable {s : Kern} {c : Nat}

/-! ## Naming -/

theorem currentEnv_apply (hc : s.curenv = some c) :
    currentEnv s = .ret c s := by
  simp [currentEnv, hc]

theorem envid2env_apply (hc : s.curenv = some c) (envid : Word) (p : Bool) :
    envid2env envid p s = .ret (s.resolve c envid p) s := by
  unfold envid2env Kern.resolve
  by_cases h0 : envid = 0
  · rw [if_pos h0, if_pos h0, Prog.bind_ret (currentEnv_apply hc),
      Prog.pure_apply]
  rw [if_neg h0, if_neg h0, Prog.ask_bind]
  by_cases hl : (s.envs (envx envid)).envStatus = .free
    ∨ (s.envs (envx envid)).envId ≠ envid
  · rw [if_pos hl, if_pos hl, Prog.pure_apply]
  rw [if_neg hl, if_neg hl]
  have hcur : s.curenv ≠ some (envx envid) ↔ envx envid ≠ c := by
    rw [hc, Ne, Option.some_inj, eq_comm]
  by_cases hp : p = true ∧ s.curenv ≠ some (envx envid)
  · rw [if_pos hp, Prog.bind_ret (currentEnv_apply hc)]
    by_cases hpar : (s.envs (envx envid)).envParentId ≠ (s.envs c).envId
    · rw [if_pos hpar, if_pos ⟨hp.1, hcur.mp hp.2, hpar⟩, Prog.pure_apply]
    · rw [if_neg hpar, if_neg (fun h => hpar h.2.2), Prog.pure_apply]
  · rw [if_neg hp, if_neg (fun h => hp ⟨h.1, hcur.mpr h.2.1⟩), Prog.pure_apply]

theorem withEnv_ok (hc : s.curenv = some c) {envid : Word} {p : Bool}
    {f : Nat → K Word}
    {e : Nat} (h : s.resolve c envid p = .ok e) :
    withEnv envid p f s = f e s := by
  unfold withEnv
  rw [Prog.bind_ret (envid2env_apply hc envid p), h]

variable {Q : Word → Kern → Prop} {A : Kern → Prop} {E : Stop → Kern → Prop}

theorem wp_withEnv (hc : s.curenv = some c) {envid : Word} {p : Bool}
    {f : Nat → K Word}
    (herr : ∀ r, s.resolve c envid p = .error r → Q r s)
    (hok : ∀ e, s.resolve c envid p = .ok e → Prog.wp (f e) Q A E s) :
    Prog.wp (withEnv envid p f) Q A E s := by
  unfold withEnv
  rw [Prog.wp_bind]
  refine Prog.wp_ret (envid2env_apply hc envid p) ?_
  cases h : s.resolve c envid p with
  | error r => exact Prog.wp_pure_intro (herr r h)
  | ok e => exact hok e h

/-! ## System calls -/

/-- The program `p`, run for a system call of `c`, has one of the effects. -/
def Handles (c : Nat) (s : Kern) (p : K Word) : Prop :=
  Prog.wp p (fun r s₁ => Handled c s (s₁.sysRet c r)) (Resumed c s)
    (fun x _ => Stopped s x) s

theorem Handled.quiet {r : Word}
    (hno : (s.envs c).envTf.sysNo ≠ some .ipcRecv) :
    Handled c s (s.sysRet c r) :=
  .ret (v := s.vm) hno Relation.ReflTransGen.refl

theorem ne_ipcRecv {no : SysNo} (hno : (s.envs c).envTf.sysNo = some no)
    (hne : no ≠ .ipcRecv) : (s.envs c).envTf.sysNo ≠ some .ipcRecv := by
  rw [hno]
  exact fun h => hne (Option.some.inj h)

theorem handles_pure (hno : (s.envs c).envTf.sysNo ≠ some .ipcRecv) (r : Word) :
    Handles c s (pure r) :=
  Prog.wp_pure_intro (.quiet hno)

theorem handles_withEnv (hc : s.curenv = some c)
    (hno : (s.envs c).envTf.sysNo ≠ some .ipcRecv) {envid : Word} {p : Bool}
    {f : Nat → K Word} (hok : ∀ e, s.resolve c envid p = .ok e →
      Handles c s (f e)) :
    Handles c s (withEnv envid p f) :=
  wp_withEnv hc (fun _ _ => .quiet hno) hok

theorem handles_ite {p : Prop} [Decidable p] {f g : K Word}
    (hf : p → Handles c s f)
    (hg : ¬p → Handles c s g) : Handles c s (if p then f else g) :=
  Prog.wp_ite _ hf hg

/-- `sched_yield` after an effect. -/
theorem Handled.yield {α : Type} {s₁ : Kern} {Q : α → Kern → Prop}
    (h : Handled c s s₁) :
    Prog.wp (schedYield : K α) Q (Resumed c s) (fun x _ => Stopped s x) s₁ :=
  wp_schedYield (fun e hlt hrun => ⟨s₁, e, h, hlt, hrun, rfl⟩)
    (.of_ne (by decide))

/-- The environment that runs is destroyed, after a change `s₁` of the
others. -/
theorem wp_envDestroy_cur {Q : Unit → Kern → Prop} {s₁ : Kern}
    (hc : s₁.curenv = some c)
    (h : ∀ v, freeVm (s₁.envs c).envPgdir (s₁.envs c).envCr3 s₁.vm = .ret () v →
      Handled c s (s₁.freed c v).dropCur) :
    Prog.wp (envDestroy c) Q (Resumed c s) (fun x _ => Stopped s x) s₁ :=
  wp_envDestroy (fun _ _ hne => absurd hc hne)
    (fun v e' hv _ hlt hrun => ⟨_, e', h v hv, hlt, hrun, rfl⟩)
    fun _ _ h => .of_ne h

/-- `user_mem_assert` on the environment that runs. -/
theorem wp_userMemAssert_cur {Q : Unit → Kern → Prop} (hc : s.curenv = some c)
    {va len perm : Word}
    (hwhy : ∀ a, userMemCheck (s.envs c).envPgdir va len (perm ||| PTE_U)
      s.vm = .ret (.error a) s.vm → Exits s c) (hQ : Q () s) :
    Prog.wp (userMemAssert c va len perm) Q (Resumed c s)
      (fun x _ => Stopped s x) s := by
  unfold userMemAssert
  simp only [Prog.wp_bind, Prog.wp_ask, inVm, Prog.wp_zoom]
  refine (userMemCheck_reads ..).wp (fun r hr => ?_) fun _ h => .of_ne h
  cases r with
  | ok _ => exact Prog.wp_pure_intro hQ
  | error a => exact wp_envDestroy_cur hc fun v hv => .exit (hwhy a hr) hv

theorem handles_sysCputs (hc : s.curenv = some c) (hno :
      (s.envs c).envTf.sysNo = some .cputs) :
    Handles c s
      (do sysCputs (s.envs c).envTf.a1 (s.envs c).envTf.a2; pure 0) := by
  have hquiet : Handled c s (s.sysRet c 0) := .quiet (ne_ipcRecv hno nofun)
  unfold Handles sysCputs
  simp only [Prog.wp_bind]
  refine Prog.wp_ret (currentEnv_apply hc) (wp_userMemAssert_cur hc
    (fun _ h => .badString hno h) ?_)
  refine Prog.wp_ite _ (fun _ => ?_) fun _ =>
    Prog.wp_pure_intro (Prog.wp_pure_intro hquiet)
  simp only [Prog.wp_bind, Prog.wp_ask, Prog.wp_pure, inVm, Prog.wp_zoom]
  exact (printString_reads ..).wp (fun _ _ => hquiet) fun _ h => .of_ne h

theorem handles_sysGetenvid (hc : s.curenv = some c)
    (hno : (s.envs c).envTf.sysNo ≠ some .ipcRecv) :
    Handles c s sysGetenvid := by
  unfold Handles sysGetenvid
  simp only [Prog.wp_bind, Prog.wp_ask, Prog.wp_pure]
  exact Prog.wp_ret (currentEnv_apply hc) (.quiet hno)

theorem handles_sysEnvDestroy (hr : Running s c)
    (hno : (s.envs c).envTf.sysNo = some .envDestroy) :
    Handles c s (sysEnvDestroy (s.envs c).envTf.a1) := by
  refine handles_withEnv hr.cur (ne_ipcRecv hno nofun) fun e he => ?_
  unfold Handles
  rw [Prog.wp_bind]
  by_cases hec : e = c
  · subst hec
    exact wp_envDestroy_cur hr.cur fun v hv => .exit (.request hno he) hv
  · refine wp_envDestroy (fun v hv _ => ?_) (fun v e' _ hcur => ?_)
      fun _ _ h => .of_ne h
    · exact Prog.wp_pure_intro (.destroy hno he hec hv)
    · rw [hr.cur, Option.some_inj] at hcur
      exact absurd hcur.symm hec

theorem PageCalls.single {v v' : Vm} (h : PageCall s c v v') :
    PageCalls s c v v' :=
  Relation.ReflTransGen.single h

/-- `sys_page_alloc`, for the two calls that it is part of. -/
theorem wp_sysPageAlloc (hc : s.curenv = some c) {Q : Word → Kern → Prop}
    {A : Kern → Prop} {envid va perm : Word} (herr : ∀ r, r.slt 0 → Q r s)
    (hok : ∀ e r v, s.resolve c envid true = .ok e → userPage va →
      validPerm perm →
      pageAllocAt (s.envs e).envPgdir va perm s.vm = .ret r v → Q r
      (s.withVm v)) :
    Prog.wp (sysPageAlloc envid va perm) Q A (fun x _ => Stopped s x) s := by
  have hinval : (-E_INVAL).slt 0 := by decide
  refine Prog.wp_ite _ (fun _ => Prog.wp_pure_intro (herr _ hinval))
    fun hva => ?_
  refine Prog.wp_ite _ (fun _ => Prog.wp_pure_intro (herr _ hinval))
    fun hperm => ?_
  refine wp_withEnv hc (fun r hr => herr r (resolve_error hr ▸ by decide))
    fun e he => ?_
  simp only [Prog.wp_bind, Prog.wp_ask, inVm, Prog.wp_zoom]
  exact (pageAllocAt_stays ..).wp
    (fun r v hv => hok e r v he (not_not.mp hva) (not_not.mp hperm) hv)
    fun _ _ h => .of_ne h

theorem handles_sysPageAlloc (hc : s.curenv = some c)
    (hno : (s.envs c).envTf.sysNo ≠ some .ipcRecv) (envid va perm : Word) :
    Handles c s (sysPageAlloc envid va perm) :=
  wp_sysPageAlloc hc (fun _ _ => .quiet hno) fun _ _ _ he hva hperm hv =>
    .ret hno (.single (.alloc (controls_of_resolve he) hva hperm hv))

theorem wp_sysPageMap (hc : s.curenv = some c) {Q : Word → Kern → Prop}
    {A : Kern → Prop} {srcenvid srcva dstenvid dstva perm : Word}
    (hQ : ∀ r v, PageCalls s c s.vm v → Q r (s.withVm v)) :
    Prog.wp (sysPageMap srcenvid srcva dstenvid dstva perm) Q A
      (fun x _ => Stopped s x) s := by
  have herr : ∀ r, Q r s := fun r => hQ r s.vm Relation.ReflTransGen.refl
  refine Prog.wp_ite _ (fun _ => Prog.wp_pure_intro (herr _)) fun hsrcva => ?_
  refine Prog.wp_ite _ (fun _ => Prog.wp_pure_intro (herr _)) fun hdstva => ?_
  refine Prog.wp_ite _ (fun _ => Prog.wp_pure_intro (herr _)) fun hperm => ?_
  refine wp_withEnv hc (fun r _ => herr r) fun src hsrc => ?_
  refine wp_withEnv hc (fun r _ => herr r) fun dst hdst => ?_
  simp only [Prog.wp_bind, Prog.wp_ask, inVm, Prog.wp_zoom]
  refine (pageMapAt_stays ..).wp (fun r v hv => ?_) fun _ _ h => .of_ne h
  have hcall := fun r =>
    hQ r v (.single (.map (controls_of_resolve hsrc) (controls_of_resolve hdst)
    (not_not.mp hsrcva) (not_not.mp hdstva) (not_not.mp hperm) hv))
  cases r with
  | error r => exact Prog.wp_pure_intro (hcall r)
  | ok _ => exact Prog.wp_pure_intro (hcall 0)

theorem handles_sysPageMap (hc : s.curenv = some c)
    (hno : (s.envs c).envTf.sysNo ≠ some .ipcRecv) (a1 a2 a3 a4 a5 : Word) :
    Handles c s (sysPageMap a1 a2 a3 a4 a5) :=
  wp_sysPageMap hc fun _ _ hv => .ret hno hv

theorem handles_sysPageMapUpdatePerm (hc : s.curenv = some c)
    (hno : (s.envs c).envTf.sysNo ≠ some .ipcRecv) (a1 a2 a3 a4 a5 : Word) :
    Handles c s (sysPageMapUpdatePerm a1 a2 a3 a4 a5) := by
  unfold Handles sysPageMapUpdatePerm
  rw [Prog.wp_bind]
  refine wp_sysPageMap hc fun r v hv => ?_
  refine Prog.wp_ite _ (fun _ => Prog.wp_pure_intro (.ret hno hv)) fun _ => ?_
  refine wp_sysPageMap (s := s.withVm v) hc fun r' v' hv' =>
    Handled.ret hno (hv.trans ?_)
  exact Relation.ReflTransGen.mono (fun _ _ h => by
    cases h with
    | alloc hctl hva hperm h => exact .alloc hctl hva hperm h
    | map hsrc hdst hsrcva hdstva hperm h =>
        exact .map hsrc hdst hsrcva hdstva hperm h
    | unmap hctl hva h => exact .unmap hctl hva h) _ _ hv'

theorem handles_sysPageUnmap (hc : s.curenv = some c)
    (hno : (s.envs c).envTf.sysNo ≠ some .ipcRecv) (envid va : Word) :
    Handles c s (sysPageUnmap envid va) := by
  refine handles_ite (fun _ => handles_pure hno _) fun hva =>
    handles_withEnv hc hno fun e he => ?_
  unfold Handles
  simp only [Prog.wp_bind, Prog.wp_ask, Prog.wp_pure, inVm, Prog.wp_zoom]
  exact (pageRemove_stays ..).wp (fun _ v hv =>
    .ret hno (.single (.unmap (controls_of_resolve he) (not_not.mp hva) hv)))
      fun _ _ h => .of_ne h

theorem handles_setField (hc : s.curenv = some c)
    (hno : (s.envs c).envTf.sysNo ≠ some .ipcRecv) {f : Env → Env}
    (hf : SetsField f)
    (envid : Word) : Handles c s (setField f envid) :=
  handles_withEnv hc hno fun _ he => by
    unfold Handles
    simp only [Prog.wp_bind, Prog.wp_update, Prog.wp_pure]
    exact .field hno (controls_of_resolve he) hf

theorem handles_sysEnvSetStatus (hc : s.curenv = some c)
    (hno : (s.envs c).envTf.sysNo = some .envSetStatus) :
    Handles c s (sysEnvSetStatus (s.envs c).envTf.a1 (s.envs c).envTf.a2) := by
  unfold sysEnvSetStatus
  cases hst : validStatus (s.envs c).envTf.a2 with
  | none => exact handles_pure (ne_ipcRecv hno nofun) _
  | some st =>
      refine handles_withEnv hc (ne_ipcRecv hno nofun) fun e he => ?_
      unfold Handles
      simp only [Prog.wp_bind, Prog.wp_update, Prog.wp_pure]
      exact .status hno he hst

theorem handles_sysEnvSetTrapframe (hc : s.curenv = some c)
    (hno : (s.envs c).envTf.sysNo = some .envSetTrapframe) :
    Handles c s (sysEnvSetTrapframe (s.envs c).envTf.a1
      (s.envs c).envTf.a2) := by
  refine handles_withEnv hc (ne_ipcRecv hno nofun) fun e he => ?_
  unfold Handles
  simp only [Prog.wp_bind, Prog.wp_ask, Prog.wp_update, Prog.wp_pure, inVm,
    Prog.wp_zoom]
  refine (userMemCheck_reads ..).wp (fun _ _ => ?_) fun _ h => .of_ne h
  exact (kload_reads ..).wp (fun bytes hbytes => .trapframe hno he hbytes)
    fun _ h => .of_ne h

theorem handles_sysEnvRestore (hr : Running s c)
    (hno : (s.envs c).envTf.sysNo = some .envRestore) :
    Handles c s (sysEnvRestore (s.envs c).envTf.a1) := by
  have hne := ne_ipcRecv hno nofun
  refine handles_withEnv hr.cur hne fun e he => ?_
  unfold Handles
  simp only [Prog.wp_bind, Prog.wp_ask]
  refine Prog.wp_ite _ (fun _ => Prog.wp_pure_intro (.quiet hne)) fun hst => ?_
  have hst : (s.envs e).envStatus = .notRunnable := not_not.mp hst
  have hec : e ≠ c := by
    rintro rfl
    rw [hr.runnable] at hst
    cases hst
  have hce : c ≠ e := Ne.symm hec
  simp only [Prog.wp_bind, Prog.wp_update, Prog.wp_pure]
  unfold sysEnvDestroy
  refine wp_withEnv (c := c) (by simpa using hr.cur) ?_ fun e' he' => ?_
  · intro r h
    rw [resolve_zero] at h
    cases h
  rw [resolve_zero] at he'
  cases he'
  rw [Prog.wp_bind]
  refine wp_envDestroy_cur hr.cur fun v hv => .restore hno he hst hec ?_
  simpa only [Kern.setEnv_envs_ne hce, Kern.setEnv_vm] using hv

/-- `env_alloc`. -/
theorem wp_envAlloc {parentId : Word} {Q : Except Word Nat → Kern → Prop}
    {A : Kern → Prop} (herr : ∀ r, Q (.error r) s)
    (hok : ∀ e dir v, s.envFreeList.first = some e →
      setupPgdir s.vm = .ret (.ok dir) v →
      Q (.ok e) (s.alloced e parentId dir v)) :
    Prog.wp (envAlloc parentId) Q A (fun x _ => Stopped s x) s := by
  unfold envAlloc envSetupVm
  simp only [Prog.wp_bind, Prog.wp_ask]
  cases hfirst : s.envFreeList.first with
  | none => exact Prog.wp_pure_intro (herr _)
  | some e =>
      simp only [Prog.wp_bind, inVm, Prog.wp_zoom]
      refine setupPgdir_stays.wp (fun r v hv => ?_) fun _ _ h => .of_ne h
      cases r with
      | error r =>
          have hvm : v = s.vm := setupPgdir_error hv
          subst hvm
          exact Prog.wp_pure_intro (Prog.wp_pure_intro (herr r))
      | ok dir =>
          simp only [Prog.wp_bind, Prog.wp_update, Prog.wp_pure]
          simpa [Kern.alloced, Kern.setEnv, Kern.withVm] using hok e dir
            v hfirst hv

/-- A free slot is not the one that runs. -/
theorem handles_sysExofork (hr : Running s c)
    (hno : (s.envs c).envTf.sysNo = some .exofork)
    : Handles c s sysExofork := by
  unfold Handles sysExofork
  simp only [Prog.wp_bind, Prog.wp_ask]
  refine Prog.wp_ret (currentEnv_apply hr.cur) ?_
  refine wp_envAlloc (fun r => Prog.wp_pure_intro
    (.quiet (ne_ipcRecv hno nofun))) fun e dir v hfirst hv => ?_
  simp only [Prog.wp_bind, Prog.wp_ask, Prog.wp_update, Prog.wp_pure,
    Kern.setEnv_envs_self]
  have hid : ((s.alloced e (s.envs c).envId dir v).envs e).envId
      = nextEnvId (s.envs e).envId e := by
    simp [Kern.alloced, initEnv]
  rw [hid]
  exact .exofork hno hfirst hv

theorem handles_sysUxstackPgfaultStatus (hc : s.curenv = some c)
    (hno : (s.envs c).envTf.sysNo = some .uxstackPgfaultStatus) :
    Handles c s (sysUxstackPgfaultStatus (s.envs c).envTf.a1 (s.envs c).envTf.a2
      (s.envs c).envTf.a3 (s.envs c).envTf.a4 (s.envs c).envTf.a5) := by
  have hne := ne_ipcRecv hno nofun
  unfold Handles sysUxstackPgfaultStatus
  rw [Prog.wp_bind]
  refine wp_sysPageAlloc hc
    (fun r hr => Prog.wp_ite _ (fun _ => Prog.wp_pure_intro (.quiet hne))
    fun h => absurd hr h) fun e r v he hva hperm hv => ?_
  refine Prog.wp_ite _ (fun _ => Prog.wp_pure_intro
    (.ret hne (.single (.alloc (controls_of_resolve he) hva hperm hv))))
    fun hr => ?_
  obtain rfl : r = 0 := (pageAllocAt_ret hv).resolve_right fun h =>
    hr (h ▸ by decide)
  have hux := fun r => Handled.uxstack (r := r) hno he hva hperm hv
  -- the two remaining parts name the same environment
  rw [Prog.wp_bind]
  unfold sysEnvSetPgfaultUpcall setField
  refine wp_withEnv (s := s.withVm v) hc (fun r' hr' => ?_) fun e' he' => ?_
  · rw [show (s.withVm v).resolve c _ true = _ from he] at hr'
    cases hr'
  rw [show (s.withVm v).resolve c _ true = _ from he] at he'
  cases he'
  simp only [Prog.wp_bind, Prog.wp_update, Prog.wp_pure]
  refine Prog.wp_ite _ (fun h => absurd h (by decide)) fun _ => ?_
  refine Prog.wp_ite _ (fun h5 => ?_) fun h5 => Prog.wp_pure_intro ?_
  · unfold sysEnvSetStatus
    cases hst : validStatus (s.envs c).envTf.a5 with
    | none =>
        refine Prog.wp_pure_intro ?_
        have := hux (-E_INVAL)
        simpa [hst] using this
    | some st =>
        refine wp_withEnv (c := c) (by simpa using hc) (fun r' hr' => ?_)
          fun e' he' => ?_
        · rw [resolve_setEnv Iff.rfl rfl rfl] at hr'
          exact absurd (hr'.symm.trans he) nofun
        · rw [resolve_setEnv Iff.rfl rfl rfl] at he'
          obtain rfl := Except.ok.inj (he'.symm.trans he)
          simp only [Prog.wp_bind, Prog.wp_update, Prog.wp_pure,
            Kern.setEnv_setEnv]
          simpa [hst] using hux 0
  · have := hux 0
    have hst : validStatus ENV_NOT_SET = none := by decide
    simpa [not_not.mp h5, hst] using this

/-! ## Messages -/

theorem wp_completeSend {Q : Word → Kern → Prop} {A : Kern → Prop}
    {E : Stop → Kern → Prop}
    (hc : s.curenv = some c) {e : Nat} {value perm : Word}
    (hQ : Q 0 ((s.setEnv e (deliver (s.envs c).envId value perm)).setEnv c
      fun env =>
      { env with envIpcSended := (env.envIpcSended + 1) % 0xFFFFFFFF#32 })) :
    Prog.wp (completeSend c e value perm) Q A E s := by
  unfold completeSend sysGetenvid
  simp only [Prog.wp_bind, Prog.wp_ask, Prog.wp_update, Prog.wp_pure]
  exact Prog.wp_ret (currentEnv_apply hc) hQ

/-- The outcomes of `sys_ipc_try_send`: no such environment, the waiting queue,
an error, or a delivery. -/
theorem wp_sysIpcTrySend {Q : Word → Kern → Prop} {A : Kern → Prop}
    {E : Stop → Kern → Prop}
    (hc : s.curenv = some c)
    (herr : ∀ r, r ≠ 0 → Q r s)
    (hfull : s.waitingEnvNum = NENV → E .queueOverflow s)
    (hqueue : ∀ e, s.resolve c (s.envs c).envTf.a1 false = .ok e →
      (s.envs e).envIpcRecving = false ∨ (s.envs e).envIpcFrom ≠ 0 →
      s.waitingEnvNum ≠ NENV →
      Prog.wp (schedYield : K Word) Q A E
        ((enqueueSender c (s.envs c).envTf.a1 s).setEnv c fun env =>
          { env with envStatus := .notRunnable }))
    (hfail : ∀ e r v, s.resolve c (s.envs c).envTf.a1 false = .ok e →
      (s.envs e).envIpcRecving = true ∧ (s.envs e).envIpcFrom = 0 →
      (s.envs e).envIpcDstva < UTOP → userPage (s.envs c).envTf.a3 →
      validPerm (s.envs c).envTf.a4 →
      pageMapAt (s.envs c).envPgdir (s.envs c).envTf.a3 (s.envs e).envPgdir
        (s.envs e).envIpcDstva (s.envs c).envTf.a4 s.vm = .ret (.error r) v →
      Q r (s.withVm v))
    (hsent : ∀ e perm v, s.resolve c (s.envs c).envTf.a1 false = .ok e →
      (s.envs e).envIpcRecving = true ∧ (s.envs e).envIpcFrom = 0 →
      Transfers s c e perm v → Q 0 (s.delivered c e perm v))
    (hE : ∀ x t, x ≠ .queueOverflow → E x t) :
    Prog.wp (sysIpcTrySend (s.envs c).envTf.a1 (s.envs c).envTf.a2
    (s.envs c).envTf.a3
      (s.envs c).envTf.a4) Q A E s := by
  refine wp_withEnv hc (fun r hr => herr r (resolve_error hr ▸ by decide))
    fun src hsrc => ?_
  rw [resolve_zero] at hsrc
  obtain rfl := Except.ok.inj hsrc
  refine wp_withEnv hc (fun r hr => herr r (resolve_error hr ▸ by decide))
    fun e he => ?_
  simp only [Prog.wp_bind, Prog.wp_ask]
  refine Prog.wp_ite _ (fun hbusy => ?_) fun hready => ?_
  · unfold queueSender
    simp only [Prog.wp_bind, Prog.wp_ask]
    refine Prog.wp_ite _ (fun h => Prog.wp_halt_intro (hfull h)) fun hroom => ?_
    simp only [Prog.wp_bind, Prog.wp_update]
    exact hqueue e he hbusy hroom
  have hready : (s.envs e).envIpcRecving = true
      ∧ (s.envs e).envIpcFrom = 0 := by
    simpa using hready
  refine Prog.wp_ite _ (fun hpage => ?_) fun hnopage =>
    wp_completeSend hc (hsent e 0 s.vm he hready (.inl ⟨rfl, rfl, hnopage⟩))
  refine Prog.wp_ite _ (fun _ => Prog.wp_pure_intro (herr _ (by decide)))
    fun halign => ?_
  refine Prog.wp_ite _ (fun _ => Prog.wp_pure_intro (herr _ (by decide)))
    fun hperm => ?_
  have hva : userPage (s.envs c).envTf.a3 := ⟨hpage.1, not_not.mp halign⟩
  have hperm : validPerm (s.envs c).envTf.a4 := not_not.mp hperm
  simp only [Prog.wp_bind, inVm, Prog.wp_zoom]
  refine (pageMapAt_stays ..).wp (fun r v hv => ?_) fun x t hx => hE x _ hx
  cases r with
  | error r =>
      exact Prog.wp_pure_intro (hfail e r v he hready hpage.2 hva hperm hv)
  | ok _ =>
      exact wp_completeSend (s := s.withVm v) hc
        (hsent e _ v he hready (.inr ⟨rfl, hpage.2, hva, hperm, hv⟩))

theorem handles_sysIpcTrySend (hc : s.curenv = some c)
    (hno : (s.envs c).envTf.sysNo = some .ipcTrySend) :
    Handles c s (sysIpcTrySend (s.envs c).envTf.a1 (s.envs c).envTf.a2
      (s.envs c).envTf.a3
      (s.envs c).envTf.a4) :=
  wp_sysIpcTrySend hc (fun _ _ => .quiet (ne_ipcRecv hno nofun))
    (fun hfull _ => hfull)
    (fun _ he hbusy hroom => (Handled.queue hno he hbusy hroom).yield)
    (fun _ _ _ he hready hdst hva hperm hv =>
    .sendErr hno he hready hdst hva hperm hv)
    (fun _ _ _ he hready hv => .sent hno he hready hv)
    (fun _ _ hx => .of_ne hx)

/-- `sys_ipc_recv` sets the receive fields, and then fails, wakes the first
sender queued for its caller or finds nobody. -/
theorem wp_sysIpcRecv (hr : Running s c) {dstva : Word}
    (hbad : dstva < UTOP ∧ dstva.toNat % PGSIZE ≠ 0 →
      Q (-E_INVAL) (s.setEnv c (blockRecv dstva)))
    (hstale : ∀ r, findWaiting s (s.envs c).envId < s.waitingEnvNum →
      s.resolve c (s.waitingSrcenvIds (findWaiting s (s.envs c).envId)) false =
        .error r →
      Q r (s.setEnv c (blockRecv dstva)))
    (hwoken : ∀ e, ¬(dstva < UTOP ∧ dstva.toNat % PGSIZE ≠ 0) →
      findWaiting s (s.envs c).envId < s.waitingEnvNum →
      s.resolve c (s.waitingSrcenvIds (findWaiting s (s.envs c).envId))
        false = .ok e →
      Prog.wp schedYield Q A E (dequeueSender (findWaiting s (s.envs c).envId)
        ((s.setEnv c (blockRecv dstva)).setEnv e wakeSender)))
    (hnobody : ¬(dstva < UTOP ∧ dstva.toNat % PGSIZE ≠ 0) →
      ¬findWaiting s (s.envs c).envId < s.waitingEnvNum →
      Prog.wp schedYield Q A E (s.setEnv c (blockRecv dstva))) :
    Prog.wp (sysIpcRecv dstva) Q A E s := by
  unfold sysIpcRecv
  refine wp_withEnv hr.cur (fun r h => ?_) fun dst hdst => ?_
  · rw [resolve_zero] at h
    cases h
  rw [resolve_zero] at hdst
  obtain rfl := Except.ok.inj hdst
  simp only [Prog.wp_bind, Prog.wp_update]
  refine Prog.wp_ite _ (fun hdst => Prog.wp_pure_intro (hbad hdst))
    fun hdst => ?_
  simp only [Prog.wp_bind, Prog.wp_ask, Kern.setEnv_envs_self]
  have hfind : findWaiting (s.setEnv c (blockRecv dstva))
      (blockRecv dstva (s.envs c)).envId
      = findWaiting s (s.envs c).envId := rfl
  have hres : ∀ id p, (s.setEnv c (blockRecv dstva)).resolve c id p =
      s.resolve c id p :=
    fun _ _ => resolve_setEnv (by simp [blockRecv, hr.runnable]) rfl rfl
  rw [hfind]
  refine Prog.wp_ite _ (fun hlt => ?_) (hnobody hdst)
  refine wp_withEnv (s := s.setEnv c _) hr.cur (fun r hr => ?_) fun e he => ?_
  · rw [hres] at hr
    exact hstale r hlt hr
  · rw [hres] at he
    simp only [Prog.wp_bind, Prog.wp_update]
    exact hwoken e hdst hlt he

theorem handles_sysIpcRecv (hr : Running s c)
    (hno : (s.envs c).envTf.sysNo = some .ipcRecv) :
    Handles c s (sysIpcRecv (s.envs c).envTf.a1) := by
  refine wp_sysIpcRecv hr (fun hdst => .recvErr hno fun _ hrel => hrel.dst hdst)
    (fun r hlt hsrc => .recvErr hno fun e hrel => ?_)
    (fun e hdst hlt hsrc => (Handled.recvWake ⟨hno, hdst, hlt, hsrc⟩).yield)
    fun _ hge => (Handled.recvWait hno fun _ hrel => hge hrel.lt).yield
  cases hsrc.symm.trans hrel.source

/-! ## Dispatch -/

theorem handles_yield (hno : (s.envs c).envTf.sysNo ≠ some .ipcRecv) :
    Handles c s schedYield :=
  (Handled.idle hno).yield

/-- Any system call, with any arguments. -/
theorem handles_syscall (hr : Running s c) (getc : Word)
    (hsys : (s.envs c).envTf.tfTrapno = T_SYSCALL) :
    Handles c s (syscall (s.envs c).envTf.tfRegs.regEax (s.envs c).envTf.a1
      (s.envs c).envTf.a2 (s.envs c).envTf.a3 (s.envs c).envTf.a4 (s.envs c).envTf.a5 getc) := by
  have hc := hr.cur
  have hno : (s.envs c).envTf.sysNo = SysNo.all[(s.envs c).envTf.tfRegs.regEax.toNat]? :=
    if_pos hsys
  unfold syscall
  cases h : SysNo.all[(s.envs c).envTf.tfRegs.regEax.toNat]? with
  | none => exact handles_pure (by rw [hno, h]; nofun) _
  | some no =>
      rw [h] at hno
      have hne := ne_ipcRecv hno
      cases no with
      | cputs => exact handles_sysCputs hc hno
      | cgetc => exact handles_pure (hne nofun) _
      | getenvid => exact handles_sysGetenvid hc (hne nofun)
      | envDestroy => exact handles_sysEnvDestroy hr hno
      | pageAlloc => exact handles_sysPageAlloc hc (hne nofun) _ _ _
      | pageMap => exact handles_sysPageMap hc (hne nofun) _ _ _ _ _
      | pageUnmap => exact handles_sysPageUnmap hc (hne nofun) _ _
      | exofork => exact handles_sysExofork hr hno
      | envSetStatus => exact handles_sysEnvSetStatus hc hno
      | envSetTrapframe => exact handles_sysEnvSetTrapframe hc hno
      | envSetPgfaultUpcall => exact handles_setField hc (hne nofun) (fun _ => ⟨_, _, _, _, _, rfl⟩) _
      | yield => exact handles_yield (hne nofun)
      | ipcTrySend => exact handles_sysIpcTrySend hc hno
      | ipcRecv => exact handles_sysIpcRecv hr hno
      | envSetPriority => exact handles_setField hc (hne nofun) (fun _ => ⟨_, _, _, _, _, rfl⟩) _
      | envRestore => exact handles_sysEnvRestore hr hno
      | envSetGpfaultUpcall => exact handles_setField hc (hne nofun) (fun _ => ⟨_, _, _, _, _, rfl⟩) _
      | envSetDivideUpcall => exact handles_setField hc (hne nofun) (fun _ => ⟨_, _, _, _, _, rfl⟩) _
      | envSetIllopUpcall => exact handles_setField hc (hne nofun) (fun _ => ⟨_, _, _, _, _, rfl⟩) _
      | pageMapUpdatePerm => exact handles_sysPageMapUpdatePerm hc (hne nofun) _ _ _ _ _
      | uxstackPgfaultStatus => exact handles_sysUxstackPgfaultStatus hc hno

/-- Handling a trap changes the current environment only by destroying it. -/
theorem Handled.curenv {s₁ : Kern} (h : Handled c s s₁) :
    s₁.curenv = s.curenv ∨ s₁.curenv = none := by
  cases h with
  | exit | restore => exact .inr rfl
  | _ => exact .inl rfl

/-- After a handler returns, `trap` resumes the environment or yields. -/
theorem Handled.resume {s₁ : Kern} {Q : Unit → Kern → Prop} (hr : Running s c)
    (h : Handled c s s₁) :
    Prog.wp Jos.resume Q (Resumed c s) (fun x _ => Stopped s x) s₁ := by
  have hlt : ∀ e, s₁.curenv = some e → e < NENV := by
    intro e he
    rcases h.curenv with h | h
    · rw [h, hr.cur, Option.some_inj] at he
      exact he ▸ hr.lt
    · rw [h] at he
      cases he
  unfold Jos.resume
  simp only [Prog.wp_bind, Prog.wp_ask]
  cases hcur : s₁.curenv with
  | none => exact h.yield
  | some e =>
      exact Prog.wp_ite _
        (fun hrun => wp_envRun ⟨s₁, e, h, hlt e hcur, hrun, rfl⟩)
        fun _ => h.yield

theorem pushUtf_stays (cr3 utf : Word) (tf : Trapframe) (va : Word) :
    VmStays (pushUtf cr3 utf tf va) := by
  unfold pushUtf
  iterate 12 refine (kstore32_stays ..).bind fun _ => ?_
  exact kstore32_stays ..

theorem wp_upcallHandler (hr : Running s c) {upcall : Env → Word} {msg : String}
    {va : Word} {Q : Unit → Kern → Prop} (hno : (s.envs c).envTf.sysNo = none)
    (hup : faultUpcall (s.envs c).envTf.tfTrapno = some upcall)
    (hmsg : Stop.panic msg ≠ .queueOverflow) :
    Prog.wp (upcallHandler upcall msg c va) Q (Resumed c s)
      (fun x _ => Stopped s x) s := by
  unfold upcallHandler
  simp only [Prog.wp_bind, Prog.wp_ask]
  refine Prog.wp_ite _ (fun _ => Prog.wp_halt_intro (.of_ne hmsg)) fun _ => ?_
  refine Prog.wp_ite _ (fun _ => ?_) fun h =>
    wp_envDestroy_cur hr.cur fun v hv => .exit (.noUpcall hup (not_not.mp h)) hv
  simp only [Prog.wp_bind, Prog.wp_update, inVm, Prog.wp_zoom]
  refine wp_userMemAssert_cur hr.cur (fun _ h => .noStack hup h) ?_
  refine (pushUtf_stays ..).wp (fun _ v hv => ?_) fun _ _ h => .of_ne h
  refine wp_envRun ⟨_, c, .push hno hv, hr.lt, ?_, rfl⟩
  rw [Kern.setEnv_envs_self]
  exact hr.runnable

theorem wp_trapDispatch (hr : Running s c) (cr2 getc : Word) :
    Prog.wp (trapDispatch c cr2 getc) (fun _ => Handled c s) (Resumed c s)
      (fun x _ => Stopped s x) s := by
  have hnone : ∀ n, n ≠ T_SYSCALL → (s.envs c).envTf.tfTrapno = n →
      (s.envs c).envTf.sysNo = none := fun n hn h => if_neg (h ▸ hn)
  have hidle : ∀ n, n ≠ T_SYSCALL → (s.envs c).envTf.tfTrapno = n →
      Handled c s s :=
    fun n hn h => .idle (by rw [hnone n hn h]; nofun)
  have hfault : ∀ n upcall, faultUpcall n = some upcall →
      (s.envs c).envTf.tfTrapno = n →
      faultUpcall (s.envs c).envTf.tfTrapno = some upcall :=
    fun n _ hn h => h ▸ hn
  unfold trapDispatch
  simp only [Prog.wp_bind, Prog.wp_ask]
  refine Prog.wp_ite _ (fun h => Prog.wp_pure_intro (hidle _ (by decide) h))
    fun hspur => ?_
  refine Prog.wp_ite _ (fun h => (hidle _ (by decide) h).yield) fun htimer => ?_
  refine Prog.wp_ite _ (fun h => wp_upcallHandler hr (hnone _ (by decide) h)
    (hfault _ _ rfl h) (by decide)) fun hdiv => ?_
  refine Prog.wp_ite _ (fun h => wp_upcallHandler hr (hnone _ (by decide) h)
    (hfault _ _ rfl h) (by decide)) fun hgp => ?_
  refine Prog.wp_ite _ (fun h => wp_upcallHandler hr (hnone _ (by decide) h)
    (hfault _ _ rfl h) (by decide)) fun hill => ?_
  refine Prog.wp_ite _ (fun h => wp_upcallHandler hr (hnone _ (by decide) h)
    (hfault _ _ rfl h) (by decide)) fun hpg => ?_
  refine Prog.wp_ite _ (fun h => Prog.wp_pure_intro (hidle _ (by decide) h))
    fun hbrk => ?_
  refine Prog.wp_ite _ (fun hsys => ?_) fun hsys => ?_
  · simp only [Prog.wp_bind, Prog.wp_update]
    exact handles_syscall hr getc hsys
  · refine Prog.wp_ite _ (fun _ => Prog.wp_halt_intro (.of_ne (by decide)))
      fun _ =>
      wp_envDestroy_cur hr.cur fun v hv =>
        .exit (.unhandled ?_ ⟨hsys, hbrk, htimer, hspur⟩) hv
    rw [faultUpcall, if_neg hdiv, if_neg hgp, if_neg hill, if_neg hpg]

theorem Running.saved (hr : Running s c) (tr : Trap) :
    Running (s.saved c tr) c :=
  ⟨hr.cur, hr.lt, (Kern.setEnv_envs_self ..).symm ▸ hr.runnable⟩

/-- What `trap` does: the trap of the running environment is handled, and a
runnable environment is resumed. -/
theorem wp_trap (hr : Running s c) (tr : Trap) :
    Prog.wp (trap tr) (fun _ _ => False) (Resumed c (s.saved c tr))
      (fun x _ => Stopped (s.saved c tr) x) (s.enter tr) := by
  unfold trap
  refine Prog.wp_ite _ (fun _ => ?_) fun _ =>
    Prog.wp_halt_intro (.of_ne (by decide))
  simp only [Prog.wp_bind, Prog.wp_ask]
  rw [show (s.enter tr).curenv = some c from hr.cur]
  simp only [Prog.wp_bind, Prog.wp_update]
  exact Prog.wp_imp (wp_trapDispatch (hr.saved tr) tr.cr2 tr.getc)
    (fun _ _ h => h.resume (hr.saved tr)) (fun _ h => h) (fun _ _ h => h)

/-- What a trap with a system call number is. -/
theorem sysNo_eq {tf : Trapframe} {no : SysNo} (h : tf.sysNo = some no) :
    tf.tfTrapno = T_SYSCALL ∧ SysNo.all[tf.tfRegs.regEax.toNat]? = some no := by
  unfold Trapframe.sysNo at h
  split at h
  · rename_i hsys
    exact ⟨hsys, h⟩
  · cases h

/-- A trap that is a system call. -/
theorem trap_of_syscall {tr : Trap} (hr : Running s c)
    (hcs : tr.tf.tfCs &&& 3 = 3)
    (hsys : tr.tf.tfTrapno = T_SYSCALL) :
    trap tr (s.enter tr) = (do
      let r ← syscall tr.tf.tfRegs.regEax tr.tf.a1 tr.tf.a2 tr.tf.a3 tr.tf.a4
          tr.tf.a5 tr.getc
      Prog.update (Kern.sysRet c r)
      resume : K Unit) (s.saved c tr) := by
  have hdispatch : trapDispatch c tr.cr2 tr.getc (s.saved c tr) = (do
      let r ← syscall tr.tf.tfRegs.regEax tr.tf.a1 tr.tf.a2 tr.tf.a3 tr.tf.a4
          tr.tf.a5 tr.getc
      Prog.update (Kern.sysRet c r) : K Unit) (s.saved c tr) := by
    unfold trapDispatch
    rw [Prog.ask_bind, Kern.saved_envs_self_tf, hsys, if_neg (by decide),
      if_neg (by decide),
      if_neg (by decide), if_neg (by decide), if_neg (by decide),
      if_neg (by decide),
      if_neg (by decide), if_pos rfl]
    rfl
  unfold trap
  rw [if_pos hcs, Prog.ask_bind, show (s.enter tr).curenv = some c from hr.cur]
  change (Prog.update _ >>= fun _ => trapDispatch c tr.cr2 tr.getc >>=
    fun _ => resume)
    (s.enter tr) = _
  rw [Prog.update_bind]
  change (trapDispatch c tr.cr2 tr.getc >>= fun _ => resume) (s.saved c tr) = _
  rw [Prog.bind_apply, hdispatch, Prog.bind_apply, Prog.bind_apply]
  cases syscall tr.tf.tfRegs.regEax tr.tf.a1 tr.tf.a2 tr.tf.a3 tr.tf.a4
    tr.tf.a5 tr.getc
    (s.saved c tr) <;> rfl

/-- The trap frame of a step is one of user mode. -/
theorem Step.user {s' : Kern} {tr : Trap} (h : Step s tr s') :
    tr.tf.tfCs &&& 3 = 3 := by
  by_contra hcs
  have htrap := h.2
  unfold trap at htrap
  rw [if_neg hcs] at htrap
  cases htrap

/-- A system call that returns: its result goes to the caller, and some
environment runs. -/
theorem step_of_syscall_ret {s' t : Kern} {tr : Trap} {r : Word}
    (hr : Running s c)
    (h : Step s tr s') (hsys : tr.tf.tfTrapno = T_SYSCALL)
    (hcall : syscall tr.tf.tfRegs.regEax tr.tf.a1 tr.tf.a2 tr.tf.a3 tr.tf.a4
      tr.tf.a5 tr.getc
      (s.saved c tr) = .ret r t) :
    ∃ e, ((t.sysRet c r).envs e).envStatus = .runnable
      ∧ s' = (t.sysRet c r).runOn e := by
  have htrap := h.2
  rw [trap_of_syscall hr h.user hsys, Prog.bind_ret hcall,
    Prog.update_bind] at htrap
  refine Prog.wp.away (Q := fun _ _ => True) (E := fun _ _ => True)
    (A := fun s' => ∃ e, ((t.sysRet c r).envs e).envStatus = .runnable
      ∧ s' = (t.sysRet c r).runOn e) ?_ htrap
  unfold resume
  simp only [Prog.wp_bind, Prog.wp_ask]
  have hyield : ∀ u : Kern, Prog.wp (schedYield : K Unit) (fun _ _ => True)
      (fun s' => ∃ e, (u.envs e).envStatus = .runnable ∧ s' = u.runOn e)
        (fun _ _ => True) u :=
    fun u => wp_schedYield (fun e _ hrun => ⟨e, hrun, rfl⟩) trivial
  cases (t.sysRet c r).curenv with
  | none => exact hyield _
  | some e =>
      exact Prog.wp_ite _ (fun hrun => wp_envRun ⟨e, hrun, rfl⟩)
        fun _ => hyield _

/-- A system call that returns to a caller that can go on. -/
theorem step_syscall {t : Kern} {tr : Trap} {r : Word} (hr : Running s c)
    (htr : UserTrap s c tr) (hcs : tr.tf.tfCs &&& 3 = 3)
    (hsys : tr.tf.tfTrapno = T_SYSCALL)
    (hcall : syscall tr.tf.tfRegs.regEax tr.tf.a1 tr.tf.a2 tr.tf.a3 tr.tf.a4
      tr.tf.a5 tr.getc
      (s.saved c tr) = .ret r t) (hcur : t.curenv = some c)
    (hrun : (t.envs c).envStatus = .runnable) : Step s tr (t.sysRet c r) := by
  refine ⟨⟨c, htr⟩, ?_⟩
  rw [trap_of_syscall hr hcs hsys, Prog.bind_ret hcall, Prog.update_bind]
  have hcur' : (t.sysRet c r).curenv = some c := hcur
  have hrun' : ((t.sysRet c r).envs c).envStatus = .runnable :=
    (Kern.setEnv_proj Env.envStatus rfl).trans hrun
  unfold resume
  rw [Prog.ask_bind, hcur']
  simp only [hrun', if_true]
  rw [envRun_apply, Kern.runOn, if_pos hcur']

/-- The two calls that can destroy their caller, `sys_env_restore` apart. -/
theorem Exits.call {no : SysNo} (h : Exits s c)
    (hno : (s.envs c).envTf.sysNo = some no) :
    no = .cputs ∨ no = .envDestroy := by
  have hfault : ∀ upcall, faultUpcall (s.envs c).envTf.tfTrapno ≠
      some upcall := by
    intro upcall hup
    rw [(sysNo_eq hno).1, show faultUpcall T_SYSCALL = none from rfl] at hup
    cases hup
  cases h with
  | noUpcall hup _ => exact absurd hup (hfault _)
  | noStack hup _ => exact absurd hup (hfault _)
  | unhandled _ h => exact absurd (sysNo_eq hno).1 h.1
  | badString hno' _ => exact .inl (Option.some.inj (hno.symm.trans hno'))
  | request hno' _ => exact .inr (Option.some.inj (hno.symm.trans hno'))

theorem Exits.not_recv (h : Exits s c) :
    (s.envs c).envTf.sysNo ≠ some .ipcRecv :=
  fun hno => by rcases h.call hno with h | h <;> cases h

/-- The calls that destroy an environment. -/
theorem Destroys.call {e : Nat} {no : SysNo} (h : Destroys s c e)
    (hno : (s.envs c).envTf.sysNo = some no) :
    no = .cputs ∨ no = .envDestroy ∨ no = .envRestore := by
  cases h with
  | exit h => exact (h.call hno).imp_right .inl
  | child hno' _ => exact .inr (.inl (Option.some.inj (hno.symm.trans hno')))
  | restore hno' _ _ =>
      exact .inr (.inr (Option.some.inj (hno.symm.trans hno')))

/-- Only `sys_ipc_recv` releases a sender. -/
theorem not_releases {no : SysNo} (hno : (s.envs c).envTf.sysNo = some no)
    (hne : no ≠ .ipcRecv)
    (e : Nat) : ¬Releases s c e :=
  fun hrel => ne_ipcRecv hno hne hrel.call

theorem step_cases {s' : Kern} {tr : Trap} (hr : Running s c)
    (h : Step s tr s') :
    Resumed c (s.saved c tr) s' :=
  (wp_trap hr tr).away h.2

end

end Jos
