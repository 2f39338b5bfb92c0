import Jos.Kern.Pages
import Jos.Lib.Respect

/-!
# Recycled environment slots

What an environment inherits from the previous user of its slot. The fields that
the last message left, `env_ipc_value` and the like, stay in the slot, but the
kernel writes them before it reads them: every trap handler respects
`Kern.forget`.
-/

namespace Jos

/-- The environment without what the last message left. While it receives, the
address for the page and the sender's id still matter. -/
def Env.forget (env : Env) : Env :=
  { env with
    envIpcDstva := if env.envIpcRecving then env.envIpcDstva else 0
    envIpcFrom := if env.envIpcRecving then env.envIpcFrom else 0
    envIpcValue := 0
    envIpcPerm := 0 }

def Kern.forget (s : Kern) : Kern :=
  { s with envs := fun e => (s.envs e).forget }

section

variable {s s' t t' : Kern} {e c : Nat} {pid : Word} {f : Env → Env} {α : Type}

theorem Env.forget_forget (env : Env) : env.forget.forget = env.forget := by
  unfold Env.forget
  split <;> simp_all

/-- A change of an environment after which what was forgotten is forgotten. -/
theorem respects_setEnv_of_forget
    (h : ∀ env, (f env).forget = (f env.forget).forget) :
    Prog.Respects Kern.forget (Prog.update (Kern.setEnv e f) : K Unit) := by
  refine .update fun s => ?_
  simp only [Kern.forget, Kern.setEnv, Kern.mk.injEq, true_and, and_true]
  funext d
  by_cases hd : d = e
  · subst hd
    rw [Function.update_self, Function.update_self, h]
  · rw [Function.update_of_ne hd, Function.update_of_ne hd, Env.forget_forget]

theorem Kern.forget_forget (s : Kern) : s.forget.forget = s.forget := by
  simp only [Kern.forget, Env.forget_forget]

/-- A change of the rest of the state. -/
theorem respects_update {u : Kern → Kern} (h : ∀ s, (u s).forget = u s.forget) :
    Prog.Respects Kern.forget (Prog.update u : K Unit) :=
  .update fun s => by rw [h, h, Kern.forget_forget]

/-- A change of an environment in other fields. -/
theorem respects_setEnv (h : ∀ env, (f env).forget = f env.forget) :
    Prog.Respects Kern.forget (Prog.update (Kern.setEnv e f) : K Unit) :=
  respects_setEnv_of_forget fun env => by rw [h, h, Env.forget_forget]

theorem respects_inVm (f : VmM α) : Prog.Respects Kern.forget (inVm f) := by
  refine .zoom ?_ ?_ f
  · exact fun _ => rfl
  · exact fun _ _ => rfl

/-! ## Environments -/

theorem respects_currentEnv : Prog.Respects Kern.forget currentEnv := by
  refine .ask (fun _ => rfl) fun s => ?_
  cases s.curenv with
  | none => exact .halt _
  | some c => exact .pure c

theorem respects_envid2env (envid : Word) (checkperm : Bool) :
    Prog.Respects Kern.forget (envid2env envid checkperm) := by
  refine .ite (respects_currentEnv.bind fun _ => .pure _)
    (.ask (fun _ => rfl) fun s => ?_)
  refine .ite (.pure _) (.ite (respects_currentEnv.bind fun cur => ?_)
    (.pure _))
  exact .ite (.pure _) (.pure _)

theorem respects_envRun (e : Nat) :
    Prog.Respects Kern.forget (envRun e : K α) := by
  refine .ask (fun _ => rfl) fun s => ?_
  refine .ite (.bind (respects_update ?_) fun _ => ?_) .leave
  · exact fun _ => rfl
  · refine .bind (respects_setEnv fun _ => rfl) fun _ => ?_
    exact .bind (respects_update fun _ => rfl) fun _ => .leave

theorem schedPick_forget (envs : Nat → Env) (cur : Nat) :
    schedPick (fun e => (envs e).forget) cur = schedPick envs cur := by
  have hstep : schedStep (fun e => (envs e).forget) = schedStep envs := rfl
  rw [schedPick, hstep]
  rfl

theorem respects_schedYield : Prog.Respects Kern.forget (schedYield : K α) := by
  refine .ask (fun s => ?_) fun s => ?_
  · simp only [Kern.forget, schedPick_forget]
    simp only [Env.forget]
    cases schedPick s.envs _ with
    | none => rfl
    | some e => rfl
  · dsimp only
    cases schedPick s.envs _ with
    | none => exact .ite (respects_envRun 0) (.halt _)
    | some e => exact respects_envRun e

theorem respects_envFree (e : Nat) : Prog.Respects Kern.forget (envFree e) := by
  refine .bind ?_ fun _ => .ask (fun _ => rfl) fun s => ?_
  · refine .ask (fun _ => rfl) fun s => .ite (respects_update ?_) (.pure _)
    exact fun _ => rfl
  · refine .bind (respects_inVm _) fun _ =>
      .bind (respects_setEnv fun _ => rfl) fun _ => ?_
    refine .bind (respects_inVm _) fun pp => .bind (respects_inVm _) fun _ => ?_
    refine .bind (respects_setEnv fun _ => rfl) fun _ => respects_update ?_
    exact fun _ => rfl

theorem respects_envDestroy (e : Nat) :
    Prog.Respects Kern.forget (envDestroy e) := by
  refine (respects_envFree e).bind fun _ => .ask (fun _ => rfl) fun s => ?_
  refine .ite (.bind (respects_update ?_) fun _ =>
    respects_schedYield) (.pure _)
  exact fun _ => rfl

theorem respects_userMemAssert (e : Nat) (va len perm : Word) :
    Prog.Respects Kern.forget (userMemAssert e va len perm) := by
  refine .ask (fun _ => rfl) fun s => .bind (respects_inVm _) fun r => ?_
  cases r with
  | ok => exact .pure _
  | error => exact respects_envDestroy e

theorem respects_envAlloc (parentId : Word) :
    Prog.Respects Kern.forget (envAlloc parentId) := by
  refine .ask (fun _ => rfl) fun s => ?_
  cases s.envFreeList.first with
  | none => exact .pure _
  | some e =>
      refine .bind (.bind (respects_inVm _) fun r => ?_) fun r => ?_
      · cases r with
        | error => exact .pure _
        | ok => exact .bind (respects_setEnv fun _ => rfl) fun _ => .pure _
      · cases r with
        | error => exact .pure _
        | ok =>
            refine .bind (respects_setEnv_of_forget fun env => ?_) fun _ => ?_
            · simp [Env.forget, initEnv]
            · exact .bind (respects_update fun _ => rfl) fun _ => .pure _

/-! ## System calls -/

theorem respects_withEnv {g : Nat → K Word} (envid : Word) (checkperm : Bool)
    (h : ∀ e, Prog.Respects Kern.forget (g e)) :
    Prog.Respects Kern.forget (withEnv envid checkperm g) := by
  refine (respects_envid2env ..).bind fun r => ?_
  cases r with
  | error => exact .pure _
  | ok e => exact h e

theorem respects_setField (h : ∀ env, (f env).forget = f env.forget)
    (envid : Word) :
    Prog.Respects Kern.forget (setField f envid) :=
  respects_withEnv _ _ fun _ => .bind (respects_setEnv h) fun _ => .pure _

theorem respects_sysCputs (str len : Word) :
    Prog.Respects Kern.forget (sysCputs str len) := by
  refine respects_currentEnv.bind fun cur =>
    (respects_userMemAssert ..).bind fun _ => ?_
  refine .ite (.ask (fun _ => rfl) fun s => ?_) (.pure _)
  exact (respects_inVm _).bind fun _ => .pure _

theorem respects_sysGetenvid : Prog.Respects Kern.forget sysGetenvid :=
  respects_currentEnv.bind fun _ => .ask (fun _ => rfl) fun _ => .pure _

theorem respects_sysEnvDestroy (envid : Word) :
    Prog.Respects Kern.forget (sysEnvDestroy envid) :=
  respects_withEnv _ _ fun e => (respects_envDestroy e).bind fun _ => .pure _

theorem respects_sysExofork : Prog.Respects Kern.forget sysExofork := by
  refine respects_currentEnv.bind fun cur => .ask (fun _ => rfl) fun s => ?_
  refine (respects_envAlloc _).bind fun r => ?_
  cases r with
  | error => exact .pure _
  | ok e =>
      refine .ask (fun _ => rfl) fun s =>
        .bind (respects_setEnv fun _ => rfl) fun _ => ?_
      exact .ask (fun _ => rfl) fun s => .pure _

theorem respects_sysEnvSetStatus (envid status : Word) :
    Prog.Respects Kern.forget (sysEnvSetStatus envid status) := by
  unfold sysEnvSetStatus
  cases validStatus status with
  | none => exact .pure _
  | some => exact respects_withEnv _ _ fun _ => .bind (respects_setEnv fun _ => rfl) fun _ => .pure _

theorem respects_sysEnvSetTrapframe (envid tf : Word) :
    Prog.Respects Kern.forget (sysEnvSetTrapframe envid tf) := by
  refine respects_withEnv _ _ fun e => .ask (fun _ => rfl) fun s => ?_
  refine (respects_inVm _).bind fun _ => (respects_inVm _).bind fun b => ?_
  exact .bind (respects_setEnv fun _ => rfl) fun _ => .pure _

theorem respects_sysEnvRestore (envid : Word) :
    Prog.Respects Kern.forget (sysEnvRestore envid) := by
  refine respects_withEnv _ _ fun e => .ask (fun _ => rfl) fun s =>
    .ite (.pure _) ?_
  refine .bind (respects_setEnv fun _ => rfl) fun _ => ?_
  exact (respects_sysEnvDestroy 0).bind fun _ => .pure _

theorem respects_sysPageAlloc (envid va perm : Word) :
    Prog.Respects Kern.forget (sysPageAlloc envid va perm) := by
  refine .ite (.pure _) (.ite (.pure _) (respects_withEnv _ _ fun e => ?_))
  exact .ask (fun _ => rfl) fun s => respects_inVm _

theorem respects_sysPageMap (srcenvid srcva dstenvid dstva perm : Word) :
    Prog.Respects Kern.forget
      (sysPageMap srcenvid srcva dstenvid dstva perm) := by
  refine .ite (.pure _) (.ite (.pure _) (.ite (.pure _) ?_))
  refine respects_withEnv _ _ fun src => respects_withEnv _ _ fun dst => ?_
  refine .ask (fun _ => rfl) fun s => (respects_inVm _).bind fun r => ?_
  cases r with
  | error => exact .pure _
  | ok => exact .pure _

theorem respects_sysPageUnmap (envid va : Word) :
    Prog.Respects Kern.forget (sysPageUnmap envid va) := by
  refine .ite (.pure _) (respects_withEnv _ _ fun e => ?_)
  exact .ask (fun _ => rfl) fun s => (respects_inVm _).bind fun _ => .pure _

theorem respects_sysIpcRecv (dstva : Word) :
    Prog.Respects Kern.forget (sysIpcRecv dstva) := by
  refine respects_withEnv _ _ fun dst =>
    .bind (respects_setEnv_of_forget ?_) fun _ => ?_
  · intro env
    simp [Env.forget, blockRecv]
  refine .ite (.pure _) (.ask (fun _ => rfl) fun s =>
    .ite ?_ respects_schedYield)
  refine respects_withEnv _ _ fun src =>
    .bind (respects_setEnv fun _ => rfl) fun _ => ?_
  exact .bind (respects_update fun _ => rfl) fun _ => respects_schedYield

theorem respects_queueSender (src : Nat) (envid : Word) :
    Prog.Respects Kern.forget (queueSender src envid) := by
  refine .ask (fun _ => rfl) fun s => .ite (.halt _) ?_
  refine .bind (respects_update fun _ => rfl) fun _ => ?_
  exact .bind (respects_setEnv fun _ => rfl) fun _ => respects_schedYield

theorem respects_completeSend (src dst : Nat) (value perm : Word) :
    Prog.Respects Kern.forget (completeSend src dst value perm) := by
  refine respects_sysGetenvid.bind fun id =>
    .bind (respects_setEnv_of_forget ?_) fun _ => ?_
  · intro env
    simp [Env.forget, deliver]
  · exact .bind (respects_setEnv fun _ => rfl) fun _ => .pure _

/-- The fields of the receiver that are forgotten are read only if it
receives. -/
theorem respects_sysIpcTrySend (envid value srcva perm : Word) :
    Prog.Respects Kern.forget (sysIpcTrySend envid value srcva perm) := by
  refine respects_withEnv _ _ fun src => respects_withEnv _ _ fun dst => ?_
  refine .ask (fun s => ?_) fun s => ?_
  · cases hr : (s.envs dst).envIpcRecving with
    | false => simp [Kern.forget, Env.forget, hr]
    | true =>
        have hdst : ((s.envs dst).forget).envIpcDstva =
            (s.envs dst).envIpcDstva := if_pos hr
        have hfrom : ((s.envs dst).forget).envIpcFrom =
            (s.envs dst).envIpcFrom := if_pos hr
        have hrecv : ((s.envs dst).forget).envIpcRecving = true := hr
        simp only [Kern.forget, hdst, hfrom, hrecv]
        rfl
  · refine .ite (respects_queueSender ..)
      (.ite (.ite (.pure _) (.ite (.pure _) ?_)) ?_)
    · refine (respects_inVm _).bind fun r => ?_
      cases r with
      | error => exact .pure _
      | ok => exact respects_completeSend ..
    · exact respects_completeSend ..

theorem respects_sysPageMapUpdatePerm (a1 a2 a3 a4 a5 : Word) :
    Prog.Respects Kern.forget (sysPageMapUpdatePerm a1 a2 a3 a4 a5) :=
  (respects_sysPageMap ..).bind fun _ => .ite (.pure _) (respects_sysPageMap ..)

theorem respects_sysUxstackPgfaultStatus (a1 a2 a3 a4 a5 : Word) :
    Prog.Respects Kern.forget (sysUxstackPgfaultStatus a1 a2 a3 a4 a5) := by
  refine (respects_sysPageAlloc ..).bind fun _ => .ite (.pure _) ?_
  refine .bind (respects_setField ?_ _) fun _ => .ite (.pure _) ?_
  · exact fun _ => rfl
  exact .ite (respects_sysEnvSetStatus ..) (.pure _)

theorem respects_syscall (no a1 a2 a3 a4 a5 getc : Word) :
    Prog.Respects Kern.forget (syscall no a1 a2 a3 a4 a5 getc) := by
  unfold syscall
  cases SysNo.all[no.toNat]? with
  | none => exact .pure _
  | some sysNo =>
      cases sysNo with
      | cputs => exact (respects_sysCputs ..).bind fun _ => .pure _
      | cgetc => exact .pure _
      | getenvid => exact respects_sysGetenvid
      | envDestroy => exact respects_sysEnvDestroy _
      | pageAlloc => exact respects_sysPageAlloc ..
      | pageMap => exact respects_sysPageMap ..
      | pageUnmap => exact respects_sysPageUnmap ..
      | exofork => exact respects_sysExofork
      | envSetStatus => exact respects_sysEnvSetStatus ..
      | envSetTrapframe => exact respects_sysEnvSetTrapframe ..
      | yield => exact respects_schedYield
      | ipcTrySend => exact respects_sysIpcTrySend ..
      | ipcRecv => exact respects_sysIpcRecv _
      | envRestore => exact respects_sysEnvRestore _
      | pageMapUpdatePerm => exact respects_sysPageMapUpdatePerm ..
      | uxstackPgfaultStatus => exact respects_sysUxstackPgfaultStatus ..
      | envSetPgfaultUpcall | envSetPriority | envSetGpfaultUpcall | envSetDivideUpcall
      | envSetIllopUpcall =>
          refine respects_setField ?_ _
          exact fun _ => rfl

/-! ## Traps -/

theorem respects_upcallHandler {upcall : Env → Word}
    (h : ∀ env, upcall env.forget = upcall env)
    (msg : String) (cur : Nat) (faultVa : Word) :
    Prog.Respects Kern.forget (upcallHandler upcall msg cur faultVa) := by
  refine .ask (fun s => ?_) fun s =>
    .ite (.halt _) (.ite ?_ (respects_envDestroy cur))
  · simp only [Kern.forget, h]
    rfl
  · refine (respects_userMemAssert ..).bind fun _ =>
      (respects_inVm _).bind fun _ => ?_
    refine .bind (respects_setEnv fun env => ?_) fun _ => respects_envRun cur
    rw [h]
    rfl

theorem respects_trapDispatch (cur : Nat) (cr2 getc : Word) :
    Prog.Respects Kern.forget (trapDispatch cur cr2 getc) := by
  have hup : ∀ {upcall : Env → Word} (msg : String),
      (∀ env, upcall env.forget = upcall env) →
      Prog.Respects Kern.forget (upcallHandler upcall msg cur cr2) :=
    fun msg h => respects_upcallHandler h msg cur cr2
  refine .ask (fun _ => rfl) fun s =>
    .ite (.pure _) (.ite respects_schedYield ?_)
  refine .ite (hup _ fun _ => rfl)
    (.ite (hup _ fun _ => rfl) (.ite (hup _ fun _ => rfl) ?_))
  refine .ite (hup _ fun _ => rfl)
    (.ite (.pure _) (.ite ?_ (.ite (.halt _) ?_)))
  · exact (respects_syscall ..).bind fun _ => respects_setEnv fun _ => rfl
  · exact respects_envDestroy cur

theorem respects_trap (tr : Trap) : Prog.Respects Kern.forget (trap tr) := by
  refine .ite (.ask (fun _ => rfl) fun s => ?_) (.halt _)
  cases s.curenv with
  | none => exact .halt _
  | some cur =>
      refine .bind (respects_setEnv fun _ => rfl) fun _ =>
        (respects_trapDispatch ..).bind fun _ => ?_
      refine .ask (fun _ => rfl) fun s => ?_
      cases s.curenv with
      | none => exact respects_schedYield
      | some c => exact .ite (respects_envRun c) respects_schedYield

/-- Traps that are taken one after the other, each with memory as user code has
left it. -/
def traps : List Trap → K Unit
  | [] => pure ()
  | tr :: trs => Prog.after (do
      Prog.update fun s => s.enter tr
      trap tr) (traps trs)

theorem respects_traps (trs : List Trap) :
    Prog.Respects Kern.forget (traps trs) := by
  induction trs with
  | nil => exact .pure ()
  | cons tr trs ih =>
      refine .after (.bind (respects_update ?_) fun _ => respects_trap tr) ih
      exact fun _ => rfl

/-! ## New environments -/

/-- Two histories of slot `e`, which is the next to be allocated: they leave the
same `env_id`, and the same list of free pages. -/
structure SlotHistories (e : Nat) (s s' : Kern) : Prop where
  first : s.envFreeList.first = some e
  first' : s'.envFreeList.first = some e
  id : (s'.envs e).envId = (s.envs e).envId
  pages : ∃ xs, s.vm.pageFreeList.Rep xs ∧ s'.vm.pageFreeList.Rep xs

/-- The upcalls that `env_alloc` leaves as they are. -/
def SameUpcalls (env env' : Env) : Prop :=
  env'.envDivideUpcall = env.envDivideUpcall ∧ env'.envGpfaultUpcall =
    env.envGpfaultUpcall ∧
    env'.envIllopUpcall = env.envIllopUpcall

/-- After histories `s` and `s'` of its slot, environment `e` is the same in `t`
as in `t'`; and if nothing but the slot differs, so is what the kernel makes of
all later traps, whichever environment runs first. -/
def InheritsNothing (e : Nat) (s s' t t' : Kern) : Prop :=
  (t'.envs e).forget = (t.envs e).forget ∧
    ((∃ f, s' = s.setEnv e f) → ∀ c trs,
      (traps trs (t'.switch c)).view Kern.forget =
      (traps trs (t.switch c)).view Kern.forget)

/-- The page directory of a new environment is the first free page. -/
theorem setupPgdir_dir {v v' : Vm} {dir : Nat × Word}
    (h : setupPgdir v = .ret (.ok dir) v') :
    ∃ p, v.pageFreeList.first = some p ∧
    dir = (ppn (page2pa p), page2pa p) := by
  refine Prog.wp.ret (Q := fun x _ => x = .ok dir →
    ∃ p, v.pageFreeList.first = some p ∧
    dir = (ppn (page2pa p), page2pa p)) (A := fun _ => True) (E :=
    fun _ _ => True) ?_ h rfl
  unfold setupPgdir pageAlloc
  simp only [Prog.wp_bind, Prog.wp_ask]
  cases v.pageFreeList.first with
  | none => exact Prog.wp_pure_intro (Prog.wp_pure_intro nofun)
  | some p =>
      simp only [Prog.wp_bind, Prog.wp_ask, Prog.wp_update, Prog.wp_pure]
      unfold page2kva kaddr checkedPage
      apply Prog.wp_ask_bind
      refine Prog.wp_ite _ (fun _ => Prog.wp_halt_intro trivial) fun _ =>
        Prog.wp_pure_intro ?_
      exact (setPpRef_stays ..).wp
        (fun _ _ _ hdir => ⟨p, rfl, (Except.ok.inj hdir).symm⟩)
        fun _ _ _ => trivial

/-- `env_alloc` with directory `dir` returns, and has set the slot. -/
theorem envAlloc_alloced (h : envAlloc pid s = .ret (.ok e) t) :
    ∃ dir v, setupPgdir s.vm = .ret (.ok dir) v ∧
    t = s.alloced e pid dir v := by
  refine Prog.wp.ret (Q := fun r t => r = .ok e → ∃ dir v, setupPgdir s.vm =
    .ret (.ok dir) v ∧
    t = s.alloced e pid dir v) (A := fun _ => True) (E :=
    fun x _ => Stopped s x) ?_ h rfl
  refine wp_envAlloc (fun _ => nofun) fun e' dir v hfirst hv he => ?_
  cases he
  exact ⟨dir, v, hv, rfl⟩

/-- A new environment is what it is up to the upcalls that stay. -/
theorem initEnv_forget_iff {env env' : Env} (e : Nat) (pid : Word)
    (dir : Nat × Word) (hid : env'.envId = env.envId) :
    (initEnv e pid { env' with envPgdir := dir.1, envCr3 := dir.2 }).forget =
      (initEnv e pid { env with envPgdir := dir.1, envCr3 := dir.2 }).forget ↔
    SameUpcalls env env' := by
  simp [initEnv, Env.forget, SameUpcalls, hid]

/-- Two new environments are the same, and behave in the same way, exactly when
the previous users of the slot left the same upcalls. -/
theorem env_alloc_inherits (h : SlotHistories e s s')
    (ha : envAlloc pid s = .ret (.ok e) t)
    (ha' : envAlloc pid s' = .ret (.ok e) t') :
    InheritsNothing e s s' t t' ↔ SameUpcalls (s.envs e) (s'.envs e) := by
  obtain ⟨dir, v, hv, rfl⟩ := envAlloc_alloced ha
  obtain ⟨dir', v', hv', rfl⟩ := envAlloc_alloced ha'
  obtain rfl : dir = dir' := by
    obtain ⟨xs, hxs, hxs'⟩ := h.pages
    obtain ⟨p, hp, rfl⟩ := setupPgdir_dir hv
    obtain ⟨p', hp', rfl⟩ := setupPgdir_dir hv'
    rw [hxs.first_eq] at hp
    rw [hxs'.first_eq, hp] at hp'
    cases hp'
    rfl
  unfold InheritsNothing
  rw [Kern.alloced_envs_self, Kern.alloced_envs_self,
    initEnv_forget_iff _ _ _ h.id]
  refine ⟨And.left, fun hup => ⟨hup, ?_⟩⟩
  have hrec := (initEnv_forget_iff e pid dir h.id).mpr hup
  rintro ⟨f, rfl⟩ c trs
  cases hv.symm.trans hv'
  have henvs : ∀ d, (((s.setEnv e f).alloced e pid dir v).envs d).forget =
      ((s.alloced e pid dir v).envs d).forget := by
    intro d
    by_cases hde : d = e
    · subst hde
      rw [Kern.alloced_envs_self, Kern.alloced_envs_self]
      exact hrec
    · rw [Kern.alloced_envs_ne hde, Kern.alloced_envs_ne hde,
        Kern.setEnv_envs_ne hde]
  refine (respects_traps trs).view_eq _ _ ?_
  unfold Kern.forget Kern.switch
  rw [Kern.mk.injEq]
  exact ⟨rfl, funext henvs, rfl, rfl, rfl, rfl, rfl, rfl⟩

/-- Slot 4 has been used and is free again. -/
def Left (up : Word) (s : Kern) : Prop :=
  s.envFreeList.first = some 4 ∧ (s.envs 4).envId = 0x2004 ∧
    (s.envs 4).envDivideUpcall = up ∧
    s.vm.pageFreeList.first = some 404 ∧ s.vm.pageFreeList.prev 404 =
    some .head ∧
    s.vm.pageFreeList.next 404 = none

instance (up : Word) (s : Kern) : Decidable (Left up s) := by
  unfold Left
  infer_instance

theorem left_histories {up up' : Word} (h : Left up s) (h' : Left up' s') :
    SlotHistories 4 s s' where
  first := h.1
  first' := h'.1
  id := h'.2.1.trans h.2.1.symm
  pages := ⟨[404], ⟨h.2.2.2, List.nodup_singleton _⟩,
    ⟨h'.2.2.2, List.nodup_singleton _⟩⟩

/-- In `s` an owner of slot 4 has left the upcalls `up` and `pgf` behind, and in
`t` the slot has its next owner. -/
structure Handed (up pgf : Word) (s t : Kern) : Prop where
  run : Runs Step (fun _ _ => True) (smallKern 1) s
  left : Left up s
  gpfault : (s.envs 4).envGpfaultUpcall = 0
  illop : (s.envs 4).envIllopUpcall = 0
  pgfault : (s.envs 4).envPgfaultUpcall = pgf
  alloc : envAlloc 0x1002 s = .ret (.ok 4) t
  divide : (t.envs 4).envDivideUpcall = up

theorem exists_handed (as : List Act) (up pgf : Word)
    (h : ((smallKern 1).acts as).map (fun s =>
      decide (Left up s ∧ (s.envs 4).envGpfaultUpcall = 0 ∧
        (s.envs 4).envIllopUpcall = 0 ∧
        (s.envs 4).envPgfaultUpcall = pgf) &&
      (envAlloc 0x1002 s).returned.any fun x =>
        decide (x.1 = .ok 4 ∧ (x.2.envs 4).envDivideUpcall = up)) = some true) :
    ∃ s t, Handed up pgf s t := by
  obtain ⟨s, hs, hb⟩ := Option.map_eq_some_iff.mp h
  obtain ⟨hl, ht⟩ := Bool.and_eq_true_iff.mp hb
  obtain ⟨⟨r, t⟩, hret, ht⟩ := (Option.any_eq_true _ _).mp ht
  obtain ⟨rfl, hup⟩ := of_decide_eq_true ht
  obtain ⟨hl, hgpf, hill, hpgf⟩ := of_decide_eq_true hl
  exact ⟨s, t, Kern.acts_runs hs, hl, hgpf, hill, hpgf,
    Outcome.returned_eq_some.mp hret, hup⟩

/-- An owner that sets no upcall. -/
theorem exists_handed_none : ∃ s t, Handed 0 0 s t :=
  exists_handed [.call 7 0 0 0 0 0, .call 2 0 0 0 0 0, .call 3 0x2004 0 0 0 0] 0
    0 (by decide +kernel)

/-- The next owner of slot 4 gets the divide upcall that its previous owner had
set. -/
theorem env_alloc_leak :
    ∃ s s' t t', Runs Step (fun _ _ => True) (smallKern 1) s ∧
    Runs Step (fun _ _ => True) (smallKern 1) s' ∧ SlotHistories 4 s s' ∧
    envAlloc 0x1002 s = .ret (.ok 4) t ∧ envAlloc 0x1002 s' = .ret (.ok 4) t' ∧
    (t'.envs 4).envDivideUpcall ≠ (t.envs 4).envDivideUpcall ∧
    ¬InheritsNothing 4 s s' t t' := by
  obtain ⟨s, t, h⟩ := exists_handed_none
  obtain ⟨s', t', h'⟩ := exists_handed
    [.call 7 0 0 0 0 0, .call 17 0x2004 0x800020 0 0 0, .call 3 0x2004 0 0 0 0]
    0x800020 0
    (by decide +kernel)
  have hne : (t'.envs 4).envDivideUpcall ≠ (t.envs 4).envDivideUpcall := by
    rw [h.divide, h'.divide]
    decide
  refine ⟨s, s', t, t', h.run, h'.run, left_histories h.left h'.left, h.alloc,
    h'.alloc, hne,
    fun hin => hne ?_⟩
  have hrec := congrArg Env.envDivideUpcall hin.1
  exact hrec

/-- One owner has set a page fault upcall, the other none: that one is cleared,
and nothing is inherited. -/
theorem env_alloc_inherits_small :
    ∃ s s' t t', Runs Step (fun _ _ => True) (smallKern 1) s ∧
    Runs Step (fun _ _ => True) (smallKern 1) s' ∧
    (s.envs 4).envPgfaultUpcall = 0 ∧ (s'.envs 4).envPgfaultUpcall = 0x800020 ∧
    envAlloc 0x1002 s = .ret (.ok 4) t ∧ envAlloc 0x1002 s' = .ret (.ok 4) t' ∧
    InheritsNothing 4 s s' t t' := by
  obtain ⟨s, t, h⟩ := exists_handed_none
  obtain ⟨s', t', h'⟩ := exists_handed
    [.call 7 0 0 0 0 0, .call 10 0x2004 0x800020 0 0 0, .call 3 0x2004 0 0 0 0]
    0 0x800020
    (by decide +kernel)
  refine ⟨s, s', t, t', h.run, h'.run, h.pgfault, h'.pgfault, h.alloc, h'.alloc,
    (env_alloc_inherits (left_histories h.left h'.left) h.alloc
    h'.alloc).mpr ?_⟩
  exact ⟨h'.left.2.2.1.trans h.left.2.2.1.symm, h'.gpfault.trans h.gpfault.symm,
    h'.illop.trans h.illop.symm⟩

end

end Jos
