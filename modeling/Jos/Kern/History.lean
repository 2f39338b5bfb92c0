import Jos.Ipc.Delivery

/-!
# Status and frame changes, and the machine with its history

`StatusChange` lists what a step can do to the status of an environment; the
calls that make a suspended one runnable are `Rouses` and `Releases`, stated on
the state before the call. `FrameChange` lists what the trap of another
environment can do to a saved trap frame. `Traced` is the machine with, for each
slot, the frame of its last trap and whether a message has arrived since, so
that being blocked inside a call is a property of a state.
-/

namespace Jos

section

variable {s s₁ : Kern} {tr : Trap} {c d e : Nat}

/-! ## Waking -/

/-- The memory for `sys_page_alloc` at `va`: a page, and a page table that is
there or another page for it. -/
def HasRoom (pgdir : Nat) (va : Word) (v : Vm) : Prop :=
  ∃ pp, v.pageFreeList.first = some pp
    ∧ (present (v.mem.entry pgdir (pdx va))
    ∨ (v.pageFreeList.remove pp).first ≠ none)

theorem hasRoom_of_pageAllocAt {pgdir : Nat} {va perm : Word} {v v' : Vm}
    (h : pageAllocAt pgdir va perm v = .ret 0 v') : HasRoom pgdir va v := by
  refine Prog.wp.ret (Q := fun r _ => r = 0 → HasRoom pgdir va v)
    (A := fun _ => True)
    (E := fun _ _ => True) ?_ h rfl
  unfold pageAllocAt
  rw [Prog.wp_bind]
  cases hfirst : v.pageFreeList.first with
  | none =>
      exact Prog.wp_ret (pageAlloc_none hfirst)
        (Prog.wp_pure_intro fun h => absurd h (by decide))
  | some pp =>
      refine Prog.wp_ret (pageAlloc_some hfirst) ?_
      by_cases hpde : present (v.mem.entry pgdir (pdx va))
      · exact Prog.wp_of_runs (fun _ _ _ _ => ⟨pp, hfirst, .inl hpde⟩)
          (fun _ _ => trivial)
          fun _ _ _ => trivial
      · by_cases hroom : (v.pageFreeList.remove pp).first = none
        · simp only [Prog.wp_bind]
          refine Prog.wp_ret (pageInsert_noMem hpde hroom) ?_
          simp only [Prog.wp_bind, Prog.wp_pure]
          exact (pageFree_stays pp).wp (fun _ _ _ h => absurd h (by decide))
            fun _ _ _ => trivial
        · exact Prog.wp_of_runs (fun _ _ _ _ => ⟨pp, hfirst, .inr hroom⟩)
            (fun _ _ => trivial)
            fun _ _ _ => trivial

/-- The call of `c` sets the status of `e` to `ENV_RUNNABLE`, whatever `e` waits
for. -/
inductive Rouses (s : Kern) (c e : Nat) : Prop where
  | status (hno : (s.envs c).envTf.sysNo = some .envSetStatus)
      (hres : s.resolve c (s.envs c).envTf.a1 true = .ok e)
      (hst : (s.envs c).envTf.a2 = ENV_RUNNABLE)
  | uxstack (hno : (s.envs c).envTf.sysNo = some .uxstackPgfaultStatus)
      (hres : s.resolve c (s.envs c).envTf.a1 true = .ok e)
      (hva : userPage (s.envs c).envTf.a2)
      (hperm : validPerm (s.envs c).envTf.a3)
      (hroom : HasRoom (s.envs e).envPgdir (s.envs c).envTf.a2 s.vm)
      (hst : (s.envs c).envTf.a5 = ENV_RUNNABLE)
  | restore (hno : (s.envs c).envTf.sysNo = some .envRestore)
      (hres : s.resolve c (s.envs c).envTf.a1 false = .ok e)
      (hst : (s.envs e).envStatus = .notRunnable)

theorem validStatus_runnable {x : Word} (h : validStatus x = some .runnable) :
    x = ENV_RUNNABLE := by
  unfold validStatus at h
  split at h
  · assumption
  · split at h <;> cases h

/-- What a step can do to the status of `d`. -/
inductive StatusChange (c : Nat) (s s₁ : Kern) (d : Nat) : Prop where
  | same (h : (s₁.envs d).envStatus = (s.envs d).envStatus)
  | suspended (h : (s₁.envs d).envStatus = .notRunnable)
  | freed (h : (s₁.envs d).envStatus = .free)
  | roused (h : Rouses s c d)
  | released (h : Releases s c d)
  | sent (h : SendsTo s c d)
  | born (hfree : (s.envs d).envStatus = .free)

theorem status_sysRet {r : Word} :
    ((s.sysRet c r).envs d).envStatus = (s.envs d).envStatus :=
  Kern.setEnv_proj Env.envStatus rfl

/-- Setting a status that is not `free`. -/
theorem StatusChange.set {t : Kern} {f : Env → Env} (st : EnvStatus)
    (hs₁ : (s₁.envs d).envStatus = ((t.setEnv e f).envs d).envStatus)
    (ht : (t.envs d).envStatus = (s.envs d).envStatus)
    (hf : (f (t.envs e)).envStatus = st) (hst : st ≠ .free)
    (hrun : d = e → st = .runnable → StatusChange c s s₁ d) :
    StatusChange c s s₁ d := by
  by_cases hd : d = e
  · subst hd
    rw [Kern.setEnv_envs_self, hf] at hs₁
    cases st with
    | free => exact absurd rfl hst
    | runnable => exact hrun rfl rfl
    | notRunnable => exact .suspended hs₁
  · rw [Kern.setEnv_envs_ne hd] at hs₁
    exact .same (hs₁.trans ht)

/-- Every way to handle a trap, seen from the status of `d`. -/
theorem Handled.statusChange (hr : Running s c) (henv : EnvInv s)
    (hh : Handled c s s₁)
    (d : Nat) : StatusChange c s s₁ d := by
  cases hh with
  | idle hno => exact .same rfl
  | push hno hv =>
      exact .same (Kern.setEnv_proj (s := s.withVm _) Env.envStatus rfl)
  | @exit v hwhy hv =>
      by_cases hd : d = c
      · subst hd
        exact .freed (Kern.freed_status (v := v))
      · exact .same (congrArg Env.envStatus (Kern.freed_envs_ne (v := v) hd))
  | @destroy e v hno hres hne hv =>
      by_cases hd : d = e
      · subst hd
        exact .freed (status_sysRet.trans (Kern.freed_status (v := v)))
      · exact .same (status_sysRet.trans
          (congrArg Env.envStatus (Kern.freed_envs_ne (v := v) hd)))
  | ret hno hv => exact .same status_sysRet
  | @field e f hno hctl hf =>
      obtain ⟨_, _, _, _, _, hf⟩ := hf (s.envs e)
      exact .same
        (status_sysRet.trans (Kern.setEnv_proj Env.envStatus (by rw [hf])))
  | @status e st hno hres hst =>
      refine .set st (t := s) (e := e)
        (f := fun env => { env with envStatus := st })
        status_sysRet rfl rfl (validStatus_ne_free hst) ?_
      rintro rfl rfl
      exact .roused (.status hno hres (validStatus_runnable hst))
  | @uxstack e v r hno hres hva hperm hv =>
      cases hst : validStatus (s.envs c).envTf.a5 with
      | none => exact .same (status_sysRet.trans
          (Kern.setEnv_proj (s := s.withVm v) Env.envStatus rfl))
      | some st =>
          refine .set st (t := s.withVm v) (e := e) status_sysRet rfl rfl
            (validStatus_ne_free hst) ?_
          rintro rfl rfl
          exact .roused (.uxstack hno hres hva hperm (hasRoom_of_pageAllocAt hv)
            (validStatus_runnable hst))
  | trapframe hno hres hbytes =>
      exact .same (status_sysRet.trans (Kern.setEnv_proj Env.envStatus rfl))
  | @exofork e dir v hno hfirst hv =>
      by_cases hd : d = e
      · subst hd
        exact .born (henv.alloced hfirst (s.envs c).envId dir v).2.1
      · refine .same (status_sysRet.trans ?_)
        rw [Kern.setEnv_envs_ne hd, Kern.alloced_envs_ne hd]
  | @restore e v hno hres hst hne hv =>
      by_cases hd : d = c
      · subst hd
        exact .freed (Kern.freed_status (v := v))
      · by_cases hde : d = e
        · subst hde
          exact .roused (.restore hno hres hst)
        · refine .same
            ((congrArg Env.envStatus (Kern.freed_envs_ne (v := v) hd)).trans ?_)
          rw [Kern.setEnv_envs_ne hde]
  | queue hno hres hbusy hroom =>
      exact .set .notRunnable (t := enqueueSender c (s.envs c).envTf.a1 s)
        (e := c)
        (f := fun env => { env with envStatus := .notRunnable }) rfl
        rfl rfl nofun
        fun _ => nofun
  | sendErr hno hres hready hdst hsrc hperm hv => exact .same status_sysRet
  | @sent e perm v hno hres hready hv =>
      by_cases hd : d = e
      · subst hd
        exact .sent ⟨hno, hres, _,
          sysIpcTrySend_of_transfers hr.cur hres hready hv⟩
      · refine .same
          (status_sysRet.trans ((Kern.setEnv_proj Env.envStatus rfl).trans ?_))
        rw [Kern.setEnv_envs_ne hd]
        rfl
  | recvErr hno hnone =>
      exact .set .notRunnable (t := s) (e := c)
        (f := blockRecv (s.envs c).envTf.a1) status_sysRet rfl rfl
        nofun fun _ => nofun
  | recvWait hno hnone =>
      exact .set .notRunnable (t := s) (e := c)
        (f := blockRecv (s.envs c).envTf.a1) rfl rfl rfl nofun
        fun _ => nofun
  | @recvWake e hrel =>
      by_cases hd : d = e
      · subst hd
        exact .released hrel
      · refine .set .notRunnable (t := s) (e := c)
          (f := blockRecv (s.envs c).envTf.a1)
          (congrArg Env.envStatus (Kern.setEnv_envs_ne hd)) rfl rfl nofun
          fun _ => nofun

/-! ## What others do to a saved trap frame -/

/-- The call of `c` sets the trap frame of `e`. -/
structure SetsFrame (s : Kern) (c e : Nat) : Prop where
  call : (s.envs c).envTf.sysNo = some .envSetTrapframe
  target : s.resolve c (s.envs c).envTf.a1 true = .ok e

inductive FrameChange (c : Nat) (s s₁ : Kern) (d : Nat) : Prop where
  | same (h : (s₁.envs d).envTf = (s.envs d).envTf)
  | set (h : SetsFrame s c d)
  | released (hrel : Releases s c d)
      (h : (s₁.envs d).envTf = (s.envs d).envTf.setEax (-E_IPC_NOT_RECV))
  | sent (h : SendsTo s c d)
  | born (hfree : (s.envs d).envStatus = .free)

theorem tf_sysRet (hdc : d ≠ c) {r : Word} :
    ((s.sysRet c r).envs d).envTf = (s.envs d).envTf :=
  congrArg Env.envTf (Kern.setEnv_envs_ne hdc)

/-- Every way to handle a trap, seen from the frame of another environment. -/
theorem Handled.frameChange (hr : Running s c)
    (henv : EnvInv s) (hh : Handled c s s₁)
    (hdc : d ≠ c) : FrameChange c s s₁ d := by
  cases hh with
  | idle hno => exact .same rfl
  | push hno hv => exact .same (congrArg Env.envTf
      (Kern.setEnv_envs_ne (s := s.withVm _) hdc))
  | @exit v hwhy hv => exact .same (Kern.freed_proj (v := v) Env.envTf rfl)
  | destroy hno hres hne hv =>
      exact .same ((tf_sysRet hdc).trans (Kern.freed_proj Env.envTf rfl))
  | ret hno hv => exact .same (tf_sysRet hdc)
  | @field e f hno hctl hf =>
      obtain ⟨_, _, _, _, _, hf⟩ := hf (s.envs e)
      exact .same
        ((tf_sysRet hdc).trans (Kern.setEnv_proj Env.envTf (by rw [hf])))
  | status hno hres hst =>
      exact .same ((tf_sysRet hdc).trans (Kern.setEnv_proj Env.envTf rfl))
  | @uxstack e v r hno hres hva hperm hv =>
      exact .same ((tf_sysRet hdc).trans
        (Kern.setEnv_proj (s := s.withVm v) Env.envTf rfl))
  | @trapframe e bytes hno hres hbytes =>
      by_cases hd : d = e
      · subst hd
        exact .set ⟨hno, hres⟩
      · exact .same
          ((tf_sysRet hdc).trans (congrArg Env.envTf (Kern.setEnv_envs_ne hd)))
  | @exofork e dir v hno hfirst hv =>
      by_cases hd : d = e
      · subst hd
        exact .born (henv.alloced hfirst (s.envs c).envId dir v).2.1
      · refine .same ((tf_sysRet hdc).trans ?_)
        rw [Kern.setEnv_envs_ne hd, Kern.alloced_envs_ne hd]
  | @restore e v hno hres hst hne hv =>
      exact .same ((Kern.freed_proj (v := v) Env.envTf rfl).trans
        (Kern.setEnv_proj Env.envTf rfl))
  | queue hno hres hbusy hroom => exact .same (Kern.setEnv_proj Env.envTf rfl)
  | sendErr hno hres hready hdst hsrc hperm hv => exact .same (tf_sysRet hdc)
  | @sent e perm v hno hres hready hv =>
      by_cases hd : d = e
      · subst hd
        exact .sent ⟨hno, hres, _,
          sysIpcTrySend_of_transfers hr.cur hres hready hv⟩
      · refine .same
          ((tf_sysRet hdc).trans ((Kern.setEnv_proj Env.envTf rfl).trans ?_))
        exact congrArg Env.envTf (Kern.setEnv_envs_ne (s := s.withVm v) hd)
  | recvErr hno hnone =>
      exact .same ((tf_sysRet hdc).trans (Kern.setEnv_proj Env.envTf rfl))
  | recvWait hno hnone => exact .same (Kern.setEnv_proj Env.envTf rfl)
  | @recvWake e hrel =>
      by_cases hd : d = e
      · subst hd
        refine .released hrel ?_
        rw [Kern.dequeueSender_envs, Kern.setEnv_envs_self,
          Kern.setEnv_envs_ne hdc]
        rfl
      · refine .same ?_
        rw [Kern.dequeueSender_envs, Kern.setEnv_envs_ne hd,
          Kern.setEnv_envs_ne hdc]

/-- The word in `eax` of environment `e`. -/
def Kern.eax (s : Kern) (e : Nat) : Word := (s.envs e).envTf.tfRegs.regEax

theorem runOn_eax : (s.runOn e).eax d = s.eax d :=
  Kern.runOn_proj (fun env => env.envTf.tfRegs.regEax) fun _ _ => rfl

theorem saved_eax (hdc : d ≠ c) : (s.saved c tr).eax d = s.eax d :=
  congrArg (fun env => env.envTf.tfRegs.regEax) (Kern.saved_envs_ne hdc)

end

/-! ## History -/

/-- The kernel, and for each slot the frame of the last trap of its environment
and whether a message has arrived since. -/
structure Traced where
  kern : Kern
  last : Nat → Option Trapframe
  got : Nat → Prop

/-- A new environment has no history. -/
structure Traced.Step (m : Traced) (tr : Trap) (m' : Traced) : Prop where
  kern : Jos.Step m.kern tr m'.kern
  last : ∀ d, m'.last d = if m.kern.curenv = some d then some tr.tf
    else if (m.kern.envs d).envStatus = .free then none else m.last d
  got : ∀ d, m'.got d ↔ (∃ c, SendOk m.kern tr c d)
    ∨ (m.kern.curenv ≠ some d ∧ (m.kern.envs d).envStatus ≠ .free ∧ m.got d)

/-- The kernel `s` with no history. -/
def Traced.start (s : Kern) : Traced := ⟨s, fun _ => none, fun _ => False⟩

/-- Every step of the machine has its history. -/
theorem Traced.exists_step {m : Traced} {tr : Trap} {s' : Kern}
    (h : Jos.Step m.kern tr s') :
    ∃ m', m.Step tr m' ∧ m'.kern = s' :=
  ⟨⟨s', fun d => if m.kern.curenv = some d then some tr.tf
      else if (m.kern.envs d).envStatus = .free then none else m.last d,
    fun d => (∃ c, SendOk m.kern tr c d)
      ∨ (m.kern.curenv ≠ some d ∧ (m.kern.envs d).envStatus ≠ .free ∧ m.got d)⟩,
    ⟨h, fun _ => rfl, fun _ => Iff.rfl⟩, rfl⟩

section

variable {s : Kern} {m m' : Traced} {tr : Trap} {c d e : Nat}

/-- A step of the machine, taken apart. -/
theorem Traced.Step.cases (h : SysInv m.kern) (hstep : m.Step tr m') :
    ∃ c s₁ e, Running m.kern c ∧ Handled c (m.kern.saved c tr) s₁
      ∧ m'.kern = s₁.runOn e := by
  obtain ⟨c, hr⟩ := h.running
  obtain ⟨s₁, e, hh, -, -, hs'⟩ := step_cases hr hstep.kern
  exact ⟨c, s₁, e, hr, hh, hs'⟩

/-- A live environment that the step does not destroy keeps its name. -/
theorem Traced.Step.keepsName {id : Word} (h : SysInv m.kern)
    (hstep : m.Step tr m')
    (hc : m.kern.curenv = some c) (hd : m.kern.Named d id)
    (hdes : ¬Destroys (m.kern.saved c tr) c d) : m'.kern.Named d id := by
  obtain ⟨c', s₁, e, hr, hh, hs'⟩ := hstep.cases h
  obtain rfl : c' = c := Option.some.inj (hr.cur.symm.trans hc)
  rw [hs', runOn_named]
  exact hh.keepsName (hr.saved tr) (h.env.saved tr) (saved_named.mpr hd) hdes

theorem Traced.Step.last_cur (hc : m.kern.curenv = some c)
    (hstep : m.Step tr m') :
    m'.last c = some tr.tf := by
  rw [hstep.last, if_pos hc]

theorem Traced.Step.last_other (hc : m.kern.curenv = some c) (hdc : d ≠ c)
    (hd : (m.kern.envs d).envStatus ≠ .free) (hstep : m.Step tr m') :
    m'.last d = m.last d := by
  rw [hstep.last, hc, if_neg fun h => hdc (Option.some.inj h).symm, if_neg hd]

theorem Traced.Step.last_free (hc : m.kern.curenv = some c) (hdc : d ≠ c)
    (hd : (m.kern.envs d).envStatus = .free) (hstep : m.Step tr m') :
    m'.last d = none := by
  rw [hstep.last, hc, if_neg fun h => hdc (Option.some.inj h).symm, if_pos hd]

theorem saved_status : ((s.saved c tr).envs d).envStatus =
      (s.envs d).envStatus :=
  Kern.saved_proj Env.envStatus fun _ => rfl

theorem runOn_status : ((s.runOn e).envs d).envStatus = (s.envs d).envStatus :=
  Kern.runOn_proj Env.envStatus fun _ _ => rfl

theorem saved_live : (s.saved c tr).Live d ↔ s.Live d := by
  rw [Kern.Live, Kern.Live, saved_status]

theorem runOn_live : (s.runOn e).Live d ↔ s.Live d := by
  rw [Kern.Live, Kern.Live, runOn_status]

end

/-- Every run of the machine has its history. -/
theorem Traced.exists_run {m : Traced} {t : Kern}
    (h : Runs Jos.Step (fun _ _ => True) m.kern t) :
    ∃ m', Runs Traced.Step (fun _ _ => True) m m' ∧ m'.kern = t := by
  induction h with
  | refl => exact ⟨m, Runs.refl _, rfl⟩
  | tail _ hlast ih =>
      obtain ⟨m', hrun, rfl⟩ := ih
      obtain ⟨tr, -, hstep⟩ := hlast
      obtain ⟨m'', hstep', rfl⟩ := Traced.exists_step hstep
      exact ⟨m'', hrun.tail trivial hstep', rfl⟩

/-- The frame of user code at CPL 3 with interrupts on and no I/O privilege. -/
structure Trapframe.Unprivileged (tf : Trapframe) : Prop where
  cs : tf.tfCs = GD_UT ||| 3
  intr : tf.tfEflags &&& FL_IF = FL_IF
  iopl : tf.tfEflags &&& FL_IOPL_MASK = 0

/-- The initial state: a consistent table, nobody receives or waits, and only
the environment in slot 1 may have more privileges than user code has. -/
structure Booted (s : Kern) : Prop where
  sys : SysInv s
  recving : ∀ e, (s.envs e).envIpcRecving = false
  waiting : s.waitingEnvNum = 0
  tf : ∀ e, s.Live e → e ≠ 1 → (s.envs e).envTf.Unprivileged

theorem initTf_unprivileged {e : Nat} (he : e ≠ 1) :
    (initTf e).Unprivileged := by
  rw [initTf, if_neg he]
  exact ⟨by decide, by decide, by decide⟩

theorem smallKern_booted (k : Nat) : Booted (smallKern k) where
  sys := ⟨smallKern_envInv k, 2, smallKern_running k⟩
  recving _ := rfl
  waiting := rfl
  tf _ _ he := initTf_unprivileged he

end Jos
