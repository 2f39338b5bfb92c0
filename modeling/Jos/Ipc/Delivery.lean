import Jos.Kern.Small

/-!
# Delivery of messages

What the steps of the machine do to the IPC fields of an environment
(`IpcChange`, and `Handled.ipcChange` for every way a trap can be handled), and
what follows for one message: only a `sys_ipc_recv` makes an environment ready
for the next one, the message stays intact until then, and a send that fails or
waits leaves the receiver alone.
-/

namespace Jos

section

variable {s s₁ s' : Kern} {tr : Trap} {c d e : Nat}

/-- The IPC fields that `sys_ipc_recv` and `sys_ipc_try_send` use. -/
structure IpcFields where
  recving : Bool
  dstva : Word
  value : Word
  source : Word
  perm : Word
deriving DecidableEq

def Env.ipc (env : Env) : IpcFields where
  recving := env.envIpcRecving
  dstva := env.envIpcDstva
  value := env.envIpcValue
  source := env.envIpcFrom
  perm := env.envIpcPerm

/-- The environment can take a message. -/
def Env.Ready (env : Env) : Prop :=
  env.envIpcRecving = true ∧ env.envIpcFrom = 0

/-! ## The two calls -/

/-- In `s`, where its frame has been saved, `c` makes a `sys_ipc_try_send` to
`e` that returns 0. -/
structure SendsTo (s : Kern) (c e : Nat) : Prop where
  call : (s.envs c).envTf.sysNo = some .ipcTrySend
  dst : s.resolve c (s.envs c).envTf.a1 false = .ok e
  ok : ∃ t, sysIpcTrySend (s.envs c).envTf.a1 (s.envs c).envTf.a2
    (s.envs c).envTf.a3
    (s.envs c).envTf.a4 s = .ret 0 t

/-- The permission that a send of `c` to `e` records: that of the page, if there
is one. -/
def sentPerm (s : Kern) (c e : Nat) : Word :=
  if (s.envs c).envTf.a3 < UTOP ∧ (s.envs e).envIpcDstva < UTOP then
    (s.envs c).envTf.a4 else 0

theorem Transfers.perm_eq {perm : Word} {v : Vm} (h : Transfers s c e perm v) :
    perm = sentPerm s c e := by
  rcases h with ⟨rfl, -, hno⟩ | ⟨rfl, hdst, hsrc, -, -⟩
  · rw [sentPerm, if_neg hno]
  · rw [sentPerm, if_pos ⟨hsrc.1, hdst⟩]

/-- A send that returns 0 found the receiver ready and delivered. -/
theorem SendsTo.ret (hc : s.curenv = some c) (h : SendsTo s c e) :
    (s.envs e).Ready ∧ ∃ v, Transfers s c e (sentPerm s c e) v
      ∧ sysIpcTrySend (s.envs c).envTf.a1 (s.envs c).envTf.a2
        (s.envs c).envTf.a3
        (s.envs c).envTf.a4 s = .ret 0
          (s.delivered c e (sentPerm s c e) v) := by
  obtain ⟨t, ht⟩ := h.ok
  have key : (0 : Word) = 0 → (s.envs e).Ready ∧ ∃ v,
      Transfers s c e (sentPerm s c e) v
      ∧ t = s.delivered c e (sentPerm s c e) v := by
    refine Prog.wp.ret (Q := fun r t => r = 0 → (s.envs e).Ready ∧ ∃ v,
        Transfers s c e (sentPerm s c e) v
        ∧ t = s.delivered c e (sentPerm s c e) v)
      (A := fun _ => True) (E := fun _ _ => True) ?_ ht
    refine wp_sysIpcTrySend hc (fun r hr h => absurd h hr)
      (fun _ => trivial) ?_ ?_ ?_
      fun _ _ _ => trivial
    · exact fun _ _ _ _ => wp_schedYield (fun _ _ _ => trivial) trivial
    · intro e' r v _ _ _ _ _ hv h0
      rcases pageMapAt_error hv with rfl | rfl <;> exact absurd h0 (by decide)
    · intro e' perm v he' hready hv _
      obtain rfl := Except.ok.inj (he'.symm.trans h.dst)
      have hperm := hv.perm_eq
      subst hperm
      exact ⟨hready, v, hv, rfl⟩
  obtain ⟨hready, v, hv, rfl⟩ := key rfl
  exact ⟨hready, v, hv, ht⟩

/-- Conversely, a transfer to a ready receiver returns 0. -/
theorem sysIpcTrySend_of_transfers (hc : s.curenv = some c)
    (he : s.resolve c (s.envs c).envTf.a1 false = .ok e)
    (hready : (s.envs e).Ready)
    {perm : Word} {v : Vm} (hv : Transfers s c e perm v) :
    sysIpcTrySend (s.envs c).envTf.a1 (s.envs c).envTf.a2 (s.envs c).envTf.a3
      (s.envs c).envTf.a4 s = .ret 0 (s.delivered c e perm v) := by
  have hbusy :
      ¬((s.envs e).envIpcRecving = false ∨ (s.envs e).envIpcFrom ≠ 0) := by
    simp [hready.1, hready.2]
  have hsend : ∀ (t : Kern) (value p : Word), t.curenv = some c →
      completeSend c e value p t = .ret 0
        ((t.setEnv e (deliver (t.envs c).envId value p)).setEnv c fun env =>
          { env with envIpcSended := (env.envIpcSended + 1) %
          0xFFFFFFFF#32 }) := by
    intro t value p ht
    have hid : sysGetenvid t = .ret (t.envs c).envId t := by
      unfold sysGetenvid
      rw [Prog.bind_ret (currentEnv_apply ht), Prog.ask_bind, Prog.pure_apply]
    unfold completeSend
    rw [Prog.bind_ret hid, Prog.update_bind, Prog.update_bind, Prog.pure_apply]
  unfold sysIpcTrySend
  rw [withEnv_ok hc resolve_zero, withEnv_ok hc he, Prog.ask_bind, if_neg hbusy]
  rcases hv with ⟨rfl, rfl, hno⟩ | ⟨rfl, hdst, hsrc, hperm, hmap⟩
  · rw [if_neg hno]
    exact hsend s _ _ hc
  · have hmap' : inVm (pageMapAt (s.envs c).envPgdir (s.envs c).envTf.a3
        (s.envs e).envPgdir
        (s.envs e).envIpcDstva (s.envs c).envTf.a4) s =
          .ret (.ok ()) (s.withVm v) := by
      rw [inVm, Prog.zoom_apply, hmap]
    rw [if_pos ⟨hsrc.1, hdst⟩, if_neg (not_not.mpr hsrc.2),
      if_neg (not_not.mpr hperm),
      Prog.bind_ret hmap']
    exact hsend (s.withVm v) _ _ hc

/-! ## What a step does to the IPC fields -/

/-- The IPC fields of `d` after a trap of `c` was handled: unchanged, or set by
the two calls, or those of a new environment. -/
inductive IpcChange (c : Nat) (s s₁ : Kern) (d : Nat) : Prop where
  | same (h : (s₁.envs d).ipc = (s.envs d).ipc)
  | recv (hd : d = c) (hno : (s.envs c).envTf.sysNo = some .ipcRecv)
  | sent (h : SendsTo s c d)
      (hipc : (s₁.envs d).ipc = (deliver (s.envs c).envId (s.envs c).envTf.a2
        (sentPerm s c d) (s.envs d)).ipc)
  | fresh (hfree : (s.envs d).envStatus = .free)
      (h : (s₁.envs d).envIpcRecving = false)

theorem ipc_sysRet {r : Word} : ((s.sysRet c r).envs d).ipc = (s.envs d).ipc :=
  Kern.setEnv_proj Env.ipc rfl

/-- Every way to handle a trap, seen from the IPC fields of `d`. -/
theorem Handled.ipcChange (hr : Running s c) (henv : EnvInv s)
    (hh : Handled c s s₁)
    (d : Nat) : IpcChange c s s₁ d := by
  cases hh with
  | idle hno => exact .same rfl
  | push hno hv => exact .same (Kern.setEnv_proj Env.ipc rfl)
  | @exit v hwhy hv => exact .same (Kern.freed_proj (v := v) Env.ipc rfl)
  | destroy hno hres hne hv =>
      exact .same (ipc_sysRet.trans (Kern.freed_proj Env.ipc rfl))
  | ret hno hv => exact .same ipc_sysRet
  | field hno hctl hf =>
      obtain ⟨_, _, _, _, _, hf⟩ := hf (s.envs _)
      exact .same
        (ipc_sysRet.trans (Kern.setEnv_proj Env.ipc (by rw [hf]; rfl)))
  | status hno hres hst =>
      exact .same (ipc_sysRet.trans (Kern.setEnv_proj Env.ipc rfl))
  | uxstack hno hres hva hperm hv =>
      exact .same
        (ipc_sysRet.trans (Kern.setEnv_proj (s := s.withVm _) Env.ipc rfl))
  | trapframe hno hres hbytes =>
      exact .same (ipc_sysRet.trans (Kern.setEnv_proj Env.ipc rfl))
  | @exofork e dir v hno hfirst hv =>
      obtain ⟨hlt, hfree, -⟩ := henv.alloced hfirst (s.envs c).envId dir v
      have hipc :
          ∀ r, ((((s.alloced e (s.envs c).envId dir v).setEnv e fun env =>
          { env with
            envStatus := .notRunnable
            envTf :=
              ((s.alloced e (s.envs c).envId dir v).envs c).envTf.setEax 0
          }).sysRet c r).envs d).ipc =
          ((s.alloced e (s.envs c).envId dir v).envs d).ipc :=
        fun r => ipc_sysRet.trans (Kern.setEnv_proj Env.ipc rfl)
      by_cases hd : d = e
      · subst hd
        refine .fresh hfree ((congrArg IpcFields.recving (hipc _)).trans ?_)
        rw [Kern.alloced_envs_self]
        rfl
      · exact .same ((hipc _).trans (by rw [Kern.alloced_envs_ne hd]))
  | @restore e v hno hres hst hne hv =>
      exact .same ((Kern.freed_proj (v := v) Env.ipc rfl).trans
        (Kern.setEnv_proj Env.ipc rfl))
  | queue hno hres hbusy hroom => exact .same (Kern.setEnv_proj Env.ipc rfl)
  | sendErr hno hres hready hdst hsrc hperm hv => exact .same ipc_sysRet
  | @sent e perm v hno hres hready hv =>
      have hsended : (((s.delivered c e perm v).sysRet c 0).envs d).ipc
          = (((s.withVm v).setEnv e
            (deliver (s.envs c).envId (s.envs c).envTf.a2 perm)).envs
            d).ipc := ipc_sysRet.trans (Kern.setEnv_proj Env.ipc rfl)
      by_cases hd : d = e
      · subst hd
        refine .sent ⟨hno, hres, _,
          sysIpcTrySend_of_transfers hr.cur hres hready hv⟩
          (hsended.trans ?_)
        rw [Kern.setEnv_envs_self, hv.perm_eq]
        rfl
      · exact .same (hsended.trans (by rw [Kern.setEnv_envs_ne hd]; rfl))
  | recvErr hno hnone =>
      by_cases hd : d = c
      · exact .recv hd hno
      · exact .same (ipc_sysRet.trans (by rw [Kern.setEnv_envs_ne hd]))
  | recvWait hno hnone =>
      by_cases hd : d = c
      · exact .recv hd hno
      · exact .same (by rw [Kern.setEnv_envs_ne hd])
  | recvWake hrel =>
      by_cases hd : d = c
      · exact .recv hd hrel.call
      · refine .same ((Kern.setEnv_proj Env.ipc rfl).trans ?_)
        rw [Kern.setEnv_envs_ne hd]

/-! ## Steps -/

/-- In state `s` the trap `tr` of `c` is a `sys_ipc_try_send` to `e` that
returns 0. -/
structure SendOk (s : Kern) (tr : Trap) (c e : Nat) : Prop where
  cur : s.curenv = some c
  sends : SendsTo (s.saved c tr) c e

/-- In state `s` the trap `tr` is a `sys_ipc_recv` of the environment with id
`id`. -/
def RecvBy (s : Kern) (tr : Trap) (id : Word) : Prop :=
  ∃ c, s.curenv = some c ∧ s.Named c id ∧ tr.tf.sysNo = some .ipcRecv

theorem saved_ipc : ((s.saved c tr).envs d).ipc = (s.envs d).ipc :=
  Kern.saved_proj Env.ipc fun _ => rfl

theorem runOn_ipc : ((s.runOn e).envs d).ipc = (s.envs d).ipc :=
  Kern.runOn_proj Env.ipc fun _ _ => rfl

theorem saved_named {id : Word} : (s.saved c tr).Named d id ↔ s.Named d id := by
  have hst : ((s.saved c tr).envs d).envStatus = (s.envs d).envStatus :=
    Kern.saved_proj Env.envStatus fun _ => rfl
  have hid : ((s.saved c tr).envs d).envId = (s.envs d).envId :=
    Kern.saved_proj Env.envId fun _ => rfl
  exact ⟨fun ⟨h₁, h₂, h₃⟩ => ⟨h₁, hst ▸ h₂, hid ▸ h₃⟩,
    fun ⟨h₁, h₂, h₃⟩ => ⟨h₁, hst.symm ▸ h₂, hid.symm ▸ h₃⟩⟩

theorem saved_resolve {id : Word} {p : Bool} :
    (s.saved c tr).resolve c id p = s.resolve c id p :=
  resolve_setEnv (s := s.enter tr) Iff.rfl rfl rfl

theorem runOn_named {id : Word} : (s.runOn e).Named d id ↔ s.Named d id := by
  have hst : ((s.runOn e).envs d).envStatus = (s.envs d).envStatus :=
    Kern.runOn_proj Env.envStatus fun _ _ => rfl
  have hid : ((s.runOn e).envs d).envId = (s.envs d).envId :=
    Kern.runOn_proj Env.envId fun _ _ => rfl
  exact ⟨fun ⟨h₁, h₂, h₃⟩ => ⟨h₁, hst ▸ h₂, hid ▸ h₃⟩,
    fun ⟨h₁, h₂, h₃⟩ => ⟨h₁, hst.symm ▸ h₂, hid.symm ▸ h₃⟩⟩

theorem ready_of_ipc {env env' : Env} (h : env.ipc = env'.ipc) :
    env.Ready ↔ env'.Ready := by
  have h₁ : env.envIpcRecving = env'.envIpcRecving :=
    congrArg IpcFields.recving h
  have h₂ : env.envIpcFrom = env'.envIpcFrom := congrArg IpcFields.source h
  rw [Env.Ready, Env.Ready, h₁, h₂]

theorem recving_of_ipc {env env' : Env} (h : env.ipc = env'.ipc) :
    env.envIpcRecving = env'.envIpcRecving :=
  congrArg IpcFields.recving h

/-- The state after a successful send. -/
theorem SendOk.after (h : SysInv s) (hsend : SendOk s tr c e)
    (hstep : Step s tr s') :
    (s.envs e).Ready ∧ ∃ v e', s' = (((s.saved c tr).delivered c e
      (sentPerm (s.saved c tr) c e) v).sysRet c 0).runOn e' := by
  obtain ⟨c', hr⟩ := h.running
  obtain rfl : c' = c := Option.some.inj (hr.cur.symm.trans hsend.cur)
  obtain ⟨hready, v, hv, hret⟩ := hsend.sends.ret (hr.saved tr).cur
  have htf : ((s.saved c' tr).envs c').envTf = tr.tf := Kern.saved_envs_self_tf
  have hcall := hsend.sends.call
  rw [htf] at hcall hret
  obtain ⟨hsys, hno⟩ := sysNo_eq hcall
  obtain ⟨e', -, rfl⟩ :=
    step_of_syscall_ret hr hstep hsys (t := (s.saved c' tr).delivered c' e
    (sentPerm (s.saved c' tr) c' e) v) (r :=
    0) (by rw [syscall, hno]; exact hret)
  exact ⟨(ready_of_ipc saved_ipc).mp hready, v, e', rfl⟩

/-- A successful send leaves the message in the receiver's fields. -/
theorem SendOk.step (h : SysInv s) (hsend : SendOk s tr c e)
    (hstep : Step s tr s') :
    (s.envs e).Ready ∧ (s'.envs e).ipc = (deliver (s.envs c).envId tr.tf.a2
      (sentPerm (s.saved c tr) c e) (s.envs e)).ipc := by
  obtain ⟨hready, v, e', rfl⟩ := hsend.after h hstep
  refine ⟨hready, runOn_ipc.trans (ipc_sysRet.trans ?_)⟩
  refine (Kern.setEnv_proj Env.ipc rfl).trans ?_
  have htf : ((s.saved c tr).envs c).envTf = tr.tf := Kern.saved_envs_self_tf
  have hid : ((s.saved c tr).envs c).envId = (s.envs c).envId :=
    Kern.saved_proj Env.envId fun _ => rfl
  have hdst : ((s.saved c tr).envs e).envIpcDstva = (s.envs e).envIpcDstva :=
    congrArg IpcFields.dstva saved_ipc
  rw [Kern.setEnv_envs_self, hid, htf]
  simp only [Env.ipc, deliver, Kern.withVm_envs, hdst]

/-- Every step, seen from the IPC fields of `d`. -/
theorem step_ipc (h : SysInv s) (hr : Running s c) (hstep : Step s tr s')
    (d : Nat) :
    ∃ s₁ e, Handled c (s.saved c tr) s₁ ∧ s' = s₁.runOn e
      ∧ IpcChange c (s.saved c tr) s₁ d := by
  obtain ⟨s₁, e, hh, -, -, rfl⟩ := step_cases hr hstep
  exact ⟨s₁, e, hh, rfl, hh.ipcChange (hr.saved tr) (h.env.saved tr) d⟩

/-! ## Once -/

/-- No environment with id `id` can take a message. -/
def NotReady (s : Kern) (id : Word) : Prop :=
  ∀ e, s.Named e id → ¬(s.envs e).Ready

/-- Only a `sys_ipc_recv` makes an environment ready for the next message. -/
theorem NotReady.step {id : Word} (h : SysInv s) (hn : NotReady s id)
    (hstep : Step s tr s')
    (hrecv : ¬RecvBy s tr id) : NotReady s' id := by
  intro e he
  obtain ⟨c, hr⟩ := h.running
  obtain ⟨s₁, e', hh, rfl, hipc⟩ := step_ipc h hr hstep e
  rw [ready_of_ipc runOn_ipc]
  rcases hh.named (hr.saved tr) (h.env.saved tr) (runOn_named.mp he) with
    he | hborn
  · have he : s.Named e id := saved_named.mp he
    cases hipc with
    | same hsame =>
        rw [ready_of_ipc (hsame.trans saved_ipc)]
        exact hn e he
    | recv hec hno =>
        rw [Kern.saved_envs_self_tf] at hno
        exact absurd ⟨c, hr.cur, hec ▸ he, hno⟩ hrecv
    | sent hsend hipc =>
        rw [ready_of_ipc hipc]
        exact fun hready => Bool.noConfusion hready.1
    | fresh hfree hrec =>
        exact fun hready => Bool.noConfusion (hrec.symm.trans hready.1)
  · exact fun hready => Bool.noConfusion (hborn.recving.symm.trans hready.1)

/-! ## Intact -/

/-- What the receiver reads: the value, the sender and the permission. -/
def Env.message (env : Env) : Word × Word × Word :=
  (env.envIpcValue, env.envIpcFrom, env.envIpcPerm)

theorem message_of_ipc {env env' : Env} (h : env.ipc = env'.ipc) :
    env.message = env'.message := by
  have h₁ : env.envIpcValue = env'.envIpcValue := congrArg IpcFields.value h
  have h₂ : env.envIpcFrom = env'.envIpcFrom := congrArg IpcFields.source h
  have h₃ : env.envIpcPerm = env'.envIpcPerm := congrArg IpcFields.perm h
  rw [Env.message, Env.message, h₁, h₂, h₃]

/-- While an environment is not ready, a step other than its own `sys_ipc_recv`
keeps the message it holds. -/
theorem message_step {id : Word} (h : SysInv s) (he : s.Named e id)
    (hn : ¬(s.envs e).Ready) (hstep : Step s tr s') (hrecv : ¬RecvBy s tr id) :
    (s'.envs e).message = (s.envs e).message := by
  obtain ⟨c, hr⟩ := h.running
  obtain ⟨s₁, e', hh, rfl, hipc⟩ := step_ipc h hr hstep e
  cases hipc with
  | same hsame => exact message_of_ipc (runOn_ipc.trans (hsame.trans saved_ipc))
  | recv hec hno =>
      rw [Kern.saved_envs_self_tf] at hno
      exact absurd ⟨c, hr.cur, hec ▸ he, hno⟩ hrecv
  | sent hsend _ =>
      exact absurd ((ready_of_ipc saved_ipc).mp
        (hsend.ret (hr.saved tr).cur).1) hn
  | fresh hfree _ =>
      exact absurd hfree (saved_named.mpr he).live

/-! ## A send that does not succeed -/

/-- What must not change in a receiver whose sender fails or waits. -/
def Env.receiver (env : Env) : IpcFields × Trapframe × EnvStatus :=
  (env.ipc, env.envTf, env.envStatus)

/-- A `sys_ipc_try_send` that does not deliver leaves the receiver alone. -/
theorem Handled.receiver (hr : Running s c) (hh : Handled c s s₁)
    (hcall : (s.envs c).envTf.sysNo = some .ipcTrySend)
    (hdst : s.resolve c (s.envs c).envTf.a1 false = .ok e)
    (hsend : ¬SendsTo s c e)
    (hec : e ≠ c) : (s₁.envs e).receiver = (s.envs e).receiver := by
  have hother : ∀ {no : SysNo}, (s.envs c).envTf.sysNo = some no →
      no ≠ .ipcTrySend →
      (s₁.envs e).receiver = (s.envs e).receiver := by
    intro no hno hne
    rw [hcall] at hno
    exact absurd (Option.some.inj hno).symm hne
  cases hh with
  | idle hno => rfl
  | push hno hv => exact absurd (hcall.symm.trans hno) nofun
  | @exit v hwhy hv =>
      exact congrArg Env.receiver (Kern.freed_envs_ne (v := v) hec)
  | destroy hno hres hne hv => exact hother hno nofun
  | ret hno hv => exact congrArg Env.receiver (Kern.sysRet_envs_ne hec)
  | @field e' f hno hctl hf =>
      obtain ⟨_, _, _, _, _, hf⟩ := hf (s.envs e')
      rw [Kern.sysRet_envs_ne hec]
      exact Kern.setEnv_proj Env.receiver (by rw [hf]; rfl)
  | status hno hres hst => exact hother hno nofun
  | uxstack hno hres hva hperm hv => exact hother hno nofun
  | trapframe hno hres hbytes => exact hother hno nofun
  | exofork hno hfirst hv => exact hother hno nofun
  | restore hno hres hst hne hv => exact hother hno nofun
  | queue hno hres hbusy hroom =>
      exact congrArg Env.receiver (Kern.setEnv_envs_ne hec)
  | sendErr hno hres hready hsrc hperm hv =>
      exact congrArg Env.receiver (Kern.sysRet_envs_ne hec)
  | @sent e' perm v hno hres hready hv =>
      obtain rfl := Except.ok.inj (hres.symm.trans hdst)
      exact absurd ⟨hno, hres, _,
        sysIpcTrySend_of_transfers hr.cur hres hready hv⟩ hsend
  | recvErr hno hnone => exact hother hno nofun
  | recvWait hno hnone => exact hother hno nofun
  | recvWake hrel => exact hother hrel.call nofun

end

end Jos
