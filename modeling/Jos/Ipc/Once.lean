import Jos.Ipc.Blocked

/-!
# Each message once

The delivery law for the results that senders see. A `sys_ipc_try_send` that
finds its receiver waiting returns at once, and 0 means that the message is
there. One that does not is queued, and its result is whatever `reg_eax` holds
when the sender runs again: `-E_IPC_NOT_RECV` if the receiver let it go, but 0
if somebody sent to the sender, which the kernel allows as long as the sender's
own `env_ipc_recving` is set.
-/

namespace Jos

/-! ## Calls and their results -/

/-- In `m`, where `c` runs, the trap `tr` is a `sys_ipc_try_send` to `e`; it
leads to `m'`. -/
structure SendCall (m : Traced) (tr : Trap) (c e : Nat) (m' : Traced) :
    Prop where
  cur : m.kern.curenv = some c
  call : tr.tf.sysNo = some .ipcTrySend
  dst : (m.kern.saved c tr).resolve c tr.tf.a1 false = .ok e
  step : m.Step tr m'

/-- The call with which `c` left user mode returns `r`: `c` keeps its id, and it
runs in `n` for the first time since `m`. -/
structure Returns (P : Traced → Trap → Prop) (c : Nat) (id r : Word)
    (m n : Traced) : Prop where
  run : Runs Traced.Step (fun u l =>
    P u l ∧ u.kern.Named c id ∧ u.kern.curenv ≠ some c) m n
  named : n.kern.Named c id
  cur : n.kern.curenv = some c
  eax : n.kern.eax c = r

/-- The last trap of `e` was a `sys_ipc_try_send`. -/
def Traced.InSend (m : Traced) (e : Nat) : Prop :=
  ∃ tf, m.last e = some tf ∧ tf.sysNo = some .ipcTrySend

/-- The trap is to queue an environment whose `env_ipc_recving` is set, or it
sets the trap frame of another environment that is inside `sys_ipc_try_send`. -/
inductive MisleadsSender (m : Traced) (tr : Trap) : Prop where
  | receiving {c e : Nat} (hc : m.kern.curenv = some c)
      (hrec : (m.kern.envs c).envIpcRecving = true)
      (hno : tr.tf.sysNo = some .ipcTrySend)
      (hdst : (m.kern.saved c tr).resolve c tr.tf.a1 false = .ok e)
      (hbusy : ¬(m.kern.envs e).Ready)
  | frame {c e : Nat} (hc : m.kern.curenv = some c)
      (hset : SetsFrame (m.kern.saved c tr) c e) (hne : e ≠ c)
      (hin : m.InSend e)

/-- The delivery law, in the runs from `s` whose steps meet `P`. Take any
`sys_ipc_try_send` to the environment with id `id`. If it returns 0, then no
later one to that environment returns 0 unless the environment has called
`sys_ipc_recv` in between, and up to that call its fields hold the value, the
sender's id and the permission of this send. If it returns something else or
blocks, the receiver's IPC fields, saved registers and status are what they
were. -/
def DeliversOnce (P : Traced → Trap → Prop) (s : Kern) : Prop :=
  ∀ m m' tr c e id, Runs Traced.Step P (.start s) m → P m tr →
    SendCall m tr c e m' → m.kern.Named e id →
    (∀ n, Returns P c (m.kern.envs c).envId 0 m' n →
      (∀ t t' tr' c' e' n',
        Runs Traced.Step (fun u l => P u l ∧ ¬RecvBy u.kern l id) m' t →
        P t tr' → SendCall t tr' c' e' t' → t.kern.Named e' id →
        ¬Returns P c' (t.kern.envs c').envId 0 t' n')
      ∧ ∀ t, Runs Traced.Step (fun u l =>
          u.kern.Named e id ∧ ¬RecvBy u.kern l id) m' t → t.kern.Named e id →
        (t.kern.envs e).message = (tr.tf.a2, (m.kern.envs c).envId,
          sentPerm (m.kern.saved c tr) c e))
    ∧ ((∃ n r, Returns P c (m.kern.envs c).envId r m' n ∧ r ≠ 0)
        ∨ m'.kern.curenv ≠ some c → e ≠ c →
      (m'.kern.envs e).receiver = (m.kern.envs e).receiver)

section

variable {P : Traced → Trap → Prop} {s s' : Kern} {m m' n : Traced} {tr : Trap}
  {c d e : Nat} {id r : Word}

/-! ## A send that delivers -/

/-- A sender that has delivered goes on at once, with the result 0. -/
theorem SendOk.runs (h : SysInv s) (hsend : SendOk s tr c e)
    (hstep : Step s tr s') : s'.curenv = some c ∧ s'.eax c = 0 := by
  obtain ⟨c', hr⟩ := h.running
  obtain rfl : c' = c := Option.some.inj (hr.cur.symm.trans hsend.cur)
  obtain ⟨-, v, hv, hret⟩ := hsend.sends.ret (hr.saved tr).cur
  have hcall := hsend.sends.call
  rw [Kern.saved_envs_self_tf] at hcall hret
  obtain ⟨hsys, hno⟩ := sysNo_eq hcall
  have hrun : (((s.saved c' tr).delivered c' e
      (sentPerm (s.saved c' tr) c' e) v).envs c').envStatus = .runnable := by
    rw [Kern.delivered, Kern.setEnv_proj Env.envStatus rfl]
    by_cases hce : c' = e
    · rw [hce, Kern.setEnv_envs_self]
      rfl
    · rw [Kern.setEnv_envs_ne hce]
      exact (hr.saved tr).runnable
  obtain ⟨c'', hut⟩ := hstep.1
  obtain rfl : c' = c'' := Option.some.inj (hr.cur.symm.trans hut.cur)
  have hsend := step_syscall hr hut hstep.user hsys
    (t := (s.saved c' tr).delivered c' e (sentPerm (s.saved c' tr) c' e) v)
    (r := 0) (by rw [syscall, hno]; exact hret) (hr.saved tr).cur hrun
  cases hstep.2.symm.trans hsend.2
  refine ⟨hr.cur, ?_⟩
  rw [Kern.eax, Kern.sysRet, Kern.setEnv_envs_self]
  rfl

/-! ## A send that does not -/

theorem eax_of_call {tf : Trapframe} (h : tf.sysNo = some .ipcTrySend) :
    tf.tfRegs.regEax ≠ 0 := by
  intro h0
  have hno := (sysNo_eq h).2
  rw [h0] at hno
  cases hno

/-- A sender that has not delivered finds no 0, and it goes on at once or its
receiver was not ready. -/
theorem eax_of_not_sent (hr : Running s c) (hstep : Step s tr s')
    (hcall : tr.tf.sysNo = some .ipcTrySend)
    (hdst : (s.saved c tr).resolve c tr.tf.a1 false = .ok e)
    (hsend : ¬SendOk s tr c e) :
    s'.eax c ≠ 0 ∧ (s'.curenv = some c ∨ ¬(s.envs e).Ready) := by
  obtain ⟨hsys, hno⟩ := sysNo_eq hcall
  have htf : ((s.saved c tr).envs c).envTf = tr.tf := Kern.saved_envs_self_tf
  have htrap := hstep.2
  rw [trap_of_syscall hr hstep.user hsys, syscall, hno] at htrap
  refine Prog.wp.away (Q := fun _ _ => True) (E := fun _ _ => True)
    (A := fun t => t.eax c ≠ 0 ∧ (t.curenv = some c ∨ ¬(s.envs e).Ready))
    ?_ htrap
  rw [Prog.wp_bind]
  -- an error goes to the sender, which can go on
  have herr : ∀ (x : Word) (v : Vm), x ≠ 0 →
      Prog.wp (Prog.update (Kern.sysRet c x) >>= fun _ => resume : K Unit)
        (fun _ _ => True)
        (fun t => t.eax c ≠ 0 ∧ (t.curenv = some c ∨ ¬(s.envs e).Ready))
        (fun _ _ => True) ((s.saved c tr).withVm v) := by
    intro x v hx
    apply Prog.wp_update_bind
    unfold resume
    apply Prog.wp_ask_bind
    have hcur : (Kern.sysRet c x ((s.saved c tr).withVm v)).curenv =
        some c := hr.cur
    have hrun : ((Kern.sysRet c x ((s.saved c tr).withVm v)).envs c).envStatus
        = .runnable :=
      (Kern.setEnv_proj Env.envStatus rfl).trans (hr.saved tr).runnable
    rw [hcur]
    simp only [hrun, if_true]
    refine wp_envRun ⟨?_, .inl Kern.runOn_curenv⟩
    rw [runOn_eax, Kern.eax, Kern.sysRet, Kern.setEnv_envs_self]
    exact hx
  have hspec := wp_sysIpcTrySend (s := s.saved c tr) (c := c)
    (Q := fun x t => Prog.wp (Prog.update (Kern.sysRet c x) >>= fun _ =>
    resume : K Unit)
      (fun _ _ => True)
      (fun t => t.eax c ≠ 0 ∧ (t.curenv = some c ∨ ¬(s.envs e).Ready))
      (fun _ _ => True) t)
    (A := fun t => t.eax c ≠ 0 ∧ (t.curenv = some c ∨ ¬(s.envs e).Ready))
    (E := fun _ _ => True) (hr.saved tr).cur
  rw [htf] at hspec
  refine hspec (fun x hx => herr x _ hx) (fun _ => trivial) ?_ ?_ ?_
    fun _ _ _ => trivial
  · intro e' he' hbusy _
    obtain rfl := Except.ok.inj (he'.symm.trans hdst)
    refine wp_schedYield (fun d _ _ => ⟨?_, .inr fun hready => ?_⟩) trivial
    · rw [runOn_eax, Kern.eax, Kern.setEnv_envs_self]
      change ((s.saved c tr).envs c).envTf.tfRegs.regEax ≠ 0
      rw [htf]
      exact eax_of_call hcall
    · have hready := (ready_of_ipc (@saved_ipc _ tr c _)).mpr hready
      rcases hbusy with hbusy | hbusy
      · cases hbusy.symm.trans hready.1
      · exact hbusy hready.2
  · intro e' x v _ _ _ _ _ hv
    refine herr x v ?_
    rcases pageMapAt_error hv with rfl | rfl <;> decide
  · intro e' perm v he' hready hv
    obtain rfl := Except.ok.inj (he'.symm.trans hdst)
    have hret := sysIpcTrySend_of_transfers (hr.saved tr).cur
      (by rw [htf]; exact hdst) hready hv
    exact absurd ⟨hr.cur, by rwa [htf], by rwa [htf], _, hret⟩ hsend

/-- What is known of a sender that has not delivered: its result is not 0, and
nobody can send to it before it runs again. -/
structure Undelivered (c : Nat) (u : Traced) : Prop where
  sys : SysInv u.kern
  call : u.InSend c
  eax : u.kern.eax c ≠ 0
  recving : (u.kern.envs c).envIpcRecving = false ∨ u.kern.curenv = some c

/-- While it waits, it stays so. -/
theorem Undelivered.step (h : Undelivered c m) (hc : m.kern.Named c id)
    (hcur : m.kern.curenv ≠ some c) (hmis : ¬MisleadsSender m tr)
    (hstep : m.Step tr m') : Undelivered c m' := by
  obtain ⟨d, s₁, x, hr, hh, hs'⟩ := hstep.cases h.sys
  have hcd : c ≠ d := fun hcd => hcur (hcd ▸ hr.cur)
  have hrec := h.recving.resolve_right hcur
  obtain ⟨tf, htf, hno⟩ := h.call
  have heax : m'.kern.eax c = s₁.eax c := hs' ▸ runOn_eax
  have hold : (m.kern.saved d tr).eax c = m.kern.eax c := saved_eax hcd
  refine ⟨h.sys.step hstep.kern, ⟨tf, ?_, hno⟩, ?_, .inl ?_⟩
  · rw [hstep.last_other hr.cur hcd hc.live]
    exact htf
  · rw [heax]
    rcases hh.frameChange (hr.saved tr) (h.sys.env.saved tr) hcd with
      hsame | hset | ⟨-, hrel⟩ | hsend | hfree
    · rw [Kern.eax, hsame]
      exact fun h0 => h.eax (hold.symm.trans h0)
    · exact absurd (.frame hr.cur hset hcd ⟨tf, htf, hno⟩) hmis
    · rw [Kern.eax, hrel]
      show -E_IPC_NOT_RECV ≠ 0
      decide
    · have hready := (ready_of_ipc saved_ipc).mp (hsend.ret (hr.saved tr).cur).1
      cases hrec.symm.trans hready.1
    · exact absurd (saved_status.symm.trans hfree) hc.live
  · exact recving_stays h.sys hr hc.isLive hrec
      (fun hcd' => absurd hcd' hcd) hstep.kern

/-- So it starts, unless it is receiving itself. -/
theorem SendCall.undelivered (h : SysInv m.kern) (hcall : SendCall m tr c e m')
    (hmis : ¬MisleadsSender m tr) (hsend : ¬SendOk m.kern tr c e) :
    Undelivered c m' := by
  obtain ⟨d, hr⟩ := h.running
  obtain rfl : d = c := Option.some.inj (hr.cur.symm.trans hcall.cur)
  obtain ⟨heax, hrest⟩ :=
    eax_of_not_sent hr hcall.step.kern hcall.call hcall.dst hsend
  refine ⟨h.step hcall.step.kern,
    ⟨tr.tf, hcall.step.last_cur hr.cur, hcall.call⟩,
    heax, ?_⟩
  rcases hrest with hgo | hbusy
  · exact .inr hgo
  refine .inl (recving_stays h hr hr.live ?_
    (fun _ hno => ?_) hcall.step.kern)
  · rcases hrec : (m.kern.envs d).envIpcRecving with _ | _
    · rfl
    · exact absurd (.receiving hr.cur hrec hcall.call hcall.dst hbusy) hmis
  · cases hcall.call.symm.trans hno

/-- A send that returns 0 has delivered. -/
theorem SendCall.sent (h : SysInv m.kern)
    (hP : ∀ u l, P u l → ¬MisleadsSender u l)
    (hm : P m tr) (hcall : SendCall m tr c e m')
    (hret : Returns P c id 0 m' n) :
    SendOk m.kern tr c e := by
  by_contra hsend
  have hn := hret.run.invariant (I := Undelivered c)
    (fun u l w hu hl hw => hu.step hl.2.1 hl.2.2 (hP u l hl.1) hw)
    (hcall.undelivered h (hP m tr hm) hsend)
  exact hn.eax hret.eax

/-- One that returns something else, or does not return at once, has not. -/
theorem SendCall.not_sent (h : SysInv m.kern) (hcall : SendCall m tr c e m')
    (hret : (∃ n r, Returns P c id r m' n ∧ r ≠ 0) ∨ m'.kern.curenv ≠ some c) :
    ¬SendOk m.kern tr c e := by
  intro hsend
  obtain ⟨hcur, heax⟩ := hsend.runs h hcall.step.kern
  rcases hret with ⟨n, r, hret, hr⟩ | haway
  · have hn : n = m' := hret.run.invariant (I := fun u => u = m')
      (fun u l w hu hl _ => absurd (hu ▸ hcur) hl.2.2) rfl
    exact hr (hret.eax.symm.trans (hn ▸ heax))
  · exact haway hcur

/-! ## The delivery law -/

/-- After a delivery, and up to the next `sys_ipc_recv` of the receiver, no
environment with its id is ready. -/
theorem notReady_run (h : SysInv s) (hn : NotReady s id) (hs : m.kern = s)
    (hP : ∀ u l, P u l → ¬RecvBy u.kern l id) (hrun : Runs Traced.Step P m n) :
    SysInv n.kern ∧ NotReady n.kern id :=
  hrun.invariant (I := fun u => SysInv u.kern ∧ NotReady u.kern id)
    (fun u l _ hu hl hw =>
    ⟨hu.1.step hw.kern, hu.2.step hu.1 hw.kern (hP u l hl)⟩)
    ⟨hs ▸ h, hs ▸ hn⟩

/-- Each message is delivered once and intact, as long as nothing misleads a
sender. -/
theorem ipc_delivery (h : Booted s) :
    DeliversOnce (fun u l => ¬MisleadsSender u l) s := by
  intro m m' tr c e id hrun hmis hcall he
  have hinv : SysInv m.kern := hrun.invariant (I := fun u => SysInv u.kern)
    (fun _ _ _ hu _ hw => hu.step hw.kern) h.sys
  refine ⟨fun n hret => ?_, fun hret hec => ?_⟩
  · obtain ⟨hready, hipc⟩ :=
      (hcall.sent hinv (fun _ _ hP => hP) hmis hret).step hinv hcall.step.kern
    have hn : NotReady m'.kern id := by
      intro d hd
      obtain rfl : d = e := hd.idx.trans he.idx.symm
      rw [ready_of_ipc hipc]
      exact fun hready => Bool.noConfusion hready.1
    refine ⟨fun t t' tr' c' e' n' ht hmis' hcall' he' hret' => ?_,
      fun t ht hnamed => ?_⟩
    · obtain ⟨hinv', hn'⟩ := notReady_run (hinv.step hcall.step.kern) hn rfl
        (fun _ _ hP => hP.2) ht
      have hsend := hcall'.sent hinv' (fun _ _ hP => hP) hmis' hret'
      exact hn' e' he' (hsend.step hinv' hcall'.step.kern).1
    · have hkeep : (t.kern.envs e).message = (m'.kern.envs e).message := by
        clear hnamed
        induction ht with
        | refl => rfl
        | tail hprev hlast ih =>
            obtain ⟨l, hP, hw⟩ := hlast
            obtain ⟨hinv', hn'⟩ :=
              notReady_run (hinv.step hcall.step.kern) hn rfl
              (fun _ _ hP => hP.2) hprev
            exact (message_step hinv' hP.1 (hn' e hP.1) hw.kern hP.2).trans ih
      rw [hkeep, message_of_ipc hipc]
      rfl
  · have hsend := hcall.not_sent hinv hret
    obtain ⟨d, s₁, x, hr, hh, hs'⟩ := hcall.step.cases hinv
    obtain rfl : d = c := Option.some.inj (hr.cur.symm.trans hcall.cur)
    rw [hs']
    refine (Kern.runOn_proj Env.receiver fun _ _ => rfl).trans ?_
    refine (hh.receiver (hr.saved tr)
      (by rw [Kern.saved_envs_self_tf]; exact hcall.call)
      (by rw [Kern.saved_envs_self_tf]; exact hcall.dst)
      (fun hs => hsend ⟨hr.cur, hs⟩) hec).trans ?_
    rw [Kern.saved_envs_ne hec]

end

/-! ## The small kernel -/

/-- A call of `sys_ipc_try_send` without a page. -/
def trySendAct (id value : Word) : Act := .call 12 id value UTOP 0 0

/-- A call of `sys_ipc_recv` for no page. -/
def blockAct : Act := .call 13 UTOP 0 0 0 0

section

variable {s t : Kern} {m m' : Traced} {tr : Trap} {c d e : Nat}
  {id value : Word}

theorem frame_quiet (hno : tr.tf.sysNo ≠ some .ipcTrySend)
    (hset : tr.tf.sysNo ≠ some .envSetTrapframe) : ¬MisleadsSender m tr := by
  rintro (⟨-, -, hno', -, -⟩ | ⟨-, hset', -, -⟩)
  · exact hno hno'
  · have hcall := hset'.call
    rw [Kern.saved_envs_self_tf] at hcall
    exact hset hcall

theorem timer_quiet : ¬MisleadsSender m (Act.timer.trap m.kern c) :=
  frame_quiet (fun h => by cases h) (fun h => by cases h)

theorem blockAct_quiet : ¬MisleadsSender m (blockAct.trap m.kern c) :=
  frame_quiet (fun h => by cases h) (fun h => by cases h)

theorem trySendAct_quiet (hc : m.kern.curenv = some c)
    (hrec : (m.kern.envs c).envIpcRecving = false) :
    ¬MisleadsSender m ((trySendAct id value).trap m.kern c) := by
  rintro (⟨hc', hrec', -, -, -⟩ | ⟨hc', hset, -, -⟩)
  · obtain rfl := Option.some.inj (hc.symm.trans hc')
    cases hrec.symm.trans hrec'
  · have hcall := hset.call
    rw [Kern.saved_envs_self_tf] at hcall
    cases hcall

theorem trySendAct_call (hc : m.kern.curenv = some c)
    (hdst : m.kern.resolve c id false = .ok e)
    (hstep : m.Step ((trySendAct id value).trap m.kern c) m') :
    SendCall m ((trySendAct id value).trap m.kern c) c e m' :=
  ⟨hc, rfl, saved_resolve.trans hdst, hstep⟩

theorem not_recvBy (hno : tr.tf.sysNo ≠ some .ipcRecv) : ¬RecvBy s tr id :=
  fun ⟨_, _, _, h⟩ => hno h

theorem named_of_live (hid : c = envx id)
    (hst : (s.envs c).envStatus = .runnable
    ∨ (s.envs c).envStatus = .notRunnable) (h : (s.envs c).envId = id) :
    s.Named c id := by
  refine ⟨hid, ?_, h⟩
  rcases hst with hst | hst <;> rw [hst] <;> exact fun h => by cases h

end

/-- Slot 3 of the small kernel waits, and slot 2 sends 7 to it. -/
theorem ipc_delivery_small : ∃ m, Runs Traced.Step
      (fun u l => ¬MisleadsSender u l) (.start (smallKern 0)) m
    ∧ m.kern.eax 2 = 0 ∧ (m.kern.envs 3).message = (7, 0x1002, 0) := by
  have hacts : ((smallKern 0).act .timer).bind (fun u1 => (u1.act blockAct).bind
      fun u2 => (u2.act .timer).bind fun u3 =>
        (u3.act (trySendAct 0x1003 7)).map
        fun u4 => decide ((u1.curenv = some 3 ∧ u2.curenv = some 1
            ∧ u3.curenv = some 2 ∧ u4.curenv = some 2)
          ∧ (u3.envs 2).envIpcRecving = false
          ∧ u3.resolve 2 0x1003 false = .ok 3
          ∧ ((u3.envs 3).envStatus = .notRunnable ∧ (u3.envs 3).envId = 0x1003)
          ∧ (u3.envs 2).envId = 0x1002
          ∧ ((u4.envs 2).envStatus = .runnable ∧ (u4.envs 2).envId = 0x1002)
          ∧ ((u4.envs 3).envStatus = .runnable ∧ (u4.envs 3).envId = 0x1003)
          ∧ u4.eax 2 = 0)) = some true := by
    decide +kernel
  obtain ⟨u1, hu1, hacts⟩ := Option.bind_eq_some_iff.mp hacts
  obtain ⟨u2, hu2, hacts⟩ := Option.bind_eq_some_iff.mp hacts
  obtain ⟨u3, hu3, hacts⟩ := Option.bind_eq_some_iff.mp hacts
  obtain ⟨u4, hu4, hacts⟩ := Option.map_eq_some_iff.mp hacts
  obtain ⟨⟨hc1, hc2, hc3, hc4⟩, hrec, hres, ⟨hst3, hid3⟩, hid2, ⟨hst4, hid4⟩,
    ⟨hst, hid⟩, heax⟩ := of_decide_eq_true hacts
  obtain ⟨m1, hm1, rfl⟩ :=
    Traced.exists_step (m := .start (smallKern 0)) (Kern.act_step rfl hu1)
  obtain ⟨m2, hm2, rfl⟩ := Traced.exists_step (Kern.act_step hc1 hu2)
  obtain ⟨m3, hm3, rfl⟩ := Traced.exists_step (Kern.act_step hc2 hu3)
  obtain ⟨m4, hm4, rfl⟩ := Traced.exists_step (Kern.act_step hc3 hu4)
  have hrun : Runs Traced.Step (fun u l => ¬MisleadsSender u l)
      (.start (smallKern 0)) m3 :=
    ((Runs.single timer_quiet hm1).tail blockAct_quiet hm2).tail timer_quiet hm3
  have hquiet := @trySendAct_quiet _ _ 0x1003 7 hc3 hrec
  have hnamed := named_of_live (by decide) (.inl hst) hid
  have hsend :=
    (ipc_delivery (smallKern_booted 0) m3 m4 _ 2 3 0x1003 hrun hquiet
    (trySendAct_call hc3 hres hm4)
    (named_of_live (by decide) (.inr hst3) hid3)).1
    m4 ⟨Runs.refl _, hid2 ▸ named_of_live (by decide) (.inl hst4) hid4,
    hc4, heax⟩
  have hmsg := hsend.2 m4 (Runs.refl _) hnamed
  exact ⟨m4, hrun.tail hquiet hm4, heax, hmsg.trans (by rw [hid2]; rfl)⟩

/-- Slot 3 waits and slot 1 waits; slot 2 sends to slot 1, which is not to run
yet, and wakes slot 3; slot 3 sends to slot 1 and is queued; slot 1 is queued at
slot 2, and slot 2 sends to slot 3, as if that were still waiting. Slot 3 goes
on with the result 0, and slot 1 has not received anything. -/
theorem ipc_delivery_misled :
    ¬∀ s, Booted s → DeliversOnce (fun _ _ => True) s := by
  intro h
  have hacts : ((smallKern 0).acts [.timer, blockAct, blockAct]).bind
      (fun u3 => (u3.act (trySendAct 0x1001 7)).bind
        fun u4 => (u4.act (.call 8 0x1003 ENV_RUNNABLE 0 0 0)).bind
        fun u5 => (u5.act .timer).bind
        fun u6 => (u6.act (trySendAct 0x1001 8)).bind
        fun u7 => (u7.act (trySendAct 0x1002 8)).bind
        fun u8 => (u8.act (trySendAct 0x1003 9)).bind
        fun u9 => (u9.act .timer).map
        fun u10 => decide ((u3.curenv = some 2 ∧ u4.curenv = some 2
            ∧ u5.curenv = some 2 ∧ u6.curenv = some 3 ∧ u7.curenv = some 1
            ∧ u8.curenv = some 2 ∧ u9.curenv = some 2 ∧ u10.curenv = some 3)
          ∧ u3.resolve 2 0x1001 false = .ok 1
          ∧ u6.resolve 3 0x1001 false = .ok 1
          ∧ ((u3.envs 1).envStatus = .notRunnable ∧ (u3.envs 1).envId = 0x1001)
          ∧ ((u4.envs 2).envStatus = .runnable ∧ (u4.envs 2).envId =
            (u3.envs 2).envId
            ∧ (u4.envs 2).envId = 0x1002)
          ∧ ((u6.envs 1).envStatus = .runnable ∧ (u6.envs 1).envId = 0x1001)
          ∧ (u6.envs 3).envId = 0x1003
          ∧ ((u7.envs 3).envStatus = .notRunnable ∧ (u7.envs 3).envId = 0x1003)
          ∧ ((u8.envs 3).envStatus = .notRunnable ∧ (u8.envs 3).envId = 0x1003)
          ∧ ((u9.envs 3).envStatus = .runnable ∧ (u9.envs 3).envId = 0x1003)
          ∧ ((u10.envs 3).envStatus = .runnable ∧ (u10.envs 3).envId = 0x1003)
          ∧ u4.eax 2 = 0 ∧ u10.eax 3 = 0)) = some true := by
    decide +kernel
  obtain ⟨u3, hu3, hacts⟩ := Option.bind_eq_some_iff.mp hacts
  obtain ⟨u4, hu4, hacts⟩ := Option.bind_eq_some_iff.mp hacts
  obtain ⟨u5, hu5, hacts⟩ := Option.bind_eq_some_iff.mp hacts
  obtain ⟨u6, hu6, hacts⟩ := Option.bind_eq_some_iff.mp hacts
  obtain ⟨u7, hu7, hacts⟩ := Option.bind_eq_some_iff.mp hacts
  obtain ⟨u8, hu8, hacts⟩ := Option.bind_eq_some_iff.mp hacts
  obtain ⟨u9, hu9, hacts⟩ := Option.bind_eq_some_iff.mp hacts
  obtain ⟨u10, hu10, hacts⟩ := Option.map_eq_some_iff.mp hacts
  obtain ⟨⟨hc3, hc4, hc5, hc6, hc7, hc8, hc9, hc10⟩, hres3, hres6, ⟨hst3, hid3⟩,
    ⟨hst4, hid4, hid42⟩, ⟨hst6, hid6⟩, hid63, ⟨hst7, hid7⟩, ⟨hst8, hid8⟩,
    ⟨hst9, hid9⟩, ⟨hst10, hid10⟩, heax4, heax10⟩ := of_decide_eq_true hacts
  obtain ⟨m3, hrun, rfl⟩ :=
    Traced.exists_run (m := .start (smallKern 0)) (Kern.acts_runs hu3)
  obtain ⟨m4, hm4, rfl⟩ := Traced.exists_step (Kern.act_step hc3 hu4)
  obtain ⟨m5, hm5, rfl⟩ := Traced.exists_step (Kern.act_step hc4 hu5)
  obtain ⟨m6, hm6, rfl⟩ := Traced.exists_step (Kern.act_step hc5 hu6)
  obtain ⟨m7, hm7, rfl⟩ := Traced.exists_step (Kern.act_step hc6 hu7)
  obtain ⟨m8, hm8, rfl⟩ := Traced.exists_step (Kern.act_step hc7 hu8)
  obtain ⟨m9, hm9, rfl⟩ := Traced.exists_step (Kern.act_step hc8 hu9)
  obtain ⟨m10, hm10, rfl⟩ := Traced.exists_step (Kern.act_step hc9 hu10)
  -- slot 2 has sent; slot 1 calls no `sys_ipc_recv` before slot 3 sends
  have hfirst : Returns (fun _ _ => True) 2 (m3.kern.envs 2).envId 0 m4 m4 :=
    ⟨Runs.refl _, hid4 ▸ named_of_live (by rw [hid42]; rfl) (.inl hst4) rfl,
      hc4, heax4⟩
  have hbetween :
      Runs Traced.Step (fun u l => True ∧ ¬RecvBy u.kern l 0x1001) m4 m6 :=
    (Runs.single ⟨trivial, not_recvBy (fun h => by cases h)⟩ hm5).tail
      ⟨trivial, not_recvBy (fun h => by cases h)⟩ hm6
  have hnamed : ∀ {u : Kern}, (u.envs 3).envStatus = .runnable
      ∨ (u.envs 3).envStatus = .notRunnable → (u.envs 3).envId = 0x1003 →
      u.Named 3 0x1003 := named_of_live (by decide)
  have hne : ∀ {u : Kern} {d : Nat}, u.curenv = some d → d ≠ 3 →
      u.curenv ≠ some 3 :=
    fun hu hd hu' => hd (Option.some.inj (hu.symm.trans hu'))
  have hsecond :
      Returns (fun _ _ => True) 3 (m6.kern.envs 3).envId 0 m7 m10 := by
    rw [hid63]
    exact ⟨((Runs.single ⟨trivial, hnamed (.inr hst7) hid7, hne hc7 (by decide)⟩
      hm8).tail ⟨trivial, hnamed (.inr hst8) hid8,
      hne hc8 (by decide)⟩ hm9).tail
      ⟨trivial, hnamed (.inl hst9) hid9, hne hc9 (by decide)⟩ hm10,
      hnamed (.inl hst10) hid10, hc10, heax10⟩
  exact ((h _ (smallKern_booted 0) m3 m4 _ 2 1 0x1001 hrun trivial
    (trySendAct_call hc3 hres3 hm4)
    (named_of_live (by decide) (.inr hst3) hid3)).1
    m4 hfirst).1 m6 m7 _ 3 1 m10 hbetween trivial
    (trySendAct_call hc6 hres6 hm7)
    (named_of_live (by decide) (.inl hst6) hid6) hsecond

end Jos
