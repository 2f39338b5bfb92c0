import Jos.Ipc.Blocked
import Jos.Ipc.Waiting

/-!
# Senders in user space

`ipc_send` of lib/ipc.c on top of the machine: for each environment, where it is
in an `ipc_send`. The first `sys_ipc_try_send` may end with `-E_IPC_NOT_RECV`,
after the sender was queued and the receiver called `sys_ipc_recv`; the second
must not. It does not if the receiver still waits when the second call is made.
-/

namespace Jos

/-! ## `ipc_send` -/

/-- The arguments of `ipc_send`. -/
structure SendArgs where
  toEnv : Word
  val : Word
  pg : Word
  perm : Word
deriving DecidableEq

/-- The address passed on: without a page, one that the kernel takes to mean
none. -/
def SendArgs.va (a : SendArgs) : Word := if a.pg ≠ 0 then a.pg else UTOP

/-- Where an environment is in `ipc_send`. -/
inductive IpcSend where
  | outside
  /-- Inside the first `sys_ipc_try_send`. -/
  | first (a : SendArgs)
  /-- After the first call, which returned `-E_IPC_NOT_RECV`. -/
  | between (a : SendArgs)
  /-- Inside the second `sys_ipc_try_send`. -/
  | second (a : SendArgs)
  | panicked
deriving DecidableEq

/-- `ipc_send` goes on with the result `r` of its system call, up to its next
one. -/
def IpcSend.returned (r : Word) : IpcSend → IpcSend
  | .first a =>
      if r ≠ 0 then
        if r ≠ -E_IPC_NOT_RECV then .panicked else .between a
      else
        .outside
  | .second _ => if r.slt 0 then .panicked else .outside
  | p => p

/-- The trap is the system call of `ipc_send` with arguments `a`. -/
structure SendTrap (tf : Trapframe) (a : SendArgs) : Prop where
  call : tf.sysNo = some .ipcTrySend
  toEnv : tf.a1 = a.toEnv
  val : tf.a2 = a.val
  va : tf.a3 = a.va
  perm : tf.a4 = a.perm

/-- The next trap of an environment. Between its calls `ipc_send` can be
interrupted. -/
inductive IpcSend.Traps (tf : Trapframe) : IpcSend → IpcSend → Prop where
  | start {a : SendArgs} (h : SendTrap tf a) : Traps tf .outside (.first a)
  | again {a : SendArgs} (h : SendTrap tf a) : Traps tf (.between a) (.second a)
  | other {p : IpcSend} (h : tf.sysNo ≠ some .ipcTrySend) : Traps tf p p

/-- The machine with its history, where each environment is in `ipc_send`, and
whether its last `sys_ipc_try_send` delivered. -/
structure Sending extends Traced where
  pc : Nat → IpcSend
  sent : Nat → Prop

/-- In a step the running environment reads its result, goes on, and traps. -/
structure Sending.Step (m : Sending) (tr : Trap) (m' : Sending) : Prop where
  traced : m.toTraced.Step tr m'.toTraced
  pc_cur : ∀ c, m.kern.curenv = some c →
    IpcSend.Traps tr.tf ((m.pc c).returned (m.kern.eax c)) (m'.pc c)
  pc_other : ∀ d, m.kern.curenv ≠ some d →
    m'.pc d = if (m.kern.envs d).envStatus = .free then .outside else m.pc d
  sent_cur : ∀ c, m.kern.curenv = some c →
    (m'.sent c ↔ ∃ e, SendOk m.kern tr c e)
  sent_other : ∀ d, m.kern.curenv ≠ some d → (m'.sent d ↔ m.sent d)

/-- Nobody is in `ipc_send`. -/
def Sending.start (s : Kern) : Sending :=
  ⟨.start s, fun _ => .outside, fun _ => False⟩

section

variable {s s₁ s' : Kern} {m m' : Sending} {tr : Trap} {c d e : Nat}

/-! ## The two outcomes of a call -/

/-- A released sender finds `-E_IPC_NOT_RECV` in `eax`. -/
theorem Handled.wakes (hh : Handled c s s₁) (hrel : Releases s c e)
    (hec : e ≠ c) :
    (s₁.envs e).envTf = (s.envs e).envTf.setEax (-E_IPC_NOT_RECV) := by
  have hother : ∀ {no : SysNo}, (s.envs c).envTf.sysNo = some no →
      no ≠ .ipcRecv →
      (s₁.envs e).envTf = (s.envs e).envTf.setEax (-E_IPC_NOT_RECV) :=
    fun hno hne => absurd hrel (not_releases hno hne e)
  cases hh with
  | idle hno => exact absurd hrel.call hno
  | push hno hv => exact absurd (hno.symm.trans hrel.call) nofun
  | exit hwhy hv => exact absurd hrel.call hwhy.not_recv
  | destroy hno hres hne hv => exact hother hno nofun
  | ret hno hv => exact absurd hrel.call hno
  | field hno hctl hf => exact absurd hrel.call hno
  | status hno hres hst => exact hother hno nofun
  | uxstack hno hres hva hperm hv => exact hother hno nofun
  | trapframe hno hres hbytes => exact hother hno nofun
  | exofork hno hfirst hv => exact hother hno nofun
  | restore hno hres hst hne hv => exact hother hno nofun
  | queue hno hres hbusy hroom => exact hother hno nofun
  | sendErr hno hres hready hdst hsrc hperm hv => exact hother hno nofun
  | sent hno hres hready hv => exact hother hno nofun
  | recvErr hno hnone => exact absurd hrel (hnone e)
  | recvWait hno hnone => exact absurd hrel (hnone e)
  | @recvWake e' hrel' =>
      obtain rfl : e = e' := Except.ok.inj (hrel.source.symm.trans hrel'.source)
      rw [Kern.dequeueSender_envs, Kern.setEnv_envs_self,
        Kern.setEnv_envs_ne hec]
      rfl

/-- A send to a receiver that waits is delivered. -/
theorem sendOk_of_ready (hr : Running s c)
    (hno : tr.tf.sysNo = some .ipcTrySend)
    (he : (s.saved c tr).resolve c tr.tf.a1 false = .ok e)
    (hready : (s.envs e).Ready)
    {perm : Word} {v : Vm} (hv : Transfers (s.saved c tr) c e perm v) :
    SendOk s tr c e := by
  have htf : ((s.saved c tr).envs c).envTf = tr.tf := Kern.saved_envs_self_tf
  exact ⟨hr.cur, by rwa [htf], by rwa [htf], _,
    sysIpcTrySend_of_transfers (hr.saved tr).cur
    (by rwa [htf]) ((ready_of_ipc saved_ipc).mpr hready) hv⟩

/-- Otherwise the sender is queued. -/
theorem queued_of_not_ready (hr : Running s c) (hstep : Step s tr s')
    (hno : tr.tf.sysNo = some .ipcTrySend)
    (he : (s.saved c tr).resolve c tr.tf.a1 false = .ok e)
    (hready : ¬(s.envs e).Ready) :
    s'.waiting = s.waiting ++ [((s.envs c).envId, tr.tf.a1)] := by
  obtain ⟨hsys, hno⟩ := sysNo_eq hno
  have hid : ((s.saved c tr).envs c).envId = (s.envs c).envId :=
    Kern.saved_proj Env.envId fun _ => rfl
  have hbusy : ((s.saved c tr).envs e).envIpcRecving = false
      ∨ ((s.saved c tr).envs e).envIpcFrom ≠ 0 := by
    have hready : ¬((s.saved c tr).envs e).Ready :=
      fun h => hready ((ready_of_ipc saved_ipc).mp h)
    cases h : ((s.saved c tr).envs e).envIpcRecving with
    | false => exact .inl rfl
    | true => exact .inr fun h0 => hready ⟨h, h0⟩
  have htrap := hstep.2
  rw [trap_of_syscall hr hstep.user hsys, syscall, hno] at htrap
  refine Prog.wp.away (Q := fun _ _ => True) (E := fun _ _ => True)
    (A := fun t => t.waiting = s.waiting ++ [((s.envs c).envId, tr.tf.a1)])
    ?_ htrap
  rw [Prog.wp_bind]
  refine wp_withEnv (hr.saved tr).cur (fun r hr0 => ?_) fun src hsrc => ?_
  · rw [resolve_zero] at hr0
    cases hr0
  rw [resolve_zero] at hsrc
  obtain rfl := Except.ok.inj hsrc
  refine wp_withEnv (hr.saved tr).cur (fun r hr1 => by cases he.symm.trans hr1)
    fun d hd => ?_
  obtain rfl := Except.ok.inj (he.symm.trans hd)
  simp only [Prog.wp_bind, Prog.wp_ask]
  refine Prog.wp_ite _ (fun _ => ?_) fun h => absurd hbusy h
  unfold queueSender
  simp only [Prog.wp_bind, Prog.wp_ask]
  refine Prog.wp_ite _ (fun _ => Prog.wp_halt_intro trivial) fun _ => ?_
  simp only [Prog.wp_bind, Prog.wp_update]
  refine wp_schedYield (fun e' _ _ => ?_) trivial
  rw [waiting_runOn]
  refine (waiting_enqueue (s := s.saved c tr) tr.tf.a1).trans ?_
  rw [hid]
  rfl

/-- A successful send returns 0, and it does not touch the queue. -/
theorem SendOk.result (h : SysInv s) (hsend : SendOk s tr c e)
    (hstep : Step s tr s') :
    s'.eax c = 0 ∧ s'.waiting = s.waiting := by
  obtain ⟨-, v, e', rfl⟩ := hsend.after h hstep
  refine ⟨runOn_eax.trans ?_, waiting_runOn⟩
  rw [Kern.eax, Kern.sysRet, Kern.setEnv_envs_self]
  rfl

/-! ## The environments around a sender -/

/-- A `sys_ipc_try_send` names a live environment, and if that one waits for a
message then the arguments are valid: there is no page to send, or it is mapped,
with a permitted `perm` and enough memory to map it. -/
def ValidSend (s : Kern) (tr : Trap) : Prop :=
  ∀ c, s.curenv = some c → tr.tf.sysNo = some .ipcTrySend →
    ∃ e, (s.saved c tr).resolve c tr.tf.a1 false = .ok e
      ∧ ((s.envs e).Ready → ∃ perm v, Transfers (s.saved c tr) c e perm v)

/-- The second call of an `ipc_send` finds its receiver waiting. -/
def RetryReady (m : Sending) (tr : Trap) : Prop :=
  ∀ c e a, m.kern.curenv = some c → (m.pc c).returned (m.kern.eax c) =
    .between a →
    SendTrap tr.tf a → (m.kern.saved c tr).resolve c tr.tf.a1 false = .ok e →
    (m.kern.envs e).Ready

/-- The last `sys_ipc_try_send` of `e` delivered, and the result is there. -/
structure Sending.Answered (m : Sending) (e : Nat) : Prop where
  zero : m.kern.eax e = 0
  sent : m.sent e

/-- `e` is queued as a sender. -/
def Sending.Source (m : Sending) (e : Nat) : Prop :=
  ∃ p ∈ m.kern.waiting, p.1 = (m.kern.envs e).envId

/-- The running environment leaves the senders and their receivers alone: it
wakes nobody who is queued or receives, destroys nobody who is queued or for
whom somebody is queued, and sets the trap frame of nobody else who is inside
`ipc_send`. -/
structure Peaceful (m : Sending) (tr : Trap) : Prop where
  wakes : ∀ c e, m.kern.curenv = some c → Rouses (m.kern.saved c tr) c e →
    ¬m.Source e ∧ (m.kern.envs e).envIpcRecving = false
  destroys : ∀ c e p, m.kern.curenv = some c →
    Destroys (m.kern.saved c tr) c e →
    p ∈ m.kern.waiting → (m.kern.envs e).envId ≠ p.1
      ∧ (m.kern.envs e).envId ≠ p.2
  frames : ∀ c e, m.kern.curenv = some c → SetsFrame (m.kern.saved c tr) c e →
    e ≠ c → m.pc e = .outside

/-- What is known about an environment in each place of `ipc_send`. -/
def Sending.Fits (m : Sending) (e : Nat) : IpcSend → Prop
  | .outside => True
  | .first _ => (m.kern.envs e).envIpcRecving = false
      ∧ (m.Answered e ∨ m.kern.eax e = -E_IPC_NOT_RECV ∨ m.Source e)
  | .between _ => True
  | .second _ => (m.kern.envs e).envIpcRecving = false ∧ m.Answered e
      ∧ ¬m.Source e
  | .panicked => False

structure SendingInv (m : Sending) : Prop where
  blocked : BlockedInv m.toTraced
  waiting : WaitingInv m.toTraced
  fits : ∀ e, m.kern.Live e → m.Fits e (m.pc e)

/-- A queued sender does not receive. -/
theorem SendingInv.queued_not_recving (h : SendingInv m) {p : Word × Word}
    (hq : m.Queued p e d) : (m.kern.envs e).envIpcRecving = false := by
  cases hrec : (m.kern.envs e).envIpcRecving with
  | false => rfl
  | true =>
      obtain ⟨tf, htf, hno⟩ :=
        (h.blocked.blocked e hq.source.isLive hrec).received
      obtain ⟨tf', htf', hno', -⟩ := hq.call
      obtain rfl := Option.some.inj (htf.symm.trans htf')
      exact absurd (hno.symm.trans hno') nofun

theorem WaitingInv.released {m : Traced} (h : WaitingInv m)
    (hrel : Releases (m.kern.saved c tr) c e) :
    ∃ p d, p ∈ m.kern.waiting ∧ m.Queued p e d := by
  have hi : findWaiting (m.kern.saved c tr) ((m.kern.saved c tr).envs c).envId
      < m.kern.waiting.length := by
    rw [waiting_length]
    exact hrel.lt
  obtain ⟨e', d, hq⟩ := h.queued _ (List.getElem_mem hi)
  have hsrc := hq.source
  rw [waiting_getElem] at hsrc
  have hee' : e' = e := by
    rcases resolve_ok hrel.source with ⟨h0, -⟩ | ⟨-, he⟩
    · exact absurd (hsrc.id.trans h0) (h.sys.env.id_ne_zero hsrc.isLive)
    · exact hsrc.idx.trans he.idx.symm
  exact ⟨_, d, List.getElem_mem hi, hee' ▸ hq⟩

/-- A successful send is to an environment that receives. -/
theorem SendOk.recving (h : SysInv s) (hsend : SendOk s tr c e) :
    s.Live e ∧ (s.envs e).envIpcRecving = true := by
  obtain ⟨c', hr⟩ := h.running
  obtain rfl : c' = c := Option.some.inj (hr.cur.symm.trans hsend.cur)
  exact ⟨saved_live.mp (live_of_resolve hsend.sends.dst (hr.saved tr).live),
    ((ready_of_ipc saved_ipc).mp (hsend.sends.ret (hr.saved tr).cur).1).1⟩

/-- Peaceful steps wake no receiver: a sender that is released does not
receive. -/
theorem SendingInv.no_wake (h : SendingInv m) (hp : Peaceful m tr) :
    ¬WakesReceiver m.kern tr := by
  rintro ⟨c, e, hc, hrouse | hrel, hrec⟩
  · rcases hrec with hrec | ⟨-, hno⟩
    · cases hrec.symm.trans (hp.wakes c e hc hrouse).2
    · rw [← @Kern.saved_envs_self_tf m.kern c tr] at hno
      cases hrouse with
      | status hno' | uxstack hno' | restore hno' => cases hno.symm.trans hno'
  · obtain ⟨c', hr⟩ := h.waiting.sys.running
    obtain rfl : c' = c := Option.some.inj (hr.cur.symm.trans hc)
    obtain ⟨p, d, hpw, hq⟩ := h.waiting.released hrel
    rcases hrec with hrec | ⟨rfl, -⟩
    · exact absurd (hrec.symm.trans (h.queued_not_recving hq)) nofun
    · exact h.waiting.ne_cur hr hpw hq.source.id.symm

/-- Peaceful steps leave the queue in order: no message is for a queued
sender. -/
theorem SendingInv.quiet (h : SendingInv m) (hp : Peaceful m tr) :
    ¬DisturbsQueue m.kern tr := by
  rintro ⟨c, e, p, hc, hpw, ⟨hdes, hid⟩ | ⟨hrouse | hsend, hid⟩⟩
  · obtain ⟨hsrc, hdst⟩ := hp.destroys c e p hc hdes hpw
    rcases hid with hid | hid
    · exact hsrc hid
    · exact hdst hid
  · exact (hp.wakes c e hc hrouse).1 ⟨p, hpw, hid.symm⟩
  · obtain ⟨hlive, hrec⟩ := hsend.recving h.waiting.sys
    obtain ⟨e', d, hq⟩ := h.waiting.queued p hpw
    obtain rfl : e' = e := by
      rw [hq.source.idx, ← hid, h.waiting.sys.env.idx e hlive]
    exact absurd (hrec.symm.trans (h.queued_not_recving hq)) nofun

/-! ## The step -/

section Step

variable (h : SendingInv m) (hpeace : Peaceful m tr)
  (hvalid : ValidSend m.kern tr)
  (hretry : RetryReady m tr) (hstep : m.Step tr m')

/-- Where the running environment is when its call has returned: not in a
panic. -/
theorem SendingInv.returned (h : SendingInv m) (hr : Running m.kern c) :
    (m.pc c).returned (m.kern.eax c) = .outside
      ∨ ∃ a, (m.pc c).returned (m.kern.eax c) = .between a := by
  have hfits := h.fits c hr.live
  cases hpc : m.pc c with
  | outside => exact .inl rfl
  | first a =>
      rw [hpc] at hfits
      rcases hfits.2 with hans | hnot | ⟨p, hp, hid⟩
      · exact .inl (by rw [hans.zero]; rfl)
      · exact .inr ⟨a, by rw [hnot]; rfl⟩
      · exact absurd hid (h.waiting.ne_cur hr hp)
  | between a => exact .inr ⟨a, rfl⟩
  | second a =>
      rw [hpc] at hfits
      exact .inl (by rw [hfits.2.1.zero]; rfl)
  | panicked =>
      rw [hpc] at hfits
      exact hfits.elim

include h hstep

/-- A live environment that was there before has the id it had. -/
theorem SendingInv.step_id (hd : m.kern.Live d) (hd' : m'.kern.Live d) :
    (m'.kern.envs d).envId = (m.kern.envs d).envId := by
  obtain ⟨c, s₁, e, hr, hh, hs'⟩ := hstep.traced.cases h.waiting.sys
  have hnamed := (h.waiting.sys.step hstep.traced.kern).env.named hd'
  rw [hs', runOn_named] at hnamed
  rcases hh.named (hr.saved tr) (h.waiting.sys.env.saved tr) hnamed with
    hnamed | hborn
  · rw [hs']
    exact (saved_named.mp hnamed).id.symm
  · exact absurd (saved_status.symm.trans hborn.free) hd.2

include hvalid hretry

/-- The environment that trapped. -/
theorem SendingInv.step_cur (hr : Running m.kern c) (hlive : m'.kern.Live c) :
    m'.Fits c (m'.pc c) := by
  have hrec : tr.tf.sysNo = some .ipcTrySend →
      (m'.kern.envs c).envIpcRecving = false :=
    fun hno => recving_stays h.waiting.sys hr hr.live (h.blocked.not_recving hr)
      (fun _ hrecv => nomatch hno.symm.trans hrecv) hstep.traced.kern
  have hid : (m'.kern.envs c).envId = (m.kern.envs c).envId :=
    h.step_id hstep hr.live hlive
  -- a call to a receiver that waits is answered
  have hanswer : ∀ e, tr.tf.sysNo = some .ipcTrySend →
      (m.kern.saved c tr).resolve c tr.tf.a1 false = .ok e →
      (m.kern.envs e).Ready →
      (∃ perm v, Transfers (m.kern.saved c tr) c e perm v) → m'.Answered c
        ∧ ¬m'.Source c := by
    rintro e hno he hready ⟨perm, v, hv⟩
    have hsend := sendOk_of_ready hr hno he hready hv
    obtain ⟨hzero, hqueue⟩ := hsend.result h.waiting.sys hstep.traced.kern
    refine ⟨⟨hzero, (hstep.sent_cur c hr.cur).mpr ⟨e, hsend⟩⟩, ?_⟩
    rw [Sending.Source, hqueue, hid]
    exact fun ⟨p, hp, hpid⟩ => h.waiting.ne_cur hr hp hpid
  have htraps := hstep.pc_cur c hr.cur
  generalize m'.pc c = q at htraps ⊢
  rcases h.returned hr with hpc | ⟨a, hpc⟩
  · rw [hpc] at htraps
    cases htraps with
    | other hno => trivial
    | start hcall =>
        obtain ⟨e, he, hv⟩ := hvalid c hr.cur hcall.call
        refine ⟨hrec hcall.call, ?_⟩
        by_cases hready : (m.kern.envs e).Ready
        · exact .inl (hanswer e hcall.call he hready (hv hready)).1
        · have hqueue :=
            queued_of_not_ready hr hstep.traced.kern hcall.call he hready
          refine .inr (.inr ⟨((m.kern.envs c).envId, tr.tf.a1), ?_, hid.symm⟩)
          rw [hqueue]
          exact List.mem_append_right _ (List.mem_singleton_self _)
  · have hwait := hretry c
    rw [hpc] at htraps
    cases htraps with
    | other hno => trivial
    | again hcall =>
        obtain ⟨e, he, hv⟩ := hvalid c hr.cur hcall.call
        have hready := hretry c e a hr.cur hpc hcall he
        exact ⟨hrec hcall.call, hanswer e hcall.call he hready (hv hready)⟩

omit hvalid hretry
include hpeace

/-- An environment that was there before and did not trap. -/
theorem SendingInv.step_other (hr : Running m.kern c) (hdc : d ≠ c)
    (hd : m.kern.Live d)
    (hlive : m'.kern.Live d) : m'.Fits d (m'.pc d) := by
  obtain ⟨c', s₁, e, hr', hh, hs'⟩ := hstep.traced.cases h.waiting.sys
  obtain rfl : c' = c := Option.some.inj (hr'.cur.symm.trans hr.cur)
  have hcur : m.kern.curenv ≠ some d :=
    fun hc => hdc (Option.some.inj (hr.cur.symm.trans hc)).symm
  have hpc : m'.pc d = m.pc d := by rw [hstep.pc_other d hcur, if_neg hd.2]
  have hid : (m'.kern.envs d).envId = (m.kern.envs d).envId :=
    h.step_id hstep hd hlive
  have hrec : (m.kern.envs d).envIpcRecving = false →
      (m'.kern.envs d).envIpcRecving = false :=
    fun hrec => recving_stays h.waiting.sys hr hd hrec (fun h => absurd h hdc)
      hstep.traced.kern
  have hqueue : m'.kern.waiting = s₁.waiting := hs' ▸ waiting_runOn
  have heax : m'.kern.eax d = s₁.eax d := hs' ▸ runOn_eax
  -- its result stays what it is, unless it is released
  have hframe : (m.kern.envs d).envIpcRecving = false → m.pc d ≠ .outside →
      m'.kern.eax d = m.kern.eax d
        ∨ (m.Source d ∧ m'.kern.eax d = -E_IPC_NOT_RECV) := by
    intro hrec₀ hin
    rcases hh.frameChange (hr.saved tr) (h.waiting.sys.env.saved tr) hdc with
      hsame | hset | ⟨hrel, htf⟩ | hsend | hfree
    · have hold : (m.kern.saved c' tr).eax d = m.kern.eax d := saved_eax hdc
      rw [heax, ← hold, Kern.eax, hsame, Kern.eax]
      exact .inl rfl
    · exact absurd (hpeace.frames c' d hr.cur hset hdc) hin
    · obtain ⟨p, x, hp, hq⟩ := h.waiting.released hrel
      refine .inr ⟨⟨p, hp, hq.source.id.symm⟩, heax.trans ?_⟩
      rw [Kern.eax, htf]
      rfl
    · have hsend : SendOk m.kern tr c' d := ⟨hr.cur, hsend⟩
      exact absurd ((hsend.recving h.waiting.sys).2.symm.trans hrec₀) nofun
    · exact absurd (saved_status.symm.trans hfree) hd.2
  have hsent : m.sent d → m'.sent d := (hstep.sent_other d hcur).mpr
  -- it is queued only by its own call, and taken off only when it is released
  have hsource : m'.Source d → m.Source d := by
    rintro ⟨p, hp, hpid⟩
    rw [hqueue] at hp
    rw [hid] at hpid
    rcases hh.waitingChange with ⟨-, hsame⟩ | ⟨-, -, -, happ⟩ | ⟨-, herase⟩
    · exact ⟨p, hsame ▸ hp, hpid⟩
    · rcases List.mem_append.mp (happ ▸ hp) with hp | hp
      · exact ⟨p, hp, hpid⟩
      · obtain rfl := List.mem_singleton.mp hp
        have hcid : ((m.kern.saved c' tr).envs c').envId =
            (m.kern.envs c').envId :=
          Kern.saved_proj Env.envId fun _ => rfl
        exact absurd (h.waiting.sys.env.id_inj hd hr.live
          (hpid.symm.trans hcid)) hdc
    · exact ⟨p, List.mem_of_mem_eraseIdx (herase ▸ hp), hpid⟩
  have hkept : m.Source d → m'.Source d ∨ m'.kern.eax d = -E_IPC_NOT_RECV := by
    rintro ⟨p, hp, hpid⟩
    have hin : p ∈ s₁.waiting → m'.Source d :=
      fun hp => ⟨p, hqueue ▸ hp, hid ▸ hpid⟩
    rcases hh.waitingChange with
      ⟨-, hsame⟩ | ⟨-, -, -, happ⟩ | @⟨e', hrel, herase⟩
    · exact .inl (hin (hsame ▸ hp))
    · exact .inl (hin (happ ▸ List.mem_append_left _ hp))
    · by_cases hmem : p ∈ s₁.waiting
      · exact .inl (hin hmem)
      · right
        -- the erased entry is its own
        obtain ⟨j, hj, rfl⟩ := List.getElem_of_mem hp
        have hji : j = findWaiting (m.kern.saved c' tr)
            ((m.kern.saved c' tr).envs c').envId := by
          by_contra hji
          exact hmem (herase ▸ List.mem_eraseIdx_iff_getElem.mpr
            ⟨j, hj, hji, rfl⟩)
        rw [waiting_getElem, hji] at hpid
        obtain rfl : e' = d := by
          rcases resolve_ok hrel.source with ⟨h0, -⟩ | ⟨-, he⟩
          · exact absurd (hpid.symm.trans h0) (h.waiting.sys.env.id_ne_zero hd)
          · rw [he.idx, ← h.waiting.sys.env.idx d hd, ← hpid]
            rfl
        rw [heax, Kern.eax, hh.wakes hrel hdc]
        rfl
  have hfits := h.fits d hd
  rw [hpc]
  cases hpcd : m.pc d with
  | outside => trivial
  | between a => trivial
  | panicked =>
      rw [hpcd] at hfits
      exact hfits.elim
  | first a =>
      rw [hpcd] at hfits
      obtain ⟨hrec₀, hcases⟩ := hfits
      refine ⟨hrec hrec₀, ?_⟩
      rcases hcases with hans | hnot | hs
      · rcases hframe hrec₀ (hpcd ▸ nofun) with hsame | ⟨-, hnot⟩
        · exact .inl ⟨hsame.trans hans.zero, hsent hans.sent⟩
        · exact .inr (.inl hnot)
      · rcases hframe hrec₀ (hpcd ▸ nofun) with hsame | ⟨-, hnot⟩
        · exact .inr (.inl (hsame.trans hnot))
        · exact .inr (.inl hnot)
      · exact .inr ((hkept hs).symm)
  | second a =>
      rw [hpcd] at hfits
      obtain ⟨hrec₀, hans₀, hsource₀⟩ := hfits
      have hsame := (hframe hrec₀ (hpcd ▸ nofun)).resolve_right fun h =>
        hsource₀ h.1
      exact ⟨hrec hrec₀, ⟨hsame.trans hans₀.zero, hsent hans₀.sent⟩, fun hs =>
        hsource₀ (hsource hs)⟩

include hvalid hretry

theorem SendingInv.step : SendingInv m' := by
  have hblocked := h.blocked.step (h.no_wake hpeace) hstep.traced
  refine ⟨hblocked, h.waiting.step (h.quiet hpeace) hstep.traced,
    fun d hlive => ?_⟩
  obtain ⟨c, s₁, e, hr, hh, hs'⟩ := hstep.traced.cases h.waiting.sys
  by_cases hdc : d = c
  · subst hdc
    exact h.step_cur hvalid hretry hstep hr hlive
  rcases hh.live (hr.saved tr) (h.waiting.sys.env.saved tr)
    (runOn_live.mp (hs' ▸ hlive)) with hd | hborn
  · exact h.step_other hpeace hstep hr hdc (saved_live.mp hd) hlive
  · have hcur : m.kern.curenv ≠ some d :=
      fun hc => hdc (Option.some.inj (hr.cur.symm.trans hc)).symm
    rw [hstep.pc_other d hcur, if_pos (saved_status.symm.trans hborn.free)]
    trivial

end Step

/-! ## The run -/

theorem Booted.sendingInv (h : Booted s) : SendingInv (.start s) where
  blocked := h.blockedInv
  waiting := h.waitingInv
  fits _ _ := trivial

/-- No `ipc_send` fails, in every run in which each second `sys_ipc_try_send`
finds its receiver waiting: whatever environment runs next, its `ipc_send` does
not panic on the result it finds, and if it returns then its message is
delivered. -/
theorem ipc_send_contention (h : Booted s)
    (hrun : Runs Sending.Step (fun u tr => (Peaceful u tr ∧ ValidSend u.kern tr)
      ∧ RetryReady u tr) (.start s) m) :
    ∀ e, m.kern.Live e → m.pc e ≠ .panicked
      ∧ ((m.kern.envs e).envStatus = .runnable →
        (m.pc e).returned (m.kern.eax e) ≠ .panicked
        ∧ (m.pc e ≠ .outside → (m.pc e).returned (m.kern.eax e) = .outside →
          m.sent e)) := by
  have hinv : SendingInv m := hrun.invariant
    (fun _ _ _ hu hP hs => hu.step hP.1.1 hP.1.2 hP.2 hs) h.sendingInv
  intro e hlive
  have hfits := hinv.fits e hlive
  cases hpc : m.pc e with
  | outside => exact ⟨nofun, fun _ => ⟨nofun, fun hne => absurd rfl hne⟩⟩
  | between a => exact ⟨nofun, fun _ => ⟨nofun, fun _ hout => nomatch hout⟩⟩
  | panicked =>
      rw [hpc] at hfits
      exact hfits.elim
  | first a =>
      rw [hpc] at hfits
      refine ⟨nofun, fun hrun => ?_⟩
      rcases hfits.2 with hans | hnot | ⟨p, hp, hid⟩
      · rw [hans.zero]
        exact ⟨nofun, fun _ _ => hans.sent⟩
      · rw [hnot]
        exact ⟨nofun, fun _ hout => nomatch hout⟩
      · obtain ⟨e', d, hq⟩ := hinv.waiting.queued p hp
        obtain rfl : e' = e := by
          rw [hq.source.idx, hid, hinv.waiting.sys.env.idx e hlive]
        exact absurd (hq.blocked.symm.trans hrun) nofun
  | second a =>
      rw [hpc] at hfits
      rw [hfits.2.1.zero]
      exact ⟨nofun, fun _ => ⟨nofun, fun _ _ => hfits.2.1.sent⟩⟩

/-! ## Three environments -/

theorem Sending.exists_step {q : IpcSend} (hstep : Jos.Step m.kern tr s')
    (hc : m.kern.curenv = some c)
    (hpc : IpcSend.Traps tr.tf ((m.pc c).returned (m.kern.eax c)) q) :
    ∃ m', m.Step tr m' ∧ m'.kern = s' ∧ m'.pc c = q ∧ ∀ d, d ≠ c →
      m'.pc d = if (m.kern.envs d).envStatus = .free then .outside else
      m.pc d := by
  obtain ⟨t, ht, rfl⟩ := Traced.exists_step hstep
  have hcur : ∀ {d}, m.kern.curenv = some d ↔ d = c := by
    intro d
    rw [hc, Option.some_inj, eq_comm]
  refine ⟨⟨t, fun d => if d = c then q
      else if (m.kern.envs d).envStatus = .free then .outside else m.pc d,
    fun d => if d = c then ∃ e, SendOk m.kern tr c e else m.sent d⟩,
    ⟨ht, fun d hd => ?_, fun d hd => ?_, fun d hd => ?_, fun d hd => ?_⟩, rfl,
    if_pos rfl,
    fun d hd => if_neg hd⟩
  · obtain rfl := hcur.mp hd
    simpa using hpc
  · exact if_neg fun h => hd (hcur.mpr h)
  · obtain rfl := hcur.mp hd
    simp
  · have hdc : d ≠ c := fun h => hd (hcur.mpr h)
    simp [hdc]

/-- A step outside every `ipc_send`. -/
theorem Sending.outside_step (hpc : ∀ d, m.pc d = .outside)
    (hc : m.kern.curenv = some c)
    (hstep : Jos.Step m.kern tr s') (hno : tr.tf.sysNo ≠ some .ipcTrySend) :
    ∃ m', m.Step tr m' ∧ m'.kern = s' ∧ ∀ d, m'.pc d = .outside := by
  obtain ⟨m', hm', hs', hcur, hother⟩ :=
    Sending.exists_step (q := .outside) hstep hc
    (by rw [hpc]; exact .other hno)
  refine ⟨m', hm', hs', fun d => ?_⟩
  by_cases hdc : d = c
  · exact hdc ▸ hcur
  · rw [hother d hdc, hpc, ite_self]

/-- Timer interrupts and the two IPC calls are peaceful. -/
theorem peaceful_of_ipc (htrap : tr.tf.tfTrapno = IRQ_OFFSET + IRQ_TIMER
    ∨ tr.tf.sysNo = some .ipcTrySend ∨ tr.tf.sysNo = some .ipcRecv) :
    Peaceful m tr := by
  have htf : ∀ {c}, ((m.kern.saved c tr).envs c).envTf = tr.tf :=
    Kern.saved_envs_self_tf
  have hcall : ∀ {c no}, ((m.kern.saved c tr).envs c).envTf.sysNo = some no →
      no = .ipcTrySend ∨ no = .ipcRecv := by
    intro c no hno
    rw [htf] at hno
    rcases htrap with h | h | h
    · rw [(sysNo_eq hno).1] at h
      exact absurd h (by decide)
    · exact .inl (Option.some.inj (hno.symm.trans h))
    · exact .inr (Option.some.inj (hno.symm.trans h))
  refine ⟨fun c e _ h => ?_, fun c e p _ h _ => ?_, fun c e _ h _ => ?_⟩
  · cases h with
    | status hno | uxstack hno | restore hno =>
        rcases hcall hno with h | h <;> cases h
  · cases h with
    | child hno | restore hno => rcases hcall hno with h | h <;> cases h
    | exit h =>
        cases h with
        | badString hno | request hno => rcases hcall hno with h | h <;> cases h
        | noUpcall hup | noStack hup =>
            rw [htf] at hup
            rcases htrap with h | h | h
            · rw [h] at hup
              cases hup
            · rw [(sysNo_eq h).1] at hup
              cases hup
            · rw [(sysNo_eq h).1] at hup
              cases hup
        | unhandled _ hun =>
            rw [htf] at hun
            rcases htrap with h | h | h
            · exact absurd h hun.2.2.1
            · exact absurd (sysNo_eq h).1 hun.1
            · exact absurd (sysNo_eq h).1 hun.1
  · rcases hcall h.call with h | h <;> cases h

theorem validSend_of_resolve (hc : s.curenv = some c)
    (hres : s.resolve c tr.tf.a1 false = .ok e) (hva : tr.tf.a3 = UTOP) :
    ValidSend s tr := by
  intro c' hc' hno
  obtain rfl : c = c' := Option.some.inj (hc.symm.trans hc')
  refine ⟨e, saved_resolve.trans hres, fun _ =>
    ⟨0, _, .inl ⟨rfl, rfl, fun h => ?_⟩⟩⟩
  rw [Kern.saved_envs_self_tf, hva] at h
  exact absurd h.1 (by decide)

/-- `ipc_send` of 7 without a page to slot 3 of the small kernel. -/
def sendAct : Act := .call 12 0x1003 7 UTOP 0 0

def recvAct : Act := .call 13 UTOP 0 0 0 0

def smallSend : SendArgs := ⟨0x1003, 7, 0, 0⟩

theorem sendAct_trap : SendTrap (sendAct.trap s c).tf smallSend :=
  ⟨rfl, rfl, rfl, rfl, rfl⟩

theorem sendAct_valid (hc : m.kern.curenv = some c)
    (hres : m.kern.resolve c 0x1003 false = .ok e) :
    Peaceful m (sendAct.trap m.kern c)
      ∧ ValidSend m.kern (sendAct.trap m.kern c) :=
  ⟨peaceful_of_ipc (.inr (.inl rfl)), validSend_of_resolve hc hres rfl⟩

theorem recvAct_valid :
    Peaceful m (recvAct.trap m.kern c)
      ∧ ValidSend m.kern (recvAct.trap m.kern c) :=
  ⟨peaceful_of_ipc (.inr (.inr rfl)), fun _ _ hno => nomatch hno⟩

theorem timer_valid :
    Peaceful m (Act.timer.trap m.kern c)
      ∧ ValidSend m.kern (Act.timer.trap m.kern c) :=
  ⟨peaceful_of_ipc (.inl rfl), fun _ _ hno => nomatch hno⟩

/-- Outside `ipc_send` there is no second call. -/
theorem retryReady_of_outside (hc : m.kern.curenv = some c)
    (hpc : m.pc c = .outside) :
    RetryReady m tr := by
  intro c' e a hc' hret
  obtain rfl : c = c' := Option.some.inj (hc.symm.trans hc')
  rw [hpc] at hret
  cases hret

end

/-- Slot 3 of the small kernel receives, and the `ipc_send` of slot 2
delivers. -/
theorem ipc_send_contention_small : ∃ m, Runs Sending.Step
    (fun u tr => (Peaceful u tr ∧ ValidSend u.kern tr) ∧ RetryReady u tr)
    (.start (smallKern 0)) m ∧ m.pc 2 = .first smallSend ∧ m.sent 2 := by
  have hacts :
      ((smallKern 0).act .timer).bind (fun u1 => (u1.act recvAct).bind fun u2 =>
      (u2.act .timer).bind fun u3 => (u3.act sendAct).map fun u4 =>
        decide ((u1.curenv = some 3 ∧ u2.curenv = some 1 ∧ u3.curenv = some 2)
          ∧ u3.resolve 2 0x1003 false = .ok 3
          ∧ u4.eax 2 = 0 ∧ (u4.envs 2).envStatus = .runnable)) = some true := by
    decide +kernel
  obtain ⟨u1, hu1, hacts⟩ := Option.bind_eq_some_iff.mp hacts
  obtain ⟨u2, hu2, hacts⟩ := Option.bind_eq_some_iff.mp hacts
  obtain ⟨u3, hu3, hacts⟩ := Option.bind_eq_some_iff.mp hacts
  obtain ⟨u4, hu4, hacts⟩ := Option.map_eq_some_iff.mp hacts
  obtain ⟨⟨hc1, hc2, hc3⟩, hres, hzero, hst⟩ := of_decide_eq_true hacts
  obtain ⟨m1, hm1, rfl, hpc1⟩ :=
    Sending.outside_step (m := .start (smallKern 0))
    (fun _ => rfl) rfl (Kern.act_step rfl hu1) nofun
  obtain ⟨m2, hm2, rfl, hpc2⟩ :=
    Sending.outside_step hpc1 hc1 (Kern.act_step hc1 hu2) nofun
  obtain ⟨m3, hm3, rfl, hpc3⟩ :=
    Sending.outside_step hpc2 hc2 (Kern.act_step hc2 hu3) nofun
  obtain ⟨m4, hm4, rfl, hpc4, -⟩ :=
    Sending.exists_step (Kern.act_step hc3 hu4) hc3
    (by rw [hpc3]; exact .start sendAct_trap)
  have hrun :
      Runs Sending.Step (fun u tr => (Peaceful u tr ∧ ValidSend u.kern tr)
      ∧ RetryReady u tr) (.start (smallKern 0)) m4 :=
    (((Runs.single ⟨timer_valid, retryReady_of_outside rfl rfl⟩ hm1).tail
      ⟨recvAct_valid, retryReady_of_outside hc1 (hpc1 3)⟩ hm2).tail
      ⟨timer_valid, retryReady_of_outside hc2 (hpc2 1)⟩ hm3).tail
      ⟨sendAct_valid hc3 hres, retryReady_of_outside hc3 (hpc3 2)⟩ hm4
  have hsend := ((ipc_send_contention (smallKern_booted 0) hrun 2
    ⟨by decide, hst ▸ nofun⟩).2
    hst).2 (hpc4 ▸ nofun)
  rw [hpc4, hzero] at hsend
  exact ⟨m4, hrun, hpc4, hsend rfl⟩

/-- Three environments: slot 2 sends to slot 3 and is queued; slot 3 receives
and releases it; slot 1 sends before slot 2 tries again; slot 2 is queued again,
and slot 3 receives again. The second call of slot 2 returns `-E_IPC_NOT_RECV`,
and it panics. -/
theorem ipc_send_contended : ¬∀ s m, Booted s →
    Runs Sending.Step (fun u tr => Peaceful u tr ∧ ValidSend u.kern tr)
      (.start s) m →
    ∀ e, m.kern.Live e → (m.kern.envs e).envStatus = .runnable →
      (m.pc e).returned (m.kern.eax e) ≠ .panicked := by
  intro h
  have hacts : ((smallKern 0).act sendAct).bind
      (fun u1 => (u1.act recvAct).bind fun u2 =>
      (u2.act sendAct).bind fun u3 => (u3.act .timer).bind fun u4 =>
        (u4.act sendAct).bind fun u5 => (u5.act recvAct).map fun u6 =>
          decide ((u1.curenv = some 3 ∧ u2.curenv = some 1 ∧ u3.curenv = some 1
              ∧ u4.curenv = some 2 ∧ u5.curenv = some 3)
            ∧ (u2.resolve 1 0x1003 false = .ok 3
            ∧ u4.resolve 2 0x1003 false = .ok 3)
            ∧ ((u1.envs 2).envStatus ≠ .free ∧ (u2.envs 2).envStatus ≠ .free
              ∧ (u3.envs 2).envStatus ≠ .free ∧ (u5.envs 2).envStatus ≠ .free)
            ∧ u3.eax 1 = 0 ∧ u4.eax 2 = -E_IPC_NOT_RECV
            ∧ u6.eax 2 = -E_IPC_NOT_RECV
            ∧ (u6.envs 2).envStatus = .runnable)) = some true := by
    decide +kernel
  obtain ⟨u1, hu1, hacts⟩ := Option.bind_eq_some_iff.mp hacts
  obtain ⟨u2, hu2, hacts⟩ := Option.bind_eq_some_iff.mp hacts
  obtain ⟨u3, hu3, hacts⟩ := Option.bind_eq_some_iff.mp hacts
  obtain ⟨u4, hu4, hacts⟩ := Option.bind_eq_some_iff.mp hacts
  obtain ⟨u5, hu5, hacts⟩ := Option.bind_eq_some_iff.mp hacts
  obtain ⟨u6, hu6, hacts⟩ := Option.map_eq_some_iff.mp hacts
  obtain ⟨⟨hc1, hc2, hc3, hc4, hc5⟩, ⟨hres2, hres4⟩, ⟨hl1, hl2, hl3, hl5⟩,
      heax3, heax4, heax6, hst⟩ :=
    of_decide_eq_true hacts
  obtain ⟨m1, hm1, rfl, hpc1, ho1⟩ :=
    Sending.exists_step (m := .start (smallKern 0))
    (Kern.act_step rfl hu1) rfl (.start sendAct_trap)
  have h13 : m1.pc 3 = .outside := (ho1 3 (by decide)).trans (ite_self _)
  have h11 : m1.pc 1 = .outside := (ho1 1 (by decide)).trans (ite_self _)
  obtain ⟨m2, hm2, rfl, hpc2, ho2⟩ :=
    Sending.exists_step (Kern.act_step hc1 hu2) hc1
    (by rw [h13]; exact .other nofun)
  have h22 : m2.pc 2 = .first smallSend := by
    rw [ho2 2 (by decide), if_neg hl1, hpc1]
  have h21 : m2.pc 1 = .outside := by rw [ho2 1 (by decide), h11, ite_self]
  obtain ⟨m3, hm3, rfl, hpc3, ho3⟩ :=
    Sending.exists_step (Kern.act_step hc2 hu3) hc2
    (by rw [h21]; exact .start sendAct_trap)
  have h32 : m3.pc 2 = .first smallSend := by
    rw [ho3 2 (by decide), if_neg hl2, h22]
  have h33 : m3.pc 3 = .outside := by
    rw [ho3 3 (by decide), hpc2]
    exact ite_self _
  obtain ⟨m4, hm4, rfl, hpc4, ho4⟩ :=
    Sending.exists_step (Kern.act_step hc3 hu4) hc3
    (by rw [hpc3, heax3]; exact .other nofun)
  have h42 : m4.pc 2 = .first smallSend := by
    rw [ho4 2 (by decide), if_neg hl3, h32]
  have h43 : m4.pc 3 = .outside := by rw [ho4 3 (by decide), h33, ite_self]
  obtain ⟨m5, hm5, rfl, hpc5, ho5⟩ :=
    Sending.exists_step (Kern.act_step hc4 hu5) hc4
    (by rw [h42, heax4]; exact .again sendAct_trap)
  have h53 : m5.pc 3 = .outside := by rw [ho5 3 (by decide), h43, ite_self]
  obtain ⟨m6, hm6, rfl, hpc6, ho6⟩ :=
    Sending.exists_step (Kern.act_step hc5 hu6) hc5
    (by rw [h53]; exact .other nofun)
  have h62 : m6.pc 2 = .second smallSend := by
    rw [ho6 2 (by decide), if_neg hl5, hpc5]
  have hrun1 :
      Runs Sending.Step (fun u tr => Peaceful u tr ∧ ValidSend u.kern tr)
      (.start (smallKern 0)) m1 :=
    Runs.single (sendAct_valid (m := .start (smallKern 0)) (c := 2) (e := 3) rfl
      (by decide)) hm1
  have hrun :=
    ((((hrun1.tail recvAct_valid hm2).tail (sendAct_valid hc2 hres2) hm3).tail
    timer_valid hm4).tail (sendAct_valid hc4 hres4) hm5).tail recvAct_valid hm6
  refine h _ m6 (smallKern_booted 0) hrun 2 ⟨by decide, hst ▸ nofun⟩ hst ?_
  rw [h62, heax6]
  rfl

end Jos
