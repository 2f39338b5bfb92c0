import Jos.Kern.History

/-!
# Blocked receivers

An environment inside `sys_ipc_recv` is blocked until a message arrives, in
every run in which no call wakes it otherwise. `sys_env_set_status`,
`SYS_uxstack_pgfault_status`, `sys_env_restore` and the wake-up of a queued
sender in `sys_ipc_recv` change the status without a look at `env_ipc_recving`,
so the condition is about these four.
-/

namespace Jos

section

variable {s s' : Kern} {m m' : Traced} {tr : Trap} {c d e : Nat}

/-- The trap wakes an environment that receives, or that starts to with this
trap, without a message for it. -/
def WakesReceiver (s : Kern) (tr : Trap) : Prop :=
  ∃ c e, s.curenv = some c
    ∧ (Rouses (s.saved c tr) c e ∨ Releases (s.saved c tr) c e)
    ∧ ((s.envs e).envIpcRecving = true ∨ (e = c ∧ tr.tf.sysNo = some .ipcRecv))

/-- The last trap of `e` was a `sys_ipc_recv`. -/
def Traced.Received (m : Traced) (e : Nat) : Prop :=
  ∃ tf, m.last e = some tf ∧ tf.sysNo = some .ipcRecv

/-- `e` is suspended inside `sys_ipc_recv`. -/
structure Traced.Suspended (m : Traced) (e : Nat) : Prop where
  status : (m.kern.envs e).envStatus = .notRunnable
  received : m.Received e

/-- Whoever receives is suspended inside the call, and who has left it got a
message. -/
structure BlockedInv (m : Traced) : Prop where
  sys : SysInv m.kern
  blocked : ∀ e, m.kern.Live e → (m.kern.envs e).envIpcRecving = true →
    m.Suspended e
  left : ∀ e, m.kern.Live e → m.Received e →
    (m.kern.envs e).envIpcRecving = true ∨ m.got e

/-- After its `sys_ipc_recv` an environment receives, and it is blocked unless
it was its own sender. -/
theorem Handled.recv {s₁ : Kern} (hno : (s.envs c).envTf.sysNo = some .ipcRecv)
    (hh : Handled c s s₁) : (s₁.envs c).envIpcRecving = true
      ∧ ((s₁.envs c).envStatus = .notRunnable ∨ Releases s c c) := by
  have hother : ∀ {no : SysNo}, (s.envs c).envTf.sysNo = some no →
      no = .ipcRecv := by
    intro no h
    exact (Option.some.inj (hno.symm.trans h)).symm
  cases hh with
  | idle h => exact absurd hno h
  | push h hv => exact absurd (hno.symm.trans h) nofun
  | exit hwhy hv => exact absurd hno hwhy.not_recv
  | destroy h hres hne hv => cases hother h
  | ret h hv => exact absurd hno h
  | field h hctl hf => exact absurd hno h
  | status h hres hst => cases hother h
  | uxstack h hres hva hperm hv => cases hother h
  | trapframe h hres hbytes => cases hother h
  | exofork h hfirst hv => cases hother h
  | restore h hres hst hne hv => cases hother h
  | queue h hres hbusy hroom => cases hother h
  | sendErr h hres hready hdst hsrc hperm hv => cases hother h
  | sent h hres hready hv => cases hother h
  | recvErr h hnone =>
      rw [Kern.sysRet, Kern.setEnv_setEnv, Kern.setEnv_envs_self]
      exact ⟨rfl, .inl rfl⟩
  | recvWait h hnone =>
      rw [Kern.setEnv_envs_self]
      exact ⟨rfl, .inl rfl⟩
  | @recvWake e hrel =>
      simp only [Kern.dequeueSender_envs]
      by_cases hec : c = e
      · subst hec
        refine ⟨?_, .inr hrel⟩
        rw [Kern.setEnv_setEnv, Kern.setEnv_envs_self]
        rfl
      · rw [Kern.setEnv_envs_ne hec, Kern.setEnv_envs_self]
        exact ⟨rfl, .inl rfl⟩

/-- A message has arrived: the receiver does not receive any more. -/
theorem recving_of_send (h : SysInv s) (hsend : SendOk s tr c e)
    (hstep : Step s tr s') :
    (s'.envs e).envIpcRecving = false :=
  (recving_of_ipc (hsend.step h hstep).2).trans rfl

/-- Whoever does not receive goes on so, up to its own `sys_ipc_recv`. -/
theorem recving_stays (h : SysInv s) (hr : Running s c) (hd : s.Live d)
    (hrec : (s.envs d).envIpcRecving = false)
    (hcall : d = c → tr.tf.sysNo ≠ some .ipcRecv)
    (hstep : Step s tr s') : (s'.envs d).envIpcRecving = false := by
  obtain ⟨s₁, e, hh, rfl, hipc⟩ := step_ipc h hr hstep d
  rw [recving_of_ipc runOn_ipc]
  rcases hipc with hipc | ⟨hdc, hno⟩ | ⟨-, hipc⟩ | ⟨hfree, -⟩
  · exact (recving_of_ipc (hipc.trans saved_ipc)).trans hrec
  · rw [Kern.saved_envs_self_tf] at hno
    exact absurd hno (hcall hdc)
  · exact (recving_of_ipc hipc).trans rfl
  · exact absurd (saved_status.symm.trans hfree) hd.2

/-- A running environment does not receive. -/
theorem BlockedInv.not_recving (h : BlockedInv m) (hr : Running m.kern c) :
    (m.kern.envs c).envIpcRecving = false := by
  cases hrec : (m.kern.envs c).envIpcRecving with
  | false => rfl
  | true =>
      have hst := (h.blocked c hr.live hrec).status
      rw [hr.runnable] at hst
      cases hst

/-! ## The step -/

section Step

variable (h : BlockedInv m) (hwake : ¬WakesReceiver m.kern tr)
  (hstep : m.Step tr m')
include h hwake hstep

/-- The environment that trapped. -/
theorem BlockedInv.step_cur (hr : Running m.kern c) (hlive : m'.kern.Live c) :
    ((m'.kern.envs c).envIpcRecving = true → m'.Suspended c)
      ∧ (m'.Received c → (m'.kern.envs c).envIpcRecving = true ∨ m'.got c) := by
  obtain ⟨c', s₁, e, hr', hh, hs'⟩ := hstep.cases h.sys
  obtain rfl : c' = c := Option.some.inj (hr'.cur.symm.trans hr.cur)
  have hlast := hstep.last_cur hr.cur
  have hrec : (m'.kern.envs c').envIpcRecving = (s₁.envs c').envIpcRecving :=
    hs' ▸ recving_of_ipc runOn_ipc
  have hst : (m'.kern.envs c').envStatus = (s₁.envs c').envStatus :=
    hs' ▸ runOn_status
  have hcall : tr.tf.sysNo = some .ipcRecv →
      ((m.kern.saved c' tr).envs c').envTf.sysNo = some .ipcRecv := by
    rw [Kern.saved_envs_self_tf]
    exact id
  constructor
  · intro hrecving
    rcases hh.ipcChange (hr.saved tr) (h.sys.env.saved tr) c' with
      hipc | ⟨-, hno⟩ | ⟨hsend, -⟩ | ⟨hfree, -⟩
    · rw [hrec, recving_of_ipc hipc, recving_of_ipc saved_ipc,
        h.not_recving hr] at hrecving
      cases hrecving
    · rw [Kern.saved_envs_self_tf] at hno
      refine ⟨hst.trans ?_, tr.tf, hlast, hno⟩
      rcases (hh.recv (hcall hno)).2 with hst | hrel
      · exact hst
      · exact absurd ⟨c', c', hr.cur, .inr hrel, .inr ⟨rfl, hno⟩⟩ hwake
    · rw [recving_of_send h.sys ⟨hr.cur, hsend⟩ hstep.kern] at hrecving
      cases hrecving
    · rw [saved_status, hr.runnable] at hfree
      cases hfree
  · rintro ⟨tf, htf, hno⟩
    rw [hlast] at htf
    obtain rfl := Option.some.inj htf
    exact .inl (hrec.trans (hh.recv (hcall hno)).1)

/-- An environment that was there before and did not trap. -/
theorem BlockedInv.step_other (hr : Running m.kern c) (hdc : d ≠ c)
    (hd : m.kern.Live d)
    (hlive : m'.kern.Live d) :
    ((m'.kern.envs d).envIpcRecving = true → m'.Suspended d)
      ∧ (m'.Received d → (m'.kern.envs d).envIpcRecving = true ∨ m'.got d) := by
  obtain ⟨c', s₁, e, hr', hh, hs'⟩ := hstep.cases h.sys
  obtain rfl : c' = c := Option.some.inj (hr'.cur.symm.trans hr.cur)
  have hlast := hstep.last_other hr.cur hdc hd.2
  have hreceived : m'.Received d ↔ m.Received d := by
    rw [Traced.Received, Traced.Received, hlast]
  have hst : (m'.kern.envs d).envStatus = (s₁.envs d).envStatus :=
    hs' ▸ runOn_status
  have hsendOk : SendsTo (m.kern.saved c' tr) c' d → SendOk m.kern tr c' d :=
    fun hsend => ⟨hr.cur, hsend⟩
  -- either a message arrives, or it goes on receiving as before
  have hipc : SendOk m.kern tr c' d
      ∨ (m'.kern.envs d).envIpcRecving = (m.kern.envs d).envIpcRecving := by
    rcases hh.ipcChange (hr.saved tr) (h.sys.env.saved tr) d with
      hipc | ⟨hd', -⟩ | ⟨hsend, -⟩ | ⟨hfree, -⟩
    · exact .inr (hs' ▸ recving_of_ipc (runOn_ipc.trans (hipc.trans saved_ipc)))
    · exact absurd hd' hdc
    · exact .inl (hsendOk hsend)
    · exact absurd (saved_status.symm.trans hfree) hd.2
  constructor
  · intro hrecving
    have hsame : (m.kern.envs d).envIpcRecving = true := by
      rcases hipc with hsend | hsame
      · rw [recving_of_send h.sys hsend hstep.kern] at hrecving
        cases hrecving
      · exact hsame.symm.trans hrecving
    have hsusp := h.blocked d hd hsame
    refine ⟨hst.trans ?_, hreceived.mpr hsusp.received⟩
    rcases hh.statusChange (hr.saved tr) (h.sys.env.saved tr) d with
      hst₁ | hst₁ | hst₁ | hrouse | hrel | hsend | hfree
    · exact hst₁.trans (saved_status.trans hsusp.status)
    · exact hst₁
    · exact absurd (hst.trans hst₁) hlive.2
    · exact absurd ⟨c', d, hr.cur, .inl hrouse, .inl hsame⟩ hwake
    · exact absurd ⟨c', d, hr.cur, .inr hrel, .inl hsame⟩ hwake
    · rw [recving_of_send h.sys (hsendOk hsend) hstep.kern] at hrecving
      cases hrecving
    · exact absurd (saved_status.symm.trans hfree) hd.2
  · intro hrec
    have hgot : m.got d → m'.got d := fun hgot =>
      (hstep.got d).mpr (.inr ⟨fun hc =>
        hdc (Option.some.inj (hr.cur.symm.trans hc)).symm, hd.2, hgot⟩)
    rcases h.left d hd (hreceived.mp hrec) with hrecving | hg
    · rcases hipc with hsend | hsame
      · exact .inr ((hstep.got d).mpr (.inl ⟨c', hsend⟩))
      · exact .inl (hsame.trans hrecving)
    · exact .inr (hgot hg)

theorem BlockedInv.step : BlockedInv m' := by
  obtain ⟨c, s₁, e, hr, hh, hs'⟩ := hstep.cases h.sys
  have key : ∀ d, m'.kern.Live d →
      ((m'.kern.envs d).envIpcRecving = true → m'.Suspended d)
      ∧ (m'.Received d → (m'.kern.envs d).envIpcRecving = true ∨ m'.got d) := by
    intro d hlive
    by_cases hdc : d = c
    · subst hdc
      exact h.step_cur hwake hstep hr hlive
    rcases hh.live (hr.saved tr) (h.sys.env.saved tr)
      (runOn_live.mp (hs' ▸ hlive)) with hd | hborn
    · exact h.step_other hwake hstep hr hdc (saved_live.mp hd) hlive
    · have hrec : (m'.kern.envs d).envIpcRecving = false :=
        hs' ▸ (recving_of_ipc runOn_ipc).trans hborn.recving
      have hlast :=
        hstep.last_free hr.cur hdc (saved_status.symm.trans hborn.free)
      refine ⟨fun h => absurd (hrec.symm.trans h) nofun, fun ⟨tf, htf, _⟩ => ?_⟩
      rw [hlast] at htf
      cases htf
  exact ⟨h.sys.step hstep.kern, fun d hd => (key d hd).1,
    fun d hd => (key d hd).2⟩

end Step

/-! ## The run -/

theorem Booted.blockedInv (h : Booted s) : BlockedInv (.start s) where
  sys := h.sys
  blocked e _ hrec := absurd ((h.recving e).symm.trans hrec) nofun
  left _ _ := fun ⟨_, htf, _⟩ => nomatch htf

/-- A blocked receiver stays blocked until a message arrives, in every run in
which no other call wakes one: whoever receives is not runnable; a successful
send finds its receiver suspended inside `sys_ipc_recv`; and nobody can run
after a `sys_ipc_recv` without a message that has arrived. -/
theorem blocked_receiver (h : Booted s)
    (hrun : Runs Traced.Step (fun u tr => ¬WakesReceiver u.kern tr)
      (.start s) m) :
    (∀ e, m.kern.Live e → (m.kern.envs e).envIpcRecving = true →
      (m.kern.envs e).envStatus = .notRunnable)
    ∧ (∀ tr c e, SendOk m.kern tr c e → m.Suspended e)
    ∧ ∀ e, m.kern.Live e → m.Received e → (m.kern.envs e).envStatus =
      .runnable → m.got e := by
  have hinv : BlockedInv m :=
    hrun.invariant (fun _ _ _ hu hw hs => hu.step hw hs) h.blockedInv
  refine ⟨fun e hlive hrec => (hinv.blocked e hlive hrec).status,
    fun tr c e hsend => ?_,
    fun e hlive hrec hst => ?_⟩
  · obtain ⟨c', hr⟩ := hinv.sys.running
    obtain rfl : c' = c := Option.some.inj (hr.cur.symm.trans hsend.cur)
    have hready :=
      (ready_of_ipc saved_ipc).mp (hsend.sends.ret (hr.saved tr).cur).1
    exact hinv.blocked e (saved_live.mp
      (live_of_resolve hsend.sends.dst (hr.saved tr).live)) hready.1
  · rcases hinv.left e hlive hrec with hrecving | hgot
    · have hsusp := (hinv.blocked e hlive hrecving).status
      rw [hst] at hsusp
      cases hsusp
    · exact hgot

end

/-- Slot 2 of the small kernel receives, and is blocked. -/
theorem blocked_receiver_small : ∃ m,
    Runs Traced.Step (fun u tr => ¬WakesReceiver u.kern tr)
      (.start (smallKern 0)) m
      ∧ (m.kern.envs 2).envIpcRecving = true ∧ (m.kern.envs 2).envStatus =
        .notRunnable := by
  have hact : ((smallKern 0).act (.call 13 UTOP 0 0 0 0)).map
      (fun t => ((t.envs 2).envIpcRecving,
        decide ((t.envs 2).envStatus = .free)))
        = some (true, false) := by
    decide +kernel
  obtain ⟨t, ht, hfields⟩ := Option.map_eq_some_iff.mp hact
  obtain ⟨hrec, hlive⟩ := Prod.mk.inj hfields
  obtain ⟨m, hstep, rfl⟩ :=
    Traced.exists_step (m := .start (smallKern 0)) (Kern.act_step rfl ht)
  have hquiet : ¬WakesReceiver (smallKern 0)
      (callTrap (smallKern 0) 2 13 UTOP 0 0 0 0) := by
    rintro ⟨c, e, hc, hwake, -⟩
    obtain rfl : 2 = c := Option.some.inj hc
    rcases hwake with hrouse | hrel
    · cases hrouse with
      | status hno | uxstack hno | restore hno => exact absurd hno (by decide)
    · exact Nat.not_lt_zero _ hrel.lt
  have hrun : Runs Traced.Step (fun u tr => ¬WakesReceiver u.kern tr)
      (.start (smallKern 0)) m :=
    Runs.single hquiet hstep
  exact ⟨m, hrun, hrec, (blocked_receiver (smallKern_booted 0) hrun).1 2
    ⟨by decide, of_decide_eq_false hlive⟩ hrec⟩

/-- The parent makes a blocked receiver runnable: slot 3 receives, and slot 2
sets its status. -/
theorem blocked_receiver_woken : ¬∀ s m, Booted s →
    Runs Traced.Step (fun _ _ => True) (.start s) m →
    ∀ e, m.kern.Live e → (m.kern.envs e).envIpcRecving = true →
      (m.kern.envs e).envStatus = .notRunnable := by
  intro h
  have hrun :
      ((smallKern 0).acts [.call 11 0 0 0 0 0, .call 13 UTOP 0 0 0 0, .timer,
      .call 8 0x1003 ENV_RUNNABLE 0 0 0]).map
      (fun t => ((t.envs 3).envIpcRecving, (t.envs 3).envStatus)) =
        some (true, .runnable) := by
    decide +kernel
  obtain ⟨t, ht, hfields⟩ := Option.map_eq_some_iff.mp hrun
  obtain ⟨m, hm, rfl⟩ := Traced.exists_run (m := .start (smallKern 0))
    (Kern.acts_runs ht)
  obtain ⟨hrec, hst⟩ := Prod.mk.inj hfields
  have hblocked := h _ m (smallKern_booted 0) hm 3 ⟨by decide, hst ▸ nofun⟩ hrec
  rw [hst] at hblocked
  cases hblocked

end Jos
