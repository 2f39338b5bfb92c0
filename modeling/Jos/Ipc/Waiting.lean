import Jos.Kern.History
import Mathlib.Data.List.NodupEquivFin

/-!
# The queue of waiting senders

`waiting_srcenv_ids` and `waiting_dstenv_ids` are two arrays with a common
count; `Kern.waiting` is the list they stand for, to which `sys_ipc_try_send`
appends and from which `sys_ipc_recv` erases. Only these two calls know the
queue, so its invariant holds in the runs in which no other call destroys or
wakes an environment that is in it.
-/

namespace Jos

/-- The waiting senders, as pairs of source and destination. -/
def Kern.waiting (s : Kern) : List (Word × Word) :=
  (List.range s.waitingEnvNum).map fun i =>
    (s.waitingSrcenvIds i, s.waitingDstenvIds i)

section

variable {s s₁ s' : Kern} {m m' : Traced} {tr : Trap} {c d e : Nat}
  {p : Word × Word}

/-! ## The list -/

@[simp] theorem waiting_length : s.waiting.length = s.waitingEnvNum := by
  simp [Kern.waiting]

theorem waiting_getElem {i : Nat} (h : i < s.waiting.length) :
    s.waiting[i] = (s.waitingSrcenvIds i, s.waitingDstenvIds i) := by
  simp [Kern.waiting]

theorem waiting_congr {t : Kern}
    (hsrc : t.waitingSrcenvIds = s.waitingSrcenvIds)
    (hdst : t.waitingDstenvIds = s.waitingDstenvIds)
    (hnum : t.waitingEnvNum = s.waitingEnvNum) : t.waiting = s.waiting := by
  rw [Kern.waiting, Kern.waiting, hsrc, hdst, hnum]

theorem waiting_runOn : (s.runOn e).waiting = s.waiting :=
  waiting_congr Kern.runOn_waitingSrcenvIds Kern.runOn_waitingDstenvIds
    Kern.runOn_waitingEnvNum

theorem waiting_enqueue (id : Word) :
    (enqueueSender c id s).waiting = s.waiting ++ [((s.envs c).envId, id)] := by
  have hold : ∀ i ∈ List.range s.waitingEnvNum,
      ((enqueueSender c id s).waitingSrcenvIds i,
        (enqueueSender c id s).waitingDstenvIds i)
        = (s.waitingSrcenvIds i, s.waitingDstenvIds i) := by
    intro i hi
    have hne : i ≠ s.waitingEnvNum := (List.mem_range.mp hi).ne
    simp [enqueueSender, Function.update_of_ne hne]
  have hnum : (enqueueSender c id s).waitingEnvNum = s.waitingEnvNum + 1 := rfl
  rw [Kern.waiting, hnum, List.range_succ, List.map_append,
    List.map_congr_left hold]
  simp [Kern.waiting, enqueueSender]

theorem waiting_dequeue {i : Nat} (hi : i < s.waitingEnvNum) :
    (dequeueSender i s).waiting = s.waiting.eraseIdx i := by
  have hlen : (dequeueSender i s).waiting.length =
      (s.waiting.eraseIdx i).length := by
    rw [List.length_eraseIdx_of_lt (by rwa [waiting_length]), waiting_length,
      waiting_length]
    rfl
  refine List.ext_getElem hlen fun j hj hj' => ?_
  rw [waiting_getElem hj, List.getElem_eraseIdx]
  have hjn : j < s.waitingEnvNum - 1 := by
    rw [waiting_length] at hj
    exact hj
  by_cases hji : j < i
  · rw [dif_pos hji, waiting_getElem]
    simp [dequeueSender, closeGap, Nat.not_le.mpr hji]
  · rw [dif_neg hji, waiting_getElem]
    simp [dequeueSender, closeGap, Nat.le_of_not_lt hji, hjn]

/-- What a step can do to the queue. -/
inductive WaitingChange (c : Nat) (s s₁ : Kern) : Prop where
  | same (hnone : ∀ e, ¬Releases s c e) (h : s₁.waiting = s.waiting)
  | append {e : Nat} (hno : (s.envs c).envTf.sysNo = some .ipcTrySend)
      (hres : s.resolve c (s.envs c).envTf.a1 false = .ok e)
      (hst : (s₁.envs c).envStatus = .notRunnable)
      (h : s₁.waiting = s.waiting ++ [((s.envs c).envId, (s.envs c).envTf.a1)])
  | erase {e : Nat} (hrel : Releases s c e)
      (h : s₁.waiting = s.waiting.eraseIdx (findWaiting s (s.envs c).envId))

/-- Every way to handle a trap, seen from the queue. -/
theorem Handled.waitingChange (hh : Handled c s s₁) : WaitingChange c s s₁ := by
  cases hh with
  | idle hno => exact .same (fun _ hrel => hno hrel.call) rfl
  | push hno hv =>
      exact .same (fun _ hrel => nomatch hno.symm.trans hrel.call) rfl
  | exit hwhy hv => exact .same (fun _ hrel => hwhy.not_recv hrel.call) rfl
  | destroy hno hres hne hv => exact .same (not_releases hno nofun) rfl
  | ret hno hv => exact .same (fun _ hrel => hno hrel.call) rfl
  | field hno hctl hf => exact .same (fun _ hrel => hno hrel.call) rfl
  | status hno hres hst => exact .same (not_releases hno nofun) rfl
  | uxstack hno hres hva hperm hv => exact .same (not_releases hno nofun) rfl
  | trapframe hno hres hbytes => exact .same (not_releases hno nofun) rfl
  | exofork hno hfirst hv => exact .same (not_releases hno nofun) rfl
  | restore hno hres hst hne hv => exact .same (not_releases hno nofun) rfl
  | queue hno hres hbusy hroom =>
      exact .append hno hres (by rw [Kern.setEnv_envs_self]) (waiting_enqueue _)
  | sendErr hno hres hready hdst hsrc hperm hv =>
      exact .same (not_releases hno nofun) rfl
  | sent hno hres hready hv => exact .same (not_releases hno nofun) rfl
  | recvErr hno hnone => exact .same hnone rfl
  | recvWait hno hnone => exact .same hnone rfl
  | recvWake hrel =>
      exact .erase hrel
        (waiting_dequeue (s := (s.setEnv c _).setEnv _ _) hrel.lt)

/-! ## The invariant -/

/-- The trap destroys an environment that is queued as a source or a
destination, or it makes a queued source runnable without taking it off the
queue. -/
def DisturbsQueue (s : Kern) (tr : Trap) : Prop :=
  ∃ c e p, s.curenv = some c ∧ p ∈ s.waiting
    ∧ ((Destroys (s.saved c tr) c e
    ∧ ((s.envs e).envId = p.1 ∨ (s.envs e).envId = p.2))
      ∨ ((Rouses (s.saved c tr) c e ∨ SendOk s tr c e)
      ∧ (s.envs e).envId = p.1))

/-- The entry `p` is in order: its source is blocked in a `sys_ipc_try_send` to
its destination, which is live. A destination of 0 is the source itself. -/
structure Traced.Queued (m : Traced) (p : Word × Word) (e d : Nat) : Prop where
  source : m.kern.Named e p.1
  blocked : (m.kern.envs e).envStatus = .notRunnable
  call : ∃ tf, m.last e = some tf ∧ tf.sysNo = some .ipcTrySend ∧ tf.a1 = p.2
  dst : m.kern.resolve e p.2 false = .ok d

structure WaitingInv (m : Traced) : Prop where
  sys : SysInv m.kern
  nodup : (m.kern.waiting.map Prod.fst).Nodup
  queued : ∀ p ∈ m.kern.waiting, ∃ e d, m.Queued p e d

/-- The running environment is not queued. -/
theorem WaitingInv.ne_cur (h : WaitingInv m) (hr : Running m.kern c)
    (hp : p ∈ m.kern.waiting) :
    p.1 ≠ (m.kern.envs c).envId := by
  intro hid
  obtain ⟨e, d, hq⟩ := h.queued p hp
  have hec : e = c := by
    rw [hq.source.idx, hid, h.sys.env.idx c hr.live]
  have hst := hq.blocked
  rw [hec, hr.runnable] at hst
  cases hst

/-- All sources and the running environment are different slots. -/
theorem WaitingInv.lt (h : WaitingInv m) (hr : Running m.kern c) :
    m.kern.waitingEnvNum < NENV := by
  have hnodup : (c :: m.kern.waiting.map fun p => envx p.1).Nodup := by
    refine List.nodup_cons.mpr ⟨fun hc => ?_, ?_⟩
    · obtain ⟨p, hp, hpc⟩ := List.mem_map.mp hc
      obtain ⟨e, d, hq⟩ := h.queued p hp
      have hec : e = c := hq.source.idx.trans hpc
      exact h.ne_cur hr hp (hec ▸ hq.source.id.symm)
    · have hmap : (m.kern.waiting.map fun p => envx p.1)
          = (m.kern.waiting.map Prod.fst).map envx := by
        rw [List.map_map]
        rfl
      rw [hmap]
      refine List.Nodup.map_on (fun x hx y hy hxy => ?_) h.nodup
      obtain ⟨p, hp, rfl⟩ := List.mem_map.mp hx
      obtain ⟨q, hq, rfl⟩ := List.mem_map.mp hy
      obtain ⟨e, _, he⟩ := h.queued p hp
      obtain ⟨e', _, he'⟩ := h.queued q hq
      obtain rfl : e = e' := he.source.idx.trans (hxy.trans he'.source.idx.symm)
      exact he.source.id.symm.trans he'.source.id
  have hsub :
      (c :: m.kern.waiting.map fun p => envx p.1) ⊆ List.range NENV := by
    intro x hx
    rw [List.mem_range]
    rcases List.mem_cons.mp hx with rfl | hx
    · exact hr.lt
    · obtain ⟨p, -, rfl⟩ := List.mem_map.mp hx
      exact envx_lt _
  have hlen := (hnodup.subperm hsub).length_le
  rw [List.length_cons, List.length_map, waiting_length,
    List.length_range] at hlen
  exact hlen

/-! ## The step -/

section Step

variable (h : WaitingInv m) (hquiet : ¬DisturbsQueue m.kern tr)
  (hstep : m.Step tr m')
include h hquiet hstep

/-- An entry whose source is not released stays in order. -/
theorem WaitingInv.keeps (hr : Running m.kern c) (hp : p ∈ m.kern.waiting)
    (hq : m.Queued p e d) (hrel : ¬Releases (m.kern.saved c tr) c e) :
    m'.Queued p e d := by
  obtain ⟨c', s₁, e', hr', hh, hs'⟩ := hstep.cases h.sys
  obtain rfl : c' = c := Option.some.inj (hr'.cur.symm.trans hr.cur)
  have hrs := hr.saved tr
  have henv : EnvInv (m.kern.saved c' tr) := h.sys.env.saved tr
  have hec : e ≠ c' := fun hec => h.ne_cur hr hp (hec ▸ hq.source.id.symm)
  have hsource : m'.kern.Named e p.1 :=
    hstep.keepsName h.sys hr.cur hq.source fun hdes =>
    hquiet ⟨c', e, p, hr.cur, hp, .inl ⟨hdes, .inl hq.source.id⟩⟩
  refine ⟨hsource, ?_, ?_, ?_⟩
  · have hst : (m'.kern.envs e).envStatus = (s₁.envs e).envStatus :=
      hs' ▸ runOn_status
    rw [hst]
    rcases hh.statusChange hrs henv e with
      hst₁ | hst₁ | hst₁ | hrouse | hrel' | hsend | hfree
    · exact hst₁.trans (saved_status.trans hq.blocked)
    · exact hst₁
    · exact absurd (hst.trans hst₁) hsource.live
    · exact absurd ⟨c', e, p, hr.cur, hp,
        .inr ⟨.inl hrouse, hq.source.id⟩⟩ hquiet
    · exact absurd hrel' hrel
    · exact absurd ⟨c', e, p, hr.cur, hp,
        .inr ⟨.inr ⟨hr.cur, hsend⟩, hq.source.id⟩⟩ hquiet
    · exact absurd (saved_status.symm.trans hfree) hq.source.live
  · rw [hstep.last_other hr.cur hec hq.source.live]
    exact hq.call
  · rcases resolve_ok hq.dst with ⟨h0, rfl⟩ | ⟨h0, hd⟩
    · rw [h0, resolve_zero]
    · exact (hstep.keepsName h.sys hr.cur hd fun hdes =>
        hquiet ⟨c', d, p, hr.cur, hp, .inl ⟨hdes, .inr hd.id⟩⟩).resolve h0

theorem WaitingInv.step : WaitingInv m' := by
  obtain ⟨c, s₁, e, hr, hh, hs'⟩ := hstep.cases h.sys
  have hrs := hr.saved tr
  have hwait : m'.kern.waiting = s₁.waiting := hs' ▸ waiting_runOn
  have hid : ((m.kern.saved c tr).envs c).envId = (m.kern.envs c).envId :=
    Kern.saved_proj Env.envId fun _ => rfl
  refine ⟨h.sys.step hstep.kern, ?_, fun p hp => ?_⟩
  · rw [hwait]
    rcases hh.waitingChange with
      ⟨-, hsame⟩ | ⟨hno, hres, hst, happ⟩ | ⟨hrel, herase⟩
    · rw [hsame]
      exact h.nodup
    · rw [happ, List.map_append, List.nodup_append]
      refine ⟨h.nodup, List.nodup_singleton _, fun x hx y hy hxy => ?_⟩
      obtain ⟨p, hp, rfl⟩ := List.mem_map.mp hx
      obtain rfl := List.mem_singleton.mp hy
      exact h.ne_cur hr hp (hxy.trans hid)
    · rw [herase]
      exact h.nodup.sublist ((List.eraseIdx_sublist ..).map _)
  · rw [hwait] at hp
    rcases hh.waitingChange with
      ⟨hnone, hsame⟩ | @⟨e, hno, hres, hst, happ⟩ | ⟨hrel, herase⟩
    · rw [hsame] at hp
      obtain ⟨e, d, hq⟩ := h.queued p hp
      exact ⟨e, d, h.keeps hquiet hstep hr hp hq (hnone e)⟩
    · rw [happ] at hp
      rcases List.mem_append.mp hp with hp | hp
      · obtain ⟨e, d, hq⟩ := h.queued p hp
        exact ⟨e, d, h.keeps hquiet hstep hr hp hq (not_releases hno nofun e)⟩
      · -- the new entry: its source is `c`
        obtain rfl := List.mem_singleton.mp hp
        have hkeep : ∀ x id, (m.kern.saved c tr).Named x id →
            m'.kern.Named x id := by
          intro x id hx
          refine hstep.keepsName h.sys hr.cur (saved_named.mp hx) fun hdes => ?_
          rcases hdes.call hno with h | h | h <;> cases h
        refine ⟨c, e, hkeep c _ ((h.sys.env.saved tr).named hrs.live),
          ?_, ?_, ?_⟩
        · rw [hs', runOn_status]
          exact hst
        · rw [Kern.saved_envs_self_tf] at hno ⊢
          exact ⟨tr.tf, hstep.last_cur hr.cur, hno, rfl⟩
        · rcases resolve_ok hres with ⟨h0, rfl⟩ | ⟨h0, he⟩
          · rw [h0, resolve_zero]
          · exact (hkeep e _ he).resolve h0
    · rw [herase] at hp
      obtain ⟨j, hj, hji, rfl⟩ := List.mem_eraseIdx_iff_getElem.mp hp
      have hp := List.mem_of_mem_eraseIdx hp
      obtain ⟨e, d, hq⟩ := h.queued _ hp
      refine ⟨e, d, h.keeps hquiet hstep hr hp hq fun hrel' => ?_⟩
      -- the released source is that of the erased entry
      rcases resolve_ok hrel'.source with ⟨-, hec⟩ | ⟨-, he⟩
      · exact h.ne_cur hr hp (hec ▸ hq.source.id.symm)
      · have hi :
            findWaiting (m.kern.saved c tr) ((m.kern.saved c tr).envs c).envId
            < (m.kern.waiting.map Prod.fst).length := by
          rw [List.length_map, waiting_length]
          exact hrel'.lt
        have hj' : j < (m.kern.waiting.map Prod.fst).length := by
          rw [List.length_map]
          exact hj
        have hsrc : (m.kern.waiting.map Prod.fst)[j]
            = (m.kern.waiting.map Prod.fst)[findWaiting (m.kern.saved c tr)
              ((m.kern.saved c tr).envs c).envId] := by
          rw [List.getElem_map, List.getElem_map]
          refine (hq.source.id.symm.trans (saved_named.mp he).id).trans ?_
          rw [waiting_getElem]
          rfl
        exact hji ((h.nodup.getElem_inj_iff).mp hsrc)

end Step

/-! ## The run -/

theorem Booted.waitingInv (h : Booted s) : WaitingInv (.start s) := by
  have hnil : (Traced.start s).kern.waiting = [] :=
    List.eq_nil_of_length_eq_zero (waiting_length.trans h.waiting)
  refine ⟨h.sys, ?_, ?_⟩
  · rw [hnil]
    exact List.nodup_nil
  · rw [hnil]
    nofun

/-- The waiting queue is in order, and it is never full, in every run in which
no other call destroys or wakes an environment that is queued. -/
theorem waiting_queue (h : Booted s)
    (hrun : Runs Traced.Step (fun u tr => ¬DisturbsQueue u.kern tr)
      (.start s) m) :
    (m.kern.waiting.map Prod.fst).Nodup
    ∧ (∀ p ∈ m.kern.waiting, ∃ e d, m.Queued p e d ∧ m.kern.Live d)
    ∧ ∀ tr t, trap tr (m.kern.enter tr) ≠ .stop .queueOverflow t := by
  have hinv : WaitingInv m :=
    hrun.invariant (fun _ _ _ hu hq hs => hu.step hq hs) h.waitingInv
  refine ⟨hinv.nodup, fun p hp => ?_, fun tr t htrap => ?_⟩
  · obtain ⟨e, d, hq⟩ := hinv.queued p hp
    refine ⟨e, d, hq, ?_⟩
    rcases resolve_ok hq.dst with ⟨-, rfl⟩ | ⟨-, hd⟩
    · exact hq.source.isLive
    · exact hd.isLive
  · obtain ⟨c, hr⟩ := hinv.sys.running
    have hfull : (m.kern.saved c tr).waitingEnvNum = NENV :=
      (wp_trap hr tr).stop htrap rfl
    exact (hinv.lt hr).ne hfull

end

/-- Slot 2 of the small kernel sends to slot 3, and is queued. -/
theorem waiting_queue_small : ∃ m,
    Runs Traced.Step (fun u tr => ¬DisturbsQueue u.kern tr)
      (.start (smallKern 0)) m
      ∧ m.kern.waiting = [(0x1002, 0x1003)] ∧ ∃ e d,
      m.Queued (0x1002, 0x1003) e d := by
  have hact : ((smallKern 0).act (.call 12 0x1003 7 UTOP 0 0)).map Kern.waiting
      = some [(0x1002, 0x1003)] := by
    decide +kernel
  obtain ⟨t, ht, hqueue⟩ := Option.map_eq_some_iff.mp hact
  obtain ⟨m, hstep, rfl⟩ :=
    Traced.exists_step (m := .start (smallKern 0)) (Kern.act_step rfl ht)
  have hrun : Runs Traced.Step (fun u tr => ¬DisturbsQueue u.kern tr)
      (.start (smallKern 0)) m :=
    Runs.single (fun ⟨_, _, _, _, hp, _⟩ => nomatch hp) hstep
  obtain ⟨e, d, hq, -⟩ := (waiting_queue (smallKern_booted 0) hrun).2.1
    (0x1002, 0x1003) (by
    rw [hqueue]
    exact List.mem_singleton_self _)
  exact ⟨m, hrun, hqueue, e, d, hq⟩

/-- The parent makes a queued sender runnable: slot 3 sends to slot 2 and is
queued, and slot 2 sets its status. -/
theorem waiting_queue_disturbed : ¬∀ s m, Booted s →
    Runs Traced.Step (fun _ _ => True) (.start s) m →
    ∀ p ∈ m.kern.waiting, ∃ e, m.kern.Named e p.1 ∧ (m.kern.envs e).envStatus =
      .notRunnable := by
  intro h
  have hrun : ((smallKern 0).acts
      [.call 11 0 0 0 0 0, .call 12 0x1002 7 UTOP 0 0, .timer,
      .call 8 0x1003 ENV_RUNNABLE 0 0 0]).map
      (fun t => (t.waiting, (t.envs 3).envStatus)) =
        some ([(0x1003, 0x1002)], .runnable) := by
    decide +kernel
  obtain ⟨t, ht, hfields⟩ := Option.map_eq_some_iff.mp hrun
  obtain ⟨m, hm, rfl⟩ := Traced.exists_run (m := .start (smallKern 0))
    (Kern.acts_runs ht)
  obtain ⟨hqueue, hst⟩ := Prod.mk.inj hfields
  obtain ⟨e, he, hblocked⟩ := h _ m (smallKern_booted 0) hm (0x1003, 0x1002) (by
    rw [hqueue]
    exact List.mem_singleton_self _)
  rw [he.idx, show envx 0x1003 = 3 from by decide, hst] at hblocked
  cases hblocked

end Jos
