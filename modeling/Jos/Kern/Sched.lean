import Jos.Kern.Switch
import Jos.Kern.History
import Jos.Lib.Circular
import Mathlib.Data.Prod.Lex

/-!
# The scheduler

`sched_yield` is a scan around the table that remembers the best environment so
far: the greatest priority, then the fewest messages sent, then the first after
the current slot. The scan starts with priority 0 and counter `0xffffffff`,
which every candidate beats because no counter ever reaches that value.
Environments that tie for best take turns, for the scan starts after the one
that ran last.
-/

namespace Jos

/-! ## The order -/

/-- `e` is one that `sched_yield` looks for: it is not slot 0, and it can
run. -/
def Candidate (s : Kern) (e : Nat) : Prop :=
  e ≠ 0 ∧ e < NENV ∧ (s.envs e).envStatus = .runnable

/-- `e` has a greater priority than `d`, or the same and has sent less. -/
def Outranks (s : Kern) (e d : Nat) : Prop :=
  (s.envs d).envPriority < (s.envs e).envPriority
  ∨ ((s.envs d).envPriority = (s.envs e).envPriority
    ∧ (s.envs e).envIpcSended < (s.envs d).envIpcSended)

instance (s : Kern) (e : Nat) : Decidable (Candidate s e) :=
  inferInstanceAs (Decidable (_ ∧ _))

instance (s : Kern) (e d : Nat) : Decidable (Outranks s e d) :=
  inferInstanceAs (Decidable (_ ∨ _))

/-- The slot of the current environment, 0 if there is none. -/
def Kern.curSlot (s : Kern) : Nat := s.curenv.getD 0

/-- `e` is the environment to run: every other candidate is outranked, or ties
and comes later in circular order after the current slot. -/
structure Chosen (s : Kern) (e : Nat) : Prop where
  candidate : Candidate s e
  best : ∀ d, Candidate s d → d ≠ e → Outranks s e d
    ∨ ((s.envs d).envPriority = (s.envs e).envPriority
      ∧ (s.envs d).envIpcSended = (s.envs e).envIpcSended
      ∧ after NENV s.curSlot e < after NENV s.curSlot d)

/-- The candidates that tie for best. -/
def Kern.ties (s : Kern) : Finset Nat :=
  (Finset.range NENV).filter fun e =>
    Candidate s e ∧ ∀ d, d < NENV → Candidate s d → ¬Outranks s d e

/-- What `sched_yield` relies on: the table is consistent, the current
environment is one of it, and no counter has reached the value that the scan
starts with. -/
structure SchedInv (s : Kern) : Prop where
  env : EnvInv s
  cur : ∀ c, s.curenv = some c → s.Live c
  sended : ∀ e, s.Live e → (s.envs e).envIpcSended < 0xFFFFFFFF#32

/-! ## The scan -/

section

variable {s s₁ s' t : Kern} {c d e : Nat} {tr : Trap}

/-- The key that the scan compares. -/
def schedKey (priority sended : Word) : Nat ×ₗ Natᵒᵈ :=
  toLex (priority.toNat, OrderDual.toDual sended.toNat)

theorem schedKey_lt {p q a b : Word} :
    schedKey p a < schedKey q b ↔ p < q ∨ (p = q ∧ b < a) := by
  simp only [schedKey, Prod.Lex.toLex_lt_toLex, OrderDual.toDual_lt_toDual,
    BitVec.lt_def,
    BitVec.toNat_inj]

theorem schedKey_inj {p q a b : Word} : schedKey p a = schedKey q b ↔
      p = q ∧ a = b := by
  simp only [schedKey, EmbeddingLike.apply_eq_iff_eq, Prod.mk.injEq,
    BitVec.toNat_inj]

/-- The key of environment `e`. -/
def Kern.rank (s : Kern) (e : Nat) : Nat ×ₗ Natᵒᵈ :=
  schedKey (s.envs e).envPriority (s.envs e).envIpcSended

theorem outranks_iff : Outranks s e d ↔ s.rank d < s.rank e := schedKey_lt.symm

/-- The loop of `sched_yield` is a scan of the slots for the first best
candidate. -/
theorem schedStep_foldl (l : List Nat) (o : Option Nat) (p q : Word) :
    (l.foldl (schedStep s.envs) (o, p, q)).1
      = ((l.map (· % NENV)).foldl (keepBetter (Candidate s) s.rank)
        (o, schedKey p q)).1 := by
  induction l generalizing o p q with
  | nil => rfl
  | cons i l ih =>
      have hlt : i % NENV < NENV := Nat.mod_lt _ (by decide)
      have hiff : (Candidate s (i % NENV) ∧ schedKey p q < s.rank (i % NENV))
          ↔ (i % NENV ≠ 0 ∧ (s.envs (i % NENV)).envStatus = .runnable
            ∧ (p < (s.envs (i % NENV)).envPriority
              ∨ ((s.envs (i % NENV)).envPriority = p
                ∧ (s.envs (i % NENV)).envIpcSended < q))) := by
        rw [Kern.rank, schedKey_lt, Candidate, eq_comm (a := p)]
        simp only [hlt, true_and, and_assoc]
      rw [List.map_cons, List.foldl_cons, List.foldl_cons]
      by_cases hnew : Candidate s (i % NENV) ∧ schedKey p q < s.rank (i % NENV)
      · rw [schedStep, if_pos (hiff.mp hnew), keepBetter, if_pos hnew]
        exact ih _ _ _
      · rw [schedStep, if_neg fun h => hnew (hiff.mpr h), keepBetter,
          if_neg hnew]
        exact ih _ _ _

theorem SchedInv.curSlot_lt (h : SchedInv s) : s.curSlot < NENV := by
  unfold Kern.curSlot
  cases hc : s.curenv with
  | none => decide
  | some c => exact (h.cur c hc).1

/-- The scan finds the environment to run, if there is a candidate. -/
theorem SchedInv.schedPick (h : SchedInv s) :
    (∃ e, schedPick s.envs s.curSlot = some e ∧ Chosen s e)
      ∨ (schedPick s.envs s.curSlot = none ∧ ∀ e, ¬Candidate s e) := by
  have hcur := h.curSlot_lt
  have h₀ : ∀ j ∈ (List.range' (s.curSlot + 1) NENV).map (· % NENV),
      Candidate s j →
      schedKey 0 0xFFFFFFFF#32 < s.rank j := by
    intro j _ hj
    have hlive : s.Live j := ⟨hj.2.1, by rw [hj.2.2]; nofun⟩
    rw [Kern.rank, schedKey_lt]
    by_cases hp : (s.envs j).envPriority = 0
    · exact .inr ⟨hp.symm, h.sended j hlive⟩
    · exact .inl (by bv_omega)
  rw [Jos.schedPick, schedStep_foldl]
  rcases foldl_keepBetter (pairwise_after hcur) h₀ with
    ⟨e, hfold, he⟩ | ⟨hfold, hnone⟩
  · refine .inl ⟨e, by rw [hfold], he.isCand, fun d hd hde => ?_⟩
    rcases he.best d ((mem_scan hcur).mpr hd.2.1) hd with
      hde' | hlt | ⟨heq, hafter⟩
    · exact absurd hde' hde
    · exact .inl (outranks_iff.mpr hlt)
    · obtain ⟨hprio, hsended⟩ := schedKey_inj.mp heq
      exact .inr ⟨hprio, hsended, hafter⟩
  · exact .inr ⟨by rw [hfold], fun e he =>
      hnone e ((mem_scan hcur).mpr he.2.1) he⟩

/-- What `sched_yield` does: it resumes the environment to run, or slot 0 if
there is no candidate, or stays in the monitor if nothing at all can run. -/
inductive Yields (s : Kern) : Outcome Kern Stop Unit → Prop where
  | run {e : Nat} (h : Chosen s e) : Yields s (.away (s.runOn e))
  | idle (hnone : ∀ e, ¬Candidate s e) (h : (s.envs 0).envStatus = .runnable) :
      Yields s (.away (s.runOn 0))
  | stop (hnone : ∀ e, ¬Candidate s e) (h : (s.envs 0).envStatus ≠ .runnable) :
      Yields s (.stop .monitor s)

/-- The scan starts after the slot of the current environment. -/
theorem SchedInv.schedPick_eq (h : SchedInv s) :
    Jos.schedPick s.envs (match s.curenv with
      | none => 0
      | some c => envx (s.envs c).envId) = Jos.schedPick s.envs s.curSlot := by
  unfold Kern.curSlot
  cases hc : s.curenv with
  | none => rfl
  | some c =>
      change Jos.schedPick s.envs (envx (s.envs c).envId) =
        Jos.schedPick s.envs c
      rw [h.env.idx c (h.cur c hc)]

theorem SchedInv.yields (h : SchedInv s) : Yields s (schedYield s) := by
  have key : Prog.wp (schedYield : K Unit) (fun _ _ => False)
      (fun t => Yields s (.away t))
      (fun x t => Yields s (.stop x t)) s := by
    unfold schedYield
    simp only [Prog.wp_bind, Prog.wp_ask]
    split
    · rename_i e he
      have he := h.schedPick_eq.symm.trans he
      rcases h.schedPick with ⟨e', he', hch⟩ | ⟨hnone, -⟩
      · obtain rfl := Option.some.inj (he.symm.trans he')
        exact wp_envRun (.run hch)
      · exact nomatch he.symm.trans hnone
    · rename_i he
      have he := h.schedPick_eq.symm.trans he
      rcases h.schedPick with ⟨e', he', -⟩ | ⟨-, hnone⟩
      · exact nomatch he.symm.trans he'
      · exact Prog.wp_ite _ (fun hrun => wp_envRun (.idle hnone hrun))
          fun hrun => Prog.wp_halt_intro (.stop hnone hrun)
  cases hout : (schedYield : K Unit) s with
  | ret r t => exact (key.ret hout).elim
  | away t => exact key.away hout
  | stop x t => exact key.stop hout

/-! ## Where it is called -/

/-- The counters only go up by `sys_ipc_try_send`, which keeps them below the
sentinel. -/
theorem Handled.sended (hh : Handled c s s₁) (d : Nat) :
    (s₁.envs d).envIpcSended = (s.envs d).envIpcSended
      ∨ (s₁.envs d).envIpcSended < 0xFFFFFFFF#32 := by
  have hret : ∀ (t : Kern) (r : Word),
      ((t.sysRet c r).envs d).envIpcSended = (t.envs d).envIpcSended :=
    fun t r => Kern.setEnv_proj Env.envIpcSended rfl
  have hset : ∀ (t : Kern) (e : Nat) (f : Env → Env),
      (∀ env, (f env).envIpcSended = env.envIpcSended) →
      ((t.setEnv e f).envs d).envIpcSended = (t.envs d).envIpcSended :=
    fun t e f hf => Kern.setEnv_proj Env.envIpcSended (hf _)
  cases hh with
  | idle hno => exact .inl rfl
  | @push v va upcall hno hv => exact .inl (hset (s.withVm v) c _ fun _ => rfl)
  | @exit v hwhy hv =>
      exact .inl (Kern.freed_proj (v := v) Env.envIpcSended rfl)
  | @destroy e v hno hres hne hv =>
      exact .inl
        ((hret _ _).trans (Kern.freed_proj (v := v) Env.envIpcSended rfl))
  | ret hno hv => exact .inl (hret _ _)
  | @field e f hno hctl hf =>
      refine .inl ((hret _ _).trans (hset s e f fun env => ?_))
      obtain ⟨_, _, _, _, _, hf⟩ := hf env
      rw [hf]
  | status hno hres hst =>
      exact .inl ((hret _ _).trans (hset s _ _ fun _ => rfl))
  | @uxstack e v r hno hres hva hperm hv =>
      exact .inl ((hret _ _).trans (hset (s.withVm v) e _ fun _ => rfl))
  | trapframe hno hres hbytes =>
      exact .inl ((hret _ _).trans (hset s _ _ fun _ => rfl))
  | @exofork e dir v hno hfirst hv =>
      by_cases hd : d = e
      · refine .inr ?_
        rw [hret, hd, Kern.setEnv_envs_self, Kern.alloced_envs_self]
        exact (by decide : (0 : Word) < 0xFFFFFFFF#32)
      · rw [hret, Kern.setEnv_envs_ne hd, Kern.alloced_envs_ne hd]
        exact .inl rfl
  | @restore e v hno hres hst hne hv =>
      exact .inl ((Kern.freed_proj (v := v) Env.envIpcSended rfl).trans
        (hset s e _ fun _ => rfl))
  | queue hno hres hbusy hroom =>
      exact .inl (hset (enqueueSender c (s.envs c).envTf.a1 s) c _ fun _ => rfl)
  | sendErr hno hres hready hdst hsrc hperm hv => exact .inl (hret _ _)
  | @sent e perm v hno hres hready hv =>
      rw [hret, Kern.delivered]
      by_cases hd : d = c
      · rw [hd, Kern.setEnv_envs_self]
        refine .inr ?_
        change (_ % 0xFFFFFFFF#32) < 0xFFFFFFFF#32
        rw [BitVec.lt_def, BitVec.toNat_umod]
        exact Nat.mod_lt _ (by decide)
      · rw [Kern.setEnv_envs_ne hd]
        exact .inl (hset (s.withVm v) e _ fun _ => rfl)
  | recvErr hno hnone => exact .inl ((hret _ _).trans (hset s c _ fun _ => rfl))
  | recvWait hno hnone => exact .inl (hset s c _ fun _ => rfl)
  | @recvWake e hrel =>
      exact .inl ((hset (s.setEnv c (blockRecv (s.envs c).envTf.a1)) e
        wakeSender fun _ => rfl).trans
        (hset s c _ fun _ => rfl))

/-- A new environment has sent nothing. -/
theorem Handled.sended_lt (hr : Running s c) (henv : EnvInv s)
    (hs : ∀ e, s.Live e → (s.envs e).envIpcSended < 0xFFFFFFFF#32)
    (hh : Handled c s s₁) :
    ∀ e, s₁.Live e → (s₁.envs e).envIpcSended < 0xFFFFFFFF#32 := by
  intro d hd
  rcases hh.live hr henv hd with hold | hnew
  · rcases hh.sended d with heq | hlt
    · rw [heq]
      exact hs d hold
    · exact hlt
  · cases hh.idChange hr with
    | same hsame =>
        exact absurd ((hsame.free d).mpr hnew.free) hd.2
    | freed hsame he hwhy hs₁ =>
        rcases hwhy.call hnew.call with h | h | h <;> cases h
    | @born e dir v hno hfirst hs₁ =>
        subst hs₁
        rw [Kern.sysRet, Kern.setEnv_proj Env.envIpcSended rfl]
        by_cases hde : d = e
        · rw [hde, Kern.setEnv_envs_self, Kern.alloced_envs_self]
          exact (by decide : (0 : Word) < 0xFFFFFFFF#32)
        · rw [Kern.setEnv_envs_ne hde, Kern.alloced_envs_ne hde]
          have hstatus := hd.2
          rw [status_sysRet, Kern.setEnv_envs_ne hde,
            Kern.alloced_envs_ne hde] at hstatus
          exact absurd hnew.free hstatus

/-- Whoever is still current after a trap was handled is live. -/
theorem Handled.cur_live (hr : Running s c) (henv : EnvInv s)
    (hh : Handled c s s₁)
    (hc : s₁.curenv = some c) : s₁.Live c := by
  refine ⟨hr.lt, ?_⟩
  cases hh.idChange hr with
  | same hsame => exact (hsame.live.mpr hr.live).2
  | @freed t e v hsame he hwhy hs₁ =>
      rcases hs₁ with ⟨rfl, rfl⟩ | ⟨hec, rfl⟩
      · exact nomatch hc
      · rw [status_sysRet, Kern.freed_envs_ne (Ne.symm hec)]
        exact (hsame.live.mpr hr.live).2
  | @born e dir v hno hfirst hs₁ =>
      subst hs₁
      have hce : c ≠ e := by
        rintro rfl
        exact hr.live.2 (henv.alloced hfirst 0 dir v).2.1
      rw [status_sysRet, Kern.setEnv_envs_ne hce, Kern.alloced_envs_ne hce]
      exact hr.live.2

/-- The kernel before its first `sched_yield`: a consistent table, no current
environment, and nobody has sent a message. -/
structure SchedBoot (s : Kern) : Prop where
  env : EnvInv s
  cur : s.curenv = none
  sended : ∀ e, s.Live e → (s.envs e).envIpcSended = 0

/-- The states in which `sched_yield` can be called: the one it is first called
in, and those that handling a trap leads to. -/
inductive SchedCall (s₀ : Kern) : Kern → Prop where
  | boot : SchedCall s₀ s₀
  | trap {s₁ s t : Kern} {c : Nat} {tr : Trap}
      (hfirst : (schedYield : K Unit) s₀ = .away s₁)
      (hrun : Runs Step (fun _ _ => True) s₁ s) (htrap : UserTrap s c tr)
      (hh : Handled c (s.saved c tr) t) : SchedCall s₀ t

theorem SchedBoot.inv (h : SchedBoot s) : SchedInv s where
  env := h.env
  cur c hc := nomatch h.cur.symm.trans hc
  sended e he := by
    rw [h.sended e he]
    decide

/-- The invariant of the runs: `SchedInv`, and the current environment can
run. -/
structure RunInv (s : Kern) : Prop extends SchedInv s where
  running : ∃ c, Running s c

theorem SchedInv.runOn (h : SchedInv s) (hlt : e < NENV)
    (hrun : (s.envs e).envStatus = .runnable) : RunInv (s.runOn e) where
  env := h.env.runOn
  cur c hc := by
    obtain rfl := Option.some.inj (Kern.runOn_curenv.symm.trans hc)
    exact runOn_live.mpr ⟨hlt, by rw [hrun]; nofun⟩
  sended d hd := by
    rw [Kern.runOn_proj Env.envIpcSended fun _ _ => rfl]
    exact h.sended d (runOn_live.mp hd)
  running := ⟨e, Kern.runOn_curenv, hlt, runOn_status.trans hrun⟩

/-- Handling a trap keeps what `sched_yield` relies on. -/
theorem RunInv.handled (h : RunInv s) (hc : s.curenv = some c)
    (hh : Handled c (s.saved c tr) t) : SchedInv t := by
  obtain ⟨c', hr⟩ := h.running
  obtain rfl := Option.some.inj (hc.symm.trans hr.cur)
  have hrs := hr.saved tr
  have henv := h.env.saved (c := c) tr
  refine ⟨hh.envInv hrs henv, fun d hd => ?_,
    hh.sended_lt hrs henv fun d hd => ?_⟩
  · have hdc : d = c := by
      rcases hh.curenv with hsame | hnone
      · exact Option.some.inj ((hd.symm.trans hsame).trans hrs.cur)
      · exact nomatch hd.symm.trans hnone
    subst hdc
    exact hh.cur_live hrs henv hd
  · rw [Kern.saved_proj Env.envIpcSended fun _ => rfl]
    exact h.sended d (saved_live.mp hd)

theorem Yields.runInv (hs : SchedInv s) (h : Yields s (.away t)) :
    RunInv t := by
  cases h with
  | run h => exact hs.runOn h.candidate.2.1 h.candidate.2.2
  | idle hnone h => exact hs.runOn (by decide) h

theorem RunInv.step (h : RunInv s) (hstep : Step s tr t) : RunInv t := by
  obtain ⟨c, hr⟩ := h.running
  obtain ⟨s₁, e, hh, hlt, hrun, rfl⟩ := step_cases hr hstep
  exact (h.handled hr.cur hh).runOn hlt hrun

/-- Wherever `sched_yield` is called, what it relies on holds. -/
theorem SchedCall.inv {s₀ : Kern} (hboot : SchedBoot s₀) (h : SchedCall s₀ t) :
    SchedInv t := by
  cases h with
  | boot => exact hboot.inv
  | trap hfirst hrun htrap hh =>
      have hinv := hrun.invariant (fun _ _ _ hs _ hstep => hs.step hstep)
        ((hfirst ▸ hboot.inv.yields).runInv hboot.inv)
      exact hinv.handled htrap.cur hh

/-! ## The choice, and the turns -/

theorem Chosen.unique (hd : Chosen s d) (he : Chosen s e) : d = e := by
  by_contra hne
  have hde := hd.best e he.candidate (Ne.symm hne)
  have hed := he.best d hd.candidate hne
  unfold Outranks at hde hed
  bv_omega

/-- The chosen one is the first of those that tie, after the current slot. -/
theorem Chosen.nextIn (h : Chosen s e) : NextIn NENV s.ties s.curSlot e := by
  have hmem : e ∈ s.ties := by
    rw [Kern.ties, Finset.mem_filter, Finset.mem_range]
    refine ⟨h.candidate.2.1, h.candidate, fun d _ hd hout => ?_⟩
    rcases eq_or_ne d e with rfl | hne
    · unfold Outranks at hout
      bv_omega
    · have hed := h.best d hd hne
      unfold Outranks at hout hed
      bv_omega
  refine ⟨hmem, fun d hd => ?_⟩
  rw [Kern.ties, Finset.mem_filter] at hd
  rcases eq_or_ne d e with rfl | hne
  · exact le_rfl
  · rcases h.best d hd.2.1 hne with hout | ⟨-, -, hlt⟩
    · exact absurd hout (hd.2.2 e h.candidate.2.1 h.candidate)
    · exact hlt.le

/-- The calls `t 0`, …, `t (k - 1)` of `sched_yield` are consecutive: whom one
call resumed is current at the next one. Statuses, priorities and counters are
the same at all of them. -/
structure Consecutive (s₀ : Kern) (t : Nat → Kern) (k : Nat) : Prop where
  call : ∀ i, i < k → SchedCall s₀ (t i)
  next : ∀ i, i + 1 < k → ∃ s', (schedYield : K Unit) (t i) = .away s'
    ∧ (t (i + 1)).curenv = s'.curenv
  same : ∀ i, i < k → ∀ e, ((t i).envs e).envStatus = ((t 0).envs e).envStatus
    ∧ ((t i).envs e).envPriority = ((t 0).envs e).envPriority
    ∧ ((t i).envs e).envIpcSended = ((t 0).envs e).envIpcSended

theorem ties_congr (h : ∀ e, (t.envs e).envStatus = (s.envs e).envStatus
    ∧ (t.envs e).envPriority = (s.envs e).envPriority
    ∧ (t.envs e).envIpcSended = (s.envs e).envIpcSended) : t.ties = s.ties := by
  have hcand : ∀ e, Candidate t e ↔ Candidate s e := fun e => by
    rw [Candidate, Candidate, (h e).1]
  have hout : ∀ d e, Outranks t d e ↔ Outranks s d e := fun d e => by
    rw [Outranks, Outranks, (h d).2.1, (h d).2.2, (h e).2.1, (h e).2.2]
  simp only [Kern.ties, hcand, hout]

theorem SchedInv.chosen (h : SchedInv s) (he : Candidate s e) :
    ∃ b, Chosen s b ∧ (schedYield : K Unit) s = .away (s.runOn b) := by
  have hy := h.yields
  generalize hout : (schedYield : K Unit) s = out at hy
  cases hy with
  | run hb => exact ⟨_, hb, rfl⟩
  | idle hnone _ => exact absurd he (hnone e)
  | stop hnone _ => exact absurd he (hnone e)

/-- Whoever `sched_yield` resumes can run. -/
theorem SchedInv.runnable_of_away (h : SchedInv s)
    (hout : (schedYield : K Unit) s = .away (s.runOn e)) :
    (s.envs e).envStatus = .runnable := by
  have hcur : ∀ b, s.runOn e = s.runOn b → e = b := by
    intro b heq
    have hcur := congrArg Kern.curenv heq
    rw [Kern.runOn_curenv, Kern.runOn_curenv] at hcur
    exact Option.some.inj hcur
  have hy := h.yields
  rw [hout] at hy
  generalize ht : s.runOn e = t at hy
  cases hy with
  | run hb => exact hcur _ ht ▸ hb.candidate.2.2
  | idle _ hrun => exact hcur _ ht ▸ hrun

/-- Whoever ties for best runs in exactly one of as many consecutive calls as
there are such environments. -/
theorem Consecutive.turns {s₀ : Kern} {t : Nat → Kern} (hboot : SchedBoot s₀)
    (h : Consecutive s₀ t (t 0).ties.card) (he : e ∈ (t 0).ties) :
    ∃! i, i < (t 0).ties.card ∧ (schedYield : K Unit) (t i) =
      .away ((t i).runOn e) := by
  have hcand : ∀ i, i < (t 0).ties.card → Candidate (t i) e := by
    intro i hi
    rw [Kern.ties, Finset.mem_filter] at he
    rw [Candidate, (h.same i hi e).1]
    exact he.2.1
  have hrun : ∀ i, ∃ b, i < (t 0).ties.card →
      Chosen (t i) b ∧ (schedYield : K Unit) (t i) = .away ((t i).runOn b) := by
    intro i
    by_cases hi : i < (t 0).ties.card
    · obtain ⟨b, hb⟩ := ((h.call i hi).inv hboot).chosen (hcand i hi)
      exact ⟨b, fun _ => hb⟩
    · exact ⟨0, fun hi' => absurd hi' hi⟩
  choose f hf using hrun
  -- the turns go around the circle
  have hnext : ∀ i, i < (t 0).ties.card →
      NextIn NENV (t 0).ties (t i).curSlot (f i) := by
    intro i hi
    rw [← ties_congr (h.same i hi)]
    exact (hf i hi).1.nextIn
  have honce : ∃! i, i < (t 0).ties.card ∧ f i = e := by
    refine everyone_once (c := (t 0).curSlot) ?_ (fun i hi => ?_)
      (fun hpos => hnext 0 hpos)
      (fun i hi => ?_) he
    · exact ((h.call 0 (Finset.card_pos.mpr ⟨e, he⟩)).inv hboot).curSlot_lt
    · rw [Kern.ties, Finset.mem_filter, Finset.mem_range] at hi
      exact hi.1
    · have hslot : (t (i + 1)).curSlot = f i := by
        obtain ⟨s', hs', hcur⟩ := h.next i hi
        obtain rfl := Outcome.away.inj ((hf i (by omega)).2.symm.trans hs')
        rw [Kern.curSlot, hcur, Kern.runOn_curenv]
        rfl
      rw [← hslot]
      exact hnext (i + 1) hi
  have hiff : ∀ i, i < (t 0).ties.card →
      ((schedYield : K Unit) (t i) = .away ((t i).runOn e)
      ↔ f i = e) := by
    intro i hi
    rw [(hf i hi).2]
    constructor
    · intro heq
      have hcur := congrArg Kern.curenv (Outcome.away.inj heq)
      rw [Kern.runOn_curenv, Kern.runOn_curenv] at hcur
      exact Option.some.inj hcur
    · rintro rfl
      rfl
  obtain ⟨i, ⟨hi, hfi⟩, huniq⟩ := honce
  exact ⟨i, ⟨hi, (hiff i hi).mpr hfi⟩, fun j ⟨hj, hout⟩ =>
    huniq j ⟨hj, (hiff j hj).mp hout⟩⟩

/-- `sched_yield` runs the candidate of greatest priority, among those the one
that has sent least, and among those the first after the current slot; slot 0
only if there is no candidate; and nobody that cannot run. Environments that tie
for best take turns. -/
theorem sched_yield_best {s₀ : Kern} (hboot : SchedBoot s₀) :
    (∀ t, SchedCall s₀ t →
      ((∃ e, Candidate t e) →
        ∃ e, Chosen t e ∧ (schedYield : K Unit) t = .away (t.runOn e))
      ∧ ((∀ e, ¬Candidate t e) → (schedYield : K Unit) t =
          if (t.envs 0).envStatus = .runnable then .away (t.runOn 0) else
            .stop .monitor t)
      ∧ ∀ e, (schedYield : K Unit) t = .away (t.runOn e) →
          (t.envs e).envStatus = .runnable)
    ∧ ∀ (t : Nat → Kern) (k : Nat), k = (t 0).ties.card → Consecutive s₀ t k →
      ∀ e ∈ (t 0).ties, ∃! i, i < k ∧ (schedYield : K Unit) (t i) =
        .away ((t i).runOn e) := by
  refine ⟨fun t hcall => ⟨?_, ?_, ?_⟩, ?_⟩
  · rintro ⟨e, he⟩
    exact (hcall.inv hboot).chosen he
  · intro hnone
    have hy := (hcall.inv hboot).yields
    generalize hout : (schedYield : K Unit) t = out at hy
    cases hy with
    | run hb => exact absurd hb.candidate (hnone _)
    | idle _ hrun => rw [if_pos hrun]
    | stop _ hrun => rw [if_neg hrun]
  · exact fun e hout => (hcall.inv hboot).runnable_of_away hout
  · intro t k hk h e he
    rw [hk] at h ⊢
    exact h.turns hboot he

/-! ## Timer interrupts -/

/-- A timer interrupt in user mode calls `sched_yield`. -/
theorem step_timer (hc : s.curenv = some c)
    (hcs : (s.envs c).envTf.tfCs &&& 3 = 3)
    (h : (schedYield : K Unit) (s.saved c (Act.timer.trap s c)) = .away s') :
    Step s (Act.timer.trap s c) s' := by
  refine ⟨⟨c, Act.userTrap hc⟩, (trap_of_curenv hc hcs).trans ?_⟩
  have hdispatch :
      trapDispatch c (Act.timer.trap s c).cr2 (Act.timer.trap s c).getc
      (s.saved c (Act.timer.trap s c)) = .away s' := by
    have hno : (Act.timer.trap s c).tf.tfTrapno = IRQ_OFFSET + IRQ_TIMER := rfl
    rw [← h]
    unfold trapDispatch
    rw [Prog.ask_bind, Kern.saved_envs_self_tf, hno, if_neg (by decide),
      if_pos rfl]
  rw [Prog.bind_away hdispatch]

/-- The next call of `sched_yield`, if the timer interrupts whom this one
resumes. -/
def Kern.ticked (t : Kern) : Kern :=
  match (schedYield : K Unit) t with
  | .away s => s.saved (s.curenv.getD 0) (Act.timer.trap s (s.curenv.getD 0))
  | _ => t

theorem ticked_of_chosen (h : (schedYield : K Unit) t = .away (t.runOn e)) :
    t.ticked = (t.runOn e).saved e (Act.timer.trap (t.runOn e) e) := by
  unfold Kern.ticked
  rw [h]
  simp only [Kern.runOn_curenv, Option.getD_some]

/-- Statuses, priorities and counters are the same in `t` as in `s`, and all
frames are those of user code. -/
structure Ticks (s t : Kern) : Prop where
  same : ∀ e, (t.envs e).envStatus = (s.envs e).envStatus
    ∧ (t.envs e).envPriority = (s.envs e).envPriority
    ∧ (t.envs e).envIpcSended = (s.envs e).envIpcSended
  cs : ∀ e, (t.envs e).envTf.tfCs &&& 3 = 3

theorem Ticks.tick (h : Ticks s t) (c e : Nat) :
    Ticks s ((t.runOn e).saved c (Act.timer.trap (t.runOn e) c)) := by
  have hcs : ∀ d, ((t.runOn e).envs d).envTf = (t.envs d).envTf :=
    fun d => Kern.runOn_proj Env.envTf fun _ _ => rfl
  refine ⟨fun d => ?_, fun d => ?_⟩
  · obtain ⟨hst, hprio, hsent⟩ := h.same d
    exact ⟨saved_status.trans (runOn_status.trans hst),
      (Kern.saved_proj Env.envPriority fun _ => rfl).trans
        ((Kern.runOn_proj Env.envPriority fun _ _ => rfl).trans hprio),
      (Kern.saved_proj Env.envIpcSended fun _ => rfl).trans
        ((Kern.runOn_proj Env.envIpcSended fun _ _ => rfl).trans hsent)⟩
  · by_cases hd : d = c
    · rw [hd, Kern.saved_envs_self_tf]
      change ((t.runOn e).envs c).envTf.tfCs &&& 3 = 3
      rw [hcs]
      exact h.cs c
    · rw [Kern.saved_envs_ne hd, hcs]
      exact h.cs d

/-- Timer interrupts make consecutive calls. -/
theorem consecutive_ticks {s₀ : Kern} (hboot : SchedBoot s₀)
    (he : Candidate s₀ e)
    (hcs : ∀ d, (s₀.envs d).envTf.tfCs &&& 3 = 3) (k : Nat) :
    Consecutive s₀ (fun i => Kern.ticked^[i] s₀) k := by
  -- at each call somebody is chosen, and the run so far is one of the machine
  have key : ∀ i, ∃ b s₁, SchedCall s₀ (Kern.ticked^[i] s₀)
      ∧ Ticks s₀ (Kern.ticked^[i] s₀)
      ∧ (schedYield : K Unit) (Kern.ticked^[i] s₀) =
        .away ((Kern.ticked^[i] s₀).runOn b)
      ∧ (schedYield : K Unit) s₀ = .away s₁
      ∧ Runs Step (fun _ _ => True) s₁ ((Kern.ticked^[i] s₀).runOn b) := by
    intro i
    induction i with
    | zero =>
        obtain ⟨b, -, hb⟩ := hboot.inv.chosen he
        exact ⟨b, _, .boot, ⟨fun _ => ⟨rfl, rfl, rfl⟩, hcs⟩, hb, hb,
          Runs.refl _⟩
    | succ i ih =>
        obtain ⟨b, s₁, hcall, hticks, hb, hfirst, hrun⟩ := ih
        rw [Function.iterate_succ_apply', ticked_of_chosen hb]
        generalize Kern.ticked^[i] s₀ = t at *
        have hcur : (t.runOn b).curenv = some b := Kern.runOn_curenv
        have hticks' := hticks.tick b b
        have hcall' : SchedCall s₀
            ((t.runOn b).saved b (Act.timer.trap (t.runOn b) b)) := by
          refine .trap hfirst hrun (Act.userTrap hcur) (.idle ?_)
          rw [Kern.saved_envs_self_tf]
          exact nofun
        have hcand :
            Candidate ((t.runOn b).saved b (Act.timer.trap (t.runOn b) b)) e :=
          ⟨he.1, he.2.1, (hticks'.same e).1.trans he.2.2⟩
        obtain ⟨b', -, hb'⟩ := (hcall'.inv hboot).chosen hcand
        have huser : ((t.runOn b).envs b).envTf.tfCs &&& 3 = 3 := by
          rw [Kern.runOn_proj Env.envTf fun _ _ => rfl]
          exact hticks.cs b
        exact ⟨b', s₁, hcall', hticks', hb', hfirst,
          hrun.tail trivial (step_timer hcur huser hb')⟩
  refine ⟨fun i _ => ?_, fun i _ => ?_, fun i _ e => ?_⟩
  · obtain ⟨b, s₁, hcall, -⟩ := key i
    exact hcall
  · obtain ⟨b, s₁, -, -, hb, -⟩ := key i
    refine ⟨_, hb, ?_⟩
    rw [Function.iterate_succ_apply', ticked_of_chosen hb]
    rfl
  · obtain ⟨b, s₁, -, hticks, -⟩ := key i
    exact hticks.same e

end

/-- Three environments tie in the small kernel, and each of them runs once in
three ticks. -/
theorem sched_yield_best_small : 3 = (smallKern 1).dropCur.ties.card
    ∧ ∀ e ∈ (smallKern 1).dropCur.ties, ∃! i, i < 3
    ∧ (schedYield : K Unit) (Kern.ticked^[i] (smallKern 1).dropCur)
      = .away ((Kern.ticked^[i] (smallKern 1).dropCur).runOn e) := by
  have hboot : SchedBoot (smallKern 1).dropCur :=
    ⟨(smallKern_envInv 1).dropCur, rfl, fun _ _ => rfl⟩
  have hcs : ∀ d, ((smallKern 1).dropCur.envs d).envTf.tfCs &&& 3 = 3 := by
    intro d
    change (initTf d).tfCs &&& 3 = 3
    unfold initTf
    split <;> decide
  have hcard : 3 = (smallKern 1).dropCur.ties.card := by decide +kernel
  exact ⟨hcard, (sched_yield_best hboot).2
    (fun i => Kern.ticked^[i] (smallKern 1).dropCur) 3
    hcard (consecutive_ticks hboot (e := 1) (by decide) hcs 3)⟩

end Jos
