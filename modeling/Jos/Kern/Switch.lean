import Jos.Kern.Small

/-!
# Context switches

`env_run` loads `cr3` only when `curenv` changes. That is right because `cr3` is
always the directory of `curenv` when there is one: no handler gives the
environment that runs another directory, and whoever frees that environment also
clears `curenv`. The runs start with the first `sched_yield`, which finds
`curenv` null, and a trap may bring any frame and any memory.
-/

namespace Jos

/-- The trap frame that `env_pop_tf(&curenv->env_tf)` restores. -/
def Kern.restored (s : Kern) : Option Trapframe :=
  s.curenv.map fun c => (s.envs c).envTf

/-- The kernel handles the trap `tr`, and ends in `env_run`. -/
def TrapStep (s : Kern) (tr : Trap) (s' : Kern) : Prop :=
  trap tr (s.enter tr) = .away s'

section

variable {s s₁ s' t : Kern} {c d e : Nat} {tr : Trap}

theorem Kern.runOn_of_ne (h : s.curenv ≠ some e) :
    (s.runOn e).cr3 = ((s.runOn e).envs e).envCr3 := by
  simp [Kern.runOn, h]

/-- If `cr3` is right whenever there is a current environment, it is right after
`env_run`. -/
theorem Kern.runOn_cr3 (h : ∀ c, s.curenv = some c → s.cr3 = (s.envs c).envCr3)
    (e : Nat) :
    (s.runOn e).cr3 = ((s.runOn e).envs e).envCr3 := by
  by_cases he : s.curenv = some e
  · rw [Kern.runOn, if_pos he]
    exact h e he
  · exact Kern.runOn_of_ne he

theorem Kern.saved_cr3 (h : s.cr3 = (s.envs c).envCr3) :
    (s.saved c tr).cr3 = ((s.saved c tr).envs c).envCr3 :=
  h.trans (Kern.saved_proj Env.envCr3 fun _ => rfl).symm

theorem cr3_sysRet {r : Word} :
    ((s.sysRet c r).envs d).envCr3 = (s.envs d).envCr3 :=
  Kern.setEnv_proj Env.envCr3 rfl

/-- Handling a trap of `c` leaves no current environment, or leaves `cr3` and
the directory of `c` as they were. -/
theorem Handled.cr3 (hr : Running s c) (henv : EnvInv s) (hh : Handled c s s₁) :
    s₁.curenv = none ∨ (s₁.cr3 = s.cr3 ∧ (s₁.envs c).envCr3 =
      (s.envs c).envCr3) := by
  have hcur : ∀ e, e ≠ c → s.curenv ≠ some e := by
    intro e he h
    rw [hr.cur, Option.some_inj] at h
    exact he h.symm
  cases hh with
  | idle hno => exact .inr ⟨rfl, rfl⟩
  | @push v va upcall hno hv =>
      exact .inr ⟨rfl, Kern.setEnv_proj (s := s.withVm v) Env.envCr3 rfl⟩
  | exit hwhy hv => exact .inl rfl
  | @destroy e v hno hres hne hv =>
      refine .inr ⟨if_neg (hcur e hne), cr3_sysRet.trans ?_⟩
      rw [Kern.freed_envs_ne (Ne.symm hne)]
  | ret hno hv => exact .inr ⟨rfl, cr3_sysRet⟩
  | @field e f hno hctl hf =>
      obtain ⟨_, _, _, _, _, hf⟩ := hf (s.envs e)
      exact .inr
        ⟨rfl, cr3_sysRet.trans (Kern.setEnv_proj Env.envCr3 (by rw [hf]))⟩
  | status hno hres hst =>
      exact .inr ⟨rfl, cr3_sysRet.trans (Kern.setEnv_proj Env.envCr3 rfl)⟩
  | @uxstack e v r hno hres hva hperm hv =>
      exact .inr ⟨rfl, cr3_sysRet.trans
        (Kern.setEnv_proj (s := s.withVm v) Env.envCr3 rfl)⟩
  | trapframe hno hres hbytes =>
      exact .inr ⟨rfl, cr3_sysRet.trans (Kern.setEnv_proj Env.envCr3 rfl)⟩
  | @exofork e dir v hno hfirst hv =>
      -- the new environment takes a free slot, not that of `c`
      obtain ⟨-, hfree, -⟩ := henv.alloced hfirst (s.envs c).envId dir v
      have hce : c ≠ e := by
        rintro rfl
        rw [hr.runnable] at hfree
        cases hfree
      refine .inr ⟨rfl, cr3_sysRet.trans ?_⟩
      rw [Kern.setEnv_envs_ne hce, Kern.alloced_envs_ne hce]
  | restore hno hres hst hne hv => exact .inl rfl
  | queue hno hres hbusy hroom =>
      exact .inr ⟨rfl, Kern.setEnv_proj Env.envCr3 rfl⟩
  | sendErr hno hres hready hdst hsrc hperm hv => exact .inr ⟨rfl, cr3_sysRet⟩
  | @sent e perm v hno hres hready hv =>
      exact .inr ⟨rfl, cr3_sysRet.trans ((Kern.setEnv_proj Env.envCr3 rfl).trans
        (Kern.setEnv_proj (s := s.withVm v) Env.envCr3 rfl))⟩
  | recvErr hno hnone =>
      exact .inr ⟨rfl, cr3_sysRet.trans (Kern.setEnv_proj Env.envCr3 rfl)⟩
  | recvWait hno hnone => exact .inr ⟨rfl, Kern.setEnv_proj Env.envCr3 rfl⟩
  | recvWake hrel =>
      exact .inr ⟨rfl, (Kern.setEnv_proj Env.envCr3 rfl).trans
        (Kern.setEnv_proj Env.envCr3 rfl)⟩

/-! ## The invariant -/

/-- User mode is resumed in `s`: the current environment can run, in its own
address space. -/
structure SwitchInv (s : Kern) : Prop where
  sys : SysInv s
  cr3 : ∀ c, s.curenv = some c → s.cr3 = (s.envs c).envCr3

/-- `env_run` of a runnable environment, where `cr3` is right if there is a
current one. -/
theorem SwitchInv.runOn (henv : EnvInv s)
    (hcr3 : ∀ c, s.curenv = some c → s.cr3 = (s.envs c).envCr3)
    (hlt : e < NENV) (hrun : (s.envs e).envStatus = .runnable) :
    SwitchInv (s.runOn e) where
  sys := ⟨henv.runOn, e, Kern.runOn_curenv, hlt,
    (Kern.runOn_proj Env.envStatus fun _ _ => rfl).trans hrun⟩
  cr3 c hc := by
    rw [Kern.runOn_curenv, Option.some_inj] at hc
    subst hc
    exact Kern.runOn_cr3 hcr3 e

/-- The first `sched_yield` finds no current environment. -/
theorem SwitchInv.schedYield (henv : EnvInv s) (hcur : s.curenv = none)
    (h : (Jos.schedYield : K Unit) s = .away s') : SwitchInv s' := by
  refine Prog.wp.away (Q := fun _ _ => True) (A := SwitchInv)
    (E := fun _ _ => True) ?_ h
  refine wp_schedYield (fun e hlt hrun => ?_) trivial
  refine SwitchInv.runOn henv (fun c hc => ?_) hlt hrun
  rw [hcur] at hc
  cases hc

theorem SwitchInv.step (h : SwitchInv s) (hstep : TrapStep s tr s') :
    SwitchInv s' := by
  obtain ⟨c, hr⟩ := h.sys.running
  obtain ⟨s₁, e, hh, hlt, hrun, rfl⟩ := (wp_trap hr tr).away hstep
  have hrs := hr.saved tr
  have henv := h.sys.env.saved (c := c) tr
  refine SwitchInv.runOn (hh.envInv hrs henv) (fun d hd => ?_) hlt hrun
  rcases hh.cr3 hrs henv with hnone | ⟨hcr3, hdir⟩
  · rw [hnone] at hd
    cases hd
  · rcases hh.curenv with hsame | hnone
    · rw [hsame, hrs.cur, Option.some_inj] at hd
      subst hd
      rw [hcr3, hdir]
      exact Kern.saved_cr3 (h.cr3 c hr.cur)
    · rw [hnone] at hd
      cases hd

/-- A trap from user mode passes the assertion on `curenv`: its frame is saved
and it is dispatched. -/
theorem trap_of_curenv (hc : s.curenv = some c) (htr : tr.tf.tfCs &&& 3 = 3) :
    trap tr (s.enter tr)
      = (trapDispatch c tr.cr2 tr.getc >>= fun _ => resume) (s.saved c tr) := by
  unfold trap
  rw [if_pos htr, Prog.ask_bind, show (s.enter tr).curenv = some c from hc]
  change (Prog.update _ >>= fun _ => trapDispatch c tr.cr2 tr.getc >>=
    fun _ => resume)
    (s.enter tr) = _
  rw [Prog.update_bind]
  rfl

/-! ## The run -/

/-- Whenever user mode is resumed after the first `sched_yield`, `curenv` is a
live and runnable environment, whose frame is restored and whose directory `cr3`
is; and the next trap from user mode passes the assertion on `curenv`. -/
theorem context_switch {s₀ : Kern} (henv : EnvInv s₀) (hcur : s₀.curenv = none)
    (hfirst : (schedYield : K Unit) s₀ = .away s)
    (hrun : Runs TrapStep (fun _ _ => True) s t) :
    ∃ c, t.curenv = some c ∧ t.Live c ∧ (t.envs c).envStatus = .runnable
      ∧ t.restored = some (t.envs c).envTf ∧ t.cr3 = (t.envs c).envCr3
      ∧ ∀ tr : Trap, tr.tf.tfCs &&& 3 = 3 → trap tr (t.enter tr)
        = (trapDispatch c tr.cr2 tr.getc >>= fun _ => resume)
          (t.saved c tr) := by
  have hinv : SwitchInv t := hrun.invariant (fun _ _ _ hu _ hs => hu.step hs)
    (.schedYield henv hcur hfirst)
  obtain ⟨c, hr⟩ := hinv.sys.running
  refine ⟨c, hr.cur, hr.live, hr.runnable, ?_, hinv.cr3 c hr.cur, fun tr =>
    trap_of_curenv hr.cur⟩
  rw [Kern.restored, hr.cur]
  rfl

end

/-- The first environment to run destroys itself, and the next one is
resumed. -/
theorem context_switch_small : ∃ s t tr,
    (schedYield : K Unit) (smallKern 1).dropCur = .away s ∧ TrapStep s tr t
    ∧ s.curenv = some 1 ∧ t.curenv = some 2 ∧ t.cr3 = (t.envs 2).envCr3 := by
  have hrun : (((schedYield : K Unit) (smallKern 1).dropCur).gone.any fun s =>
      (trap (callTrap s 1 3 0 0 0 0 0) s).gone.any fun t =>
        decide (s.curenv = some 1 ∧ t.curenv = some 2)) = true := by
    decide +kernel
  obtain ⟨s, hs, hrun⟩ := (Option.any_eq_true _ _).mp hrun
  obtain ⟨t, ht, hrun⟩ := (Option.any_eq_true _ _).mp hrun
  rw [Outcome.gone_eq_some] at hs ht
  obtain ⟨hcs, hct⟩ := of_decide_eq_true hrun
  have hstep : TrapStep s (callTrap s 1 3 0 0 0 0 0) t := ht
  obtain ⟨c, hc, -, -, -, hcr3, -⟩ :=
    context_switch (smallKern_envInv 1).dropCur rfl hs (.single trivial hstep)
  obtain rfl := Option.some.inj (hct.symm.trans hc)
  exact ⟨s, t, _, hs, hstep, hcs, hct, hcr3⟩

end Jos
