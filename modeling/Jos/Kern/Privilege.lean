import Jos.Kern.History

/-!
# Privileges

The code segment and the flags of the saved trap frames. Only
`sys_env_set_trapframe` takes flags from the user: it sets `FL_IF`, and leaves
the I/O privilege level as it finds it.
-/

namespace Jos

section

variable {s s₁ s' t : Kern} {tr : Trap} {c d e : Nat}

/-- The part of a trap frame that decides about privileges. -/
def Trapframe.flags (tf : Trapframe) : BitVec 16 × Word :=
  (tf.tfCs, tf.tfEflags)

theorem Trapframe.Unprivileged.congr {tf tf' : Trapframe} (h : tf.Unprivileged)
    (hflags : tf'.flags = tf.flags) : tf'.Unprivileged := by
  obtain ⟨hcs, hefl⟩ := Prod.mk.inj hflags
  exact ⟨hcs ▸ h.cs, hefl ▸ h.intr, hefl ▸ h.iopl⟩

/-- What a step can do to the flags of `d`. -/
inductive FlagsChange (c : Nat) (s s₁ : Kern) (d : Nat) : Prop where
  | same (h : (s₁.envs d).envTf.flags = (s.envs d).envTf.flags)
  | set {bytes : Bytes} (hno : (s.envs c).envTf.sysNo = some .envSetTrapframe)
      (hres : s.resolve c (s.envs c).envTf.a1 true = .ok d)
      (hbytes : kload s.cr3 (s.envs c).envTf.a2 SIZEOF_STRUCT_TRAPFRAME s.vm
        = .ret bytes s.vm)
      (h : (s₁.envs d).envTf.flags = (userTf (Trapframe.ofBytes bytes 0)).flags)
  | forked (hno : (s.envs c).envTf.sysNo = some .exofork)
      (h : (s₁.envs d).envTf.flags = (s.envs c).envTf.flags)

def Env.flags (env : Env) : BitVec 16 × Word := env.envTf.flags

theorem flags_sysRet {r : Word} :
    ((s.sysRet c r).envs d).flags = (s.envs d).flags :=
  Kern.setEnv_proj Env.flags rfl

/-- Every way to handle a trap, seen from the flags of `d`. -/
theorem Handled.flagsChange (hr : Running s c) (henv : EnvInv s)
    (hh : Handled c s s₁)
    (d : Nat) : FlagsChange c s s₁ d := by
  cases hh with
  | idle hno => exact .same rfl
  | push hno hv =>
      exact .same (Kern.setEnv_proj (s := s.withVm _) Env.flags rfl)
  | @exit v hwhy hv => exact .same (Kern.freed_proj (v := v) Env.flags rfl)
  | destroy hno hres hne hv =>
      exact .same (flags_sysRet.trans (Kern.freed_proj Env.flags rfl))
  | ret hno hv => exact .same flags_sysRet
  | @field e f hno hctl hf =>
      obtain ⟨_, _, _, _, _, hf⟩ := hf (s.envs e)
      exact .same
        (flags_sysRet.trans (Kern.setEnv_proj Env.flags (by rw [hf]; rfl)))
  | status hno hres hst =>
      exact .same (flags_sysRet.trans (Kern.setEnv_proj Env.flags rfl))
  | @uxstack e v r hno hres hva hperm hv =>
      exact .same
        (flags_sysRet.trans (Kern.setEnv_proj (s := s.withVm v) Env.flags rfl))
  | @trapframe e bytes hno hres hbytes =>
      by_cases hd : d = e
      · subst hd
        refine .set hno hres hbytes (flags_sysRet.trans ?_)
        rw [Kern.setEnv_envs_self]
        rfl
      · exact .same
          (flags_sysRet.trans (congrArg Env.flags (Kern.setEnv_envs_ne hd)))
  | @exofork e dir v hno hfirst hv =>
      obtain ⟨-, hfree, -⟩ := henv.alloced hfirst (s.envs c).envId dir v
      by_cases hd : d = e
      · subst hd
        have hdc : c ≠ d := by
          rintro rfl
          rw [hr.runnable] at hfree
          cases hfree
        refine .forked hno (flags_sysRet.trans ?_)
        rw [Kern.setEnv_envs_self, Kern.alloced_envs_ne hdc]
        rfl
      · refine .same (flags_sysRet.trans ?_)
        rw [Kern.setEnv_envs_ne hd, Kern.alloced_envs_ne hd]
        rfl
  | @restore e v hno hres hst hne hv =>
      exact .same ((Kern.freed_proj (v := v) Env.flags rfl).trans
        (Kern.setEnv_proj Env.flags rfl))
  | queue hno hres hbusy hroom => exact .same (Kern.setEnv_proj Env.flags rfl)
  | sendErr hno hres hready hdst hsrc hperm hv => exact .same flags_sysRet
  | @sent e perm v hno hres hready hv =>
      exact .same (flags_sysRet.trans ((Kern.setEnv_proj Env.flags rfl).trans
        (Kern.setEnv_proj (s := s.withVm v) Env.flags rfl)))
  | recvErr hno hnone =>
      exact .same (flags_sysRet.trans (Kern.setEnv_proj Env.flags rfl))
  | recvWait hno hnone => exact .same (Kern.setEnv_proj Env.flags rfl)
  | recvWake hrel =>
      exact .same ((Kern.setEnv_proj Env.flags rfl).trans
        (Kern.setEnv_proj Env.flags rfl))

/-! ## The step -/

/-- The trap is a `sys_env_set_trapframe` on an environment other than
`envs[1]`, with a frame whose I/O privilege level is not 0. -/
def GivesPrivilege (s : Kern) (tr : Trap) : Prop :=
  ∃ c e bytes, s.curenv = some c ∧ tr.tf.sysNo = some .envSetTrapframe
    ∧ (s.saved c tr).resolve c tr.tf.a1 true = .ok e ∧ e ≠ 1
    ∧ kload s.cr3 tr.tf.a2 SIZEOF_STRUCT_TRAPFRAME (s.enter tr).vm =
    .ret bytes (s.enter tr).vm
    ∧ (Trapframe.ofBytes bytes 0).tfEflags &&& FL_IOPL_MASK ≠ 0

/-- `envs[1]` makes no system calls. -/
def QuietServer (s : Kern) (tr : Trap) : Prop :=
  s.curenv = some 1 → tr.tf.sysNo = none

theorem userTf_unprivileged {tf : Trapframe}
    (h : tf.tfEflags &&& FL_IOPL_MASK = 0) :
    (userTf tf).Unprivileged where
  cs := rfl
  intr := by
    apply BitVec.eq_of_getElem_eq
    intro i hi
    simp only [userTf, BitVec.getElem_and, BitVec.getElem_or]
    cases FL_IF[i] <;> simp
  iopl := by
    change (tf.tfEflags ||| FL_IF) &&& FL_IOPL_MASK = 0
    rw [BitVec.and_or_distrib_right, h]
    decide

/-- User code keeps the flags that it cannot change. -/
theorem FromUser.unprivileged {old tf : Trapframe} (h : FromUser old tf)
    (hold : old.Unprivileged) : tf.Unprivileged where
  cs := h.cs.trans hold.cs
  intr := (h.intr (by rw [hold.iopl]; decide)).trans hold.intr
  iopl := h.iopl.trans hold.iopl

structure PrivilegeInv (s : Kern) : Prop where
  sys : SysInv s
  tf : ∀ e, s.Live e → e ≠ 1 → (s.envs e).envTf.Unprivileged

theorem PrivilegeInv.step (h : PrivilegeInv s) (hgive : ¬GivesPrivilege s tr)
    (hserver : QuietServer s tr) (hstep : Step s tr s') : PrivilegeInv s' := by
  refine ⟨h.sys.step hstep, fun d hlive hd => ?_⟩
  obtain ⟨c, hr⟩ := h.sys.running
  obtain ⟨s₁, e, hh, -, -, rfl⟩ := step_cases hr hstep
  have hrs := hr.saved tr
  have hnot1 : ∀ {no}, ((s.saved c tr).envs c).envTf.sysNo = some no →
      c ≠ 1 := by
    rintro no hno rfl
    rw [Kern.saved_envs_self_tf, hserver hr.cur] at hno
    cases hno
  -- the trap frames when the kernel is entered
  have hsaved : ∀ x, s.Live x → x ≠ 1 →
      ((s.saved c tr).envs x).envTf.Unprivileged := by
    intro x hx hx1
    by_cases hxc : x = c
    · subst hxc
      obtain ⟨c', htrap⟩ := hstep.1
      obtain rfl : x = c' := Option.some.inj (hr.cur.symm.trans htrap.cur)
      rw [Kern.saved_envs_self_tf]
      exact htrap.tf.unprivileged (h.tf x hx hx1)
    · rw [Kern.saved_envs_ne hxc]
      exact h.tf x hx hx1
  have hflags : ((s₁.runOn e).envs d).envTf.flags = (s₁.envs d).envTf.flags :=
    Kern.runOn_proj Env.flags fun _ _ => rfl
  have hs₁ : s₁.Live d := runOn_live.mp hlive
  refine Trapframe.Unprivileged.congr ?_ hflags
  rcases hh.flagsChange hrs (h.sys.env.saved tr) d with
    hsame | ⟨hno, hres, hbytes, hset⟩ | ⟨hno, hfork⟩
  · rcases hh.live hrs (h.sys.env.saved tr) hs₁ with hold | hborn
    · exact (hsaved d (saved_live.mp hold) hd).congr hsame
    · refine (hsaved c hr.live (hnot1 hborn.call)).congr ?_
      rw [hborn.tf]
      rfl
  · refine (userTf_unprivileged ?_).congr hset
    rw [Kern.saved_envs_self_tf] at hno hres hbytes
    by_contra hiopl
    exact hgive ⟨c, d, _, hr.cur, hno, hres, hd, hbytes, hiopl⟩
  · exact (hsaved c hr.live (hnot1 hno)).congr hfork

/-! ## The run -/

end

end Jos
