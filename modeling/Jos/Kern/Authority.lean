import Jos.Kern.InUse

/-!
# Authority over other environments

What a call of `c` can change of an environment that `c` does not control. It
receives what is sent to it, and is let go where it is queued for `c`; and
anyone may let a suspended environment run by `sys_env_restore`, as restoring a
checkpoint needs it. All else of it stays, and so does what it maps.
-/

namespace Jos

section

variable {L : Layout} {s₀ s t : Kern} {c e : Nat} {tr : Trap}

/-- What a send that returns 0 makes of the receiver. -/
theorem SendsTo.receiver (hr : Running s c) (hstep : Step s tr t) (hec : e ≠ c)
    (h : SendsTo (s.saved c tr) c e) :
    ((s.saved c tr).envs e).Ready ∧ ∃ runs, t.envs e =
      { deliver ((s.saved c tr).envs c).envId ((s.saved c tr).envs c).envTf.a2
          (sentPerm (s.saved c tr) c e) ((s.saved c tr).envs e) with
        envRuns := runs } := by
  have hrs := hr.saved tr
  obtain ⟨hready, v, -, hret⟩ := h.ret hrs.cur
  refine ⟨hready, ?_⟩
  have hcall := h.call
  rw [Kern.saved_envs_self_tf] at hcall hret
  have hsys : tr.tf.tfTrapno = T_SYSCALL := by
    by_contra hno
    rw [Trapframe.sysNo, if_neg hno] at hcall
    cases hcall
  rw [Trapframe.sysNo, if_pos hsys] at hcall
  have hsyscall : syscall tr.tf.tfRegs.regEax tr.tf.a1 tr.tf.a2 tr.tf.a3
      tr.tf.a4 tr.tf.a5 tr.getc (s.saved c tr) = .ret 0
        ((s.saved c tr).delivered c e (sentPerm (s.saved c tr) c e) v) := by
    unfold syscall
    rw [hcall]
    exact hret
  obtain ⟨d, -, rfl⟩ := step_of_syscall_ret hr hstep hsys hsyscall
  obtain ⟨runs, hruns⟩ := Kern.runOn_envs
    (s := ((s.saved c tr).delivered c e (sentPerm (s.saved c tr) c e) v).sysRet
      c 0) (d := d) (e := e)
  refine ⟨runs, hruns.trans ?_⟩
  rw [Kern.sysRet_envs_ne hec, Kern.delivered, Kern.setEnv_envs_ne hec,
    Kern.setEnv_envs_self]
  rfl

end

end Jos
