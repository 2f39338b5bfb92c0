import Jos.Ipc.Receive
import Jos.Kern.PageCalls

/-!
# The library's `ipc_recv`

lib/ipc.c wraps `sys_ipc_recv`. Its comment asks for a value that the kernel
understands as no page when `pg` is null, and `va` is computed for that, but the
call passes `pg` itself: 0 is a page like any other to the kernel, and a page
that the sender offers is mapped there.
-/

namespace Jos

open Slot (target)

/-- Receive a message in environment `c`: the sender, the permission and the
value. `recv` is `sys_ipc_recv`, up to its return in `c`. -/
def ipcRecv (recv : Word → K Word) (c : Nat) (pg : Word) :
    K (Word × Word × Word) := do
  let _va := if pg ≠ 0 then pg else UTOP
  let r ← recv pg
  let s ← Prog.ask
  if r.slt 0 then
    pure (0, 0, r)
  else
    pure ((s.envs c).envIpcFrom, (s.envs c).envIpcPerm, (s.envs c).envIpcValue)

/-- `sys_ipc_recv` as `c` sees it when the next message comes from `e`: the
kernel suspends `c`, others run up to a trap of `e`, and what `e` sends wakes
`c`, which finds the result in `reg_eax`. -/
def recvFrom (c e : Nat) (meanwhile : Kern → Kern) (dstva : Word) :
    K Word := fun s =>
  let s₂ := meanwhile (sysIpcRecv dstva s).state
  let tf := (s₂.envs e).envTf
  match sysIpcTrySend tf.a1 tf.a2 tf.a3 tf.a4 s₂ with
  | .ret _ t => .ret (t.envs c).envTf.tfRegs.regEax t
  | .away t => .away t
  | .stop x t => .stop x t

/-- The page-table entry of `c` at directory index `i` and table index `j`. -/
def Kern.pte (s : Kern) (c i j : Nat) : Word := pteAt s.vm.mem s.dirs c i j

/-- In `t`, the receive of `c` that was called in `s` has recorded `pg`, and the
address space of `c` is that of `s`. -/
structure AwaitsAt (c : Nat) (pg : Word) (s t : Kern) : Prop where
  dstva : (t.envs c).envIpcDstva = pg
  pte : ∀ i j, t.pte c i j = s.pte c i j

/-- An `ipc_recv(from, pg, perm)` of `c` that took `s` to `t` changed no mapping
and stored 0 if `pg` is null, and changed at most the mapping at `pg` if that is
a page. -/
structure MapsAtMost (c : Nat) (pg : Word) (s t : Kern) (perm : Word) :
    Prop where
  null : pg = 0 → perm = 0
    ∧ ∀ i j, i < pdxUTOP → j < NPTENTRIES → t.pte c i j = s.pte c i j
  page : pg ≠ 0 → userPage pg → ∀ i j, i < pdxUTOP → j < NPTENTRIES →
    ¬(i = pdx pg ∧ j = ptx pg) → t.pte c i j = s.pte c i j

section

variable {L : Layout} {s s₂ t : Kern} {c e : Nat} {pg perm : Word} {v : Vm}
  {meanwhile : Kern → Kern}

theorem AwaitsAt.runOn (h : AwaitsAt c pg s t) (b : Nat) :
    AwaitsAt c pg s (t.runOn b) := by
  refine ⟨(Kern.runOn_proj Env.envIpcDstva fun _ _ => rfl).trans h.dstva,
    fun i j => ?_⟩
  rw [← h.pte, Kern.pte, Kern.runOn_vm]
  exact congrArg (fun dirs => pteAt t.vm.mem dirs c i j)
    (dirs_congr (fun _ => by rw [runOn_status]) fun _ =>
    Kern.runOn_proj Env.envPgdir fun _ _ => rfl)

/-- With memory and its directory as they were, `c` has the same address
space. -/
theorem AwaitsAt.of_live (hc : s.Live c) (hvm : t.vm = s.vm)
    (hdst : (t.envs c).envIpcDstva = pg)
    (hdir : (t.envs c).envPgdir = (s.envs c).envPgdir)
    (hlive : (t.envs c).envStatus ≠ .free) :
    AwaitsAt c pg s t := by
  refine ⟨hdst, fun i j => ?_⟩
  have hdirs : t.dirs c = s.dirs c := by
    rw [hc.dirs, show t.dirs c = some (t.envs c).envPgdir from
      if_pos ⟨hc.1, hlive⟩, hdir]
  exact pteAt_congr hdirs (fun _ _ => by rw [hvm]) fun _ _ _ _ => by rw [hvm]

/-- The kernel records what `ipc_recv` asks for and leaves the address space
alone. -/
theorem sysIpcRecv_awaits (hr : Running s c) :
    AwaitsAt c pg s (sysIpcRecv pg s).state := by
  have hyield : ∀ u : Kern, AwaitsAt c pg s u → Prog.wp (schedYield : K Word)
      (fun _ u => AwaitsAt c pg s u) (fun u => AwaitsAt c pg s u)
      (fun _ u => AwaitsAt c pg s u) u :=
    fun u hu => wp_schedYield (fun b _ _ => hu.runOn b) hu
  have hset : AwaitsAt c pg s (s.setEnv c (blockRecv pg)) := by
    refine .of_live hr.live rfl ?_ ?_ ?_ <;> rw [Kern.setEnv_envs_self]
    · rfl
    · rfl
    · nofun
  have hwake : ∀ k e, AwaitsAt c pg s
      (dequeueSender k ((s.setEnv c (blockRecv pg)).setEnv e wakeSender)) := by
    intro k e
    refine .of_live hr.live rfl ?_ ?_ ?_ <;> rw [Kern.dequeueSender_envs]
    · exact (Kern.setEnv_proj Env.envIpcDstva rfl).trans hset.dstva
    · rw [Kern.setEnv_proj Env.envPgdir rfl, Kern.setEnv_envs_self]
      rfl
    · by_cases he : c = e
      · rw [he, Kern.setEnv_envs_self]
        nofun
      · rw [Kern.setEnv_envs_ne he, Kern.setEnv_envs_self]
        nofun
  exact (wp_sysIpcRecv hr (fun _ => hset) (fun _ _ _ => hset)
    (fun e _ _ _ => hyield _ (hwake _ e)) fun _ _ => hyield _ hset).state

/-- A page that the sender transfers is mapped at the receiver's `dstva`, and
nowhere else. -/
theorem Transfers.pte (h : Transfers s c e perm v) (hp : PagesOk L s)
    (hc : s.Live c)
    (he : s.Live e) : (∀ i j, i < pdxUTOP → j < NPTENTRIES →
      ¬(i = pdx (s.envs e).envIpcDstva ∧ j = ptx (s.envs e).envIpcDstva) →
      pteAt v.mem s.dirs e i j = s.pte e i j)
    ∧ (¬((s.envs c).envTf.a3 < UTOP ∧ (s.envs e).envIpcDstva < UTOP) →
      perm = 0 ∧ v = s.vm)
    ∧ ((s.envs c).envTf.a3 < UTOP ∧ (s.envs e).envIpcDstva < UTOP →
      perm ≠ 0) := by
  rcases h with ⟨rfl, rfl, hno⟩ | ⟨rfl, hdst, hsrc, hperm, hmap⟩
  · exact ⟨fun _ _ _ _ _ => rfl, fun _ => ⟨rfl, rfl⟩, fun h => absurd h hno⟩
  · refine ⟨fun i j hi hj hne => ?_, fun h => absurd ⟨hsrc.1, hdst⟩ h,
      fun _ h0 => ?_⟩
    · obtain ⟨x, v', hret, hres⟩ :=
        hp.pageMapAt hc he hsrc.1 hdst (validPerm_lt hperm)
      rw [hmap] at hret
      cases hret
      cases hres with
      | mapped _ _ hst =>
          rw [hst.pte e i j (hp.lt he) hi hj, if_neg fun h => hne h.2]
          rfl
    · rw [h0] at hperm
      exact absurd hperm (by decide)

/-- The state after the message has arrived has the address spaces of memory
`v`. -/
theorem delivered_pte (he : s.Live e) (i j : Nat) :
    (s.delivered c e perm v).pte e i j = pteAt v.mem s.dirs e i j := by
  have hlive : ((s.delivered c e perm v).envs e).envStatus ≠ .free := by
    rw [Kern.delivered, Kern.setEnv_proj Env.envStatus rfl,
      Kern.setEnv_envs_self]
    nofun
  have hdir : ((s.delivered c e perm v).envs e).envPgdir =
      (s.envs e).envPgdir :=
    (Kern.setEnv_proj Env.envPgdir rfl).trans
      (Kern.setEnv_proj (s := s.withVm v) Env.envPgdir rfl)
  have hdirs : (s.delivered c e perm v).dirs e = s.dirs e := by
    rw [he.dirs, show (s.delivered c e perm v).dirs e
      = some ((s.delivered c e perm v).envs e).envPgdir from
      if_pos ⟨he.1, hlive⟩, hdir]
  exact pteAt_congr hdirs (fun _ _ => rfl) fun _ _ _ _ => rfl

section Receive

variable (hsend : SendsTo (meanwhile (sysIpcRecv pg s).state) e c)
  (he : Running (meanwhile (sysIpcRecv pg s).state) e) (hne : e ≠ c)
include hsend he hne

/-- The message arrives, and `c` sees what the sender gave. -/
theorem ipcRecv_of_send : ∃ v, Transfers (meanwhile (sysIpcRecv pg s).state) e c
      (sentPerm (meanwhile (sysIpcRecv pg s).state) e c) v
    ∧ ipcRecv (recvFrom c e meanwhile) c pg s
      = .ret (((meanwhile (sysIpcRecv pg s).state).envs e).envId,
          sentPerm (meanwhile (sysIpcRecv pg s).state) e c,
          ((meanwhile (sysIpcRecv pg s).state).envs e).envTf.a2)
        ((meanwhile (sysIpcRecv pg s).state).delivered e c
          (sentPerm (meanwhile (sysIpcRecv pg s).state) e c) v) := by
  obtain ⟨-, v, hv, hcall⟩ := hsend.ret he.cur
  refine ⟨v, hv, ?_⟩
  have hself : ∀ u : Kern, ∀ perm, (u.delivered e c perm v).envs c
      = deliver (u.envs e).envId (u.envs e).envTf.a2 perm (u.envs c) := by
    intro u perm
    rw [Kern.delivered, Kern.setEnv_envs_ne (Ne.symm hne),
      Kern.setEnv_envs_self]
    rfl
  have hrecv : recvFrom c e meanwhile pg s = .ret 0
      ((meanwhile (sysIpcRecv pg s).state).delivered e c
        (sentPerm (meanwhile (sysIpcRecv pg s).state) e c) v) := by
    unfold recvFrom
    dsimp only
    rw [hcall]
    dsimp only
    rw [hself]
    rfl
  unfold ipcRecv
  rw [Prog.bind_ret hrecv, Prog.ask_bind, if_neg (by decide), hself]
  rfl

end Receive

/-- An `ipc_recv` maps at most what it was asked to exactly if `pg` is not null
or the message brings no page. -/
theorem ipc_recv_maps (hr : Running s c)
    (hp : PagesOk L (meanwhile (sysIpcRecv pg s).state))
    (hwait : AwaitsAt c pg s (sysIpcRecv pg s).state →
      AwaitsAt c pg s (meanwhile (sysIpcRecv pg s).state))
    (he : Running (meanwhile (sysIpcRecv pg s).state) e) (hne : e ≠ c)
    (hsend : SendsTo (meanwhile (sysIpcRecv pg s).state) e c) :
    ∃ source perm value t, ipcRecv (recvFrom c e meanwhile) c pg s =
      .ret (source, perm, value) t
      ∧ (MapsAtMost c pg s t perm
        ↔ (pg = 0 →
          UTOP ≤ ((meanwhile (sysIpcRecv pg s).state).envs e).envTf.a3)) := by
  have haw := hwait (sysIpcRecv_awaits hr)
  obtain ⟨v, hv, hret⟩ := ipcRecv_of_send hsend he hne
  generalize meanwhile (sysIpcRecv pg s).state = u at *
  have hc : u.Live c := live_of_resolve hsend.dst he.live
  obtain ⟨hpte, hquiet, hperm⟩ := hv.pte hp he.live hc
  rw [haw.dstva] at hpte hquiet hperm
  refine ⟨_, _, _, _, hret, ?_⟩
  have hsame : ∀ i j, i < pdxUTOP → j < NPTENTRIES →
      ¬(i = pdx pg ∧ j = ptx pg) →
      (u.delivered e c (sentPerm u e c) v).pte c i j = s.pte c i j := by
    intro i j hi hj hij
    rw [delivered_pte hc, hpte i j hi hj hij, haw.pte]
  constructor
  · intro hm h0
    subst h0
    by_contra hlt
    exact hperm ⟨BitVec.not_le.mp hlt, by decide⟩ (hm.null rfl).1
  · intro hno
    refine ⟨fun h0 => ?_, fun _ _ => hsame⟩
    obtain ⟨hperm0, hvm⟩ := hquiet fun h => BitVec.not_lt.mpr (hno h0) h.1
    refine ⟨hperm0, fun i j _ _ => ?_⟩
    rw [delivered_pte hc, hvm]
    exact haw.pte i j

/-! ## A small instance -/

/-- Environment `e` runs and traps with a send. -/
def sending (e : Nat) (dst value srcva perm : Word) (u : Kern) : Kern :=
  (u.switch e).saved e (callTrap u e 12 dst value srcva perm 0)

theorem AwaitsAt.sending {dst value srcva perm : Word} (h : AwaitsAt c pg s t) :
    AwaitsAt c pg s (sending e dst value srcva perm t) := by
  refine ⟨(Kern.saved_proj Env.envIpcDstva fun _ => rfl).trans h.dstva,
    fun i j => ?_⟩
  rw [← h.pte]
  exact congrArg (fun dirs => pteAt t.vm.mem dirs c i j)
    (dirs_congr (fun _ => by rw [Jos.sending, saved_status]; rfl) fun _ =>
    Kern.saved_proj Env.envPgdir fun _ => rfl)

/-- Suspending a receiver does not touch the allocator. -/
theorem PagesOk.sysIpcRecv (h : PagesOk L s) (hr : Running s c) :
    PagesOk L (Jos.sysIpcRecv pg s).state := by
  have hrun : ∀ (u : Kern) (b : Nat), PagesOk L u → PagesOk L (u.runOn b) :=
    fun u b hu =>
    hu.congr hu.env.runOn Kern.runOn_vm (fun _ => by rw [runOn_status])
      (fun _ => Kern.runOn_proj Env.envPgdir fun _ _ => rfl)
      fun _ => Kern.runOn_proj Env.envCr3 fun _ _ => rfl
  have hyield : ∀ u : Kern, PagesOk L u → Prog.wp (schedYield : K Word)
      (fun _ u => PagesOk L u) (fun u => PagesOk L u)
        (fun _ u => PagesOk L u) u :=
    fun u hu => wp_schedYield (fun b _ _ => hrun u b hu) hu
  have hset : ∀ (u : Kern) (d : Nat) (f : Env → Env), PagesOk L u → u.Live d →
      (f (u.envs d)).envStatus ≠ .free → (∀ env, (f env).envId = env.envId
        ∧ (f env).envPgdir = env.envPgdir ∧ (f env).envCr3 = env.envCr3) →
      PagesOk L (u.setEnv d f) := by
    intro u d f hu hd hlive hf
    refine hu.congr (hu.env.setEnv (iff_of_false hlive hd.2) (hf _).1) rfl
      (fun x => ?_)
      (fun x => Kern.setEnv_proj Env.envPgdir (hf _).2.1)
      fun x => Kern.setEnv_proj Env.envCr3 (hf _).2.2
    by_cases hx : x = d
    · rw [hx, Kern.setEnv_envs_self]
      exact iff_of_false hlive hd.2
    · rw [Kern.setEnv_envs_ne hx]
  have hblock := hset s c (blockRecv pg) h hr.live nofun fun _ =>
    ⟨rfl, rfl, rfl⟩
  refine (wp_sysIpcRecv hr (fun _ => hblock) (fun _ _ _ => hblock)
    (fun e _ _ hsrc => hyield _ ?_) fun _ _ => hyield _ hblock).state
  have hlive : (s.setEnv c (blockRecv pg)).Live e := by
    have he := live_of_resolve hsrc hr.live
    refine ⟨he.1, ?_⟩
    by_cases hec : e = c
    · rw [hec, Kern.setEnv_envs_self]
      nofun
    · rw [Kern.setEnv_envs_ne hec]
      exact he.2
  have hwake := hset _ e wakeSender hblock hlive nofun fun _ => ⟨rfl, rfl, rfl⟩
  exact hwake.congr (hwake.env.congr rfl (fun _ => Iff.rfl) fun _ => rfl) rfl
    (fun _ => Iff.rfl)
    (fun _ => rfl) fun _ => rfl

theorem PagesOk.sending {dst value srcva perm : Word} (h : PagesOk L s) :
    PagesOk L (sending e dst value srcva perm s) :=
  (h.switch e).congr (EnvInv.saved (s := s.switch e) (h.switch e).env _) rfl
    (fun _ => by rw [Jos.sending, saved_status])
    (fun _ => Kern.saved_proj Env.envPgdir fun _ => rfl)
    fun _ => Kern.saved_proj Env.envCr3 fun _ => rfl

end

/-- A computed send. -/
def sends (e c : Nat) (s : Kern) : Bool :=
  match s.resolve e (s.envs e).envTf.a1 false, sysIpcTrySend (s.envs e).envTf.a1
      (s.envs e).envTf.a2 (s.envs e).envTf.a3 (s.envs e).envTf.a4 s with
  | .ok d, .ret r _ => d = c ∧ r = 0 ∧ (s.envs e).envTf.sysNo = some .ipcTrySend
      ∧ s.curenv = some e ∧ e < NENV ∧ (s.envs e).envStatus = .runnable
  | _, _ => false

theorem sends_spec {e c : Nat} {s : Kern} (h : sends e c s = true) :
    SendsTo s e c ∧ Running s e := by
  unfold sends at h
  split at h
  · rename_i d r t hres hret
    obtain ⟨rfl, rfl, hno, hcur, hlt, hrun⟩ := of_decide_eq_true h
    exact ⟨⟨hno, hres, t, hret⟩, hcur, hlt, hrun⟩
  · cases h

/-- Slot 2 of the small kernel receives with a null `pg`, and slot 3 sends no
page. -/
theorem ipc_recv_maps_small : ∃ source perm value t,
    ipcRecv (recvFrom 2 3 (sending 3 0x1002 7 UTOP 0)) 2 0 (smallKern 0)
      = .ret (source, perm, value) t
    ∧ (MapsAtMost 2 0 (smallKern 0) t perm ↔ ((0 : Word) = 0 → UTOP ≤
      ((sending 3 0x1002 7 UTOP 0 (sysIpcRecv 0 (smallKern 0)).state).envs
        3).envTf.a3)) := by
  obtain ⟨hsend, he⟩ := sends_spec (e := 3) (c := 2)
    (s := sending 3 0x1002 7 UTOP 0 (sysIpcRecv 0 (smallKern 0)).state)
    (by decide +kernel)
  exact ipc_recv_maps (smallKern_running 0)
    ((smallKern_pagesOk (Nat.zero_le _)).sysIpcRecv
    (smallKern_running 0)).sending
    AwaitsAt.sending he (by decide) hsend

/-- Slot 2 sends a page that it has allocated, and slot 3, which asked for none,
gets it. -/
theorem ipc_recv_maps_null : ¬∀ (s : Kern) c e pg meanwhile, Running s c →
    (AwaitsAt c pg s (sysIpcRecv pg s).state →
      AwaitsAt c pg s (meanwhile (sysIpcRecv pg s).state)) →
    Running (meanwhile (sysIpcRecv pg s).state) e → e ≠ c →
    SendsTo (meanwhile (sysIpcRecv pg s).state) e c →
    ∀ source perm value t, ipcRecv (recvFrom c e meanwhile) c pg s
      = .ret (source, perm, value) t → MapsAtMost c pg s t perm := by
  intro h
  have hrun : (match sysPageAlloc 0 UTEXT 7 (smallKern 3) with
      | .ret _ s => decide ((s.envs 3).envStatus = .runnable)
          && (sends 2 3 (sending 2 0x1003 7 UTEXT 5
          (sysIpcRecv 0 (s.switch 3)).state)
          && match ipcRecv (recvFrom 3 2 (sending 2 0x1003 7 UTEXT 5)) 3 0
          (s.switch 3) with
            | .ret (_, perm, _) _ => decide (perm ≠ 0)
            | _ => false)
      | _ => false) = true := by
    decide +kernel
  split at hrun
  · rename_i s _
    obtain ⟨hst, hrun⟩ := Bool.and_eq_true_iff.mp hrun
    obtain ⟨hsends, hperm⟩ := Bool.and_eq_true_iff.mp hrun
    obtain ⟨hsend, he⟩ := sends_spec hsends
    split at hperm
    · rename_i source perm value t hret
      have hmaps :=
        h (s.switch 3) 3 2 0 _ ⟨rfl, by decide, of_decide_eq_true hst⟩
        AwaitsAt.sending he (by decide) hsend source perm value t hret
      exact of_decide_eq_true hperm (hmaps.null rfl).1
    · cases hperm
  · cases hrun

end Jos
