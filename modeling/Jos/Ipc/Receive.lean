import Jos.Ipc.Waiting

/-!
# What a receiver does to the queue

`sys_ipc_recv` looks for the first entry with the caller's id as its
destination, and gives up if the source of that entry does not exist any more.
Entries of destroyed senders stay in the queue, so a live sender behind one is
not woken. The call sets the receive fields before it checks anything, so that a
failing call leaves its caller suspended.
-/

namespace Jos

/-- The entry `p` is of a live environment that is queued to send to `d`. The
destination is an id, or 0 for the sender itself. -/
def QueuedTo (s : Kern) (d : Nat) (p : Word × Word) : Prop :=
  s.Named (envx p.1) p.1
    ∧ (p.2 = (s.envs d).envId ∨ (p.2 = 0 ∧ p.1 = (s.envs d).envId))

/-- Entry `i` is the first one of a live environment that is queued to send to
`d`. -/
structure FirstQueued (s : Kern) (d i : Nat) (p : Word × Word) : Prop where
  entry : s.waiting[i]? = some p
  queued : QueuedTo s d p
  first : ∀ j q, j < i → s.waiting[j]? = some q → ¬QueuedTo s d q

/-- The `sys_ipc_recv` of `d` in `s`, which ends in `t`, wakes the live sender
that was queued first and removes its entry; if there is none, the queue is
unchanged. -/
structure WakesFirst (s t : Kern) (d : Nat) : Prop where
  woken : ∀ i p, FirstQueued s d i p → (t.envs (envx p.1)).envStatus = .runnable
    ∧ (t.envs (envx p.1)).envTf.tfRegs.regEax = -E_IPC_NOT_RECV
    ∧ t.waiting = s.waiting.eraseIdx i
  none : (∀ p ∈ s.waiting, ¬QueuedTo s d p) → t.waiting = s.waiting

/-- The first live sender that is queued for `d` named it by its id, and no
entry for that id comes before. -/
def Foremost (s : Kern) (d : Nat) : Prop :=
  ∀ i p, FirstQueued s d i p → p.2 = (s.envs d).envId
    ∧ ∀ j q, j < i → s.waiting[j]? = some q → q.2 ≠ (s.envs d).envId

/-- Entry `i` is the first one with destination `id`. -/
structure FirstFor (s : Kern) (id : Word) (i : Nat) (p : Word × Word) :
    Prop where
  entry : s.waiting[i]? = some p
  dst : p.2 = id
  first : ∀ j q, j < i → s.waiting[j]? = some q → q.2 ≠ id

/-- The `sys_ipc_recv` of `c` fails: `dstva` is not valid, or `envid2env` does
not find the source of the first entry for `c`. -/
def RecvFails (s : Kern) (c : Nat) (dstva : Word) : Prop :=
  (dstva < UTOP ∧ dstva.toNat % PGSIZE ≠ 0)
  ∨ ∃ i p, FirstFor s (s.envs c).envId i p ∧ ∀ e, s.resolve c p.1 false ≠ .ok e

/-- If the `sys_ipc_recv` of `c` returns an error, then `c` is as it was before:
its receive fields and its status, the queue, and all other environments. -/
def FailsClean (s : Kern) (c : Nat) (dstva : Word) : Prop :=
  ∀ r t, sysIpcRecv dstva s = .ret r t → r.slt 0 →
    (t.envs c).envIpcRecving = (s.envs c).envIpcRecving
    ∧ (t.envs c).envIpcFrom = (s.envs c).envIpcFrom
    ∧ (t.envs c).envIpcDstva = (s.envs c).envIpcDstva
    ∧ (t.envs c).envStatus = (s.envs c).envStatus
    ∧ t.waiting = s.waiting ∧ ∀ d, d ≠ c → t.envs d = s.envs d

section

variable {s s₁ s' t : Kern} {c d e i j : Nat} {tr : Trap} {id dstva : Word}
  {p : Word × Word}

/-! ## The search -/

theorem waiting_getElem? {p : Word × Word} : s.waiting[i]? = some p
    ↔ i < s.waitingEnvNum ∧ (s.waitingSrcenvIds i,
      s.waitingDstenvIds i) = p := by
  rw [List.getElem?_eq_some_iff]
  constructor
  · rintro ⟨h, hp⟩
    exact ⟨waiting_length (s := s) ▸ h, (waiting_getElem h).symm.trans hp⟩
  · rintro ⟨h, hp⟩
    have h' : i < s.waiting.length := by rwa [waiting_length]
    exact ⟨h', (waiting_getElem h').trans hp⟩

/-- The index that the search stops at. -/
theorem findWaiting_spec (s : Kern) (id : Word) :
    (findWaiting s id < s.waitingEnvNum →
      s.waitingDstenvIds (findWaiting s id) = id)
      ∧ ∀ j, j < s.waitingEnvNum → j < findWaiting s id →
      s.waitingDstenvIds j ≠ id := by
  unfold findWaiting
  cases hfind : (List.range s.waitingEnvNum).find? fun i =>
    s.waitingDstenvIds i = id with
  | none =>
      refine ⟨fun h => absurd h (lt_irrefl _), fun j hj _ heq => ?_⟩
      exact List.find?_eq_none.mp hfind j (List.mem_range.mpr hj)
        (decide_eq_true heq)
  | some i =>
      obtain ⟨hi, -, hbefore⟩ := List.find?_range_eq_some.mp hfind
      refine ⟨fun _ => of_decide_eq_true hi, fun j _ hj heq => ?_⟩
      have hno := hbefore j hj
      rw [decide_eq_true heq] at hno
      cases hno

/-- The search stops at entry `i` if that is the first one for `id`. -/
theorem FirstFor.findWaiting (h : FirstFor s id i p) :
    findWaiting s id = i := by
  obtain ⟨hlt, hentry⟩ := waiting_getElem?.mp h.entry
  have hdst : s.waitingDstenvIds i = id :=
    (congrArg Prod.snd hentry).trans h.dst
  obtain ⟨hfound, hskip⟩ := findWaiting_spec s id
  rcases lt_trichotomy (Jos.findWaiting s id) i with hi | hi | hi
  · have hlt' := hi.trans hlt
    exact absurd (hfound hlt')
      (h.first _ _ hi (waiting_getElem?.mpr ⟨hlt', rfl⟩))
  · exact hi
  · exact absurd hdst (hskip i hlt hi)

/-- The search finds the first entry for `id`, if there is one. -/
theorem firstFor_findWaiting (hlt : findWaiting s id < s.waitingEnvNum) :
    FirstFor s id (findWaiting s id)
      (s.waitingSrcenvIds (findWaiting s id),
        s.waitingDstenvIds (findWaiting s id)) := by
  obtain ⟨hfound, hskip⟩ := findWaiting_spec s id
  refine ⟨waiting_getElem?.mpr ⟨hlt, rfl⟩, hfound hlt, fun j q hj hq => ?_⟩
  obtain ⟨hjn, rfl⟩ := waiting_getElem?.mp hq
  exact hskip j hjn hj

/-! ## The call -/

/-- `sys_ipc_recv` with a valid `dstva`: it fails and leaves the queue as it is;
or it takes the first entry for its caller off the queue and wakes the source;
or there is no entry. -/
inductive Received (s : Kern) (d : Nat) (t : Kern) : Prop where
  | stale {r : Word} (hlt : findWaiting s (s.envs d).envId < s.waitingEnvNum)
      (hsrc : s.resolve d (s.waitingSrcenvIds (findWaiting s (s.envs d).envId))
      false = .error r)
      (hwait : t.waiting = s.waiting)
  | woken {e : Nat} (hlt : findWaiting s (s.envs d).envId < s.waitingEnvNum)
      (hsrc : s.resolve d (s.waitingSrcenvIds (findWaiting s (s.envs d).envId))
      false = .ok e)
      (hst : (t.envs e).envStatus = .runnable)
      (heax : (t.envs e).envTf.tfRegs.regEax = -E_IPC_NOT_RECV)
      (hwait : t.waiting = s.waiting.eraseIdx (findWaiting s (s.envs d).envId))
  | nobody (hge : ¬findWaiting s (s.envs d).envId < s.waitingEnvNum)
      (hwait : t.waiting = s.waiting)

theorem Received.runOn (h : Received s d t) (b : Nat) :
    Received s d (t.runOn b) := by
  cases h with
  | stale hlt hsrc hwait => exact .stale hlt hsrc (waiting_runOn.trans hwait)
  | @woken e hlt hsrc hst heax hwait =>
      refine .woken hlt hsrc (runOn_status.trans hst) ?_
        (waiting_runOn.trans hwait)
      exact (Kern.runOn_proj (fun env => env.envTf.tfRegs.regEax) fun _ _ =>
        rfl).trans heax
  | nobody hge hwait => exact .nobody hge (waiting_runOn.trans hwait)

theorem sysIpcRecv_received (hr : Running s d)
    (hva : ¬(dstva < UTOP ∧ dstva.toNat % PGSIZE ≠ 0)) :
    Received s d (sysIpcRecv dstva s).state := by
  have key : Prog.wp (sysIpcRecv dstva) (fun _ t => Received s d t)
      (fun t => Received s d t)
      (fun _ t => Received s d t) s := by
    have hyield : ∀ u, Received s d u →
        Prog.wp (schedYield : K Word) (fun _ t => Received s d t)
        (fun t => Received s d t) (fun _ t => Received s d t) u :=
      fun u hu => wp_schedYield (fun e _ _ => hu.runOn e) hu
    refine wp_sysIpcRecv hr (fun h => absurd h hva)
      (fun r hlt hsrc => .stale hlt hsrc rfl)
      (fun e _ hlt hsrc => hyield _ (.woken hlt hsrc ?_ ?_ ?_))
      fun _ hge => hyield _ (.nobody hge rfl)
    · rw [Kern.dequeueSender_envs, Kern.setEnv_envs_self]
      rfl
    · rw [Kern.dequeueSender_envs, Kern.setEnv_envs_self]
      rfl
    · exact waiting_dequeue (s := (s.setEnv d _).setEnv _ _) hlt
  exact key.state

/-! ## The sender that is woken -/

/-- Nobody is queued under the id 0, which `envid2env` takes for the caller. -/
def NamesSources (s : Kern) : Prop := ∀ p ∈ s.waiting, p.1 ≠ 0

/-- An entry that `envid2env` resolves is of a live environment. -/
theorem named_of_resolve (hs : NamesSources s) (hp : p ∈ s.waiting)
    (h : s.resolve d p.1 false = .ok e) : s.Named e p.1 := by
  rcases resolve_ok h with ⟨h0, -⟩ | ⟨-, he⟩
  · exact absurd h0 (hs p hp)
  · exact he

/-- If the sender that was queued first is woken, then no entry for the caller
comes before. -/
theorem Received.foremost (hs : NamesSources s) (h : Received s d t)
    (hw : WakesFirst s t d) :
    Foremost s d := by
  intro i p hi
  have hlen : i < s.waiting.length := (List.getElem?_eq_some_iff.mp hi.entry).1
  obtain ⟨-, -, hwait⟩ := hw.woken i p hi
  -- something was taken off the queue, so the search found a live sender
  have hshort : t.waiting ≠ s.waiting := by
    intro hsame
    have hlen' := congrArg List.length (hwait.symm.trans hsame)
    rw [List.length_eraseIdx_of_lt hlen] at hlen'
    omega
  cases h with
  | stale _ _ hsame => exact absurd hsame hshort
  | nobody _ hsame => exact absurd hsame hshort
  | @woken e hlt hsrc hst heax hwait' =>
      have hk := firstFor_findWaiting hlt
      generalize findWaiting s (s.envs d).envId = k at *
      have hkq : QueuedTo s d (s.waitingSrcenvIds k, s.waitingDstenvIds k) := by
        have hnamed := named_of_resolve hs (List.mem_of_getElem? hk.entry) hsrc
        exact ⟨hnamed.idx ▸ hnamed, .inl hk.dst⟩
      have hik : i ≤ k := Nat.le_of_not_lt fun h => hi.first k _ h hk.entry hkq
      have hp : p.2 = (s.envs d).envId := by
        -- otherwise the queue lost an entry for the id 0
        by_contra hne
        have hput : List.Perm (p :: s.waiting.eraseIdx i) s.waiting := by
          rw [← (List.getElem?_eq_some_iff.mp hi.entry).2]
          exact List.getElem_cons_eraseIdx_perm hlen
        have hput' : List.Perm s.waiting
            ((s.waitingSrcenvIds k, s.waitingDstenvIds k) ::
              s.waiting.eraseIdx i) := by
          rw [← hwait, hwait', ← (List.getElem?_eq_some_iff.mp hk.entry).2]
          exact (List.getElem_cons_eraseIdx_perm _).symm
        have hperm := hput.trans hput'
        have hcount := hperm.countP_eq fun q : Word × Word =>
          decide (q.2 = (s.envs d).envId)
        rw [List.countP_cons, List.countP_cons, if_neg (by simpa using hne),
          if_pos (by simpa using hk.dst)] at hcount
        omega
      exact ⟨hp, fun j q hj => hk.first j q (by omega)⟩

/-- The call wakes the live sender that was queued first exactly if that is the
first entry for the caller's id. -/
theorem Received.wakesFirst_iff (hs : NamesSources s) (h : Received s d t) :
    WakesFirst s t d ↔ Foremost s d := by
  refine ⟨h.foremost hs, fun hf => ⟨fun i p hi => ?_, fun hnone => ?_⟩⟩
  · obtain ⟨hp, hbefore⟩ := hf i p hi
    have hfind := FirstFor.findWaiting ⟨hi.entry, hp, hbefore⟩
    obtain ⟨hlt, hentry⟩ := waiting_getElem?.mp hi.entry
    have hres : s.resolve d (s.waitingSrcenvIds i) false = .ok (envx p.1) := by
      rw [show s.waitingSrcenvIds i = p.1 from congrArg Prod.fst hentry]
      exact hi.queued.1.resolve (hs p (List.mem_of_getElem? hi.entry))
    cases h with
    | stale _ hsrc _ =>
        rw [hfind, hres] at hsrc
        cases hsrc
    | nobody hge _ => exact absurd (hfind ▸ hlt) hge
    | woken _ hsrc hst heax hwait =>
        rw [hfind, hres] at hsrc
        obtain rfl := Except.ok.inj hsrc
        exact ⟨hst, heax, hfind ▸ hwait⟩
  · cases h with
    | stale _ _ hwait => exact hwait
    | nobody _ hwait => exact hwait
    | woken hlt hsrc hst heax hwait =>
        have hfirst := firstFor_findWaiting hlt
        have hmem := List.mem_of_getElem? hfirst.entry
        have hnamed := named_of_resolve hs hmem hsrc
        exact absurd ⟨hnamed.idx ▸ hnamed, .inl hfirst.dst⟩ (hnone _ hmem)

/-! ## The run -/

theorem NamesSources.step (h : NamesSources s) (hsys : SysInv s)
    (hstep : Step s tr s') :
    NamesSources s' := by
  obtain ⟨c, hr⟩ := hsys.running
  obtain ⟨s₁, e, hh, -, -, rfl⟩ := step_cases hr hstep
  intro p hp
  rw [waiting_runOn] at hp
  rcases hh.waitingChange with ⟨-, hsame⟩ | ⟨-, -, -, happ⟩ | ⟨-, herase⟩
  · rw [hsame] at hp
    exact h p hp
  · rw [happ] at hp
    rcases List.mem_append.mp hp with hp | hp
    · exact h p hp
    · obtain rfl := List.mem_singleton.mp hp
      exact (hsys.env.saved tr).id_ne_zero (hr.saved tr).live
  · rw [herase] at hp
    exact h p (List.mem_of_mem_eraseIdx hp)

theorem Booted.waiting_nil (h : Booted s) : s.waiting = [] :=
  List.eq_nil_of_length_eq_zero (waiting_length.trans h.waiting)

theorem Booted.namesSources {s₀ : Kern} (h : Booted s₀)
    (hrun : Runs Step (fun _ _ => True) s₀ s) : SysInv s ∧ NamesSources s := by
  refine hrun.invariant (I := fun s => SysInv s ∧ NamesSources s)
    (fun _ _ _ hu _ hstep => ⟨hu.1.step hstep, hu.2.step hu.1 hstep⟩)
    ⟨h.sys, ?_⟩
  rw [NamesSources, h.waiting_nil]
  nofun

/-- A `sys_ipc_recv` with a valid `dstva` wakes the right sender exactly if the
live sender that was queued first named the caller by its id and no entry for
that id, which would be of a destroyed sender, comes before. -/
theorem recv_wakes_first {s₀ : Kern} (hboot : Booted s₀)
    (hrun : Runs Step (fun _ _ => True) s₀ s) (htrap : UserTrap s d tr)
    (hva : ¬(dstva < UTOP ∧ dstva.toNat % PGSIZE ≠ 0)) :
    WakesFirst (s.saved d tr) (sysIpcRecv dstva (s.saved d tr)).state d
      ↔ Foremost (s.saved d tr) d := by
  obtain ⟨hsys, hs⟩ := hboot.namesSources hrun
  obtain ⟨c, hr⟩ := hsys.running
  obtain rfl := Option.some.inj (htrap.cur.symm.trans hr.cur)
  have hrs := hr.saved tr
  exact (sysIpcRecv_received hrs hva).wakesFirst_iff hs

/-! ## A call that fails -/

theorem stale_iff : (∃ r, findWaiting s (s.envs c).envId < s.waitingEnvNum
      ∧ s.resolve c (s.waitingSrcenvIds (findWaiting s (s.envs c).envId))
        false = .error r)
    ↔ ∃ i p, FirstFor s (s.envs c).envId i p ∧ ∀ e, s.resolve c p.1 false ≠
      .ok e := by
  constructor
  · rintro ⟨r, hlt, hsrc⟩
    refine ⟨_, _, firstFor_findWaiting hlt, fun e he => ?_⟩
    cases hsrc.symm.trans he
  · rintro ⟨i, p, hfirst, hno⟩
    obtain ⟨hlt, hentry⟩ := waiting_getElem?.mp hfirst.entry
    rw [hfirst.findWaiting, show s.waitingSrcenvIds i = p.1 from
      congrArg Prod.fst hentry]
    cases hres : s.resolve c p.1 false with
    | ok e => exact absurd hres (hno e)
    | error r => exact ⟨r, hlt, rfl⟩

/-- The call returns only if it fails, and then its caller has been set up to
wait. -/
theorem wp_sysIpcRecv_fails (dstva : Word) (hr : Running s c) :
    Prog.wp (sysIpcRecv dstva)
    (fun r t => RecvFails s c dstva ∧ r.slt 0
      ∧ t = s.setEnv c (blockRecv dstva))
    (fun _ => ¬RecvFails s c dstva) (fun _ _ => ¬RecvFails s c dstva) s := by
  have hyield : ∀ u, ¬RecvFails s c dstva → Prog.wp (schedYield : K Word)
      (fun r t => RecvFails s c dstva ∧ r.slt 0
        ∧ t = s.setEnv c (blockRecv dstva))
      (fun _ => ¬RecvFails s c dstva) (fun _ _ => ¬RecvFails s c dstva) u :=
    fun u hno => wp_schedYield (fun _ _ _ => hno) hno
  refine wp_sysIpcRecv hr (fun hbad => ⟨.inl hbad, by decide, rfl⟩)
    (fun r hlt hsrc => ?_)
    (fun e hva hlt hsrc => hyield _ ?_) fun hva hge => hyield _ ?_
  · refine ⟨.inr (stale_iff.mp ⟨r, hlt, hsrc⟩), ?_, rfl⟩
    rw [resolve_error hsrc]
    decide
  · rintro (hbad | hstale)
    · exact hva hbad
    · obtain ⟨r, -, hsrc'⟩ := stale_iff.mpr hstale
      cases hsrc.symm.trans hsrc'
  · rintro (hbad | hstale)
    · exact hva hbad
    · obtain ⟨r, hlt, -⟩ := stale_iff.mpr hstale
      exact hge hlt

/-- A failing `sys_ipc_recv` leaves nothing as it was: the code meets the claim
exactly where the call does not fail. -/
theorem recv_fails_clean (hr : Running s c) :
    FailsClean s c dstva ↔ ¬RecvFails s c dstva := by
  have hspec := wp_sysIpcRecv_fails dstva hr
  constructor
  · intro hclean hfails
    cases hout : sysIpcRecv dstva s with
    | ret r t =>
        obtain ⟨-, hneg, rfl⟩ := hspec.ret hout
        obtain ⟨-, -, -, hst, -⟩ := hclean r _ hout hneg
        rw [Kern.setEnv_envs_self, hr.runnable] at hst
        cases hst
    | away t => exact hspec.away hout hfails
    | stop x t => exact hspec.stop hout hfails
  · intro hno r t hout
    exact absurd (hspec.ret hout).1 hno

end

/-- A destroyed sender hides a live one: slots 3 and 1 are queued to send to
slot 2, which destroys slot 3 and receives. -/
theorem recv_wakes_first_stale : ¬∀ s₀ s d tr dstva, Booted s₀ →
    Runs Step (fun _ _ => True) s₀ s → UserTrap s d tr →
    ¬(dstva < UTOP ∧ dstva.toNat % PGSIZE ≠ 0) →
    WakesFirst (s.saved d tr) (sysIpcRecv dstva (s.saved d tr)).state d := by
  intro h
  have hrun :
      ((smallKern 0).acts [.call 11 0 0 0 0 0, .call 12 0x1002 7 UTOP 0 0,
      .call 12 0x1002 7 UTOP 0 0, .call 3 0x1003 0 0 0 0]).map
      (fun s => decide (s.curenv = some 2 ∧ s.waiting =
        [(0x1003, 0x1002), (0x1001, 0x1002)]
        ∧ (s.envs 1).envStatus = .notRunnable ∧ (s.envs 1).envId = 0x1001
        ∧ (s.envs 3).envStatus = .free ∧ (s.envs 2).envId = 0x1002
        ∧ (sysIpcRecv UTOP
          (s.saved 2 (callTrap s 2 13 UTOP 0 0 0 0))).state.waiting
          = [(0x1003, 0x1002), (0x1001, 0x1002)])) = some true := by
    decide +kernel
  obtain ⟨s, hs, hfields⟩ := Option.map_eq_some_iff.mp hrun
  obtain ⟨hcur, hwait, hst₁, hid₁, hst₃, hid₂, hafter⟩ :=
    of_decide_eq_true hfields
  have hw := h _ s 2 _ UTOP (smallKern_booted 0) (Kern.acts_runs hs)
    (Act.userTrap (a := .call 13 UTOP 0 0 0 0) hcur) (by decide)
  have hid :
      ∀ e, ((s.saved 2 (Act.trap s 2 (.call 13 UTOP 0 0 0 0))).envs e).envId
      = (s.envs e).envId := fun e => Kern.saved_proj Env.envId fun _ => rfl
  have hfirst :
      FirstQueued (s.saved 2 (Act.trap s 2 (.call 13 UTOP 0 0 0 0))) 2 1
      (0x1001, 0x1002) := by
    refine ⟨?_, ⟨⟨rfl, ?_, ?_⟩, .inl ?_⟩, fun j q hj hq hqueued => ?_⟩
    · change s.waiting[1]? = _
      rw [hwait]
      rfl
    · change ((s.saved 2 _).envs 1).envStatus ≠ .free
      rw [saved_status, hst₁]
      nofun
    · exact (hid 1).trans hid₁
    · exact ((hid 2).trans hid₂).symm
    · obtain rfl : j = 0 := by omega
      change s.waiting[0]? = _ at hq
      rw [hwait] at hq
      obtain rfl := Option.some.inj hq
      refine hqueued.1.live ?_
      change ((s.saved 2 _).envs 3).envStatus = .free
      rw [saved_status, hst₃]
  have hlen := congrArg List.length (hw.woken 1 _ hfirst).2.2
  change (sysIpcRecv UTOP
    (s.saved 2 (callTrap s 2 13 UTOP 0 0 0 0))).state.waiting.length
    = (s.waiting.eraseIdx 1).length at hlen
  rw [hafter, hwait] at hlen
  exact absurd hlen (by decide)

/-- A misaligned `dstva`: slot 2 of the small kernel is left suspended. -/
theorem recv_fails_clean_misaligned :
    ¬∀ s c dstva, Running s c → FailsClean s c dstva := by
  intro h
  have hret : (match sysIpcRecv 1 (smallKern 0) with
      | .ret r t => decide (r.slt 0 ∧ (t.envs 2).envStatus = .notRunnable)
      | _ => false) = true := by decide +kernel
  split at hret
  · rename_i r t hout
    obtain ⟨hneg, hst⟩ := of_decide_eq_true hret
    obtain ⟨-, -, -, hsame, -⟩ := h _ 2 1 (smallKern_running 0) r t hout hneg
    cases hst.symm.trans hsame
  · cases hret

/-- In the small kernel, slots 3 and 1 can be queued to send to slot 2, which
runs. -/
theorem exists_twoQueued : ∃ s, Runs Step (fun _ _ => True) (smallKern 0) s
      ∧ Running s 2
    ∧ s.waiting = [(0x1003, 0x1002), (0x1001, 0x1002)]
    ∧ (s.envs 3).envStatus = .notRunnable ∧ (s.envs 3).envId = 0x1003
    ∧ (s.envs 2).envId = 0x1002 := by
  have hrun :
      ((smallKern 0).acts [.call 11 0 0 0 0 0, .call 12 0x1002 7 UTOP 0 0,
      .call 12 0x1002 7 UTOP 0 0]).map (fun s => decide (s.curenv = some 2
        ∧ (s.envs 2).envStatus = .runnable ∧ s.waiting =
          [(0x1003, 0x1002), (0x1001, 0x1002)]
        ∧ (s.envs 3).envStatus = .notRunnable ∧ (s.envs 3).envId = 0x1003
        ∧ (s.envs 2).envId = 0x1002)) = some true := by
    decide +kernel
  obtain ⟨s, hs, hfields⟩ := Option.map_eq_some_iff.mp hrun
  obtain ⟨hcur, hst, hfields⟩ := of_decide_eq_true hfields
  exact ⟨s, Kern.acts_runs hs, ⟨hcur, by decide, hst⟩, hfields⟩

/-- With a live sender in front the call does not fail. -/
theorem recv_fails_clean_small :
    ∃ s, Runs Step (fun _ _ => True) (smallKern 0) s
    ∧ s.waiting = [(0x1003, 0x1002), (0x1001, 0x1002)]
    ∧ FailsClean s 2 UTOP := by
  obtain ⟨s, hs, hr, hwait, hst, hid₃, hid₂⟩ := exists_twoQueued
  refine ⟨s, hs, hwait, (recv_fails_clean hr).mpr ?_⟩
  rintro (⟨hlt, -⟩ | ⟨i, p, hfor, hno⟩)
  · exact absurd hlt (by decide)
  · rw [hid₂] at hfor
    have hi : i = 0 := by
      by_contra hi
      exact hfor.first 0 (0x1003, 0x1002) (by omega) (by rw [hwait]; rfl) rfl
    have hp := hfor.entry
    rw [hi, hwait] at hp
    obtain rfl := Option.some.inj hp
    have hnamed : s.Named 3 0x1003 := ⟨rfl, by rw [hst]; nofun, hid₃⟩
    exact hno 3 (hnamed.resolve (by decide))

/-- Slot 3 of the small kernel, which was queued first, is woken. -/
theorem recv_wakes_first_small :
    ∃ s, Runs Step (fun _ _ => True) (smallKern 0) s
    ∧ s.waiting = [(0x1003, 0x1002), (0x1001, 0x1002)]
    ∧ WakesFirst (s.saved 2 (callTrap s 2 13 UTOP 0 0 0 0))
      (sysIpcRecv UTOP (s.saved 2 (callTrap s 2 13 UTOP 0 0 0 0))).state 2 := by
  obtain ⟨s, hs, hr, hwait, hst, hid₃, hid₂⟩ := exists_twoQueued
  have hid : ∀ e, ((s.saved 2 (callTrap s 2 13 UTOP 0 0 0 0)).envs e).envId =
      (s.envs e).envId :=
    fun e => Kern.saved_proj Env.envId fun _ => rfl
  have hfirst : QueuedTo (s.saved 2 (callTrap s 2 13 UTOP 0 0 0 0)) 2
      (0x1003, 0x1002) := by
    refine ⟨⟨rfl, ?_, (hid 3).trans hid₃⟩, .inl ((hid 2).trans hid₂).symm⟩
    rw [show envx 0x1003 = 3 from rfl, saved_status, hst]
    nofun
  refine ⟨s, hs, hwait, (recv_wakes_first (smallKern_booted 0) hs
    (Act.userTrap (a := .call 13 UTOP 0 0 0 0) hr.cur) (by decide)).mpr ?_⟩
  intro i p hqueued
  have hi : i = 0 := by
    by_contra hi
    refine hqueued.first 0 (0x1003, 0x1002) (by omega) ?_ hfirst
    change s.waiting[0]? = _
    rw [hwait]
    rfl
  have hp : s.waiting[i]? = some p := hqueued.entry
  rw [hi, hwait] at hp
  obtain rfl := Option.some.inj hp
  refine ⟨((hid 2).trans hid₂).symm, fun j q hj => absurd hj (by omega)⟩

end Jos
