import Jos.Kern.Invariant

/-!
# A small kernel

A concrete state with four environments on which the invariants can be seen to
hold and runs can be computed: slot 0 is the idle environment, slot 2 runs, and
slot 3 is its child. The page directories are pages 400 to 403 and the free
pages follow them. `callTrap` is the trap of a system call.
-/

namespace Jos

/-- Environment `i` of the small kernel. -/
def smallEnv (i : Nat) : Env where
  envTf := initTf i
  envId := BitVec.ofNat 32 (0x1000 + i)
  envParentId := if i = 3 then 0x1002#32 else 0
  envStatus := if i < 4 then .runnable else .free
  envRuns := 0
  envPgdir := if i < 4 then 400 + i else 0
  envCr3 := if i < 4 then page2pa (400 + i) else 0
  envPgfaultUpcall := 0
  envPriority := PRIORITY_DEFAULT
  envDivideUpcall := 0
  envGpfaultUpcall := 0
  envIllopUpcall := 0
  envIpcSended := 0
  envIpcRecving := false
  envIpcDstva := 0
  envIpcValue := 0
  envIpcFrom := 0
  envIpcPerm := 0

/-- The memory of the small kernel: nothing is mapped, and `k` pages are
free. -/
def smallVm (k : Nat) : Vm where
  mem := fun _ _ => 0
  npage := 404 + k
  ppRef p := if 400 ≤ p ∧ p < 404 then 1 else 0
  pageFreeList := Queue.range 404 k
  bootPgdir := 300
  bootCr3 := page2pa 300

/-- The small kernel with `k` free pages. -/
def smallKern (k : Nat) : Kern where
  vm := smallVm k
  envs := smallEnv
  envFreeList := Queue.range 4 1020
  curenv := some 2
  cr3 := page2pa 402
  waitingSrcenvIds _ := 0
  waitingDstenvIds _ := 0
  waitingEnvNum := 0

theorem smallKern_running (k : Nat) : Running (smallKern k) 2 :=
  ⟨rfl, by decide, rfl⟩

theorem smallKern_envInv (k : Nat) : EnvInv (smallKern k) := by
  have hid : ∀ e, e < 1024 → (smallEnv e).envId.toNat = 0x1000 + e := by
    intro e he
    simp only [smallEnv, BitVec.toNat_ofNat]
    omega
  refine ⟨fun e he => ?_, fun e he => ?_, _, Queue.rep_range 4 1020,
    fun e => ?_⟩
  · change (smallEnv e).envId.toNat % 1024 = e
    rw [hid e he.1]
    have := he.1
    simp only [NENV] at this
    omega
  · change 0 < (smallEnv e).envId.toNat ∧ (smallEnv e).envId.toNat < 2 ^ 31
    rw [hid e he.1]
    have := he.1
    simp only [NENV] at this
    omega
  · simp only [List.mem_range'_1, NENV, smallKern, smallEnv]
    split <;> simp <;> omega

/-! ## Computed runs -/

/-- The trap in which `c` makes the system call `no`. -/
def callTrap (s : Kern) (c : Nat) (no : Word) (a1 a2 a3 a4 a5 : Word) :
    Trap where
  tf := { (s.envs c).envTf with
    tfTrapno := T_SYSCALL
    tfRegs := { (s.envs c).envTf.tfRegs with
      regEax := no
      regEdx := a1
      regEcx := a2
      regEbx := a3
      regEdi := a4
      regEsi := a5 } }
  cr2 := 0
  getc := 0
  mem := s.vm.mem

/-- The memory after user code has stored `x` at `va`, if it may. -/
def userStore (m : PhysMem) (cr3 va : Word) (x : BitVec 8) : PhysMem :=
  match userAccess m cr3 va true with
  | none => m
  | some p => Function.update m p (Function.update (m p) (pgoff va) x)

/-- What the running environment does next: a system call, after a store or
not, or nothing until the timer interrupts it. -/
inductive Act where
  | call (no a1 a2 a3 a4 a5 : Word)
  | store (va : Word) (x : BitVec 8) (no a1 a2 a3 a4 a5 : Word)
  | timer

def Act.trap (s : Kern) (c : Nat) : Act → Trap
  | .call no a1 a2 a3 a4 a5 => callTrap s c no a1 a2 a3 a4 a5
  | .store va x no a1 a2 a3 a4 a5 =>
      { callTrap s c no a1 a2 a3 a4 a5 with
        mem := userStore s.vm.mem s.cr3 va x }
  | .timer => {
      tf := { (s.envs c).envTf with tfTrapno := IRQ_OFFSET + IRQ_TIMER }
      cr2 := 0
      getc := 0
      mem := s.vm.mem }

/-- The state after an act, unless the machine stops. -/
def Kern.act (s : Kern) (a : Act) : Option Kern :=
  match s.curenv with
  | none => none
  | some c =>
      match Jos.trap (a.trap s c) (s.enter (a.trap s c)) with
      | .away t => some t
      | _ => none

def Kern.acts (s : Kern) : List Act → Option Kern
  | [] => some s
  | a :: as => (s.act a).bind fun t => t.acts as

section

variable {s t : Kern} {c : Nat} {a : Act}

theorem userStore_stores (m : PhysMem) (cr3 va : Word) (x : BitVec 8) :
    UserStores m cr3 (userStore m cr3 va x) := by
  intro p
  unfold userStore
  cases h : userAccess m cr3 va true with
  | none => exact .inl rfl
  | some q =>
      by_cases hp : p = q
      · subst hp
        exact .inr ⟨va, h⟩
      · exact .inl (Function.update_of_ne hp ..)

theorem Act.userTrap (hc : s.curenv = some c) : UserTrap s c (a.trap s c) where
  cur := hc
  mem := by
    cases a with
    | call | timer => exact fun _ => .inl rfl
    | store va x => exact userStore_stores s.vm.mem s.cr3 va x
  tf := by cases a <;> exact ⟨rfl, rfl, fun _ => rfl⟩

theorem Kern.act_step (hc : s.curenv = some c) (h : s.act a = some t) :
    Step s (a.trap s c) t := by
  refine ⟨⟨c, Act.userTrap hc⟩, ?_⟩
  unfold Kern.act at h
  rw [hc] at h
  dsimp only at h
  split at h
  · rename_i t' htrap
    obtain rfl := Option.some.inj h
    exact htrap
  · cases h

/-- A computed run is a run of the machine. -/
theorem Kern.acts_runs {as : List Act} (h : s.acts as = some t) :
    Runs Step (fun _ _ => True) s t := by
  induction as generalizing s with
  | nil =>
      obtain rfl := Option.some.inj h
      exact Runs.refl _
  | cons a as ih =>
      obtain ⟨u, hu, ht⟩ := Option.bind_eq_some_iff.mp h
      cases hc : s.curenv with
      | none =>
          rw [Kern.act, hc] at hu
          cases hu
      | some c =>
          exact (Runs.single trivial (Kern.act_step hc hu)).trans (ih ht)

end

end Jos
