import Jos.Kern.Trap

/-!
# What a trap can do

The step of the machine taken apart once. `Handled c s s₁` lists what
handling a trap of environment `c` can make of the state `s` in which its frame
has been saved, one constructor for each way; `step_cases` says that
every step is one of these followed by resuming a runnable environment. Every
invariant of the environments is a case analysis on `Handled`.
-/

namespace Jos

namespace Kern

/-- `env_run(e)`, as a change of the state. -/
def runOn (e : Nat) (s : Kern) : Kern :=
  if s.curenv = some e then s
  else
    { s with
      curenv := some e
      envs := Function.update s.envs e
        { s.envs e with envRuns := (s.envs e).envRuns + 1 }
      cr3 := (s.envs e).envCr3 }

/-- `curenv = NULL`. -/
def dropCur (s : Kern) : Kern := { s with curenv := none }

/-- A system call of `c` returns `r`. -/
def sysRet (c : Nat) (r : Word) (s : Kern) : Kern :=
  s.setEnv c fun env => { env with envTf := env.envTf.setEax r }

/-- The trap frame is saved in `c`. -/
def saved (s : Kern) (c : Nat) (tr : Trap) : Kern :=
  (s.enter tr).setEnv c fun env => { env with envTf := tr.tf }

/-- `env_free(e)`, which leaves the memory `v`. -/
def freed (e : Nat) (v : Vm) (s : Kern) : Kern where
  vm := v
  envs := Function.update s.envs e
    { s.envs e with envPgdir := 0, envCr3 := 0, envStatus := .free }
  envFreeList := s.envFreeList.insertHead e
  curenv := s.curenv
  cr3 := if s.curenv = some e then s.vm.bootCr3 else s.cr3
  waitingSrcenvIds := s.waitingSrcenvIds
  waitingDstenvIds := s.waitingDstenvIds
  waitingEnvNum := s.waitingEnvNum

/-- `env_alloc` takes slot `e`, with the page directory `dir` in memory `v`. -/
def alloced (e : Nat) (parentId : Word) (dir : Nat × Word) (v : Vm)
    (s : Kern) : Kern :=
  { s with
    vm := v
    envs := Function.update s.envs e
      (initEnv e parentId { s.envs e with envPgdir := dir.1, envCr3 := dir.2 })
    envFreeList := s.envFreeList.remove e }

section Fields

variable {s : Kern} {c d e : Nat} {r pid : Word} {v : Vm} {dir : Nat × Word}
  {α : Type}

@[simp] theorem dequeueSender_envs {i : Nat} :
    (dequeueSender i s).envs = s.envs := rfl
@[simp] theorem dropCur_vm : s.dropCur.vm = s.vm := rfl
@[simp] theorem freed_vm : (s.freed e v).vm = v := rfl
@[simp] theorem alloced_vm : (s.alloced e pid dir v).vm = v := rfl
@[simp] theorem sysRet_vm : (s.sysRet c r).vm = s.vm := rfl

theorem freed_envs_self : (s.freed e v).envs e
    = { s.envs e with envPgdir := 0, envCr3 := 0, envStatus := .free } :=
  Function.update_self ..

@[simp] theorem freed_status : ((s.freed e v).envs e).envStatus = .free := by
  rw [freed_envs_self]

theorem freed_envs_ne (h : d ≠ e) : (s.freed e v).envs d = s.envs d :=
  Function.update_of_ne h ..

theorem alloced_envs_self : (s.alloced e pid dir v).envs e
    = initEnv e pid { s.envs e with envPgdir := dir.1, envCr3 := dir.2 } :=
  Function.update_self ..

theorem alloced_envs_ne (h : d ≠ e) :
    (s.alloced e pid dir v).envs d = s.envs d :=
  Function.update_of_ne h ..

theorem sysRet_envs_ne (h : d ≠ c) : (s.sysRet c r).envs d = s.envs d :=
  setEnv_envs_ne h

/-- What freeing does not affect is the same in every environment. -/
theorem freed_proj (g : Env → α)
    (hg : g { s.envs e with envPgdir := 0, envCr3 := 0, envStatus := .free } =
    g (s.envs e)) :
    g ((s.freed e v).envs d) = g (s.envs d) := by
  by_cases hd : d = e
  · rw [hd, freed_envs_self, hg]
  · rw [freed_envs_ne hd]

@[simp] theorem saved_envs_self_tf {tr : Trap} :
    ((s.saved c tr).envs c).envTf = tr.tf := by
  simp [saved]

/-- Saving a trap frame changes nothing else. -/
theorem saved_proj {tr : Trap} (g : Env → α)
    (hg : ∀ env, g { env with envTf := tr.tf } = g env) :
    g ((s.saved c tr).envs d) = g (s.envs d) :=
  setEnv_proj (s := s.enter tr) g (hg _)

theorem saved_envs_ne {tr : Trap} (h : d ≠ c) :
    (s.saved c tr).envs d = s.envs d :=
  setEnv_envs_ne h

/-- Resuming an environment only counts its runs. -/
theorem runOn_proj (g : Env → α)
    (hg : ∀ env n, g { env with envRuns := n } = g env) :
    g ((s.runOn e).envs d) = g (s.envs d) := by
  unfold runOn
  split
  · rfl
  · by_cases hd : d = e
    · subst hd
      simp only [Function.update_self]
      exact hg _ _
    · simp only [Function.update_of_ne hd]

theorem runOn_curenv : (s.runOn e).curenv = some e := by
  unfold runOn
  split
  · assumption
  · rfl

@[simp] theorem runOn_vm : (s.runOn e).vm = s.vm := by
  unfold runOn; split <;> rfl

@[simp] theorem runOn_envFreeList :
    (s.runOn e).envFreeList = s.envFreeList := by
  unfold runOn; split <;> rfl

@[simp] theorem runOn_waitingSrcenvIds :
    (s.runOn e).waitingSrcenvIds = s.waitingSrcenvIds := by
  unfold runOn; split <;> rfl

@[simp] theorem runOn_waitingDstenvIds :
    (s.runOn e).waitingDstenvIds = s.waitingDstenvIds := by
  unfold runOn; split <;> rfl

@[simp] theorem runOn_waitingEnvNum :
    (s.runOn e).waitingEnvNum = s.waitingEnvNum := by
  unfold runOn; split <;> rfl

end Fields

/-! ## Naming environments -/

/-- `envid2env` for the current environment `c`. -/
def resolve (s : Kern) (c : Nat) (envid : Word) (checkperm : Bool) :
    Except Word Nat :=
  if envid = 0 then .ok c
  else if (s.envs (envx envid)).envStatus = .free
    ∨ (s.envs (envx envid)).envId ≠ envid then
    .error (-E_BAD_ENV)
  else if checkperm ∧ envx envid ≠ c
      ∧ (s.envs (envx envid)).envParentId ≠ (s.envs c).envId then
    .error (-E_BAD_ENV)
  else
    .ok (envx envid)

/-- `e` is the environment `c` or a live child of it. -/
def Controls (s : Kern) (c e : Nat) : Prop :=
  e = c ∨ (e < NENV ∧ (s.envs e).envStatus ≠ .free
    ∧ (s.envs e).envParentId = (s.envs c).envId)

/-- `e` is a live environment with id `id`. -/
structure Named (s : Kern) (e : Nat) (id : Word) : Prop where
  idx : e = envx id
  live : (s.envs e).envStatus ≠ .free
  id : (s.envs e).envId = id

end Kern

theorem envx_lt (id : Word) : envx id < NENV := Nat.mod_lt _ (by decide)

section Resolve

variable {s : Kern} {c e : Nat} {envid : Word} {p : Bool}

/-- What `envid2env` found: the caller for 0, else the live environment of that
id. -/
theorem resolve_ok (h : s.resolve c envid p = .ok e) :
    (envid = 0 ∧ e = c) ∨ (envid ≠ 0 ∧ s.Named e envid) := by
  unfold Kern.resolve at h
  split at h
  · rename_i h0
    cases h
    exact Or.inl ⟨h0, rfl⟩
  · rename_i h0
    split at h
    · cases h
    · rename_i hl
      split at h
      · cases h
      · cases h
        rw [not_or, not_not] at hl
        exact Or.inr ⟨h0, rfl, hl.1, hl.2⟩

/-- Without the check, every live environment is found by its id. -/
theorem Kern.Named.resolve (h : s.Named e envid) (h0 : envid ≠ 0) :
    s.resolve c envid false = .ok e := by
  unfold Kern.resolve
  rw [if_neg h0, ← h.idx, if_neg (not_or.mpr ⟨h.live, not_not.mpr h.id⟩)]
  simp

/-- With the permission check, only the caller and its children are found. -/
theorem controls_of_resolve (h : s.resolve c envid true = .ok e) :
    s.Controls c e := by
  rcases resolve_ok h with ⟨_, rfl⟩ | ⟨h0, hn⟩
  · exact Or.inl rfl
  · by_cases hec : e = c
    · exact Or.inl hec
    · refine Or.inr ⟨hn.idx ▸ envx_lt _, hn.live, ?_⟩
      unfold Kern.resolve at h
      rw [if_neg h0, ← hn.idx,
        if_neg (by rw [not_or, not_not]; exact ⟨hn.live, hn.id⟩)] at h
      split at h
      · cases h
      · rename_i hp
        by_contra hpar
        exact hp ⟨rfl, hec, hpar⟩

theorem resolve_zero : s.resolve c 0 p = .ok c := by simp [Kern.resolve]

/-- Names depend on which environments are live, and on their ids and
parents. -/
theorem resolve_congr {t : Kern}
    (hlive : ∀ e, (t.envs e).envStatus = .free ↔ (s.envs e).envStatus = .free)
    (hid : ∀ e, (t.envs e).envId = (s.envs e).envId)
    (hpar : ∀ e, (t.envs e).envParentId = (s.envs e).envParentId) :
    t.resolve c envid p = s.resolve c envid p := by
  simp only [Kern.resolve, hlive, hid, hpar]

theorem resolve_setEnv {d : Nat} {f : Env → Env}
    (hlive : (f (s.envs d)).envStatus = .free ↔ (s.envs d).envStatus = .free)
    (hid : (f (s.envs d)).envId = (s.envs d).envId)
    (hpar : (f (s.envs d)).envParentId = (s.envs d).envParentId) :
    (s.setEnv d f).resolve c envid p = s.resolve c envid p := by
  exact resolve_congr
    (fun e => Iff.of_eq (Kern.setEnv_proj (fun env => env.envStatus = .free)
    (propext hlive)))
    (fun _ => Kern.setEnv_proj _ hid) fun _ => Kern.setEnv_proj _ hpar

theorem resolve_error {r : Word} (h : s.resolve c envid p = .error r) :
    r = -E_BAD_ENV := by
  unfold Kern.resolve at h
  split at h
  · cases h
  · split at h
    · cases h; rfl
    · split at h
      · cases h; rfl
      · cases h

end Resolve

/-! ## The effects -/

/-- The part of `env_free` that concerns memory. -/
def freeVm (pgdir : Nat) (cr3 : Word) : VmM Unit := do
  freeUserPages pgdir
  let pp ← pa2page cr3
  pageDecref pp

/-- One page operation that `c` makes on environments it controls. -/
inductive PageCall (s : Kern) (c : Nat) (v v' : Vm) : Prop where
  | alloc {e : Nat} {va perm r : Word} (hctl : s.Controls c e)
      (hva : userPage va)
      (hperm : validPerm perm)
      (h : pageAllocAt (s.envs e).envPgdir va perm v = .ret r v')
  | map {src dst : Nat} {srcva dstva perm : Word} {r : Except Word Unit}
      (hsrc : s.Controls c src) (hdst : s.Controls c dst)
      (hsrcva : userPage srcva)
      (hdstva : userPage dstva) (hperm : validPerm perm)
      (h : pageMapAt (s.envs src).envPgdir srcva
      (s.envs dst).envPgdir dstva perm v
        = .ret r v')
  | unmap {e : Nat} {va : Word} (hctl : s.Controls c e) (hva : userPage va)
      (h : pageRemove (s.envs e).envPgdir va v = .ret () v')

/-- The page operations of one system call. -/
def PageCalls (s : Kern) (c : Nat) : Vm → Vm → Prop :=
  Relation.ReflTransGen (PageCall s c)

/-- A change of an environment's upcalls or priority. -/
def SetsField (f : Env → Env) : Prop :=
  ∀ env, ∃ pgfault priority divide gpfault illop, f env = { env with
    envPgfaultUpcall := pgfault
    envPriority := priority
    envDivideUpcall := divide
    envGpfaultUpcall := gpfault
    envIllopUpcall := illop }

/-- A `sys_ipc_try_send` of `c` to `e` transfers a page with permission `perm`,
or none with `perm` 0, which leaves the memory `v`. -/
def Transfers (s : Kern) (c e : Nat) (perm : Word) (v : Vm) : Prop :=
  (perm = 0 ∧ v = s.vm ∧ ¬((s.envs c).envTf.a3 < UTOP
    ∧ (s.envs e).envIpcDstva < UTOP))
  ∨ (perm = (s.envs c).envTf.a4 ∧ (s.envs e).envIpcDstva < UTOP
    ∧ userPage (s.envs c).envTf.a3 ∧ validPerm perm
    ∧ pageMapAt (s.envs c).envPgdir (s.envs c).envTf.a3 (s.envs e).envPgdir
      (s.envs e).envIpcDstva perm s.vm = .ret (.ok ()) v)

/-- The state after a successful `sys_ipc_try_send` of `c` to `e`. -/
def Kern.delivered (c e : Nat) (perm : Word) (v : Vm) (s : Kern) : Kern :=
  ((s.withVm v).setEnv e (deliver (s.envs c).envId
    (s.envs c).envTf.a2 perm)).setEnv c fun env =>
    { env with envIpcSended := (env.envIpcSended + 1) % 0xFFFFFFFF#32 }

/-- The upcall of a fault with trap number `n`. -/
def faultUpcall (n : Word) : Option (Env → Word) :=
  if n = T_DIVIDE then some Env.envDivideUpcall
  else if n = T_GPFLT then some Env.envGpfaultUpcall
  else if n = T_ILLOP then some Env.envIllopUpcall
  else if n = T_PGFLT then some Env.envPgfaultUpcall
  else none

/-- Why the kernel destroys `c` when it handles the trap saved in it. -/
inductive Exits (s : Kern) (c : Nat) : Prop where
  | noUpcall {upcall : Env → Word}
      (hno : faultUpcall (s.envs c).envTf.tfTrapno = some upcall)
      (h : upcall (s.envs c) = 0)
  | noStack {upcall : Env → Word} {va : Word}
      (hno : faultUpcall (s.envs c).envTf.tfTrapno = some upcall)
      (h : userMemCheck (s.envs c).envPgdir (utfAddr (s.envs c).envTf.tfEsp)
        (BitVec.ofNat 32 SIZEOF_STRUCT_UTRAPFRAME)
        ((PTE_U ||| PTE_W) ||| PTE_U) s.vm
        = .ret (.error va) s.vm)
  | unhandled (hfault : faultUpcall (s.envs c).envTf.tfTrapno = none)
      (h : (s.envs c).envTf.tfTrapno ≠ T_SYSCALL
      ∧ (s.envs c).envTf.tfTrapno ≠ T_BRKPT
        ∧ (s.envs c).envTf.tfTrapno ≠ IRQ_OFFSET + IRQ_TIMER
        ∧ (s.envs c).envTf.tfTrapno ≠ IRQ_OFFSET + IRQ_SPURIOUS)
  | badString {va : Word} (hno : (s.envs c).envTf.sysNo = some .cputs)
      (h : userMemCheck (s.envs c).envPgdir (s.envs c).envTf.a1
      (s.envs c).envTf.a2
        (PTE_U ||| PTE_U) s.vm = .ret (.error va) s.vm)
  | request (hno : (s.envs c).envTf.sysNo = some .envDestroy)
      (h : s.resolve c (s.envs c).envTf.a1 true = .ok c)

/-- The `sys_ipc_recv` of `c` wakes `e`, the first sender queued for `c`. -/
structure Releases (s : Kern) (c e : Nat) : Prop where
  call : (s.envs c).envTf.sysNo = some .ipcRecv
  dst : ¬((s.envs c).envTf.a1 < UTOP ∧ (s.envs c).envTf.a1.toNat % PGSIZE ≠ 0)
  lt : findWaiting s (s.envs c).envId < s.waitingEnvNum
  source : s.resolve c (s.waitingSrcenvIds (findWaiting s (s.envs c).envId))
    false = .ok e

/-- What handling a trap can make of the state `s` in which the frame of
environment `c` has been saved. -/
inductive Handled (c : Nat) (s : Kern) : Kern → Prop where
  /-- A timer or spurious interrupt, a breakpoint, or `sys_yield`. -/
  | idle (hno : (s.envs c).envTf.sysNo ≠ some .ipcRecv) : Handled c s s
  /-- A fault with an upcall. -/
  | push {v : Vm} {va upcall : Word}
      (hno : (s.envs c).envTf.sysNo = none)
      (hv : pushUtf s.cr3 (utfAddr (s.envs c).envTf.tfEsp)
      (s.envs c).envTf va s.vm
        = .ret () v) :
      Handled c s ((s.withVm v).setEnv c fun env =>
        { env with envTf := { env.envTf with
            tfEsp := utfAddr (s.envs c).envTf.tfEsp, tfEip := upcall } })
  /-- `c` is destroyed, by a fault, a bad string or its own request. -/
  | exit {v : Vm} (hwhy : Exits s c)
      (hv : freeVm (s.envs c).envPgdir (s.envs c).envCr3 s.vm = .ret () v) :
      Handled c s (s.freed c v).dropCur
  /-- `sys_env_destroy` of a child. -/
  | destroy {e : Nat} {v : Vm} (hno : (s.envs c).envTf.sysNo = some .envDestroy)
      (hres : s.resolve c (s.envs c).envTf.a1 true = .ok e) (hne : e ≠ c)
      (hv : freeVm (s.envs e).envPgdir (s.envs e).envCr3 s.vm = .ret () v) :
      Handled c s ((s.freed e v).sysRet c 0)
  /-- A call that fails, or has no effect but on memory. -/
  | ret {v : Vm} {r : Word} (hno : (s.envs c).envTf.sysNo ≠ some .ipcRecv)
      (hv : PageCalls s c s.vm v) : Handled c s ((s.withVm v).sysRet c r)
  /-- An upcall or priority setter. -/
  | field {e : Nat} {f : Env → Env}
      (hno : (s.envs c).envTf.sysNo ≠ some .ipcRecv)
      (hctl : s.Controls c e) (hf : SetsField f) :
      Handled c s ((s.setEnv e f).sysRet c 0)
  /-- `sys_env_set_status`. -/
  | status {e : Nat} {st : EnvStatus}
      (hno : (s.envs c).envTf.sysNo = some .envSetStatus)
      (hres : s.resolve c (s.envs c).envTf.a1 true = .ok e)
      (hst : validStatus (s.envs c).envTf.a2 = some st) :
      Handled c s
      ((s.setEnv e fun env => { env with envStatus := st }).sysRet c 0)
  /-- `SYS_uxstack_pgfault_status`, up to the last of its three parts. -/
  | uxstack {e : Nat} {v : Vm} {r : Word}
      (hno : (s.envs c).envTf.sysNo = some .uxstackPgfaultStatus)
      (hres : s.resolve c (s.envs c).envTf.a1 true = .ok e)
      (hva : userPage (s.envs c).envTf.a2)
      (hperm : validPerm (s.envs c).envTf.a3)
      (hv : pageAllocAt (s.envs e).envPgdir (s.envs c).envTf.a2
      (s.envs c).envTf.a3 s.vm
        = .ret 0 v) :
      Handled c s (((s.withVm v).setEnv e fun env => { env with
        envPgfaultUpcall := (s.envs c).envTf.a4
        envStatus :=
          (validStatus (s.envs c).envTf.a5).getD env.envStatus }).sysRet c r)
  /-- `sys_env_set_trapframe`. -/
  | trapframe {e : Nat} {bytes : Bytes}
      (hno : (s.envs c).envTf.sysNo = some .envSetTrapframe)
      (hres : s.resolve c (s.envs c).envTf.a1 true = .ok e)
      (hbytes : kload s.cr3 (s.envs c).envTf.a2 SIZEOF_STRUCT_TRAPFRAME s.vm
        = .ret bytes s.vm) :
      Handled c s ((s.setEnv e fun env =>
        { env with envTf := userTf (Trapframe.ofBytes bytes 0) }).sysRet c 0)
  /-- `sys_exofork`. -/
  | exofork {e : Nat} {dir : Nat × Word} {v : Vm}
      (hno : (s.envs c).envTf.sysNo = some .exofork)
      (hfirst : s.envFreeList.first = some e)
      (hv : setupPgdir s.vm = .ret (.ok dir) v) :
      Handled c s (((s.alloced e (s.envs c).envId dir v).setEnv e fun env =>
        { env with
          envStatus := .notRunnable
          envTf := ((s.alloced e (s.envs c).envId dir v).envs c).envTf.setEax 0
            }).sysRet c
        (nextEnvId (s.envs e).envId e))
  /-- `sys_env_restore`. -/
  | restore {e : Nat} {v : Vm} (hno : (s.envs c).envTf.sysNo = some .envRestore)
      (hres : s.resolve c (s.envs c).envTf.a1 false = .ok e)
      (hst : (s.envs e).envStatus = .notRunnable) (hne : e ≠ c)
      (hv : freeVm (s.envs c).envPgdir (s.envs c).envCr3 s.vm = .ret () v) :
      Handled c s ((s.setEnv e fun env =>
        { env with envStatus := .runnable }).freed c v).dropCur
  /-- `sys_ipc_try_send` to an environment that cannot take the message. -/
  | queue {e : Nat} (hno : (s.envs c).envTf.sysNo = some .ipcTrySend)
      (hres : s.resolve c (s.envs c).envTf.a1 false = .ok e)
      (hbusy : (s.envs e).envIpcRecving = false ∨ (s.envs e).envIpcFrom ≠ 0)
      (hroom : s.waitingEnvNum ≠ NENV) :
      Handled c s ((enqueueSender c (s.envs c).envTf.a1 s).setEnv c fun env =>
        { env with envStatus := .notRunnable })
  /-- `sys_ipc_try_send` that cannot transfer its page. -/
  | sendErr {e : Nat} {r : Word} {v : Vm}
      (hno : (s.envs c).envTf.sysNo = some .ipcTrySend)
      (hres : s.resolve c (s.envs c).envTf.a1 false = .ok e)
      (hready : (s.envs e).envIpcRecving = true ∧ (s.envs e).envIpcFrom = 0)
      (hdst : (s.envs e).envIpcDstva < UTOP)
      (hsrc : userPage (s.envs c).envTf.a3)
      (hperm : validPerm (s.envs c).envTf.a4)
      (hv : pageMapAt (s.envs c).envPgdir (s.envs c).envTf.a3
      (s.envs e).envPgdir
        (s.envs e).envIpcDstva (s.envs c).envTf.a4 s.vm = .ret (.error r) v) :
      Handled c s ((s.withVm v).sysRet c r)
  /-- `sys_ipc_try_send` that delivers, with a page or without. -/
  | sent {e : Nat} {perm : Word} {v : Vm}
      (hno : (s.envs c).envTf.sysNo = some .ipcTrySend)
      (hres : s.resolve c (s.envs c).envTf.a1 false = .ok e)
      (hready : (s.envs e).envIpcRecving = true ∧ (s.envs e).envIpcFrom = 0)
      (hv : Transfers s c e perm v) :
      Handled c s ((s.delivered c e perm v).sysRet c 0)
  /-- `sys_ipc_recv` that fails after it has set the fields: `dstva` is not
  aligned, or the first sender queued for `c` no longer exists. -/
  | recvErr {r : Word} (hno : (s.envs c).envTf.sysNo = some .ipcRecv)
      (hnone : ∀ e, ¬Releases s c e) :
      Handled c s ((s.setEnv c (blockRecv (s.envs c).envTf.a1)).sysRet c r)
  /-- `sys_ipc_recv` with nobody queued for `c`. -/
  | recvWait (hno : (s.envs c).envTf.sysNo = some .ipcRecv)
      (hnone : ∀ e, ¬Releases s c e) :
      Handled c s (s.setEnv c (blockRecv (s.envs c).envTf.a1))
  /-- `sys_ipc_recv` that releases the first sender queued for `c`. -/
  | recvWake {e : Nat} (hrel : Releases s c e) :
      Handled c s (dequeueSender (findWaiting s (s.envs c).envId)
        ((s.setEnv c (blockRecv (s.envs c).envTf.a1)).setEnv e wakeSender))

/-- The trap of `c` makes the kernel destroy `e`. -/
inductive Destroys (s : Kern) (c : Nat) : Nat → Prop where
  | exit (h : Exits s c) : Destroys s c c
  | child {e : Nat} (hno : (s.envs c).envTf.sysNo = some .envDestroy)
      (hres : s.resolve c (s.envs c).envTf.a1 true = .ok e) : Destroys s c e
  | restore {d : Nat} (hno : (s.envs c).envTf.sysNo = some .envRestore)
      (hres : s.resolve c (s.envs c).envTf.a1 false = .ok d)
      (hst : (s.envs d).envStatus = .notRunnable) : Destroys s c c

/-! ## The environment that runs -/

/-- Environment `c` is the one that runs. -/
structure Running (s : Kern) (c : Nat) : Prop where
  cur : s.curenv = some c
  lt : c < NENV
  runnable : (s.envs c).envStatus = .runnable

/-- Some runnable environment is resumed after a trap of `c` was handled. -/
def Resumed (c : Nat) (s s' : Kern) : Prop :=
  ∃ s₁ e, Handled c s s₁ ∧ e < NENV ∧ (s₁.envs e).envStatus = .runnable
    ∧ s' = s₁.runOn e

/-- The machine may stop for `x` after a trap in `s`: the full waiting queue is
a reason only if it is full. -/
def Stopped (s : Kern) (x : Stop) : Prop :=
  x = .queueOverflow → s.waitingEnvNum = NENV

theorem Stopped.of_ne {s : Kern} {x : Stop} (h : x ≠ .queueOverflow) :
    Stopped s x :=
  fun hx => absurd hx h

/-! ## The functions that do not return -/

section NoReturn

variable {α : Type} {Q : α → Kern → Prop} {A : Kern → Prop}
  {E : Stop → Kern → Prop}
  {s : Kern} {c e : Nat}

theorem envRun_apply : (envRun e : K α) s = .away (s.runOn e) := by
  by_cases h : s.curenv = some e
  · simp [envRun, Kern.runOn, h]
  · simp [envRun, Kern.runOn, h, Kern.setEnv, Kern.lcr3]

theorem wp_envRun (h : A (s.runOn e)) : Prog.wp (envRun e : K α) Q A E s :=
  Prog.wp_away envRun_apply h

/-- Whatever `sched_yield` picks can run, and is not slot 0. -/
theorem schedPick_spec {envs : Nat → Env} {cur : Nat}
    (h : schedPick envs cur = some e) :
    e < NENV ∧ e ≠ 0 ∧ (envs e).envStatus = .runnable := by
  have key : ∀ (l : List Nat) (best : Option Nat × Word × Word),
      (∀ j, best.1 = some j → j < NENV ∧ j ≠ 0 ∧ (envs j).envStatus =
        .runnable) →
      ∀ j, (l.foldl (schedStep envs) best).1 = some j →
        j < NENV ∧ j ≠ 0 ∧ (envs j).envStatus = .runnable := by
    intro l
    induction l with
    | nil => exact fun best hb => hb
    | cons i l ih =>
        intro best hb
        refine ih _ fun j hj => ?_
        unfold schedStep at hj
        simp only at hj
        split at hj
        · rename_i hi
          cases hj
          exact ⟨Nat.mod_lt _ (by decide), hi.1, hi.2.1⟩
        · exact hb j hj
  exact key _ _ (by simp) e h

/-- `sched_yield` resumes a runnable environment, or stays in the monitor. -/
theorem wp_schedYield
    (h : ∀ e, e < NENV → (s.envs e).envStatus = .runnable → A (s.runOn e))
    (hE : E .monitor s) : Prog.wp (schedYield : K α) Q A E s := by
  unfold schedYield
  simp only [Prog.wp_bind, Prog.wp_ask]
  split
  · rename_i e he
    obtain ⟨hlt, -, hrun⟩ := schedPick_spec he
    exact wp_envRun (h e hlt hrun)
  · exact Prog.wp_ite _ (fun hrun => wp_envRun (h 0 (by decide) hrun)) fun _ =>
      Prog.wp_halt_intro hE

end NoReturn

/-! ## Freeing -/

theorem freeUserPages_stays (pgdir : Nat) : VmStays (freeUserPages pgdir) := by
  refine Prog.Stays.forUp fun i => Prog.Stays.ask.bind fun v =>
    Prog.Stays.ite ?_ (.pure _)
  refine (kaddr_reads _).stays.bind fun pt => ?_
  refine (Prog.Stays.forUp fun j => ?_).bind fun _ =>
    (setPte_stays ..).bind fun _ =>
    (pa2page_reads _).stays.bind fun _ => pageDecref_stays _
  exact Prog.Stays.ask.bind fun v => (pageRemove_stays ..).ite (.pure _)

theorem pageAllocAt_stays (pgdir : Nat) (va perm : Word) :
    VmStays (pageAllocAt pgdir va perm) := by
  refine pageAlloc_stays.bind fun r => ?_
  cases r with
  | error r => exact .pure _
  | ok pp =>
      refine (pageInsert_stays ..).bind fun r => ?_
      cases r with
      | error r => exact (pageFree_stays pp).bind fun _ => .pure _
      | ok _ =>
          refine (pageLookup_stays ..).bind fun r => ?_
          rcases r with ⟨_ | pp, _⟩
          · exact .halt (by decide)
          · exact (kaddr_reads _).stays.bind fun _ =>
              (Prog.Stays.update _).bind fun _ => .pure _

theorem pageMapAt_stays (srcdir : Nat) (srcva : Word) (dstdir : Nat)
    (dstva perm : Word) :
    VmStays (pageMapAt srcdir srcva dstdir dstva perm) := by
  refine (pageLookup_stays ..).bind fun r => ?_
  rcases r with ⟨_ | pp, _ | pte⟩
  · exact .pure _
  · exact .pure _
  · exact .pure _
  · refine Prog.Stays.ask.bind fun v => Prog.Stays.ite (.pure _) ?_
    refine (pageInsert_stays ..).bind fun r => ?_
    cases r with
    | error r => exact (pageFree_stays pp).bind fun _ => .pure _
    | ok _ => exact .pure _

/-! ## Error codes -/

theorem pageAlloc_error {v v' : Vm} {r : Word}
    (h : pageAlloc v = .ret (.error r) v') :
    r = -E_NO_MEM := by
  unfold pageAlloc at h
  rw [Prog.ask_bind] at h
  cases hf : v.pageFreeList.first with
  | some pp => rw [hf] at h; cases h
  | none => rw [hf] at h; cases h; rfl

/-- A failing allocation changes nothing. -/
theorem setupPgdir_error {v v' : Vm} {r : Word}
    (h : setupPgdir v = .ret (.error r) v') :
    v' = v := by
  refine Prog.wp.ret (Q := fun x t => x = .error r → t = v) (A := fun _ => True)
    (E := fun _ _ => True) ?_ h rfl
  unfold setupPgdir pageAlloc
  simp only [Prog.wp_bind, Prog.wp_ask]
  cases v.pageFreeList.first with
  | none => exact Prog.wp_pure_intro (Prog.wp_pure_intro fun _ => rfl)
  | some p =>
      simp only [Prog.wp_bind, Prog.wp_ask, Prog.wp_update, Prog.wp_pure]
      refine (kaddr_reads _).stays.wp (fun _ _ _ => ?_) fun _ _ _ => trivial
      exact (setPpRef_stays ..).wp (fun _ _ _ => nofun) fun _ _ _ => trivial

theorem pageInsert_error {pgdir pp : Nat} {va perm r : Word} {v v' : Vm}
    (h : pageInsert pgdir pp va perm v = .ret (.error r) v') :
    r = -E_NO_MEM := by
  refine Prog.wp.ret (Q := fun x _ => x = .error r → r = -E_NO_MEM)
    (A := fun _ => True)
    (E := fun _ _ => True) ?_ h rfl
  unfold pageInsert
  rw [Prog.wp_bind]
  refine (pgdirWalk_stays ..).wp (fun pte _ _ => ?_) fun _ _ _ => trivial
  cases pte with
  | none => exact Prog.wp_pure_intro fun h => (Except.error.inj h).symm
  | some pte =>
      simp only [Prog.wp_bind, Prog.wp_ask, Prog.wp_pure]
      refine (unmapOld_stays ..).wp (fun _ _ _ => ?_) fun _ _ _ => trivial
      refine (setPte_stays ..).wp (fun _ _ _ => ?_) fun _ _ _ => trivial
      exact (setPpRef_stays ..).wp (fun _ _ _ => nofun) fun _ _ _ => trivial

theorem pageAllocAt_ret {pgdir : Nat} {va perm r : Word} {v v' : Vm}
    (h : pageAllocAt pgdir va perm v = .ret r v') : r = 0 ∨ r = -E_NO_MEM := by
  refine Prog.wp.ret (Q := fun x _ => x = 0 ∨ x = -E_NO_MEM)
    (A := fun _ => True)
    (E := fun _ _ => True) ?_ h
  unfold pageAllocAt
  rw [Prog.wp_bind]
  refine pageAlloc_stays.wp (fun r v₁ h₁ => ?_) fun _ _ _ => trivial
  cases r with
  | error r => exact Prog.wp_pure_intro (Or.inr (pageAlloc_error h₁))
  | ok pp =>
      simp only [Prog.wp_bind]
      refine (pageInsert_stays ..).wp (fun r v₂ h₂ => ?_) fun _ _ _ => trivial
      cases r with
      | error r =>
          simp only [Prog.wp_bind, Prog.wp_pure]
          exact (pageFree_stays pp).wp
            (fun _ _ _ => Or.inr (pageInsert_error h₂))
            fun _ _ _ => trivial
      | ok _ =>
          simp only [Prog.wp_bind]
          refine (pageLookup_reads ..).wp (fun r _ => ?_) fun _ _ => trivial
          rcases r with ⟨_ | pp, _⟩
          · exact Prog.wp_halt_intro trivial
          · simp only [Prog.wp_bind, Prog.wp_update, Prog.wp_pure, true_or]
            exact (kaddr_reads _).wp (fun _ _ => trivial) fun _ _ => trivial

theorem pageMapAt_error {srcdir dstdir : Nat} {srcva dstva perm r : Word}
    {v v' : Vm}
    (h : pageMapAt srcdir srcva dstdir dstva perm v = .ret (.error r) v') :
    r = -E_INVAL ∨ r = -E_NO_MEM := by
  refine Prog.wp.ret (Q := fun x _ => x = .error r → r = -E_INVAL
    ∨ r = -E_NO_MEM)
    (A := fun _ => True) (E := fun _ _ => True) ?_ h rfl
  unfold pageMapAt
  rw [Prog.wp_bind]
  refine (pageLookup_reads ..).wp (fun x _ => ?_) fun _ _ => trivial
  have hinv : (Except.error (-E_INVAL) : Except Word Unit) = .error r →
      r = -E_INVAL ∨ r = -E_NO_MEM := fun h => .inl (Except.error.inj h).symm
  rcases x with ⟨_ | pp, _ | pte⟩
  · exact Prog.wp_pure_intro hinv
  · exact Prog.wp_pure_intro hinv
  · exact Prog.wp_pure_intro hinv
  · simp only [Prog.wp_bind, Prog.wp_ask]
    refine Prog.wp_ite _ (fun _ => Prog.wp_pure_intro hinv) fun _ => ?_
    rw [Prog.wp_bind]
    refine (pageInsert_stays ..).wp (fun x v₂ h₂ => ?_) fun _ _ _ => trivial
    cases x with
    | error x =>
        simp only [Prog.wp_bind, Prog.wp_pure]
        refine (pageFree_stays pp).wp (fun _ _ _ he => ?_) fun _ _ _ => trivial
        cases he
        exact .inr (pageInsert_error h₂)
    | ok _ => exact Prog.wp_pure_intro nofun

theorem setupPgdir_stays : VmStays setupPgdir := by
  refine pageAlloc_stays.bind fun r => ?_
  cases r with
  | error r => exact .pure _
  | ok p =>
      exact (kaddr_reads _).stays.bind fun _ => Prog.Stays.ask.bind fun _ =>
        (setPpRef_stays ..).bind fun _ =>
          (Prog.Stays.update _).bind fun _ => .pure _

section Free

variable {s : Kern} {c e : Nat} {Q : Unit → Kern → Prop} {A : Kern → Prop}
  {E : Stop → Kern → Prop}

theorem leavePgdir_apply : leavePgdir e s
    = .ret () (s.lcr3 (if s.curenv = some e then s.vm.bootCr3 else s.cr3)) := by
  by_cases h : s.curenv = some e <;> simp [leavePgdir, h, Kern.lcr3]

theorem wp_envFree
    (hQ : ∀ v, freeVm (s.envs e).envPgdir (s.envs e).envCr3 s.vm = .ret () v →
      Q () (s.freed e v)) (hE : ∀ x s', x ≠ .queueOverflow → E x s') :
      Prog.wp (envFree e) Q A E s := by
  unfold envFree
  rw [Prog.wp_bind]
  refine Prog.wp_ret leavePgdir_apply ?_
  simp only [Prog.wp_bind, Prog.wp_ask, inVm, Prog.wp_zoom, Prog.wp_update]
  refine (freeUserPages_stays _).wp (fun _ v₁ h₁ => ?_) fun x t hx => hE x _ hx
  refine (pa2page_reads _).stays.wp (fun pp v₂ h₂ => ?_) fun x t hx => hE x _ hx
  refine (pageDecref_stays _).wp (fun _ v₃ h₃ => ?_) fun x t hx => hE x _ hx
  have hv : freeVm (s.envs e).envPgdir (s.envs e).envCr3 s.vm = .ret () v₃ :=
    (Prog.bind_ret h₁).trans ((Prog.bind_ret h₂).trans h₃)
  simpa [Kern.freed, Kern.setEnv, Kern.withVm, Kern.lcr3] using hQ v₃ hv

/-- `env_destroy`: the caller goes on unless it was the one destroyed. -/
theorem wp_envDestroy
    (hQ : ∀ v, freeVm (s.envs e).envPgdir (s.envs e).envCr3 s.vm = .ret () v →
      s.curenv ≠ some e → Q () (s.freed e v))
    (hA : ∀ v e', freeVm (s.envs e).envPgdir (s.envs e).envCr3 s.vm =
      .ret () v →
      s.curenv = some e → e' < NENV → ((s.freed e v).envs e').envStatus =
        .runnable →
      A ((s.freed e v).dropCur.runOn e'))
    (hE : ∀ x s', x ≠ .queueOverflow → E x s') :
    Prog.wp (envDestroy e) Q A E s := by
  unfold envDestroy
  simp only [Prog.wp_bind, Prog.wp_ask]
  refine wp_envFree (fun v hv => ?_) hE
  refine Prog.wp_ite _ (fun hcur => ?_) fun hcur =>
    Prog.wp_pure_intro (hQ v hv hcur)
  simp only [Prog.wp_bind, Prog.wp_update]
  exact wp_schedYield (fun e' hlt hrun => hA v e' hv hcur hlt hrun)
    (hE _ _ (by decide))

end Free

end Jos
