import Jos.Kern.Access

/-!
# Environments

The functions of kern/env.c, and `sched_yield`. The functions that do not
return (`env_run`, `sched_yield`) leave their caller.
-/

namespace Jos

/-- `curenv`, where the source dereferences it. -/
def currentEnv : K Nat := do
  let s ← Prog.ask
  match s.curenv with
  | some c => pure c
  | none => Prog.halt .kernelFault

/-- The environment with id `envid`; with `checkperm`, only the current
environment or an immediate child of it. -/
def envid2env (envid : Word) (checkperm : Bool) : K (Except Word Nat) := do
  if envid = 0 then
    let cur ← currentEnv
    pure (.ok cur)
  else
    let s ← Prog.ask
    let e := envx envid
    if (s.envs e).envStatus = .free ∨ (s.envs e).envId ≠ envid then
      pure (.error (-E_BAD_ENV))
    else if checkperm ∧ s.curenv ≠ some e then
      let cur ← currentEnv
      if (s.envs e).envParentId ≠ (s.envs cur).envId then
        pure (.error (-E_BAD_ENV))
      else
        pure (.ok e)
    else
      pure (.ok e)

/-- Mark all environments free and put them on the free list in reverse
order. -/
def envInit : K Unit := do
  Prog.update fun s => { s with envFreeList := s.envFreeList.init }
  Prog.forUp NENV fun i => do
    let e := NENV - 1 - i
    Prog.update fun s => s.setEnv e fun env =>
    { env with envStatus := .free, envId := 0 }
    Prog.update fun s => { s with envFreeList := s.envFreeList.insertHead e }

/-! ## Allocation -/

/-- The page directory of a new environment in page `p`: the kernel part of
`boot_pgdir`, nothing below `UTOP`, and itself at `VPT` and `UVPT`. -/
def initPgdir (p : Nat) (v : Vm) : Vm :=
  let cr3 := page2pa p
  let dir := ((v.mem p).copy 0 (v.mem v.bootPgdir) 0 PGSIZE).fill 0
    (pdxUTOP * 4) 0
  let mem : PhysMem := Function.update v.mem p dir
  let mem : PhysMem := mem.setEntry p (pdx VPT) (cr3 ||| PTE_P ||| PTE_W)
  { v with mem := mem.setEntry p (pdx UVPT) (cr3 ||| PTE_P ||| PTE_U) }

/-- Allocate and initialise a page directory. The result is its page and its
physical address. -/
def setupPgdir : VmM (Except Word (Nat × Word)) := do
  match ← pageAlloc with
  | .error r => pure (.error r)
  | .ok p =>
      let kva ← page2kva p
      let v ← Prog.ask
      setPpRef p (v.ppRef p + 1)
      Prog.update (initPgdir kva)
      pure (.ok (kva, page2pa p))

/-- Give `e` a page directory. -/
def envSetupVm (e : Nat) : K (Except Word Unit) := do
  match ← inVm setupPgdir with
  | .error r => pure (.error r)
  | .ok (pgdir, cr3) =>
      Prog.update fun s => s.setEnv e fun env =>
        { env with envPgdir := pgdir, envCr3 := cr3 }
      pure (.ok ())

/-- The id of the next environment in slot `e`, which last had the id `old`. -/
def nextEnvId (old : Word) (e : Nat) : Word :=
  let generation := (old + 0x1000#32) &&& ~~~0x3FF#32
  let generation := if generation.sle 0 then 0x1000#32 else generation
  generation ||| BitVec.ofNat 32 e

/-- The saved registers of a new environment in slot `e`. Slot 1, the file
server, has I/O privileges. -/
def initTf (e : Nat) : Trapframe :=
  let tf := { Trapframe.zero with
    tfDs := GD_UD ||| 3
    tfEs := GD_UD ||| 3
    tfSs := GD_UD ||| 3
    tfEsp := USTACKTOP
    tfCs := GD_UT ||| 3
    tfEflags := FL_IF }
  if e = 1 then { tf with tfEflags := tf.tfEflags ||| FL_IOPL_3 } else tf

/-- What `env_alloc` sets in slot `e`, the page directory apart. -/
def initEnv (e : Nat) (parentId : Word) (env : Env) : Env :=
  { env with
    envId := nextEnvId env.envId e
    envParentId := parentId
    envStatus := .runnable
    envRuns := 0
    envTf := initTf e
    envPriority := PRIORITY_DEFAULT
    envIpcSended := 0
    envPgfaultUpcall := 0
    envIpcRecving := false }

/-- Allocate an environment. -/
def envAlloc (parentId : Word) : K (Except Word Nat) := do
  let s ← Prog.ask
  match s.envFreeList.first with
  | none => pure (.error (-E_NO_FREE_ENV))
  | some e =>
      match ← envSetupVm e with
      | .error r => pure (.error r)
      | .ok () =>
          Prog.update fun s => s.setEnv e (initEnv e parentId)
          Prog.update fun s => { s with envFreeList := s.envFreeList.remove e }
          pure (.ok e)

/-! ## Running and freeing -/

/-- Switch to environment `e` and resume it. -/
def envRun {α : Type} (e : Nat) : K α := do
  let s ← Prog.ask
  if s.curenv ≠ some e then
    Prog.update fun s => { s with curenv := some e }
    Prog.update fun s => s.setEnv e fun env =>
    { env with envRuns := env.envRuns + 1 }
    Prog.update fun s => s.lcr3 (s.envs e).envCr3
  Prog.leave

/-- One test of `sched_yield`'s loop. The accumulator is `envidx`,
`max_priority` and `min_ipc_sended`. -/
def schedStep (envs : Nat → Env) (best : Option Nat × Word × Word) (i : Nat) :
    Option Nat × Word × Word :=
  let env := envs (i % NENV)
  if i % NENV ≠ 0 ∧ env.envStatus = .runnable
      ∧ (best.2.1 < env.envPriority
        ∨ (env.envPriority = best.2.1 ∧ env.envIpcSended < best.2.2)) then
    (some (i % NENV), env.envPriority, env.envIpcSended)
  else
    best

/-- The environment `sched_yield` picks when the search starts after slot
`cur`. -/
def schedPick (envs : Nat → Env) (cur : Nat) : Option Nat :=
  ((List.range' (cur + 1) NENV).foldl (schedStep envs)
    (none, 0, 0xFFFFFFFF#32)).1

/-- Choose a user environment to run and run it. -/
def schedYield {α : Type} : K α := do
  let s ← Prog.ask
  let cur := match s.curenv with
    | none => 0
    | some c => envx (s.envs c).envId
  match schedPick s.envs cur with
  | some e => envRun e
  | none =>
      if (s.envs 0).envStatus = .runnable then
        envRun 0
      else
        Prog.halt .monitor

/-- Unmap everything below `UTOP` and free the page tables. -/
def freeUserPages (pgdir : Nat) : VmM Unit :=
  Prog.forUp pdxUTOP fun pdeno => do
    let v ← Prog.ask
    let pde := v.mem.entry pgdir pdeno
    if present pde then
      let pt ← kaddr (pteAddr pde)
      Prog.forUp NPTENTRIES fun pteno => do
        let v ← Prog.ask
        if present (v.mem.entry pt pteno) then
          pageRemove pgdir (pgaddr pdeno pteno)
      setPte (pgdir, pdeno) 0
      let pp ← pa2page (pteAddr pde)
      pageDecref pp

/-- Before the current environment is freed, switch to `boot_pgdir`. -/
def leavePgdir (e : Nat) : K Unit := do
  let s ← Prog.ask
  if s.curenv = some e then
    Prog.update fun s => s.lcr3 s.vm.bootCr3

/-- Free environment `e` and all memory it uses. -/
def envFree (e : Nat) : K Unit := do
  leavePgdir e
  let s ← Prog.ask
  inVm (freeUserPages (s.envs e).envPgdir)
  Prog.update fun s => s.setEnv e fun env =>
  { env with envPgdir := 0, envCr3 := 0 }
  let pp ← inVm (pa2page (s.envs e).envCr3)
  inVm (pageDecref pp)
  Prog.update fun s => s.setEnv e fun env => { env with envStatus := .free }
  Prog.update fun s => { s with envFreeList := s.envFreeList.insertHead e }

/-- Free environment `e`, and run another one if it was the current one. -/
def envDestroy (e : Nat) : K Unit := do
  envFree e
  let s ← Prog.ask
  if s.curenv = some e then
    Prog.update fun s => { s with curenv := none }
    schedYield

/-- Destroy `e` unless the user may access `[va, va + len)`. -/
def userMemAssert (e : Nat) (va len perm : Word) : K Unit := do
  let s ← Prog.ask
  match ← inVm (userMemCheck (s.envs e).envPgdir va len (perm ||| PTE_U)) with
  | .ok () => pure ()
  | .error _ => envDestroy e

end Jos
