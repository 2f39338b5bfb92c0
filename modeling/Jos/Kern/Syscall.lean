import Jos.Kern.Env

/-!
# System calls

The functions of kern/syscall.c with every challenge of inc/challenge.h
enabled. A result is the word that goes to the caller's `eax`.
-/

namespace Jos

/-! ## Console and identity -/

/-- Print a string of the user's, or destroy the environment on a memory
error. -/
def sysCputs (str len : Word) : K Unit := do
  let cur ← currentEnv
  userMemAssert cur str len PTE_U
  if str ≠ 0 then
    let s ← Prog.ask
    let _ ← inVm (printString s.cr3 (2 ^ 32) str len.toInt)

/-- The current environment's id. -/
def sysGetenvid : K Word := do
  let cur ← currentEnv
  let s ← Prog.ask
  pure (s.envs cur).envId

/-! ## Environments -/

/-- `e = envid2env(envid, checkperm)`, then `f e`; the error code if it
fails. -/
def withEnv (envid : Word) (checkperm : Bool) (f : Nat → K Word) : K Word := do
  match ← envid2env envid checkperm with
  | .error r => pure r
  | .ok e => f e

/-- Destroy an environment, possibly the current one. -/
def sysEnvDestroy (envid : Word) : K Word :=
  withEnv envid true fun e => do
    envDestroy e
    pure 0

/-- Allocate an environment with the registers of the current one, in which
the call appears to return 0. -/
def sysExofork : K Word := do
  let cur ← currentEnv
  let s ← Prog.ask
  match ← envAlloc (s.envs cur).envId with
  | .error r => pure r
  | .ok newenv =>
      let s ← Prog.ask
      let tf := (s.envs cur).envTf
      Prog.update fun s => s.setEnv newenv fun env =>
        { env with envStatus := .notRunnable, envTf := tf.setEax 0 }
      let s ← Prog.ask
      pure (s.envs newenv).envId

/-- The environment status that `sys_env_set_status` accepts as `status`. -/
def validStatus (status : Word) : Option EnvStatus :=
  if status = ENV_RUNNABLE then some .runnable
  else if status = ENV_NOT_RUNNABLE then some .notRunnable
  else none

def sysEnvSetStatus (envid status : Word) : K Word :=
  match validStatus status with
  | none => pure (-E_INVAL)
  | some status => withEnv envid true fun e => do
      Prog.update fun s => s.setEnv e fun env =>
      { env with envStatus := status }
      pure 0

/-- The trap frame `sys_env_set_trapframe` installs for the user's `tf`. -/
def userTf (tf : Trapframe) : Trapframe :=
  { tf with tfCs := GD_UT ||| 3, tfEflags := tf.tfEflags ||| FL_IF }

/-- Set the trap frame of `envid` to `*tf`. The result of the memory check is
not used, and the check covers `sizeof(tf)` bytes. -/
def sysEnvSetTrapframe (envid tf : Word) : K Word :=
  withEnv envid true fun e => do
    let s ← Prog.ask
    let _ ← inVm (userMemCheck (s.envs e).envPgdir tf 4 PTE_U)
    let bytes ← inVm (kload s.cr3 tf SIZEOF_STRUCT_TRAPFRAME)
    Prog.update fun s => s.setEnv e fun env =>
      { env with envTf := userTf (Trapframe.ofBytes bytes 0) }
    pure 0

/-- The four upcall setters and `sys_env_set_priority`: one field of an
environment the caller may change. -/
def setField (set : Env → Env) (envid : Word) : K Word :=
  withEnv envid true fun e => do
    Prog.update fun s => s.setEnv e set
    pure 0

def sysEnvSetPgfaultUpcall (envid func : Word) : K Word :=
  setField (fun env => { env with envPgfaultUpcall := func }) envid

def sysEnvSetPriority (envid priority : Word) : K Word :=
  setField (fun env => { env with envPriority := priority }) envid

def sysEnvSetGpfaultUpcall (envid func : Word) : K Word :=
  setField (fun env => { env with envGpfaultUpcall := func }) envid

def sysEnvSetDivideUpcall (envid func : Word) : K Word :=
  setField (fun env => { env with envDivideUpcall := func }) envid

def sysEnvSetIllopUpcall (envid func : Word) : K Word :=
  setField (fun env => { env with envIllopUpcall := func }) envid

/-- Make a suspended environment runnable and end the current one. Any
environment may be named. -/
def sysEnvRestore (envid : Word) : K Word :=
  withEnv envid false fun e => do
    let s ← Prog.ask
    if (s.envs e).envStatus ≠ .notRunnable then
      pure (-E_INVAL)
    else
      Prog.update fun s => s.setEnv e fun env =>
      { env with envStatus := .runnable }
      let _ ← sysEnvDestroy 0
      pure 0

/-! ## Memory -/

/-- `va` is a page-aligned user address. -/
def userPage (va : Word) : Prop := va < UTOP ∧ va.toNat % PGSIZE = 0

instance (va : Word) : Decidable (userPage va) := by
  unfold userPage; infer_instance

/-- `perm` is a permission the system calls accept. -/
def validPerm (perm : Word) : Prop :=
  perm &&& PTE_U ≠ 0 ∧ perm &&& PTE_P ≠ 0 ∧ perm ||| PTE_USER = PTE_USER

instance (perm : Word) : Decidable (validPerm perm) := by
  unfold validPerm; infer_instance

/-- `sys_page_alloc` on a checked address and page directory. -/
def pageAllocAt (pgdir : Nat) (va perm : Word) : VmM Word := do
  match ← pageAlloc with
  | .error r => pure r
  | .ok pp =>
      match ← pageInsert pgdir pp va perm with
      | .error r =>
          pageFree pp
          pure r
      | .ok () =>
          match ← pageLookup pgdir va with
          | (none, _) => Prog.halt .nullPointer
          | (some pp, _) =>
              let kva ← page2kva pp
              Prog.update fun v => { v with mem := v.mem.zeroPage kva }
              pure 0

/-- Map a new zeroed page. -/
def sysPageAlloc (envid va perm : Word) : K Word :=
  if ¬userPage va then pure (-E_INVAL)
  else if ¬validPerm perm then pure (-E_INVAL)
  else withEnv envid true fun e => do
    let s ← Prog.ask
    inVm (pageAllocAt (s.envs e).envPgdir va perm)

/-- Map the page at `srcva` of one directory at `dstva` of another, as
`sys_page_map` and `sys_ipc_try_send` both do. -/
def pageMapAt (srcdir : Nat) (srcva : Word) (dstdir : Nat) (dstva perm : Word) :
    VmM (Except Word Unit) := do
  match ← pageLookup srcdir srcva with
  | (some pp, some pte) =>
      let v ← Prog.ask
      if perm &&& PTE_W ≠ 0 ∧ v.mem.entry pte.1 pte.2 &&& PTE_W = 0 then
        pure (.error (-E_INVAL))
      else
        match ← pageInsert dstdir pp dstva perm with
        | .error r =>
            -- the page stays mapped at `srcva`
            pageFree pp
            pure (.error r)
        | .ok () => pure (.ok ())
  | _ => pure (.error (-E_INVAL))

/-- Map a page of one environment into another. -/
def sysPageMap (srcenvid srcva dstenvid dstva perm : Word) : K Word :=
  if ¬userPage srcva then pure (-E_INVAL)
  else if ¬userPage dstva then pure (-E_INVAL)
  else if ¬validPerm perm then pure (-E_INVAL)
  else withEnv srcenvid true fun src => withEnv dstenvid true fun dst => do
    let s ← Prog.ask
    match ← inVm (pageMapAt (s.envs src).envPgdir srcva
      (s.envs dst).envPgdir dstva perm) with
    | .error r => pure r
    | .ok () => pure 0

/-- Unmap a page. -/
def sysPageUnmap (envid va : Word) : K Word :=
  if ¬userPage va then pure (-E_INVAL)
  else withEnv envid true fun e => do
    let s ← Prog.ask
    inVm (pageRemove (s.envs e).envPgdir va)
    pure 0

/-! ## Messages -/

/-- Add environment `src`, which sends to `envid`, to the waiting queue. -/
def enqueueSender (src : Nat) (envid : Word) (s : Kern) : Kern :=
  { s with
    waitingSrcenvIds := Function.update s.waitingSrcenvIds s.waitingEnvNum
      (s.envs src).envId
    waitingDstenvIds := Function.update s.waitingDstenvIds s.waitingEnvNum envid
    waitingEnvNum := s.waitingEnvNum + 1 }

/-- `sys_ipc_try_send` when the receiver cannot take the message: queue the
sender and run something else. -/
def queueSender (src : Nat) (envid : Word) : K Word := do
  let s ← Prog.ask
  if s.waitingEnvNum = NENV then
    Prog.halt (.panic "Waiting IPC Overflow!")
  else
    Prog.update (enqueueSender src envid)
    Prog.update fun s => s.setEnv src fun env =>
    { env with envStatus := .notRunnable }
    schedYield

/-- The message arrives: the receiver's fields, and the return from its
`sys_ipc_recv`. -/
def deliver (srcId value perm : Word) (env : Env) : Env :=
  { env with
    envIpcPerm := perm
    envIpcRecving := false
    envIpcFrom := srcId
    envIpcValue := value
    envStatus := .runnable
    envTf := env.envTf.setEax 0 }

/-- The end of a successful `sys_ipc_try_send`. -/
def completeSend (src dst : Nat) (value perm : Word) : K Word := do
  let id ← sysGetenvid
  Prog.update fun s => s.setEnv dst (deliver id value perm)
  Prog.update fun s => s.setEnv src fun env =>
    { env with envIpcSended := (env.envIpcSended + 1) % 0xFFFFFFFF#32 }
  pure 0

/-- Send `value`, and the page at `srcva` if both sides want one. -/
def sysIpcTrySend (envid value srcva perm : Word) : K Word :=
  withEnv 0 true fun src => withEnv envid false fun dst => do
    let s ← Prog.ask
    if (s.envs dst).envIpcRecving = false ∨ (s.envs dst).envIpcFrom ≠ 0 then
      queueSender src envid
    else if srcva < UTOP ∧ (s.envs dst).envIpcDstva < UTOP then
      if srcva.toNat % PGSIZE ≠ 0 then pure (-E_INVAL)
      else if ¬validPerm perm then pure (-E_INVAL)
      else
        match ← inVm (pageMapAt (s.envs src).envPgdir srcva
          (s.envs dst).envPgdir
            (s.envs dst).envIpcDstva perm) with
        | .error r => pure r
        | .ok () => completeSend src dst value perm
    else
      completeSend src dst value 0

/-- The index of the first sender waiting for `id`, or `waiting_env_num`. -/
def findWaiting (s : Kern) (id : Word) : Nat :=
  ((List.range s.waitingEnvNum).find? fun i => s.waitingDstenvIds i = id).getD
    s.waitingEnvNum

/-- Close the gap at index `i` of a queue of `n` entries. -/
def closeGap (q : Nat → Word) (n i : Nat) : Nat → Word := fun j =>
  if i ≤ j ∧ j < n - 1 then q (j + 1) else q j

/-- Remove entry `i` of the waiting queue. -/
def dequeueSender (i : Nat) (s : Kern) : Kern :=
  { s with
    waitingSrcenvIds := closeGap s.waitingSrcenvIds s.waitingEnvNum i
    waitingDstenvIds := closeGap s.waitingDstenvIds s.waitingEnvNum i
    waitingEnvNum := s.waitingEnvNum - 1 }

/-- The receiver waits for a message, and a page at `dstva`. -/
def blockRecv (dstva : Word) (env : Env) : Env :=
  { env with
    envIpcFrom := 0
    envIpcRecving := true
    envIpcDstva := dstva
    envStatus := .notRunnable }

/-- A queued sender's call returns `-E_IPC_NOT_RECV`. -/
def wakeSender (env : Env) : Env :=
  { env with
    envTf := env.envTf.setEax (-E_IPC_NOT_RECV)
    envStatus := .runnable }

/-- Wait for a message, and let the first sender queued for this environment
try again. The fields are set before `dstva` is checked. -/
def sysIpcRecv (dstva : Word) : K Word :=
  withEnv 0 true fun dst => do
    Prog.update fun s => s.setEnv dst (blockRecv dstva)
    if dstva < UTOP ∧ dstva.toNat % PGSIZE ≠ 0 then
      pure (-E_INVAL)
    else
      let s ← Prog.ask
      let i := findWaiting s (s.envs dst).envId
      if i < s.waitingEnvNum then
        withEnv (s.waitingSrcenvIds i) false fun src => do
          Prog.update fun s => s.setEnv src wakeSender
          Prog.update (dequeueSender i)
          schedYield
      else
        schedYield

/-! ## Dispatch -/

/-- System call numbers, in the order of inc/syscall.h. -/
inductive SysNo where
  | cputs
  | cgetc
  | getenvid
  | envDestroy
  | pageAlloc
  | pageMap
  | pageUnmap
  | exofork
  | envSetStatus
  | envSetTrapframe
  | envSetPgfaultUpcall
  | yield
  | ipcTrySend
  | ipcRecv
  | envSetPriority
  | envRestore
  | envSetGpfaultUpcall
  | envSetDivideUpcall
  | envSetIllopUpcall
  | pageMapUpdatePerm
  | uxstackPgfaultStatus
deriving DecidableEq

/-- The system calls by number. -/
def SysNo.all : List SysNo :=
  [.cputs, .cgetc, .getenvid, .envDestroy, .pageAlloc, .pageMap, .pageUnmap,
   .exofork, .envSetStatus, .envSetTrapframe, .envSetPgfaultUpcall, .yield,
   .ipcTrySend, .ipcRecv, .envSetPriority, .envRestore, .envSetGpfaultUpcall,
   .envSetDivideUpcall, .envSetIllopUpcall, .pageMapUpdatePerm,
   .uxstackPgfaultStatus]

/-- Two mappings in one call: the page goes to the other environment, and is
then mapped again in the environment it came from. -/
def sysPageMapUpdatePerm (a1 a2 a3 a4 a5 : Word) : K Word := do
  let r ← sysPageMap a1 a2 a3 a4 a5
  if r.slt 0 then
    pure r
  else
    sysPageMap a1 a2 a1 a4 a5

/-- The three calls that end a fork, in one. -/
def sysUxstackPgfaultStatus (a1 a2 a3 a4 a5 : Word) : K Word := do
  let r ← sysPageAlloc a1 a2 a3
  if r.slt 0 then
    pure r
  else
    let r ← sysEnvSetPgfaultUpcall a1 a4
    if r.slt 0 then
      pure r
    else if a5 ≠ ENV_NOT_SET then
      sysEnvSetStatus a1 a5
    else
      pure r

/-- Dispatch. `getc` is what `cons_getc` returns. -/
def syscall (syscallno a1 a2 a3 a4 a5 getc : Word) : K Word :=
  match SysNo.all[syscallno.toNat]? with
  | some .cputs => do
      sysCputs a1 a2
      pure 0
  | some .cgetc => pure getc
  | some .getenvid => sysGetenvid
  | some .envDestroy => sysEnvDestroy a1
  | some .yield => schedYield
  | some .pageAlloc => sysPageAlloc a1 a2 a3
  | some .pageMap => sysPageMap a1 a2 a3 a4 a5
  | some .pageUnmap => sysPageUnmap a1 a2
  | some .exofork => sysExofork
  | some .envSetStatus => sysEnvSetStatus a1 a2
  | some .envSetPgfaultUpcall => sysEnvSetPgfaultUpcall a1 a2
  | some .envSetPriority => sysEnvSetPriority a1 a2
  | some .envRestore => sysEnvRestore a1
  | some .envSetGpfaultUpcall => sysEnvSetGpfaultUpcall a1 a2
  | some .envSetDivideUpcall => sysEnvSetDivideUpcall a1 a2
  | some .envSetIllopUpcall => sysEnvSetIllopUpcall a1 a2
  | some .pageMapUpdatePerm => sysPageMapUpdatePerm a1 a2 a3 a4 a5
  | some .uxstackPgfaultStatus => sysUxstackPgfaultStatus a1 a2 a3 a4 a5
  | some .ipcTrySend => sysIpcTrySend a1 a2 a3 a4
  | some .ipcRecv => sysIpcRecv a1
  | some .envSetTrapframe => sysEnvSetTrapframe a1 a2
  | none => pure (-E_INVAL)

end Jos
