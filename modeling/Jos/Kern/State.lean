import Jos.Lib.Prog
import Jos.Lib.Queue
import Jos.Kern.Mmu

/-!
# Kernel state

The data of the kernel: `struct Page`, `struct Env` and `struct Trapframe`,
and the globals of kern/pmap.c, kern/env.c and kern/syscall.c. The memory
management state `Vm` is a component of its own, so that the functions of
kern/pmap.c are programs that cannot touch anything else.

A pointer to a `struct Page`, a page directory or a page table is the number
of its page; a pointer to a `struct Env` is its index in `envs`.
-/

namespace Jos

/-! ## Error codes -/

def E_BAD_ENV : Word := 2#32
def E_INVAL : Word := 3#32
def E_NO_MEM : Word := 4#32
def E_NO_FREE_ENV : Word := 5#32
def E_FAULT : Word := 6#32
def E_IPC_NOT_RECV : Word := 7#32

/-- What ends the kernel's work for good. -/
inductive Stop where
  /-- `panic` with its message. -/
  | panic (msg : String)
  /-- A store through a null pointer: the behaviour is undefined. -/
  | nullPointer
  /-- Nothing is left to run: `sched_yield` stays in the monitor. -/
  | monitor
deriving DecidableEq

/-- A fault on an access of the kernel's own ends in `page_fault_handler`. -/
def Stop.kernelFault : Stop :=
  .panic "page fault handler: page fault in kernel-mode!"

/-- The panic of `sys_ipc_try_send` on a full waiting queue. -/
def Stop.queueOverflow : Stop := .panic "Waiting IPC Overflow!"

/-! ## Trap frames -/

/-- `struct PushRegs`. -/
structure PushRegs where
  regEdi : Word
  regEsi : Word
  regEbp : Word
  regOesp : Word
  regEbx : Word
  regEdx : Word
  regEcx : Word
  regEax : Word
deriving DecidableEq

/-- `struct Trapframe`. -/
structure Trapframe where
  tfRegs : PushRegs
  tfEs : BitVec 16
  tfPadding1 : BitVec 16
  tfDs : BitVec 16
  tfPadding2 : BitVec 16
  tfTrapno : Word
  tfErr : Word
  tfEip : Word
  tfCs : BitVec 16
  tfPadding3 : BitVec 16
  tfEflags : Word
  tfEsp : Word
  tfSs : BitVec 16
  tfPadding4 : BitVec 16
deriving DecidableEq

def SIZEOF_STRUCT_TRAPFRAME : Nat := 0x44

def GD_KT : BitVec 16 := 0x08#16
def GD_UT : BitVec 16 := 0x18#16
def GD_UD : BitVec 16 := 0x20#16

def FL_IF : Word := 0x200#32
def FL_IOPL_MASK : Word := 0x3000#32
def FL_IOPL_3 : Word := 0x3000#32

/-- A trap frame of zero bytes. -/
def Trapframe.zero : Trapframe where
  tfRegs := ⟨0, 0, 0, 0, 0, 0, 0, 0⟩
  tfEs := 0
  tfPadding1 := 0
  tfDs := 0
  tfPadding2 := 0
  tfTrapno := 0
  tfErr := 0
  tfEip := 0
  tfCs := 0
  tfPadding3 := 0
  tfEflags := 0
  tfEsp := 0
  tfSs := 0
  tfPadding4 := 0

/-- `tf_regs.reg_eax = v`. -/
def Trapframe.setEax (tf : Trapframe) (v : Word) : Trapframe :=
  { tf with tfRegs := { tf.tfRegs with regEax := v } }

/-- The trap frame whose bytes are those from `off` on. -/
def Trapframe.ofBytes (b : Bytes) (off : Nat) : Trapframe where
  tfRegs := {
    regEdi := b.load32 off
    regEsi := b.load32 (off + 4)
    regEbp := b.load32 (off + 8)
    regOesp := b.load32 (off + 12)
    regEbx := b.load32 (off + 16)
    regEdx := b.load32 (off + 20)
    regEcx := b.load32 (off + 24)
    regEax := b.load32 (off + 28) }
  tfEs := b (off + 33) ++ b (off + 32)
  tfPadding1 := b (off + 35) ++ b (off + 34)
  tfDs := b (off + 37) ++ b (off + 36)
  tfPadding2 := b (off + 39) ++ b (off + 38)
  tfTrapno := b.load32 (off + 40)
  tfErr := b.load32 (off + 44)
  tfEip := b.load32 (off + 48)
  tfCs := b (off + 53) ++ b (off + 52)
  tfPadding3 := b (off + 55) ++ b (off + 54)
  tfEflags := b.load32 (off + 56)
  tfEsp := b.load32 (off + 60)
  tfSs := b (off + 65) ++ b (off + 64)
  tfPadding4 := b (off + 67) ++ b (off + 66)

/-! ## Environments -/

def NENV : Nat := 1024

/-- `ENVX(envid)`. -/
def envx (envid : Word) : Nat := envid.toNat % NENV

/-- `env_status`: `ENV_FREE`, `ENV_RUNNABLE` or `ENV_NOT_RUNNABLE`. -/
inductive EnvStatus where
  | free
  | runnable
  | notRunnable
deriving DecidableEq

def ENV_RUNNABLE : Word := 1#32
def ENV_NOT_RUNNABLE : Word := 2#32
def ENV_NOT_SET : Word := 3#32
def PRIORITY_DEFAULT : Word := 0x1000#32

/-- `struct Env`, without the links of the free list. `envPgdir` is the page
of the directory, 0 when there is none (page 0 is never allocated). -/
structure Env where
  envTf : Trapframe
  envId : Word
  envParentId : Word
  envStatus : EnvStatus
  envRuns : Word
  envPgdir : Nat
  envCr3 : Word
  envPgfaultUpcall : Word
  envPriority : Word
  envDivideUpcall : Word
  envGpfaultUpcall : Word
  envIllopUpcall : Word
  envIpcSended : Word
  envIpcRecving : Bool
  envIpcDstva : Word
  envIpcValue : Word
  envIpcFrom : Word
  envIpcPerm : Word
deriving DecidableEq

/-! ## The state -/

/-- Memory management: physical memory, and the `pages` array as its
reference counts and the free list. -/
structure Vm where
  mem : PhysMem
  npage : Nat
  ppRef : Nat → BitVec 16
  pageFreeList : Queue Nat
  bootPgdir : Nat
  bootCr3 : Word

/-- The kernel: its memory management, its environments, the page directory
the processor uses, and the senders waiting for a receiver. -/
structure Kern where
  vm : Vm
  envs : Nat → Env
  envFreeList : Queue Nat
  curenv : Option Nat
  cr3 : Word
  waitingSrcenvIds : Nat → Word
  waitingDstenvIds : Nat → Word
  waitingEnvNum : Nat

/-- A program of kern/pmap.c. -/
abbrev VmM := Prog Vm Stop

/-- A program of the rest of the kernel. -/
abbrev K := Prog Kern Stop

/-- `f` returns or stops, and does not stop as on a full waiting queue. -/
abbrev VmStays {α : Type} (f : VmM α) : Prop := f.Stays (· ≠ .queueOverflow)

/-- `f` only reads, and does not stop as on a full waiting queue. -/
abbrev VmReads {α : Type} (f : VmM α) : Prop := f.Reads (· ≠ .queueOverflow)

namespace Kern

/-- Replace the memory management state. -/
def withVm (v : Vm) (s : Kern) : Kern := { s with vm := v }

/-- Change environment `e`. -/
def setEnv (e : Nat) (f : Env → Env) (s : Kern) : Kern :=
  { s with envs := Function.update s.envs e (f (s.envs e)) }

/-- `lcr3(pa)`. -/
def lcr3 (pa : Word) (s : Kern) : Kern := { s with cr3 := pa }

section Fields

variable {s : Kern} {v : Vm} {e d : Nat} {f : Env → Env} {pa : Word}

@[simp] theorem withVm_vm : (s.withVm v).vm = v := rfl
@[simp] theorem withVm_envs : (s.withVm v).envs = s.envs := rfl
@[simp] theorem withVm_envFreeList :
    (s.withVm v).envFreeList = s.envFreeList := rfl
@[simp] theorem withVm_curenv : (s.withVm v).curenv = s.curenv := rfl
@[simp] theorem withVm_cr3 : (s.withVm v).cr3 = s.cr3 := rfl
@[simp] theorem withVm_waitingSrcenvIds :
    (s.withVm v).waitingSrcenvIds = s.waitingSrcenvIds := rfl
@[simp] theorem withVm_waitingDstenvIds :
    (s.withVm v).waitingDstenvIds = s.waitingDstenvIds := rfl
@[simp] theorem withVm_waitingEnvNum :
    (s.withVm v).waitingEnvNum = s.waitingEnvNum := rfl
@[simp] theorem withVm_self : s.withVm s.vm = s := rfl
@[simp] theorem withVm_withVm {v' : Vm} :
    (s.withVm v).withVm v' = s.withVm v' := rfl

@[simp] theorem setEnv_vm : (s.setEnv e f).vm = s.vm := rfl
@[simp] theorem setEnv_envFreeList :
    (s.setEnv e f).envFreeList = s.envFreeList := rfl
@[simp] theorem setEnv_curenv : (s.setEnv e f).curenv = s.curenv := rfl
@[simp] theorem setEnv_cr3 : (s.setEnv e f).cr3 = s.cr3 := rfl
@[simp] theorem setEnv_waitingSrcenvIds :
    (s.setEnv e f).waitingSrcenvIds = s.waitingSrcenvIds := rfl
@[simp] theorem setEnv_waitingDstenvIds :
    (s.setEnv e f).waitingDstenvIds = s.waitingDstenvIds := rfl
@[simp] theorem setEnv_waitingEnvNum :
    (s.setEnv e f).waitingEnvNum = s.waitingEnvNum := rfl

theorem setEnv_envs : (s.setEnv e f).envs =
      Function.update s.envs e (f (s.envs e)) := rfl

@[simp] theorem setEnv_envs_self : (s.setEnv e f).envs e = f (s.envs e) :=
  Function.update_self ..

theorem setEnv_envs_ne (h : d ≠ e) : (s.setEnv e f).envs d = s.envs d :=
  Function.update_of_ne h ..

/-- What a change of `e` does not affect is the same in every environment. -/
theorem setEnv_proj {α : Type} (g : Env → α)
    (hg : g (f (s.envs e)) = g (s.envs e)) :
    g ((s.setEnv e f).envs d) = g (s.envs d) := by
  by_cases hd : d = e
  · rw [hd, setEnv_envs_self, hg]
  · rw [setEnv_envs_ne hd]

/-- Two changes of one environment are one. -/
theorem setEnv_setEnv {g : Env → Env} :
    (s.setEnv e f).setEnv e g = s.setEnv e fun env => g (f env) := by
  simp [setEnv]

@[simp] theorem lcr3_vm : (s.lcr3 pa).vm = s.vm := rfl
@[simp] theorem lcr3_envs : (s.lcr3 pa).envs = s.envs := rfl
@[simp] theorem lcr3_envFreeList :
    (s.lcr3 pa).envFreeList = s.envFreeList := rfl
@[simp] theorem lcr3_curenv : (s.lcr3 pa).curenv = s.curenv := rfl
@[simp] theorem lcr3_cr3 : (s.lcr3 pa).cr3 = pa := rfl
@[simp] theorem lcr3_waitingSrcenvIds :
    (s.lcr3 pa).waitingSrcenvIds = s.waitingSrcenvIds := rfl
@[simp] theorem lcr3_waitingDstenvIds :
    (s.lcr3 pa).waitingDstenvIds = s.waitingDstenvIds := rfl
@[simp] theorem lcr3_waitingEnvNum :
    (s.lcr3 pa).waitingEnvNum = s.waitingEnvNum := rfl

end Fields

end Kern

/-- Run a program of kern/pmap.c in the kernel. -/
def inVm {α : Type} (f : VmM α) : K α := Prog.zoom Kern.vm Kern.withVm f

end Jos
