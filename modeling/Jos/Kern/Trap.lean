import Jos.Lib.Run
import Jos.Kern.Syscall

/-!
# Traps, and the machine

The functions of kern/trap.c, and the machine they run on: in a step the
current environment executes in user mode for a while, traps, and the
kernel handles the trap and resumes some environment. Interrupts are off in
the kernel, so a trap is handled in one go.
-/

namespace Jos

def T_DIVIDE : Word := 0#32
def T_BRKPT : Word := 3#32
def T_ILLOP : Word := 6#32
def T_GPFLT : Word := 13#32
def T_PGFLT : Word := 14#32
def T_SYSCALL : Word := 48#32
def IRQ_OFFSET : Word := 32#32
def IRQ_TIMER : Word := 0#32
def IRQ_SPURIOUS : Word := 7#32

/-! ## Handlers -/

/-- Fill in the `struct UTrapframe` at `utf`. -/
def pushUtf (cr3 utf : Word) (tf : Trapframe) (faultVa : Word) : VmM Unit := do
  kstore32 cr3 (utf + 48) tf.tfEsp
  kstore32 cr3 (utf + 44) tf.tfEflags
  kstore32 cr3 (utf + 40) tf.tfEip
  kstore32 cr3 (utf + 8) tf.tfRegs.regEdi
  kstore32 cr3 (utf + 12) tf.tfRegs.regEsi
  kstore32 cr3 (utf + 16) tf.tfRegs.regEbp
  kstore32 cr3 (utf + 20) tf.tfRegs.regOesp
  kstore32 cr3 (utf + 24) tf.tfRegs.regEbx
  kstore32 cr3 (utf + 28) tf.tfRegs.regEdx
  kstore32 cr3 (utf + 32) tf.tfRegs.regEcx
  kstore32 cr3 (utf + 36) tf.tfRegs.regEax
  kstore32 cr3 (utf + 4) tf.tfErr
  kstore32 cr3 utf faultVa

/-- `sizeof(struct UTrapframe)`. -/
def SIZEOF_STRUCT_UTRAPFRAME : Nat := 52

/-- Where the `struct UTrapframe` goes for a trap at stack pointer `esp`. -/
def utfAddr (esp : Word) : Word :=
  if esp ≤ UXSTACKTOP - 1 ∧ UXSTACKTOP - 0x1000#32 ≤ esp then
    esp - BitVec.ofNat 32 SIZEOF_STRUCT_TRAPFRAME - 4
  else
    UXSTACKTOP - BitVec.ofNat 32 SIZEOF_STRUCT_TRAPFRAME

/-- The four handlers that differ in the upcall they use and in the message
for a fault in the kernel: push a frame on the exception stack and
branch to the upcall, or destroy the environment. -/
def upcallHandler (upcall : Env → Word) (msg : String) (cur : Nat)
    (faultVa : Word) :
    K Unit := do
  let s ← Prog.ask
  let tf := (s.envs cur).envTf
  if tf.tfCs &&& 3 = 0 then
    Prog.halt (.panic msg)
  else if upcall (s.envs cur) ≠ 0 then
    let utf := utfAddr tf.tfEsp
    userMemAssert cur utf (BitVec.ofNat 32
    SIZEOF_STRUCT_UTRAPFRAME) (PTE_U ||| PTE_W)
    inVm (pushUtf s.cr3 utf tf faultVa)
    Prog.update fun s => s.setEnv cur fun env =>
      { env with envTf := { env.envTf with tfEsp := utf, tfEip := upcall env } }
    envRun cur
  else
    envDestroy cur

def pageFaultHandler : Nat → Word → K Unit :=
  upcallHandler Env.envPgfaultUpcall
    "page fault handler: page fault in kernel-mode!"

def divideByZeroHandler : Nat → Word → K Unit :=
  upcallHandler Env.envDivideUpcall
    "divide-by-zero handler: divided by zero in kernel-mode!"

def generalProtectionFaultHandler : Nat → Word → K Unit :=
  upcallHandler Env.envGpfaultUpcall
    "general protection fault handler: general protection fault in kernel-mode!"

def illegalOpcodeHandler : Nat → Word → K Unit :=
  upcallHandler Env.envIllopUpcall
    "illegal opcode handler: illegal opcode in kernel-mode!"

/-! ## Dispatch -/

namespace Trapframe

/-- The arguments of a system call. -/
def a1 (tf : Trapframe) : Word := tf.tfRegs.regEdx
def a2 (tf : Trapframe) : Word := tf.tfRegs.regEcx
def a3 (tf : Trapframe) : Word := tf.tfRegs.regEbx
def a4 (tf : Trapframe) : Word := tf.tfRegs.regEdi
def a5 (tf : Trapframe) : Word := tf.tfRegs.regEsi

/-- The system call that the trap is, if it is one. -/
def sysNo (tf : Trapframe) : Option SysNo :=
  if tf.tfTrapno = T_SYSCALL then SysNo.all[tf.tfRegs.regEax.toNat]? else none

end Trapframe

/-- Handle the trap whose frame was saved in `cur`. `cr2` is the faulting
address and `getc` the console's next character. A breakpoint enters the
monitor, from which the operator continues. -/
def trapDispatch (cur : Nat) (cr2 getc : Word) : K Unit := do
  let s ← Prog.ask
  let tf := (s.envs cur).envTf
  if tf.tfTrapno = IRQ_OFFSET + IRQ_SPURIOUS then pure ()
  else if tf.tfTrapno = IRQ_OFFSET + IRQ_TIMER then schedYield
  else if tf.tfTrapno = T_DIVIDE then divideByZeroHandler cur cr2
  else if tf.tfTrapno = T_GPFLT then generalProtectionFaultHandler cur cr2
  else if tf.tfTrapno = T_ILLOP then illegalOpcodeHandler cur cr2
  else if tf.tfTrapno = T_PGFLT then pageFaultHandler cur cr2
  else if tf.tfTrapno = T_BRKPT then pure ()
  else if tf.tfTrapno = T_SYSCALL then do
    let r ← syscall tf.tfRegs.regEax tf.a1 tf.a2 tf.a3 tf.a4 tf.a5 getc
    Prog.update fun s => s.setEnv cur fun env =>
    { env with envTf := env.envTf.setEax r }
  else if tf.tfCs = GD_KT then Prog.halt (.panic "unhandled trap in kernel")
  else envDestroy cur

/-- What a trap brings into the kernel: the trap frame, the fault address,
the console's next character, and memory as the user program left it. -/
structure Trap where
  tf : Trapframe
  cr2 : Word
  getc : Word
  mem : PhysMem

/-- Return to the current environment if it can run, else run another. -/
def resume : K Unit := do
  let s ← Prog.ask
  match s.curenv with
  | some c =>
      if (s.envs c).envStatus = .runnable then envRun c else schedYield
  | none => schedYield

/-- Handle a trap. One taken in kernel mode can only be a fault of the kernel's
own. -/
def trap (tr : Trap) : K Unit := do
  if tr.tf.tfCs &&& 3 = 3 then
    let s ← Prog.ask
    match s.curenv with
    | none => Prog.halt (.panic "assertion failed: curenv")
    | some cur =>
        Prog.update fun s => s.setEnv cur fun env => { env with envTf := tr.tf }
        trapDispatch cur tr.cr2 tr.getc
        resume
  else
    Prog.halt .kernelFault

/-! ## The machine -/

/-- The trap frame `tf` can come from user code resumed with `old`: the code
segment stays, and so do the I/O privilege level and, below level 3, the
interrupt flag. -/
structure FromUser (old tf : Trapframe) : Prop where
  cs : tf.tfCs = old.tfCs
  iopl : tf.tfEflags &&& FL_IOPL_MASK = old.tfEflags &&& FL_IOPL_MASK
  intr : old.tfEflags &&& FL_IOPL_MASK ≠ FL_IOPL_3 →
    tf.tfEflags &&& FL_IF = old.tfEflags &&& FL_IF

/-- The state in which the kernel handles a trap: user code has written
memory. -/
def Kern.enter (s : Kern) (tr : Trap) : Kern :=
  { s with vm := { s.vm with mem := tr.mem } }

/-- The trap `tr` is possible in `s`, where environment `c` runs in user
mode. -/
structure UserTrap (s : Kern) (c : Nat) (tr : Trap) : Prop where
  cur : s.curenv = some c
  mem : UserStores s.vm.mem s.cr3 tr.mem
  tf : FromUser (s.envs c).envTf tr.tf

/-- A step of the machine: user code runs up to a trap, which the kernel
handles. -/
def Step (s : Kern) (tr : Trap) (s' : Kern) : Prop :=
  (∃ c, UserTrap s c tr) ∧ trap tr (s.enter tr) = .away s'

end Jos
