import Jos.Kern.Pmap

/-!
# Memory accesses

The address translation of the processor, and the accesses the kernel and user
programs make through it. The kernel runs on the page directory of the
current environment with `CR0_WP` set, so its own stores need a
writable mapping and its faults end in a panic.
-/

namespace Jos

/-- The page mapped at `va`, and the flags that the directory entry and
the table entry agree on. -/
def translate (m : PhysMem) (cr3 va : Word) : Option (Nat × Word) :=
  let pde := m.entry (ppn cr3) (pdx va)
  let pte := m.entry (ppn pde) (ptx va)
  if present pde ∧ present pte then
    some (ppn pte, pde &&& pte)
  else
    none

/-- The page a user-mode access to `va` reaches. -/
def userAccess (m : PhysMem) (cr3 va : Word) (write : Bool) : Option Nat :=
  match translate m cr3 va with
  | none => none
  | some (p, flags) =>
      if flags &&& PTE_U ≠ 0 ∧ (write → flags &&& PTE_W ≠ 0) then
        some p else none

/-- What user code running on `cr3` can make of memory `m`: only pages it may
write change. -/
def UserStores (m : PhysMem) (cr3 : Word) (m' : PhysMem) : Prop :=
  ∀ p, m' p = m p ∨ ∃ va, userAccess m cr3 va true = some p

/-! ## Kernel accesses -/

/-- The `n` bytes at virtual address `va`. -/
def kload (cr3 va : Word) (n : Nat) : VmM Bytes := do
  let v ← Prog.ask
  if ∀ i < n, (translate v.mem cr3 (va + BitVec.ofNat 32 i)).isSome then
    pure fun i =>
      match translate v.mem cr3 (va + BitVec.ofNat 32 i) with
      | some (p, _) => v.mem p (pgoff (va + BitVec.ofNat 32 i))
      | none => 0
  else
    Prog.halt .kernelFault

/-- Store a byte at virtual address `va`. -/
def kstore8 (cr3 va : Word) (x : BitVec 8) : VmM Unit := do
  let v ← Prog.ask
  match translate v.mem cr3 va with
  | none => Prog.halt .kernelFault
  | some (p, flags) =>
      if flags &&& PTE_W = 0 then
        Prog.halt .kernelFault
      else
        Prog.update fun v => { v with
          mem :=
            Function.update v.mem p (Function.update (v.mem p) (pgoff va) x) }

/-- Store a word at virtual address `va`. -/
def kstore32 (cr3 va : Word) (x : Word) : VmM Unit := do
  kstore8 cr3 va (x.extractLsb' 0 8)
  kstore8 cr3 (va + 1) (x.extractLsb' 8 8)
  kstore8 cr3 (va + 2) (x.extractLsb' 16 8)
  kstore8 cr3 (va + 3) (x.extractLsb' 24 8)

/-- The characters `cprintf("%.*s", precision, p)` prints, from a string that is
not null: up to the terminator, and at most `precision` of them unless that
is negative. The character after the last one printed is still read. The guard
page below the kernel stack ends a string that never does. -/
def printString (cr3 : Word) : Nat → Word → Int → VmM (List (BitVec 8))
  | 0, _, _ => Prog.halt .kernelFault
  | fuel + 1, p, precision => do
      let b ← kload cr3 p 1
      if b 0 = 0 ∨ precision = 0 then
        pure []
      else
        let rest ← printString cr3 fuel (p + 1)
            (if precision < 0 then precision else precision - 1)
        pure (b 0 :: rest)

/-! ## What only reads, and what never leaves -/

theorem kload_reads (cr3 va : Word) (n : Nat) : VmReads (kload cr3 va n) :=
  Prog.Reads.ask.bind fun _ =>
    (Prog.Reads.pure _).ite (Prog.Reads.halt (by decide))

theorem printString_reads (cr3 : Word) :
    ∀ (fuel : Nat) (p : Word) (precision : Int),
    VmReads (printString cr3 fuel p precision)
  | 0, _, _ => Prog.Reads.halt (by decide)
  | fuel + 1, _, _ => (kload_reads ..).bind fun _ => (Prog.Reads.pure _).ite
      ((printString_reads cr3 fuel _ _).bind fun _ => Prog.Reads.pure _)

theorem kstore8_stays (cr3 va : Word) (x : BitVec 8) :
    VmStays (kstore8 cr3 va x) := by
  refine Prog.Stays.ask.bind fun v => ?_
  cases translate v.mem cr3 va with
  | none => exact Prog.Stays.halt (by decide)
  | some t => exact (Prog.Stays.halt (by decide)).ite (Prog.Stays.update _)

theorem kstore32_stays (cr3 va x : Word) : VmStays (kstore32 cr3 va x) :=
  (kstore8_stays ..).bind fun _ => (kstore8_stays ..).bind fun _ =>
    (kstore8_stays ..).bind fun _ => kstore8_stays ..

end Jos
