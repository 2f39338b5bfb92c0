import Jos.Kern.Mmu

/-!
# User-mode code

The processor as a user program sees it: registers, and a memory that may refuse an
access. `exec` gives the instructions that lib/pfentry.S is written in; an access that
is not allowed is a fault, and has no result. Code is a straight line, so the
instruction pointer matters only where an instruction loads it. In a `Flat` memory each
address has a byte of its own.
-/

namespace Jos

/-! ## Memory -/

/-- The bytes of an address space. -/
abbrev UMem := Word → BitVec 8

/-- `b` is one of the `n` bytes from `a` on. -/
def Within (a : Word) (n : Nat) (b : Word) : Prop := (b - a).toNat < n

instance {a b : Word} {n : Nat} : Decidable (Within a n b) := Nat.decLt ..

namespace UMem

/-- The little-endian word at `a`. -/
def load32 (m : UMem) (a : Word) : Word := m (a + 3) ++ m (a + 2) ++ m (a + 1) ++ m a

/-- Store a little-endian word at `a`. -/
def store32 (m : UMem) (a v : Word) : UMem := fun b =>
  if b = a then v.extractLsb' 0 8
  else if b = a + 1 then v.extractLsb' 8 8
  else if b = a + 2 then v.extractLsb' 16 8
  else if b = a + 3 then v.extractLsb' 24 8
  else m b

variable {m m' : UMem} {a b c v : Word}

theorem load32_congr (h : ∀ b, Within a 4 b → m' b = m b) : m'.load32 a = m.load32 a := by
  have hw : ∀ i : Word, i.toNat < 4 → Within a 4 (a + i) := by
    intro i hi
    rwa [Within, show a + i - a = i by bv_omega]
  simp only [load32]
  rw [h (a + 3) (hw 3 (by decide)), h (a + 2) (hw 2 (by decide)), h (a + 1) (hw 1 (by decide)),
    h a (by simp [Within])]

theorem load32_store32 (m : UMem) (a v : Word) : (m.store32 a v).load32 a = v := by
  have h1 : a + 1 ≠ a := by bv_omega
  have h2 : a + 2 ≠ a ∧ a + 2 ≠ a + 1 := by bv_omega
  have h3 : a + 3 ≠ a ∧ a + 3 ≠ a + 1 ∧ a + 3 ≠ a + 2 := by bv_omega
  simpa [load32, store32, h1, h2, h3] using Bytes.append_extract v

theorem store32_of_not (h : ¬Within a 4 b) : m.store32 a v b = m b := by
  simp only [Within] at h
  simp only [store32]
  rw [if_neg (by bv_omega), if_neg (by bv_omega), if_neg (by bv_omega), if_neg (by bv_omega)]

/-- A store changes no other word. -/
theorem load32_store32_of_apart (h : ∀ b, Within c 4 b → ¬Within a 4 b) :
    (m.store32 a v).load32 c = m.load32 c :=
  load32_congr fun b hb => store32_of_not (h b hb)

end UMem

/-! ## The processor -/

inductive Reg where
  | edi | esi | ebp | esp | ebx | edx | ecx | eax
deriving DecidableEq

/-- A memory as instructions use it. An access that is not allowed has no result. -/
class Memory (M : Type) where
  load : M → Word → Option Word
  store : M → Word → Word → Option M

/-- The registers of a user program, and its memory. -/
@[ext]
structure Cpu (M : Type) where
  reg : Reg → Word
  eip : Word
  eflags : Word
  mem : M

namespace Cpu

variable {M : Type}

def setReg (r : Reg) (v : Word) (u : Cpu M) : Cpu M :=
  { u with reg := Function.update u.reg r v }

def load [Memory M] (u : Cpu M) (a : Word) : Option Word := Memory.load u.mem a

def store [Memory M] (u : Cpu M) (a v : Word) : Option (Cpu M) :=
  (Memory.store u.mem a v).map fun m => { u with mem := m }

section

variable {u : Cpu M} {r : Reg} {a v : Word}

@[simp] theorem setReg_mem : (u.setReg r v).mem = u.mem := rfl
@[simp] theorem setReg_eip : (u.setReg r v).eip = u.eip := rfl
@[simp] theorem setReg_eflags : (u.setReg r v).eflags = u.eflags := rfl
@[simp] theorem setReg_load [Memory M] : (u.setReg r v).load a = u.load a := rfl

@[simp] theorem setReg_reg_self : (u.setReg r v).reg r = v := Function.update_self ..

theorem setReg_reg_ne {r' : Reg} (h : r' ≠ r) : (u.setReg r v).reg r' = u.reg r' :=
  Function.update_of_ne h ..

end

end Cpu

/-! ## Instructions -/

/-- The status flags CF, PF, AF, ZF, SF and OF. -/
def FL_STATUS : Word := 0x8D5#32

/-- The status flags of an addition or subtraction of `a` and `b` with result `r`. -/
def statusFlags (a b r : Word) (carry overflow : Bool) : Word :=
  let bit (c : Bool) (n : Nat) : Word := if c then 1#32 <<< n else 0
  let parity := ((List.range 8).filter fun i => r.getLsbD i).length % 2 = 0
  bit carry 0 ||| bit parity 2 ||| bit ((a ^^^ b ^^^ r).getLsbD 4) 4 ||| bit (r = 0) 6
    ||| bit r.msb 7 ||| bit overflow 11

/-- The flags that `popf` cannot change in user mode: the I/O privilege level, and below
level 3 the interrupt flag. -/
def keptFlags (eflags : Word) : Word :=
  if eflags &&& 0x3000#32 = 0x3000#32 then 0x3000#32 else 0x3200#32

inductive Instr where
  /-- `movl disp(base), dst` -/
  | movlFrom (disp : Word) (base dst : Reg)
  /-- `movl src, disp(base)` -/
  | movlTo (src : Reg) (disp : Word) (base : Reg)
  /-- `movl a, dst` -/
  | movlAbs (a : Word) (dst : Reg)
  /-- `addl $imm, r` -/
  | addl (imm : Word) (r : Reg)
  /-- `subl $imm, r` -/
  | subl (imm : Word) (r : Reg)
  | pushl (r : Reg)
  | popl (r : Reg)
  | popal
  | popfl
  /-- `call *r`, where `next` is the address of the next instruction. -/
  | call (r : Reg) (next : Word)
  | ret

/-- Execute one instruction. -/
def exec {M : Type} [Memory M] (u : Cpu M) : Instr → Option (Cpu M)
  | .movlFrom disp base dst => do
      let v ← u.load (u.reg base + disp)
      some (u.setReg dst v)
  | .movlTo src disp base => u.store (u.reg base + disp) (u.reg src)
  | .movlAbs a dst => do
      let v ← u.load a
      some (u.setReg dst v)
  | .addl imm r =>
      let x := u.reg r
      some { u.setReg r (x + imm) with
        eflags := (u.eflags &&& ~~~FL_STATUS)
          ||| statusFlags x imm (x + imm) (x + imm < x) (x.msb = imm.msb ∧ (x + imm).msb ≠ x.msb) }
  | .subl imm r =>
      let x := u.reg r
      some { u.setReg r (x - imm) with
        eflags := (u.eflags &&& ~~~FL_STATUS)
          ||| statusFlags x imm (x - imm) (x < imm) (x.msb ≠ imm.msb ∧ (x - imm).msb ≠ x.msb) }
  | .pushl r => do
      let u' ← u.store (u.reg .esp - 4) (u.reg r)
      some (u'.setReg .esp (u.reg .esp - 4))
  | .popl r => do
      let v ← u.load (u.reg .esp)
      some ((u.setReg .esp (u.reg .esp + 4)).setReg r v)
  | .popal => do
      let esp := u.reg .esp
      let edi ← u.load esp
      let esi ← u.load (esp + 4)
      let ebp ← u.load (esp + 8)
      -- the saved %esp is skipped
      let ebx ← u.load (esp + 16)
      let edx ← u.load (esp + 20)
      let ecx ← u.load (esp + 24)
      let eax ← u.load (esp + 28)
      some { u with reg := fun
        | .edi => edi
        | .esi => esi
        | .ebp => ebp
        | .esp => esp + 32
        | .ebx => ebx
        | .edx => edx
        | .ecx => ecx
        | .eax => eax }
  | .popfl => do
      let v ← u.load (u.reg .esp)
      let kept := keptFlags u.eflags
      some { u.setReg .esp (u.reg .esp + 4) with eflags := (u.eflags &&& kept) ||| (v &&& ~~~kept) }
  | .call r next => do
      let u' ← u.store (u.reg .esp - 4) next
      some { u'.setReg .esp (u.reg .esp - 4) with eip := u.reg r }
  | .ret => do
      let v ← u.load (u.reg .esp)
      some { u.setReg .esp (u.reg .esp + 4) with eip := v }

/-- Execute instructions in a row. -/
def execAll {M : Type} [Memory M] (u : Cpu M) : List Instr → Option (Cpu M)
  | [] => some u
  | i :: is => do
      let u' ← exec u i
      execAll u' is

/-! ## Flags -/

/-- The flags that user code cannot change are the same in `g` as in `f`. -/
def SameKept (f g : Word) : Prop := g &&& keptFlags f = f &&& keptFlags f

theorem keptFlags_eq (f : Word) :
    (keptFlags f = 0x3000#32 ∧ f &&& 0x3000#32 = 0x3000#32)
      ∨ (keptFlags f = 0x3200#32 ∧ f &&& 0x3000#32 ≠ 0x3000#32) := by
  unfold keptFlags
  split
  · rename_i h
    exact .inl ⟨rfl, h⟩
  · rename_i h
    exact .inr ⟨rfl, h⟩

namespace SameKept

variable {f g h : Word}

theorem refl (f : Word) : SameKept f f := rfl

/-- The kept flags include the privilege level, on which they depend. -/
theorem kept (hfg : SameKept f g) : keptFlags g = keptFlags f := by
  have hiopl : g &&& 0x3000#32 = f &&& 0x3000#32 := by
    have hsub : keptFlags f &&& 0x3000#32 = 0x3000#32 := by
      rcases keptFlags_eq f with ⟨h, -⟩ | ⟨h, -⟩ <;> rw [h] <;> decide
    have := congrArg (· &&& 0x3000#32) hfg
    simpa only [BitVec.and_assoc, hsub] using this
  unfold keptFlags
  rw [hiopl]

theorem symm (hfg : SameKept f g) : SameKept g f := by
  unfold SameKept
  rw [hfg.kept]
  exact Eq.symm hfg

theorem trans (hfg : SameKept f g) (hgh : SameKept g h) : SameKept f h := by
  unfold SameKept at *
  rw [SameKept.kept hfg] at hgh
  exact hgh.trans hfg

/-- `popf` restores flags that only differ in what it can change. -/
theorem restore (hfg : SameKept f g) :
    (g &&& keptFlags g) ||| (f &&& ~~~keptFlags g) = f := by
  rw [hfg.kept, show g &&& keptFlags f = f &&& keptFlags f from hfg, ← BitVec.and_or_distrib_left]
  rw [show keptFlags f ||| ~~~keptFlags f = BitVec.allOnes 32 by
    rcases keptFlags_eq f with ⟨h, -⟩ | ⟨h, -⟩ <;> rw [h] <;> decide]
  exact BitVec.and_allOnes

/-- Arithmetic changes only the status flags. -/
theorem status (f a b r : Word) (c o : Bool) :
    SameKept f ((f &&& ~~~FL_STATUS) ||| statusFlags a b r c o) := by
  have hmask : ∀ k : Word, k = 0x3000#32 ∨ k = 0x3200#32 →
      ((f &&& ~~~FL_STATUS) ||| statusFlags a b r c o) &&& k = f &&& k := by
    intro k hk
    have hbit : ∀ (c : Bool) (n : Nat), n ∈ [0, 2, 4, 6, 7, 11] →
        (if c then 1#32 <<< n else 0) &&& k = 0 := by
      intro c n hn
      cases c with
      | false => exact BitVec.zero_and
      | true => rcases hk with rfl | rfl <;> revert n <;> decide
    have hstatus : statusFlags a b r c o &&& k = 0 := by
      simp only [statusFlags, BitVec.and_or_distrib_right]
      rw [hbit _ 0 (by decide), hbit _ 2 (by decide), hbit _ 4 (by decide),
        hbit _ 6 (by decide), hbit _ 7 (by decide), hbit _ 11 (by decide)]
      rfl
    have hsub : ~~~FL_STATUS &&& k = k := by rcases hk with rfl | rfl <;> decide
    rw [BitVec.and_or_distrib_right, hstatus, BitVec.and_assoc, hsub]
    exact BitVec.or_zero
  refine hmask _ ?_
  rcases keptFlags_eq f with ⟨h, -⟩ | ⟨h, -⟩
  · exact .inl h
  · exact .inr h

end SameKept

theorem execAll_cons {M : Type} [Memory M] {u u' : Cpu M} {i : Instr} {is : List Instr}
    (h : exec u i = some u') : execAll u (i :: is) = execAll u' is := by
  rw [execAll, h]
  rfl

theorem execAll_append {M : Type} [Memory M] {u : Cpu M} {is js : List Instr} :
    execAll u (is ++ js) = (execAll u is).bind fun u' => execAll u' js := by
  induction is generalizing u with
  | nil => rfl
  | cons i is ih =>
      simp only [List.cons_append, execAll, Option.bind_eq_bind, Option.bind_assoc]
      exact congrArg _ (funext fun u' => ih)

/-! ## Flat memory -/

/-- An address space in which each address has a byte of its own. What a program may
write it may read, and is below `UTOP`. -/
@[ext]
structure Flat where
  bytes : UMem
  readable : Word → Prop
  writable : Word → Prop
  writable_lt : ∀ a, writable a → a < UTOP
  writable_readable : ∀ a, writable a → readable a

def Flat.put (m : Flat) (a v : Word) : Flat := { m with bytes := m.bytes.store32 a v }

open Classical in
noncomputable instance : Memory Flat where
  load m a :=
    if ∀ i : Nat, i < 4 → m.readable (a + BitVec.ofNat 32 i) then
      some (m.bytes.load32 a)
    else
      none
  store m a v :=
    if ∀ i : Nat, i < 4 → m.writable (a + BitVec.ofNat 32 i) then
      some (m.put a v)
    else
      none

namespace Flat

variable {m m' : Flat} {a b v : Word} {n k : Nat}

/-- The `n` bytes from `a` on may be written. -/
def WritableAt (m : Flat) (a : Word) (n : Nat) : Prop := ∀ b, Within a n b → m.writable b

theorem of_load (h : Memory.load m a = some v) :
    (∀ i : Nat, i < 4 → m.readable (a + BitVec.ofNat 32 i)) ∧ m.bytes.load32 a = v := by
  simp only [Memory.load] at h
  split at h
  · rename_i hread
    exact ⟨hread, Option.some.inj h⟩
  · cases h

theorem of_store (h : Memory.store m a v = some m') :
    (∀ i : Nat, i < 4 → m.writable (a + BitVec.ofNat 32 i)) ∧ m.put a v = m' := by
  simp only [Memory.store] at h
  split at h
  · rename_i hwrite
    exact ⟨hwrite, Option.some.inj h⟩
  · cases h

theorem WritableAt.mono (h : m.WritableAt a n)
    (hsub : ∀ c, Within b k c → Within a n c) : m.WritableAt b k :=
  fun c hc => h c (hsub c hc)

theorem WritableAt.word (h : m.WritableAt a 4) (i : Nat) (hi : i < 4) :
    m.writable (a + BitVec.ofNat 32 i) := by
  refine h _ ?_
  rw [Within, show a + BitVec.ofNat 32 i - a = BitVec.ofNat 32 i by bv_omega,
    BitVec.toNat_ofNat]
  omega

theorem WritableAt.store (h : m.WritableAt a 4) :
    Memory.store m a v = some (m.put a v) :=
  if_pos h.word

theorem WritableAt.load (h : m.WritableAt a 4) :
    Memory.load m a = some (m.bytes.load32 a) :=
  if_pos fun i hi => m.writable_readable _ (h.word i hi)

end Flat

/-! ## One instruction -/

section

variable {u : Cpu Flat} {r : Reg}

theorem exec_addl (imm : Word) : ∃ u', exec u (.addl imm r) = some u' ∧ u'.mem = u.mem
    ∧ u'.reg = Function.update u.reg r (u.reg r + imm) ∧ SameKept u.eflags u'.eflags :=
  ⟨_, rfl, rfl, rfl, .status ..⟩

theorem exec_subl (imm : Word) : ∃ u', exec u (.subl imm r) = some u' ∧ u'.mem = u.mem
    ∧ u'.reg = Function.update u.reg r (u.reg r - imm) ∧ SameKept u.eflags u'.eflags :=
  ⟨_, rfl, rfl, rfl, .status ..⟩

theorem Cpu.load_flat {a : Word} (ha : u.mem.WritableAt a 4) :
    u.load a = some (u.mem.bytes.load32 a) := ha.load

theorem exec_movlFrom (disp : Word) (base dst : Reg)
    (ha : u.mem.WritableAt (u.reg base + disp) 4) :
    exec u (.movlFrom disp base dst)
      = some (u.setReg dst (u.mem.bytes.load32 (u.reg base + disp))) := by
  rw [exec, Cpu.load_flat ha]
  rfl

theorem exec_movlTo (disp : Word) (base src : Reg)
    (ha : u.mem.WritableAt (u.reg base + disp) 4) :
    exec u (.movlTo src disp base)
      = some { u with mem := u.mem.put (u.reg base + disp) (u.reg src) } := by
  rw [exec, Cpu.store, ha.store]
  rfl

theorem exec_popl (ha : u.mem.WritableAt (u.reg .esp) 4) : exec u (.popl r)
    = some ((u.setReg .esp (u.reg .esp + 4)).setReg r
        (u.mem.bytes.load32 (u.reg .esp))) := by
  rw [exec, Cpu.load_flat ha]
  rfl

theorem exec_popfl (ha : u.mem.WritableAt (u.reg .esp) 4) : exec u .popfl
    = some { u.setReg .esp (u.reg .esp + 4) with
        eflags := (u.eflags &&& keptFlags u.eflags)
          ||| (u.mem.bytes.load32 (u.reg .esp) &&& ~~~keptFlags u.eflags) } := by
  rw [exec, Cpu.load_flat ha]
  rfl

theorem exec_ret (ha : u.mem.WritableAt (u.reg .esp) 4) : exec u .ret
    = some { u.setReg .esp (u.reg .esp + 4) with
        eip := u.mem.bytes.load32 (u.reg .esp) } := by
  rw [exec, Cpu.load_flat ha]
  rfl

/-- `popal` from a block of eight words. -/
theorem exec_popal (ha : u.mem.WritableAt (u.reg .esp) 32) : exec u .popal
    = some { u with reg := fun
        | .edi => u.mem.bytes.load32 (u.reg .esp)
        | .esi => u.mem.bytes.load32 (u.reg .esp + 4)
        | .ebp => u.mem.bytes.load32 (u.reg .esp + 8)
        | .esp => u.reg .esp + 32
        | .ebx => u.mem.bytes.load32 (u.reg .esp + 16)
        | .edx => u.mem.bytes.load32 (u.reg .esp + 20)
        | .ecx => u.mem.bytes.load32 (u.reg .esp + 24)
        | .eax => u.mem.bytes.load32 (u.reg .esp + 28) } := by
  have hload : ∀ o : Word, o.toNat + 4 ≤ 32 →
      u.load (u.reg .esp + o) = some (u.mem.bytes.load32 (u.reg .esp + o)) := by
    intro o ho
    refine Cpu.load_flat (ha.mono fun c hc => ?_)
    simp only [Within] at hc ⊢
    bv_omega
  have h0 := hload 0 (by decide)
  rw [show u.reg .esp + 0 = u.reg .esp from BitVec.add_zero _] at h0
  simp only [exec, h0, hload 4 (by decide), hload 8 (by decide), hload 16 (by decide),
    hload 20 (by decide), hload 24 (by decide), hload 28 (by decide)]
  rfl

end

end Jos
