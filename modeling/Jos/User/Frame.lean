import Jos.Kern.Handle
import Jos.User.Upcall

/-!
# The frame in physical memory

A user program sees physical memory through its page table, where two addresses
can be one byte. As long as the pages that are stored to are mapped once, it is
a flat memory: the instructions do on it what they do on flat memory
(`execAll_flat`), and the frame that the kernel stores for a page fault changes
nothing else (`fault_user`).
-/

namespace Jos

/-! ## Paged memory -/

/-- Physical memory, and the page directory through which it is seen. -/
structure Paged where
  phys : PhysMem
  cr3 : Word

/-- The byte that the page table `cr3` shows at `a`. -/
def view (m : PhysMem) (cr3 : Word) : UMem := fun a =>
  match translate m cr3 a with
  | some (p, _) => m p (pgoff a)
  | none => 0

/-- Store a byte where `a` is mapped. -/
def Paged.put8 (m : Paged) (a : Word) (x : BitVec 8) : Paged :=
  match translate m.phys m.cr3 a with
  | some (p, _) =>
      { m with phys := Function.update m.phys p (Function.update (m.phys p)
        (pgoff a) x) }
  | none => m

def Paged.put32 (m : Paged) (a v : Word) : Paged :=
  (((m.put8 a (v.extractLsb' 0 8)).put8 (a + 1) (v.extractLsb' 8 8)).put8
    (a + 2) (v.extractLsb' 16 8)).put8 (a + 3) (v.extractLsb' 24 8)

/-- User code may access the four bytes at `a`. -/
def Paged.Allows (m : Paged) (a : Word) (write : Bool) : Prop :=
  ∀ i : Nat, i < 4 →
    (userAccess m.phys m.cr3 (a + BitVec.ofNat 32 i) write).isSome = true

instance {m : Paged} {a : Word} {w : Bool} : Decidable (m.Allows a w) :=
  Nat.decidableBallLT ..

instance : Memory Paged where
  load m a := if m.Allows a false then
    some ((view m.phys m.cr3).load32 a) else none
  store m a v := if m.Allows a true then some (m.put32 a v) else none

/-- Environment `c` as user code sees it, when its page table is loaded. -/
def Kern.user (s : Kern) (c : Nat) : Cpu Paged where
  reg
    | .edi => (s.envs c).envTf.tfRegs.regEdi
    | .esi => (s.envs c).envTf.tfRegs.regEsi
    | .ebp => (s.envs c).envTf.tfRegs.regEbp
    | .esp => (s.envs c).envTf.tfEsp
    | .ebx => (s.envs c).envTf.tfRegs.regEbx
    | .edx => (s.envs c).envTf.tfRegs.regEdx
    | .ecx => (s.envs c).envTf.tfRegs.regEcx
    | .eax => (s.envs c).envTf.tfRegs.regEax
  eip := (s.envs c).envTf.tfEip
  eflags := (s.envs c).envTf.tfEflags
  mem := ⟨s.vm.mem, s.cr3⟩

/-! ## Pages mapped once -/

/-- The page of `a` is mapped at no other user address, and it is none of the
pages of the page table. -/
structure Paged.Alone (m : Paged) (a : Word) : Prop where
  once : ∀ b p f g, b < UTOP → translate m.phys m.cr3 a = some (p, f) →
    translate m.phys m.cr3 b = some (p, g) → b.toNat / 4096 = a.toNat / 4096
  dir : ∀ p f, translate m.phys m.cr3 a = some (p, f) → p ≠ ppn m.cr3
  table : ∀ p f i, translate m.phys m.cr3 a = some (p, f) →
    present (m.phys.entry (ppn m.cr3) i) = true →
    p ≠ ppn (m.phys.entry (ppn m.cr3) i)

theorem userAccess_read {m : PhysMem} {cr3 a : Word}
    (h : (userAccess m cr3 a true).isSome = true) :
    (userAccess m cr3 a false).isSome = true := by
  unfold userAccess at h ⊢
  cases htr : translate m cr3 a with
  | none => rw [htr] at h; cases h
  | some x =>
      rw [htr] at h
      dsimp only at h ⊢
      split at h
      · rename_i hflags
        rw [if_pos ⟨hflags.1, nofun⟩]
        rfl
      · cases h

theorem translate_of_access {m : PhysMem} {cr3 a : Word} {w : Bool}
    (h : (userAccess m cr3 a w).isSome = true) :
    (translate m cr3 a).isSome = true := by
  unfold userAccess at h
  cases htr : translate m cr3 a with
  | none => rw [htr] at h; cases h
  | some x => rfl

/-- The memory of a program as it sees it: what it may store to is mapped
once. -/
def Paged.flat (m : Paged) : Flat where
  bytes a := if a < UTOP then view m.phys m.cr3 a else 0
  readable a := a < UTOP ∧ (userAccess m.phys m.cr3 a false).isSome = true
  writable a := a < UTOP ∧ (userAccess m.phys m.cr3 a true).isSome = true
    ∧ m.Alone a
  writable_lt _ h := h.1
  writable_readable _ h := ⟨h.1, userAccess_read h.2.1⟩

def Cpu.flat (u : Cpu Paged) : Cpu Flat := ⟨u.reg, u.eip, u.eflags, u.mem.flat⟩

/-- `m'` differs from `m` in what is seen only, which is `n`. -/
structure Shown (m m' : Paged) (n : UMem) : Prop where
  cr3 : m'.cr3 = m.cr3
  entry : ∀ i, m'.phys.entry (ppn m.cr3) i = m.phys.entry (ppn m.cr3) i
  translate : ∀ b, Jos.translate m'.phys m.cr3 b = Jos.translate m.phys m.cr3 b
  bytes : m'.flat.bytes = n

section

variable {m m₁ m' : Paged} {n : UMem} {a b x v cr3 : Word} {y : BitVec 8}
  {w : Bool}
  {u u' : Cpu Paged} {w' : Cpu Flat} {s s' : Kern} {tr : Trap} {c : Nat}

namespace Shown

theorem refl (m : Paged) : Shown m m m.flat.bytes :=
  ⟨rfl, fun _ => rfl, fun _ => rfl, rfl⟩

theorem alone (h : Shown m m' n) : m'.Alone a ↔ m.Alone a := by
  obtain ⟨p', c'⟩ := m'
  obtain rfl : c' = m.cr3 := h.cr3
  have hent := h.entry
  have htr := h.translate
  dsimp only at hent htr
  constructor
  · rintro ⟨h₁, h₂, h₃⟩
    simp only [htr, hent] at h₁ h₂ h₃
    exact ⟨h₁, h₂, h₃⟩
  · rintro ⟨h₁, h₂, h₃⟩
    exact ⟨by simpa only [htr] using h₁, by simpa only [htr] using h₂,
      by simpa only [htr, hent] using h₃⟩

theorem access (h : Shown m m' n) (w : Bool) (b : Word) :
    userAccess m'.phys m'.cr3 b w = userAccess m.phys m.cr3 b w := by
  rw [h.cr3]
  unfold userAccess
  rw [h.translate b]

/-- What the program sees has changed, and nothing else. -/
theorem flat (h : Shown m m' n) : m'.flat = { m.flat with bytes := n } := by
  refine Flat.ext h.bytes ?_ ?_
  · funext b
    exact propext (and_congr_right fun _ => by rw [h.access])
  · funext b
    exact propext (and_congr_right fun _ => by rw [h.access, h.alone])

/-- A byte stored to a page that is mapped once. -/
theorem put8 (h : Shown m m₁ n) (ha : m.Alone a) (hlt : a < UTOP)
    (hmap : (Jos.translate m.phys m.cr3 a).isSome = true) :
    Shown m (m₁.put8 a y) (Function.update n a y) := by
  obtain ⟨⟨p, f⟩, htr⟩ := Option.isSome_iff_exists.mp hmap
  obtain ⟨phys, c'⟩ := m₁
  obtain rfl : c' = m.cr3 := h.cr3
  have htr₁ : Jos.translate phys m.cr3 a = some (p, f) :=
    (h.translate a).trans htr
  have hput : (⟨phys, m.cr3⟩ : Paged).put8 a y
      = ⟨Function.update phys p (Function.update (phys p)
        (pgoff a) y), m.cr3⟩ := by
    unfold Paged.put8
    rw [htr₁]
  rw [hput]
  have hentry : ∀ i, PhysMem.entry (Function.update phys p
      (Function.update (phys p) (pgoff a) y)) (ppn m.cr3) i =
        phys.entry (ppn m.cr3) i :=
    fun i => PhysMem.entry_congr
      (Function.update_of_ne (Ne.symm (ha.dir p f htr)) ..)
  have htrans : ∀ b, Jos.translate (Function.update phys p
      (Function.update (phys p) (pgoff a) y)) m.cr3 b =
        Jos.translate phys m.cr3 b := by
    intro b
    unfold Jos.translate
    simp only [hentry]
    by_cases hpr : present (phys.entry (ppn m.cr3) (pdx b)) = true
    · have hne : p ≠ ppn (phys.entry (ppn m.cr3) (pdx b)) := by
        have hold := h.entry (pdx b)
        dsimp only at hold
        rw [hold] at hpr ⊢
        exact ha.table p f _ htr hpr
      rw [PhysMem.entry_congr (Function.update_of_ne (Ne.symm hne) ..)]
    · simp [hpr]
  refine ⟨rfl, fun i => (hentry i).trans (h.entry i),
    fun b => (htrans b).trans (h.translate b), ?_⟩
  funext b
  have hn := congrFun h.bytes b
  simp only [Paged.flat, view] at hn ⊢
  rw [htrans b]
  by_cases hb : b = a
  · subst hb
    rw [if_pos hlt, htr₁, Function.update_self]
    dsimp only
    rw [Function.update_self, Function.update_self]
  · rw [Function.update_of_ne hb, ← hn]
    by_cases hbt : b < UTOP
    · rw [if_pos hbt, if_pos hbt]
      cases htrb : Jos.translate phys m.cr3 b with
      | none => rfl
      | some qg =>
          obtain ⟨q, g⟩ := qg
          dsimp only
          by_cases hq : q = p
          · subst hq
            have hpage :=
              ha.once b q f g hbt htr ((h.translate b).symm.trans htrb)
            have hoff : pgoff b ≠ pgoff a := by
              rw [pgoff_eq, pgoff_eq]
              intro hoff
              exact hb (by bv_omega)
            rw [Function.update_self, Function.update_of_ne hoff]
          · rw [Function.update_of_ne hq]
    · rw [if_neg hbt, if_neg hbt]

end Shown

/-- The bytes `[a, a + n)` are mapped user memory, in pages mapped once. -/
def Paged.Clear (m : Paged) (a : Word) (k : Nat) : Prop :=
  ∀ b, Within a k b → b < UTOP ∧ m.Alone b
    ∧ (translate m.phys m.cr3 b).isSome = true

theorem update_store32 :
    Function.update (Function.update (Function.update (Function.update n a
      (x.extractLsb' 0 8)) (a + 1) (x.extractLsb' 8 8)) (a +
        2) (x.extractLsb' 16 8))
      (a + 3) (x.extractLsb' 24 8) = n.store32 a x := by
  have h1 : a + 1 ≠ a := by bv_omega
  have h2 : a + 2 ≠ a ∧ a + 2 ≠ a + 1 := by bv_omega
  have h3 : a + 3 ≠ a ∧ a + 3 ≠ a + 1 ∧ a + 3 ≠ a + 2 := by bv_omega
  funext b
  simp only [UMem.store32, Function.update_apply]
  grind

theorem within_byte {i : Word} (hi : i.toNat < 4) : Within a 4 (a + i) := by
  rwa [Within, show a + i - a = i by bv_omega]

theorem Shown.put32 (h : Shown m m₁ n) (hc : m.Clear a 4) :
    Shown m (m₁.put32 a x) (n.store32 a x) := by
  have hput : ∀ {m₂ n₂ y} (i : Word), i.toNat < 4 → Shown m m₂ n₂ →
      Shown m (m₂.put8 (a + i) y) (Function.update n₂ (a + i) y) := by
    intro m₂ n₂ y i hi h₂
    obtain ⟨hlt, halone, hmap⟩ := hc _ (within_byte hi)
    exact h₂.put8 halone hlt hmap
  have h₀ := hput (y := x.extractLsb' 0 8) 0 (by decide) h
  rw [show a + 0 = a from BitVec.add_zero _] at h₀
  rw [← update_store32]
  exact hput 3 (by decide) (hput 2 (by decide) (hput 1 (by decide) h₀))

/-! ## Instructions -/

theorem within_offset : b = a + BitVec.ofNat 32 (b - a).toNat := by
  rw [BitVec.ofNat_toNat, BitVec.setWidth_eq]
  bv_omega

/-- A store of user code to pages mapped once. -/
theorem Paged.store_shown (hc : ∀ b, Within a 4 b → b < UTOP ∧ m.Alone b)
    (h : Memory.store m a v = some m') :
    Shown m m' (m.flat.bytes.store32 a v) := by
  change (if m.Allows a true then some (m.put32 a v) else none) = some m' at h
  split at h
  · rename_i hallow
    obtain rfl := Option.some.inj h
    refine (Shown.refl m).put32 fun b hb => ⟨(hc b hb).1, (hc b hb).2, ?_⟩
    have hmap := hallow (b - a).toNat hb
    rw [← within_offset] at hmap
    exact translate_of_access hmap
  · cases h

theorem Paged.load_flat (h : Memory.load m.flat a = some v) :
    Memory.load m a = some v := by
  obtain ⟨hread, rfl⟩ := Flat.of_load h
  have hallow : m.Allows a false := fun i hi => (hread i hi).2
  refine (if_pos hallow).trans
    (congrArg some (UMem.load32_congr fun b hb => ?_))
  have hlt := (hread (b - a).toNat hb).1
  rw [← within_offset] at hlt
  exact (if_pos hlt).symm

theorem Paged.store_flat {f : Flat} (h : Memory.store m.flat a v = some f) :
    ∃ m', Memory.store m a v = some m' ∧ m'.flat = f := by
  obtain ⟨hwrite, rfl⟩ := Flat.of_store h
  have hallow : m.Allows a true := fun i hi => (hwrite i hi).2.1
  have hst : Memory.store m a v = some (m.put32 a v) := if_pos hallow
  refine ⟨_, hst, (Paged.store_shown (fun b hb => ?_) hst).flat⟩
  have hw := hwrite (b - a).toNat hb
  rw [← within_offset] at hw
  exact ⟨hw.1, hw.2.2⟩

theorem Cpu.load_paged (h : u.flat.load a = some v) : u.load a = some v :=
  Paged.load_flat h

theorem Cpu.store_paged (h : u.flat.store a v = some w') :
    ∃ u', u.store a v = some u' ∧ u'.flat = w' := by
  unfold Cpu.store at h ⊢
  obtain ⟨f, hf, rfl⟩ := Option.map_eq_some_iff.mp h
  obtain ⟨m', hm, rfl⟩ := Paged.store_flat hf
  refine ⟨_, Option.map_eq_some_iff.mpr ⟨m', hm, rfl⟩, rfl⟩

/-- What an instruction does on flat memory, it does on paged memory. -/
theorem exec_flat {i : Instr} (h : exec u.flat i = some w') :
    ∃ u', exec u i = some u' ∧ u'.flat = w' := by
  cases i with
  | movlFrom | movlAbs | popl | popfl | ret =>
      simp only [exec, Option.bind_eq_bind, Option.bind_eq_some_iff] at h ⊢
      obtain ⟨x, hx, h⟩ := h
      obtain rfl := Option.some.inj h
      exact ⟨_, ⟨x, Cpu.load_paged hx, rfl⟩, rfl⟩
  | movlTo => exact Cpu.store_paged h
  | addl | subl =>
      obtain rfl := Option.some.inj h
      exact ⟨_, rfl, rfl⟩
  | pushl | call =>
      simp only [exec, Option.bind_eq_bind, Option.bind_eq_some_iff] at h ⊢
      obtain ⟨x, hx, h⟩ := h
      obtain rfl := Option.some.inj h
      obtain ⟨u₁, hu₁, rfl⟩ := Cpu.store_paged hx
      exact ⟨_, ⟨u₁, hu₁, rfl⟩, rfl⟩
  | popal =>
      simp only [exec, Option.bind_eq_bind, Option.bind_eq_some_iff] at h ⊢
      obtain ⟨x₁, h₁, x₂, h₂, x₃, h₃, x₄, h₄, x₅, h₅, x₆, h₆, x₇, h₇, h⟩ := h
      obtain rfl := Option.some.inj h
      exact ⟨_, ⟨x₁, Cpu.load_paged h₁, x₂, Cpu.load_paged h₂, x₃,
        Cpu.load_paged h₃,
        x₄, Cpu.load_paged h₄, x₅, Cpu.load_paged h₅, x₆, Cpu.load_paged h₆,
        x₇, Cpu.load_paged h₇, rfl⟩, rfl⟩

theorem execAll_flat {is : List Instr} (h : execAll u.flat is = some w') :
    ∃ u', execAll u is = some u' ∧ u'.flat = w' := by
  induction is generalizing u with
  | nil => exact ⟨u, rfl, Option.some.inj h⟩
  | cons i is ih =>
      simp only [execAll, Option.bind_eq_bind, Option.bind_eq_some_iff] at h ⊢
      obtain ⟨w, hw, h⟩ := h
      obtain ⟨u₁, hu₁, rfl⟩ := exec_flat hw
      obtain ⟨u₂, hu₂, rfl⟩ := ih h
      exact ⟨u₂, ⟨u₁, hu₁, hu₂⟩, rfl⟩

/-! ## The kernel's stores -/

theorem kstore8_put {v v' : Vm} (h : kstore8 cr3 a y v = .ret () v') :
    (⟨v'.mem, cr3⟩ : Paged) = Paged.put8 ⟨v.mem, cr3⟩ a y
      ∧ (translate v.mem cr3 a).isSome = true := by
  unfold kstore8 at h
  rw [Prog.ask_bind] at h
  unfold Paged.put8
  dsimp only
  cases htr : translate v.mem cr3 a with
  | none => rw [htr] at h; cases h
  | some pf =>
      obtain ⟨p, f⟩ := pf
      rw [htr] at h
      dsimp only at h
      split at h
      · cases h
      · cases h
        exact ⟨rfl, rfl⟩

theorem kstore8_shown {v v' : Vm} (h : Shown m ⟨v.mem, m.cr3⟩ n)
    (ha : m.Alone a)
    (hlt : a < UTOP) (hret : kstore8 m.cr3 a y v = .ret () v') :
    Shown m ⟨v'.mem, m.cr3⟩ (Function.update n a y) := by
  obtain ⟨heq, hmap⟩ := kstore8_put hret
  rw [heq]
  exact h.put8 ha hlt (by rwa [← h.translate a])

theorem kstore32_shown {v v' : Vm} (h : Shown m ⟨v.mem, m.cr3⟩ n)
    (hc : ∀ b, Within a 4 b → b < UTOP ∧ m.Alone b)
    (hret : kstore32 m.cr3 a x v = .ret () v') :
    Shown m ⟨v'.mem, m.cr3⟩ (n.store32 a x) := by
  unfold kstore32 at hret
  obtain ⟨_, v₁, h₁, hret⟩ := Prog.bind_eq_ret.mp hret
  obtain ⟨_, v₂, h₂, hret⟩ := Prog.bind_eq_ret.mp hret
  obtain ⟨_, v₃, h₃, h₄⟩ := Prog.bind_eq_ret.mp hret
  have hw : Within a 4 a := by
    rw [Within, BitVec.sub_self]
    decide
  rw [← update_store32]
  have s₁ := kstore8_shown h (hc _ hw).2 (hc _ hw).1 h₁
  have hw : ∀ i : Word, i.toNat < 4 → a + i < UTOP ∧ m.Alone (a + i) :=
    fun i hi => hc _ (within_byte hi)
  have s₂ := kstore8_shown s₁ (hw 1 (by decide)).2 (hw 1 (by decide)).1 h₂
  have s₃ := kstore8_shown s₂ (hw 2 (by decide)).2 (hw 2 (by decide)).1 h₃
  exact kstore8_shown s₃ (hw 3 (by decide)).2 (hw 3 (by decide)).1 h₄

/-- Words stored in pages mapped once, one after the other. -/
theorem kstoreAll_shown {v v' : Vm} {stores : List (Word × Word)}
    (h : Shown m ⟨v.mem, m.cr3⟩ n)
    (hc : ∀ y ∈ stores, ∀ b, Within (a + y.1) 4 b → b < UTOP ∧ m.Alone b)
    (hret : (stores.forM fun y => kstore32 m.cr3 (a + y.1) y.2) v =
      .ret () v') :
    Shown m ⟨v'.mem, m.cr3⟩ (n.storeAll a stores) := by
  induction stores generalizing v n with
  | nil =>
      cases hret
      exact h
  | cons y stores ih =>
      obtain ⟨_, v₁, h₁, hret⟩ := Prog.bind_eq_ret.mp hret
      exact ih (kstore32_shown h (hc y (List.mem_cons_self ..)) h₁)
        (fun z hz => hc z (List.mem_cons_of_mem _ hz)) hret

theorem pushUtf_eq (cr3 utf : Word) (tf : Trapframe) (va : Word) :
    pushUtf cr3 utf tf va
    = (utfStores tf va).forM fun y => kstore32 cr3 (utf + y.1) y.2 := by
  have hlast : ∀ f : VmM Unit, (f >>= fun _ => pure ()) = f := by
    intro f
    funext v
    rw [Prog.bind_apply]
    cases f v <;> rfl
  have hzero : kstore32 cr3 utf va = kstore32 cr3 (utf + 0) va := by
    rw [show utf + 0 = utf from BitVec.add_zero _]
  unfold pushUtf
  rw [hzero, ← hlast (kstore32 cr3 (utf + 0) va)]
  rfl

/-! ## A page fault -/

/-- In kernel state `s`, the program `u` takes the trap `tr`. -/
structure Cpu.Takes (u : Cpu Paged) (s : Kern) (tr : Trap) : Prop where
  cr3 : u.mem.cr3 = s.cr3
  mem : tr.mem = u.mem.phys
  tf : tr.tf = u.tf tr.tf

/-- A page fault of `c` after which `c` goes on: the kernel has pushed the
frame. -/
theorem step_pageFault (hr : Running s c) (hstep : Step s tr s')
    (hpg : tr.tf.tfTrapno = T_PGFLT) (hcur : s'.curenv = some c) :
    ∃ v, pushUtf s.cr3 (utfAddr tr.tf.tfEsp) tr.tf tr.cr2
      (s.enter tr).vm = .ret () v
      ∧ s' = ((s.saved c tr).withVm v).setEnv c fun env => { env with
          envTf := { env.envTf with
            tfEsp := utfAddr tr.tf.tfEsp
            tfEip := env.envPgfaultUpcall } } := by
  refine Prog.wp.away (Q := fun _ _ => True) (E := fun _ _ => True)
    (A := fun t => t.curenv = some c →
      ∃ v, pushUtf s.cr3 (utfAddr tr.tf.tfEsp) tr.tf tr.cr2
      (s.enter tr).vm = .ret () v
        ∧ t = ((s.saved c tr).withVm v).setEnv c fun env => { env with
          envTf := { env.envTf with
            tfEsp := utfAddr tr.tf.tfEsp
            tfEip := env.envPgfaultUpcall } }) ?_ hstep.2 hcur
  -- an environment that is destroyed does not go on
  have hdead : ∀ {Q : Unit → Kern → Prop}, Prog.wp (envDestroy c) Q
      (fun t => t.curenv = some c →
        ∃ v, pushUtf s.cr3 (utfAddr tr.tf.tfEsp) tr.tf tr.cr2
          (s.enter tr).vm = .ret () v
          ∧ t = ((s.saved c tr).withVm v).setEnv c fun env => { env with
            envTf := { env.envTf with
              tfEsp := utfAddr tr.tf.tfEsp
              tfEip := env.envPgfaultUpcall } })
      (fun _ _ => True) (s.saved c tr) := by
    refine wp_envDestroy (fun _ _ hne => absurd (hr.saved tr).cur hne)
      (fun v e _ _ _ hrun hcur => ?_) fun _ _ _ => trivial
    obtain rfl : e = c := Option.some.inj (Kern.runOn_curenv.symm.trans hcur)
    rw [Kern.freed_envs_self] at hrun
    cases hrun
  unfold trap
  refine Prog.wp_ite _ (fun _ => ?_) fun h => absurd hstep.user h
  simp only [Prog.wp_bind, Prog.wp_ask]
  rw [show (s.enter tr).curenv = some c from hr.cur]
  simp only [Prog.wp_bind, Prog.wp_update]
  change Prog.wp (trapDispatch c tr.cr2 tr.getc) _ _ _ (s.saved c tr)
  unfold trapDispatch
  simp only [Prog.wp_bind, Prog.wp_ask]
  rw [Kern.saved_envs_self_tf, hpg, if_neg (by decide), if_neg (by decide),
    if_neg (by decide), if_neg (by decide), if_neg (by decide), if_pos rfl]
  unfold pageFaultHandler upcallHandler
  simp only [Prog.wp_bind, Prog.wp_ask]
  refine Prog.wp_ite _ (fun _ => Prog.wp_halt_intro trivial) fun _ => ?_
  refine Prog.wp_ite _ (fun _ => ?_) fun _ => hdead
  unfold userMemAssert
  simp only [Prog.wp_bind, Prog.wp_ask, Prog.wp_update, inVm, Prog.wp_zoom]
  refine (userMemCheck_reads ..).wp (fun r _ => ?_) fun _ _ => trivial
  cases r with
  | error a => exact hdead
  | ok _ =>
      refine Prog.wp_pure_intro
        ((pushUtf_stays ..).wp (fun _ v hv => ?_) fun _ _ _ => trivial)
      refine wp_envRun fun _ => ⟨v, ?_, ?_⟩
      · rw [Kern.saved_envs_self_tf] at hv
        exact hv
      · rw [Kern.saved_envs_self_tf]
        exact if_pos hr.cur

/-- What the program finds after a page fault: the stack pointer at the frame,
which is all that has been stored. -/
theorem fault_user (hr : Running s c) (hstep : Step s tr s')
    (hpg : tr.tf.tfTrapno = T_PGFLT) (hcur : s'.curenv = some c)
    (hu : u.Takes s tr)
    (hclear : ∀ b, Within u.utf 52 b → b < UTOP ∧ u.mem.Alone b) :
    (s'.user c).reg = Function.update u.reg .esp u.utf
      ∧ (s'.user c).eflags = u.eflags
      ∧ Shown u.mem (s'.user c).mem
        (u.mem.flat.bytes.storeAll u.utf (utfStores (u.tf tr.tf) tr.cr2)) := by
  obtain ⟨v, hv, hs'⟩ := step_pageFault hr hstep hpg hcur
  have hesp : tr.tf.tfEsp = u.reg .esp := congrArg Trapframe.tfEsp hu.tf
  have htf : ∃ eip, (s'.envs c).envTf
      = { u.tf tr.tf with tfEsp := u.utf, tfEip := eip } := by
    refine ⟨((s.saved c tr).envs c).envPgfaultUpcall, ?_⟩
    rw [hs', Kern.setEnv_envs_self, Kern.withVm_envs,
      Kern.saved_envs_self_tf, ← hu.tf,
      Cpu.utf, ← hesp]
  obtain ⟨eip, htf⟩ := htf
  refine ⟨?_, ?_, ?_⟩
  · funext r
    cases r <;> simp [Kern.user, htf, Cpu.tf]
  · simp [Kern.user, htf, Cpu.tf]
  · have hmem : (⟨(s.enter tr).vm.mem, u.mem.cr3⟩ : Paged) = u.mem := by
      rw [Kern.enter, hu.mem]
    rw [pushUtf_eq, ← hu.cr3, hesp] at hv
    have hshown := kstoreAll_shown (m := u.mem) (n := u.mem.flat.bytes)
      (by rw [hmem]; exact .refl _) (fun y hy b hb => by
        obtain ⟨hmod, hlt⟩ := utfStores_fit hy
        exact hclear b (within_utf (by omega) hb)) hv
    rw [← hu.tf, show (s'.user c).mem = ⟨v.mem, u.mem.cr3⟩ by
      rw [hs', hu.cr3]; rfl]
    exact hshown

end

end Jos
