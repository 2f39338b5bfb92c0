import Jos.Kern.Trap
import Jos.User.Cpu

/-!
# The page fault upcall

What a user program sees of a page fault that it handles itself: the `struct UTrapframe`
that `page_fault_handler` of kern/trap.c pushes on the exception stack, and the code of
`_pgfault_upcall` in lib/pfentry.S, which calls the handler and returns through that
frame to the instruction that faulted.
-/

namespace Jos

/-! ## The kernel's part -/

/-- The stores of `page_fault_handler`, by offset in the `struct UTrapframe`. -/
def utfStores (tf : Trapframe) (faultVa : Word) : List (Word × Word) :=
  [(48, tf.tfEsp), (44, tf.tfEflags), (40, tf.tfEip), (8, tf.tfRegs.regEdi),
    (12, tf.tfRegs.regEsi), (16, tf.tfRegs.regEbp), (20, tf.tfRegs.regOesp),
    (24, tf.tfRegs.regEbx), (28, tf.tfRegs.regEdx), (32, tf.tfRegs.regEcx),
    (36, tf.tfRegs.regEax), (4, tf.tfErr), (0, faultVa)]

/-- Store words at offsets from `a`. -/
def UMem.storeAll (m : UMem) (a : Word) (stores : List (Word × Word)) : UMem :=
  stores.foldl (fun m x => m.store32 (a + x.1) x.2) m

/-- The trap frame of `u`, with what user code does not see of it from `old`. -/
def Cpu.tf {M : Type} (u : Cpu M) (old : Trapframe) : Trapframe :=
  { old with
    tfRegs := {
      regEdi := u.reg .edi
      regEsi := u.reg .esi
      regEbp := u.reg .ebp
      regOesp := old.tfRegs.regOesp
      regEbx := u.reg .ebx
      regEdx := u.reg .edx
      regEcx := u.reg .ecx
      regEax := u.reg .eax }
    tfEip := u.eip
    tfEflags := u.eflags
    tfEsp := u.reg .esp }

/-- The address is in the page of the exception stack. -/
def OnUxstack (a : Word) : Prop := a ≤ UXSTACKTOP - 1 ∧ UXSTACKTOP - 0x1000#32 ≤ a

instance {a : Word} : Decidable (OnUxstack a) := instDecidableAnd

/-- Where the `struct UTrapframe` of a fault of `u` goes. -/
def Cpu.utf {M : Type} (u : Cpu M) : Word := utfAddr (u.reg .esp)

/-! ## `_pgfault_upcall` -/

/-- Call the C handler, whose address is in the variable `pgfaultHandler`. -/
def upcallCall (pgfaultHandler next : Word) : List Instr := [
  .pushl .esp,
  .movlAbs pgfaultHandler .eax,
  .call .eax next]

/-- Return to the trap-time state. -/
def upcallReturn : List Instr := [
  .addl 4 .esp,
  .movlFrom 40 .esp .eax,
  .movlFrom 48 .esp .ebx,
  .subl 4 .ebx,
  .movlTo .ebx 48 .esp,
  .movlTo .eax 0 .ebx,
  .addl 8 .esp,
  .popal,
  .addl 4 .esp,
  .popfl,
  .popl .esp,
  .ret]

/-! ## The frame -/

/-- The offset of a register in the `struct UTrapframe`. -/
def utfOff : Reg → Word
  | .edi => 8
  | .esi => 12
  | .ebp => 16
  | .esp => 48
  | .ebx => 24
  | .edx => 28
  | .ecx => 32
  | .eax => 36

/-- The frame of `t` in memory holds its registers. -/
structure Saved {M : Type} (t : Cpu M) (m : UMem) : Prop where
  reg : ∀ r, m.load32 (t.utf + utfOff r) = t.reg r
  eip : m.load32 (t.utf + 40) = t.eip
  eflags : m.load32 (t.utf + 44) = t.eflags

section

variable {M : Type} {t : Cpu M} {u u' : Cpu Flat} {m m' : UMem} {a b : Word}

/-- A word of a frame of 52 bytes. -/
theorem within_utf {o : Word} (ho : o.toNat + 4 ≤ 52) (h : Within (a + o) 4 b) :
    Within a 52 b := by
  simp only [Within] at h ⊢
  bv_omega

theorem Saved.congr (h : Saved t m) (heq : ∀ b, Within t.utf 52 b → m' b = m b) : Saved t m' := by
  have hload : ∀ o : Word, o.toNat + 4 ≤ 52 → m'.load32 (t.utf + o) = m.load32 (t.utf + o) :=
    fun o ho => UMem.load32_congr fun b hb => heq b (within_utf ho hb)
  refine ⟨fun r => ?_, ?_, ?_⟩
  · rw [hload _ (by cases r <;> decide), h.reg]
  · rw [hload _ (by decide), h.eip]
  · rw [hload _ (by decide), h.eflags]

/-- A word stored in the frame and not stored over. -/
theorem load_storeAll {stores : List (Word × Word)} {o v : Word}
    (hmem : (o, v) ∈ stores) (hnodup : (stores.map Prod.fst).Nodup)
    (hfit : ∀ x ∈ stores, x.1.toNat % 4 = 0 ∧ x.1.toNat < 52) :
    (m.storeAll a stores).load32 (a + o) = v := by
  induction stores using List.reverseRecOn with
  | nil => cases hmem
  | append_singleton stores x ih =>
      rw [UMem.storeAll, List.foldl_concat]
      change ((m.storeAll a stores).store32 (a + x.1) x.2).load32 (a + o) = v
      rw [List.map_append, List.nodup_append] at hnodup
      rcases List.mem_append.mp hmem with hold | hlast
      · have hne : o ≠ x.1 := hnodup.2.2 o (List.mem_map.mpr ⟨_, hold, rfl⟩) x.1 (by simp)
        have ho := hfit (o, v) (List.mem_append_left _ hold)
        have hx := hfit x (by simp)
        rw [UMem.load32_store32_of_apart, ih hold hnodup.1
          fun y hy => hfit y (List.mem_append_left _ hy)]
        intro b hb hb'
        simp only [Within] at hb hb'
        bv_omega
      · obtain rfl := List.mem_singleton.mp hlast
        exact UMem.load32_store32 ..

/-- Nothing but the frame is stored to. -/
theorem storeAll_of_not {stores : List (Word × Word)}
    (hfit : ∀ x ∈ stores, x.1.toNat + 4 ≤ 52) (hb : ¬Within a 52 b) :
    m.storeAll a stores b = m b := by
  induction stores using List.reverseRecOn with
  | nil => rfl
  | append_singleton stores x ih =>
      rw [UMem.storeAll, List.foldl_concat]
      change (m.storeAll a stores).store32 (a + x.1) x.2 b = m b
      rw [UMem.store32_of_not, ih fun y hy => hfit y (List.mem_append_left _ hy)]
      exact fun h => hb (within_utf (hfit x (by simp)) h)

theorem utfStores_offsets (tf : Trapframe) (va : Word) : (utfStores tf va).map Prod.fst
    = [48, 44, 40, 8, 12, 16, 20, 24, 28, 32, 36, 4, 0] := rfl

theorem utfStores_fit {tf : Trapframe} {va : Word} {x : Word × Word} (h : x ∈ utfStores tf va) :
    x.1.toNat % 4 = 0 ∧ x.1.toNat < 52 := by
  have hx : x.1 ∈ (utfStores tf va).map Prod.fst := List.mem_map.mpr ⟨x, h, rfl⟩
  rw [utfStores_offsets] at hx
  have key : ([48, 44, 40, 8, 12, 16, 20, 24, 28, 32, 36, 4, 0] : List Word).all
      (fun o => decide (o.toNat % 4 = 0 ∧ o.toNat < 52)) = true := by decide
  exact of_decide_eq_true (List.all_eq_true.mp key _ hx)

/-- The frame that the kernel stores holds the registers. -/
theorem saved_utfStores {va : Word} {old : Trapframe} :
    Saved t (m.storeAll t.utf (utfStores (t.tf old) va)) := by
  have hload : ∀ o v, (o, v) ∈ utfStores (t.tf old) va →
      (m.storeAll t.utf (utfStores (t.tf old) va)).load32 (t.utf + o) = v :=
    fun o v hov => load_storeAll hov (by rw [utfStores_offsets]; decide) fun x => utfStores_fit
  refine ⟨fun r => hload _ _ ?_, hload _ _ ?_, hload _ _ ?_⟩
  · cases r <;> simp [utfStores, utfOff, Cpu.tf]
  · simp [utfStores, Cpu.tf]
  · simp [utfStores, Cpu.tf]

/-- It is all that the kernel stores. -/
theorem utfStores_of_not {va : Word} {tf : Trapframe} (hb : ¬Within a 52 b) :
    m.storeAll a (utfStores tf va) b = m b := by
  refine storeAll_of_not (fun x hx => ?_) hb
  obtain ⟨hmod, hlt⟩ := utfStores_fit hx
  omega

/-! ## The return -/

/-- The word below the trap-time stack pointer, which the return stores to. -/
def Cpu.scratch {M : Type} (t : Cpu M) : Word := t.reg .esp - 4

theorem onUxstack_iff : OnUxstack a ↔ 0xEEBFF000 ≤ a.toNat ∧ a.toNat < 0xEEC00000 := by
  simp only [OnUxstack, UXSTACKTOP, UTOP, UENVS]
  bv_omega

/-- Where the frame goes on the exception stack, and when the stack is first used. -/
theorem utf_cases (t : Cpu M) : (OnUxstack (t.reg .esp) ∧ t.utf = t.reg .esp - 72)
    ∨ (¬OnUxstack (t.reg .esp) ∧ t.utf = UXSTACKTOP - 68) := by
  by_cases h : OnUxstack (t.reg .esp)
  · refine .inl ⟨h, (if_pos h).trans ?_⟩
    simp only [SIZEOF_STRUCT_TRAPFRAME]
    bv_omega
  · exact .inr ⟨h, if_neg h⟩

/-- The frame of a fault is apart from the word below the trap-time stack pointer. -/
theorem scratch_apart (h : Within t.scratch 4 b) : ¬Within t.utf 52 b := by
  have hcases := utf_cases t
  simp only [onUxstack_iff, UXSTACKTOP, UTOP, UENVS] at hcases
  simp only [Cpu.scratch, Within] at h ⊢
  bv_omega

/-- The first half: the trap-time `eip` goes below the trap-time stack, and the frame leads
there. -/
theorem upcallReturn_adjust (hs : Saved t u.mem.bytes) (hesp : u.reg .esp = t.utf - 4)
    (hframe : u.mem.WritableAt t.utf 52) (hscratch : u.mem.WritableAt t.scratch 4) :
    ∃ u', execAll u upcallReturn
        = execAll u' [.addl 8 .esp, .popal, .addl 4 .esp, .popfl, .popl .esp, .ret]
      ∧ u'.reg .esp = t.utf ∧ SameKept u.eflags u'.eflags
      ∧ u'.mem = (u.mem.put (t.utf + 48) t.scratch).put t.scratch t.eip := by
  have hword : ∀ o : Word, o.toNat + 4 ≤ 52 → u.mem.WritableAt (t.utf + o) 4 :=
    fun o ho => hframe.mono fun b hb => within_utf ho hb
  obtain ⟨u₁, he₁, hm₁, hr₁, hf₁⟩ := exec_addl (u := u) (r := .esp) 4
  have hesp₁ : u₁.reg .esp = t.utf := by
    rw [hr₁, Function.update_self, hesp]
    bv_omega
  -- the loads of the trap-time eip and esp
  have he₂ := exec_movlFrom (u := u₁) 40 .esp .eax (by
    rw [hesp₁, hm₁]
    exact hword 40 (by decide))
  rw [hesp₁, hm₁, hs.eip] at he₂
  have he₃ := exec_movlFrom (u := u₁.setReg .eax t.eip) 48 .esp .ebx (by
    rw [Cpu.setReg_reg_ne (by decide), hesp₁, Cpu.setReg_mem, hm₁]
    exact hword 48 (by decide))
  have hutfEsp : u.mem.bytes.load32 (t.utf + 48) = t.reg .esp := hs.reg .esp
  rw [Cpu.setReg_reg_ne (by decide), hesp₁, Cpu.setReg_mem, hm₁, hutfEsp] at he₃
  obtain ⟨u₄, he₄, hm₄, hr₄, hf₄⟩ :=
    exec_subl (u := (u₁.setReg .eax t.eip).setReg .ebx (t.reg .esp)) (r := .ebx) 4
  have hesp₄ : u₄.reg .esp = t.utf := by
    rw [hr₄, Function.update_of_ne (by decide), Cpu.setReg_reg_ne (by decide),
      Cpu.setReg_reg_ne (by decide), hesp₁]
  have hebx₄ : u₄.reg .ebx = t.scratch := by
    rw [hr₄, Function.update_self, Cpu.setReg_reg_self]
    rfl
  have heax₄ : u₄.reg .eax = t.eip := by
    rw [hr₄, Function.update_of_ne (by decide), Cpu.setReg_reg_ne (by decide),
      Cpu.setReg_reg_self]
  have hmem₄ : u₄.mem = u.mem := hm₄.trans hm₁
  -- the two stores
  have he₅ := exec_movlTo (u := u₄) 48 .esp .ebx (by
    rw [hesp₄, hmem₄]
    exact hword 48 (by decide))
  rw [hesp₄, hebx₄, hmem₄] at he₅
  have hebx0 : u₄.reg .ebx + 0 = t.scratch := (BitVec.add_zero _).trans hebx₄
  have he₆ : exec { u₄ with mem := u.mem.put (t.utf + 48) t.scratch } (.movlTo .eax 0 .ebx)
      = some { u₄ with mem := (u.mem.put (t.utf + 48) t.scratch).put t.scratch t.eip } := by
    have h := exec_movlTo (u := { u₄ with mem := u.mem.put (t.utf + 48) t.scratch })
      0 .ebx .eax (by
        rw [hebx0]
        exact hscratch)
    simpa only [hebx0, heax₄] using h
  refine ⟨{ u₄ with mem := (u.mem.put (t.utf + 48) t.scratch).put t.scratch t.eip },
    ?_, hesp₄, hf₁.trans hf₄, rfl⟩
  rw [upcallReturn, execAll_cons he₁, execAll_cons he₂, execAll_cons he₃, execAll_cons he₄,
    execAll_cons he₅, execAll_cons he₆]

/-- The code of `_pgfault_upcall` after the call returns to the trap-time state of `t`, whose
frame is below the stack pointer. It stores only to the frame's `utf_esp` and to the word
below the trap-time stack pointer. -/
theorem upcallReturn_spec (hs : Saved t u.mem.bytes) (hflags : SameKept t.eflags u.eflags)
    (hesp : u.reg .esp = t.utf - 4) (hframe : u.mem.WritableAt t.utf 52)
    (hscratch : u.mem.WritableAt t.scratch 4) :
    ∃ u', execAll u upcallReturn = some u' ∧ u'.reg = t.reg ∧ u'.eip = t.eip
      ∧ u'.eflags = t.eflags
      ∧ u'.mem = (u.mem.put (t.utf + 48) t.scratch).put t.scratch t.eip := by
  obtain ⟨u₁, he, hesp₁, hf₁, hmem₁⟩ := upcallReturn_adjust hs hesp hframe hscratch
  have hbytes₁ : u₁.mem.bytes
      = (u.mem.bytes.store32 (t.utf + 48) t.scratch).store32 t.scratch t.eip := by
    rw [hmem₁]
    rfl
  -- what the stores leave in the frame
  have hapart : ∀ o b, o.toNat + 4 ≤ 52 → Within (t.utf + o) 4 b → ¬Within t.scratch 4 b :=
    fun o b ho hb hb' => scratch_apart hb' (within_utf ho hb)
  have hload : ∀ o : Word, o.toNat + 4 ≤ 48 →
      u₁.mem.bytes.load32 (t.utf + o) = u.mem.bytes.load32 (t.utf + o) := by
    intro o ho
    rw [hbytes₁, UMem.load32_store32_of_apart fun b => hapart o b (by omega),
      UMem.load32_store32_of_apart]
    intro b hb hb'
    simp only [Within] at hb hb'
    bv_omega
  have hutfEsp : u₁.mem.bytes.load32 (t.utf + 48) = t.scratch := by
    rw [hbytes₁, UMem.load32_store32_of_apart fun b => hapart 48 b (by decide),
      UMem.load32_store32]
  have heip : u₁.mem.bytes.load32 t.scratch = t.eip := by rw [hbytes₁, UMem.load32_store32]
  obtain ⟨u₂, he₂, hm₂, hr₂, hf₂⟩ := exec_addl (u := u₁) (r := .esp) 8
  have hesp₂ : u₂.reg .esp = t.utf + 8 := by rw [hr₂, Function.update_self, hesp₁]
  have hw₂ : ∀ (o n : Nat), o + n ≤ 52 →
      u₂.mem.WritableAt (t.utf + BitVec.ofNat 32 o) n := by
    intro o n hon b hb
    rw [hm₂, hmem₁]
    refine hframe b ?_
    simp only [Within] at hb ⊢
    bv_omega
  have hsaved : ∀ r, r ≠ .esp → u₁.mem.bytes.load32 (t.utf + utfOff r) = t.reg r := by
    intro r hr
    rw [hload _ (by cases r <;> first | decide | exact absurd rfl hr), hs.reg]
  -- `popal` restores all registers but the stack pointer
  have he₃ : exec u₂ .popal
      = some { u₂ with reg := Function.update t.reg .esp (t.utf + 40) } := by
    have h := exec_popal (u := u₂) (hesp₂ ▸ hw₂ 8 32 (by decide))
    rw [h, hesp₂, hm₂]
    congr 2
    funext r
    have hoff : ∀ k : Word, t.utf + 8 + k = t.utf + (8 + k) := fun k => BitVec.add_assoc ..
    by_cases hr : r = .esp
    · subst hr
      rw [Function.update_self]
      exact hoff 32
    · rw [Function.update_of_ne hr, ← hsaved r hr]
      cases r with
      | esp => exact absurd rfl hr
      | edi => rfl
      | _ => exact congrArg u₁.mem.bytes.load32 (hoff _)
  obtain ⟨u₄, he₄, hm₄, hr₄, hf₄⟩ :=
    exec_addl (u := { u₂ with reg := Function.update t.reg .esp (t.utf + 40) }) (r := .esp) 4
  have hr₄ : u₄.reg = Function.update t.reg .esp (t.utf + 44) := by
    rw [hr₄, Function.update_idem]
    congr 1
    change Function.update t.reg .esp (t.utf + 40) .esp + 4 = t.utf + 44
    rw [Function.update_self]
    exact BitVec.add_assoc ..
  have hesp₄ : u₄.reg .esp = t.utf + 44 := by rw [hr₄, Function.update_self]
  have hmem₄ : u₄.mem = u₁.mem := hm₄.trans hm₂
  have hw₄ : ∀ (o n : Nat), o + n ≤ 52 →
      u₄.mem.WritableAt (t.utf + BitVec.ofNat 32 o) n := by
    intro o n hon
    rw [hm₄]
    exact hw₂ o n hon
  -- the flags, the stack pointer and the instruction pointer
  have hkept : SameKept t.eflags u₄.eflags := ((hflags.trans hf₁).trans hf₂).trans hf₄
  have he₅ : exec u₄ .popfl = some { u₄ with
      reg := Function.update t.reg .esp (t.utf + 48)
      eflags := t.eflags } := by
    have h := exec_popfl (u := u₄) (hesp₄ ▸ hw₄ 44 4 (by decide))
    have hl : u₄.mem.bytes.load32 (t.utf + 44) = t.eflags := by
      rw [hmem₄, hload 44 (by decide), hs.eflags]
    rw [h, hesp₄, hl, hkept.restore, Cpu.setReg, hr₄, Function.update_idem, BitVec.add_assoc]
    rfl
  have hesp₅ : Function.update t.reg .esp (t.utf + 48) .esp = t.utf + 48 :=
    Function.update_self ..
  have he₆ : exec { u₄ with
        reg := Function.update t.reg .esp (t.utf + 48)
        eflags := t.eflags } (.popl .esp)
      = some { u₄ with
          reg := Function.update t.reg .esp t.scratch
          eflags := t.eflags } := by
    have h := exec_popl (u := { u₄ with
        reg := Function.update t.reg .esp (t.utf + 48)
        eflags := t.eflags }) (r := .esp) (hesp₅ ▸ hw₄ 48 4 (by decide))
    rw [h]
    simp only [Cpu.setReg, Function.update_idem, Function.update_self, hmem₄, hutfEsp]
  have he₇ : exec { u₄ with
        reg := Function.update t.reg .esp t.scratch
        eflags := t.eflags } .ret
      = some { u₄ with
          reg := t.reg
          eip := t.eip
          eflags := t.eflags } := by
    have h := exec_ret (u := { u₄ with
        reg := Function.update t.reg .esp t.scratch
        eflags := t.eflags }) (fun b hb => by
          change Within (Function.update t.reg .esp t.scratch .esp) 4 b at hb
          rw [Function.update_self] at hb
          change u₄.mem.writable b
          rw [hmem₄, hmem₁]
          exact hscratch b hb)
    have hback : t.scratch + 4 = t.reg .esp := by
      rw [Cpu.scratch]
      bv_omega
    rw [h]
    simp only [Cpu.setReg, Function.update_idem, Function.update_self, hmem₄, heip, hback,
      Function.update_eq_self]
  refine ⟨{ u₄ with reg := t.reg, eip := t.eip, eflags := t.eflags }, ?_, rfl, rfl, rfl,
    hmem₄.trans hmem₁⟩
  rw [he, execAll_cons he₂, execAll_cons he₃, execAll_cons he₄, execAll_cons he₅,
    execAll_cons he₆, execAll_cons he₇]
  rfl

end

end Jos
