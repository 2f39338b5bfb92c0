import Jos.Kern.History
import Jos.User.Frame

/-!
# Nested page faults

A user program whose page faults are handled by `_pgfault_upcall`, to any depth:
the handler of a fault runs on the exception stack below its frame, and may
fault itself. The faults are steps of the kernel, and user code runs on the
memory that the page table shows. A run in which the pages of the stacks are
mapped once keeps the frames of all pending faults intact, since everything that
the kernel and the upcall store lies below the innermost of them; so every
return finds the registers of its fault.
-/

namespace Jos

/-- The bytes that a program sees below `UTOP`. -/
def Cpu.sees (u : Cpu Paged) : UMem := u.mem.flat.bytes

/-- The `n` bytes from `a` on may be written. -/
def Cpu.MayWrite (u : Cpu Paged) (a : Word) (n : Nat) : Prop :=
  ∀ b, Within a n b → b < UTOP
    ∧ (userAccess u.mem.phys u.mem.cr3 b true).isSome = true

/-- A fault whose handler has not returned: the program when it faulted, and the
addresses that code other than the kernel's fault handler and the upcall has
changed since. -/
structure Pending where
  trapped : Cpu Paged
  touched : Word → Prop

/-- The program went from `u` to `u'`. -/
def Pending.touch (u u' : Cpu Paged) (p : Pending) : Pending :=
  { p with touched := fun a => p.touched a ∨ u'.sees a ≠ u.sees a }

/-- The kernel when it last resumed the program, the program, and its pending
faults, the innermost first. -/
structure Nest where
  kern : Kern
  user : Cpu Paged
  pending : List Pending

inductive Nest.Event where
  /-- The program's own code runs, or that of the innermost handler, with any
  system calls and interrupts, and any other environments in between. -/
  | own
  | fault (tr : Trap)
  /-- The upcall calls the handler. -/
  | call
  /-- The handler has returned to the upcall, which returns to the trap-time
  state. -/
  | ret

/-- The steps of environment `c`. A handler runs below its own frame, and leaves
the frames of the pending faults alone. A fault is one that the kernel lets `c`
handle: `user_mem_assert` passes, so `c` goes on. -/
inductive Nest.Step (c : Nat) (pgfaultHandler next : Word) :
    Nest → Nest.Event → Nest → Prop where
  | own {s s' : Kern} {u u' : Cpu Paged} {ps : List Pending}
      (hrun : Runs Jos.Step (fun _ _ => True) s s') (hcur : s'.curenv = some c)
      (hcr3 : u'.mem.cr3 = s'.cr3)
      (hmem : UserStores s'.vm.mem s'.cr3 u'.mem.phys)
      (hflags : SameKept u.eflags u'.eflags)
      (hutf : ∀ p ∈ ps, ∀ a, Within p.trapped.utf 52 a → u'.sees a = u.sees a) :
      Step c pgfaultHandler next ⟨s, u, ps⟩ .own
      ⟨s', u', ps.map (Pending.touch u u')⟩
  | fault {s s' : Kern} {u : Cpu Paged} {ps : List Pending} {tr : Trap}
      (hcur : s.curenv = some c) (hpg : tr.tf.tfTrapno = T_PGFLT)
      (hu : u.Takes s tr)
      (hroom : OnUxstack u.utf)
      (hbelow : ∀ p ∈ ps.head?, OnUxstack (u.reg .esp) ∧ u.reg .esp ≤
      p.trapped.utf)
      (h : Jos.Step s tr s') (hgo : s'.curenv = some c) :
      Step c pgfaultHandler next ⟨s, u, ps⟩ (.fault tr)
        ⟨s', s'.user c, ⟨u, fun _ => False⟩ :: ps⟩
  | call {s : Kern} {u u' : Cpu Paged} {p : Pending} {ps : List Pending}
      (hesp : u.reg .esp = p.trapped.utf)
      (hroom : OnUxstack (p.trapped.utf - 8))
      (h : execAll u (upcallCall pgfaultHandler next) = some u') :
      Step c pgfaultHandler next ⟨s, u, p :: ps⟩ .call ⟨s, u', p :: ps⟩
  | ret {s : Kern} {u u' : Cpu Paged} {p : Pending} {ps : List Pending}
      (hesp : u.reg .esp = p.trapped.utf - 4)
      (hframe : u.MayWrite p.trapped.utf 52)
      (hscratch : u.MayWrite p.trapped.scratch 4)
      (h : execAll u upcallReturn = some u') :
      Step c pgfaultHandler next ⟨s, u, p :: ps⟩ .ret ⟨s, u', ps⟩

/-- `a` is at or above the trap-time stack pointer of `t`, on the stack that was
interrupted: the exception stack, or one outside its page. -/
def Cpu.Interrupted (t : Cpu Paged) (a : Word) : Prop :=
  t.reg .esp ≤ a ∧ (OnUxstack (t.reg .esp) ∨ ¬OnUxstack a)

/-- What the kernel and the upcall store to is mapped once: the exception stack,
and in a return the word below the trap-time stack pointer. -/
def Nest.Unshared (n : Nest) : Nest.Event → Prop
  | .own => True
  | .fault _ | .call => ∀ a, OnUxstack a → n.user.mem.Alone a
  | .ret => (∀ a, OnUxstack a → n.user.mem.Alone a)
      ∧ ∀ p ∈ n.pending.head?, ∀ a, Within p.trapped.scratch 4 a →
      n.user.mem.Alone a

/-- Page faults and returns to any depth, in the runs from `s` whose steps meet
`P`. The frame of a fault that happens lies apart from the exception stack at
and above its stack pointer, from the frames of all pending faults, and from the
word below its stack pointer. When the handler of a pending fault has returned,
the upcall resumes the program as it was, and what other code has not written on
the stack that was interrupted is unchanged. -/
def UpcallLaw (P : Nest → Nest.Event → Prop) (s : Kern) : Prop :=
  ∀ c pgfaultHandler next u n,
    Runs (Nest.Step c pgfaultHandler next) P ⟨s, u, []⟩ n →
    (∀ tr n', P n (.fault tr) →
      Nest.Step c pgfaultHandler next n (.fault tr) n' →
      (∀ a, Within n.user.utf 52 a → OnUxstack (n.user.reg .esp) →
      a < n.user.reg .esp)
      ∧ (∀ p ∈ n.pending, ∀ a, Within n.user.utf 52 a →
      ¬Within p.trapped.utf 52 a)
      ∧ (∀ a, Within n.user.utf 52 a → ¬Within n.user.scratch 4 a))
    ∧ (∀ p ps, P n .ret → n.pending = p :: ps →
    n.user.reg .esp = p.trapped.utf - 4 →
      n.user.MayWrite p.trapped.utf 52 → n.user.MayWrite p.trapped.scratch 4 →
      ∃ u', execAll n.user upcallReturn = some u' ∧ u'.reg = p.trapped.reg
        ∧ u'.eip = p.trapped.eip ∧ u'.eflags = p.trapped.eflags
        ∧ ∀ a, p.trapped.Interrupted a → ¬p.touched a →
        u'.sees a = p.trapped.sees a)

section

variable {t u u' : Cpu Paged} {p q : Pending} {ps : List Pending} {s : Kern}
  {a b : Word}
  {c k : Nat}

/-! ## Where the kernel and the upcall store -/

/-- Addresses on the exception stack below a frame are neither in the frame nor
on the stack that it interrupted. -/
theorem below_frame (hroom : OnUxstack t.utf) (ha : OnUxstack a)
    (hlt : a < t.utf) :
    ¬Within t.utf 52 a ∧ ¬t.Interrupted a := by
  have hcases := utf_cases t
  simp only [Cpu.Interrupted, Within]
  simp only [onUxstack_iff, UXSTACKTOP, UTOP, UENVS] at hcases hroom ha ⊢
  rcases hcases with ⟨hon, hutf⟩ | ⟨hoff, hutf⟩
  · bv_omega
  · bv_omega

/-- The frame of a fault on the exception stack and the word below its stack
pointer lie below the stack pointer, on the exception stack. -/
theorem frame_below (hroom : OnUxstack t.utf) (hesp : OnUxstack (t.reg .esp))
    (ha : Within t.utf 52 a ∨ Within t.scratch 4 a) :
    OnUxstack a ∧ a < t.reg .esp := by
  have hcases := utf_cases t
  simp only [Cpu.scratch, Within] at ha
  simp only [onUxstack_iff, UXSTACKTOP, UTOP, UENVS] at hcases hroom hesp ⊢
  bv_omega

/-- The frame of a fault is not on the stack that it interrupted, at or above
its top. -/
theorem frame_not_interrupted
    (hroom : OnUxstack t.utf) (ha : Within t.utf 52 a) :
    ¬t.Interrupted a := by
  have hcases := utf_cases t
  simp only [Cpu.Interrupted]
  simp only [onUxstack_iff, UXSTACKTOP, UTOP, UENVS,
    Within] at hcases hroom ha ⊢
  rcases hcases with ⟨hon, hutf⟩ | ⟨hoff, hutf⟩ <;> bv_omega

theorem utf_lt_esp (hroom : OnUxstack t.utf) (hesp : OnUxstack (t.reg .esp)) :
    t.utf < t.reg .esp := by
  have hcases := utf_cases t
  simp only [onUxstack_iff, UXSTACKTOP, UTOP, UENVS] at hcases hroom hesp
  bv_omega

/-- The frame is on the exception stack. -/
theorem on_frame (hroom : OnUxstack t.utf)
    (ha : Within t.utf 52 a) : OnUxstack a := by
  have hcases := utf_cases t
  simp only [onUxstack_iff, UXSTACKTOP, UTOP, UENVS,
    Within] at hcases hroom ha ⊢
  rcases hcases with ⟨hon, hutf⟩ | ⟨hoff, hutf⟩ <;> bv_omega

theorem OnUxstack.lt (h : OnUxstack a) : a < UTOP := by
  rw [onUxstack_iff] at h
  simp only [UTOP, UENVS]
  bv_omega

/-- The stores of the call are the two words below the stack pointer. -/
theorem upcallCall_mem {pgfaultHandler next : Word}
    (hclear : ∀ b, Within (u.reg .esp - 8) 8 b → b < UTOP ∧ u.mem.Alone b)
    (h : execAll u (upcallCall pgfaultHandler next) = some u') :
    u'.eflags = u.eflags ∧ ∀ a, ¬Within (u.reg .esp - 8) 8 a →
    u'.sees a = u.sees a := by
  have hstore : ∀ {v v' : Cpu Paged} {a x : Word}, v.store a x = some v' →
      ∃ m, Memory.store v.mem a x = some m ∧ v' = { v with mem := m } := by
    intro v v' a x hv
    obtain ⟨m, hm, rfl⟩ := Option.map_eq_some_iff.mp hv
    exact ⟨m, hm, rfl⟩
  simp only [upcallCall, execAll, exec, Option.bind_eq_bind,
    Option.bind_eq_some_iff,
    Option.some.injEq] at h
  obtain ⟨_, ⟨u₁, h₁, rfl⟩, _, ⟨v, -, rfl⟩, _, ⟨u₃, h₃, rfl⟩, rfl⟩ := h
  obtain ⟨m₁, hm₁, rfl⟩ := hstore h₁
  obtain ⟨m₃, hm₃, rfl⟩ := hstore h₃
  have hword : ∀ o : Word, o.toNat ≤ 4 → ∀ b, Within (u.reg .esp - 8 + o) 4 b →
      b < UTOP ∧ u.mem.Alone b := by
    intro o ho b hb
    refine hclear b ?_
    simp only [Within] at hb ⊢
    bv_omega
  have hesp : u.reg .esp - 4 = u.reg .esp - 8 + 4 := by bv_omega
  have s₁ :=
    Paged.store_shown (fun b hb => hword 4 (by decide) b (hesp ▸ hb)) hm₁
  simp only [Cpu.setReg_mem] at hm₃
  rw [Cpu.setReg_reg_ne (by decide), Cpu.setReg_reg_self] at hm₃
  have hesp' : u.reg .esp - 4 - 4 = u.reg .esp - 8 + 0 := by bv_omega
  have s₃ := Paged.store_shown (fun b hb => by
    obtain ⟨hlt, halone⟩ := hword 0 (by decide) b (hesp' ▸ hb)
    exact ⟨hlt, s₁.alone.mpr halone⟩) hm₃
  refine ⟨rfl, fun a ha => ?_⟩
  simp only [Within] at ha
  change m₃.flat.bytes a = u.mem.flat.bytes a
  rw [s₃.bytes, s₁.bytes, UMem.store32_of_not, UMem.store32_of_not]
  · simp only [Within]
    bv_omega
  · simp only [Within]
    bv_omega

/-! ## The invariant -/

/-- The frames of pending faults lie below each other and hold the trap-time
registers, and nobody but user code has written to the stacks that were
interrupted. -/
structure NestInv (u : Cpu Paged) (ps : List Pending) : Prop where
  room : ∀ p ∈ ps, OnUxstack p.trapped.utf
  chain : ps.Pairwise fun p q =>
    OnUxstack (p.trapped.reg .esp) ∧ p.trapped.reg .esp ≤ q.trapped.utf
  saved : ∀ p ∈ ps, Saved p.trapped u.sees
  flags : ∀ p ∈ ps, SameKept p.trapped.eflags u.eflags
  kept : ∀ p ∈ ps, ∀ a, p.trapped.Interrupted a → ¬p.touched a →
    u.sees a = p.trapped.sees a

/-- A store below the frames of all pending faults. -/
theorem NestInv.store (h : NestInv u ps)
    (hbelow : ∀ a, u'.sees a ≠ u.sees a → OnUxstack a ∧ ∀ p ∈ ps,
      a < p.trapped.utf)
    (hflags : SameKept u.eflags u'.eflags) : NestInv u' ps where
  room := h.room
  chain := h.chain
  saved p hp := (h.saved p hp).congr fun a ha => by
    by_contra hne
    obtain ⟨hon, hlt⟩ := hbelow a hne
    exact (below_frame (h.room p hp) hon (hlt p hp)).1 ha
  flags p hp := (h.flags p hp).trans hflags
  kept p hp a ha htouched := by
    rw [← h.kept p hp a ha htouched]
    by_contra hne
    obtain ⟨hon, hlt⟩ := hbelow a hne
    exact (below_frame (h.room p hp) hon (hlt p hp)).2 ha

/-- The frames above the innermost one are above its trap-time stack pointer. -/
theorem NestInv.lt_of_below (h : NestInv u (p :: ps)) (ha : a < p.trapped.utf) :
    ∀ q ∈ p :: ps, a < q.trapped.utf := by
  intro q hq
  rcases List.mem_cons.mp hq with rfl | hq
  · exact ha
  · obtain ⟨hon, hle⟩ := (List.pairwise_cons.mp h.chain).1 q hq
    have hlt := utf_lt_esp (h.room p (List.mem_cons_self ..)) hon
    bv_omega

theorem NestInv.nil (u : Cpu Paged) : NestInv u [] :=
  ⟨nofun, .nil, nofun, nofun, nofun⟩

theorem NestInv.tail (h : NestInv u (p :: ps)) : NestInv u ps where
  room q hq := h.room q (List.mem_cons_of_mem _ hq)
  chain := (List.pairwise_cons.mp h.chain).2
  saved q hq := h.saved q (List.mem_cons_of_mem _ hq)
  flags q hq := h.flags q (List.mem_cons_of_mem _ hq)
  kept q hq := h.kept q (List.mem_cons_of_mem _ hq)

/-- A stack pointer below the innermost frame is below all of them. -/
theorem NestInv.esp_le (h : NestInv u ps)
    (hbelow : ∀ p ∈ ps.head?, OnUxstack a ∧ a ≤ p.trapped.utf) :
    ∀ q ∈ ps, OnUxstack a ∧ a ≤ q.trapped.utf := by
  cases ps with
  | nil => intro q hq; cases hq
  | cons p ps =>
      obtain ⟨hon, hle⟩ := hbelow p rfl
      intro q hq
      refine ⟨hon, ?_⟩
      rcases List.mem_cons.mp hq with rfl | hq
      · exact hle
      · obtain ⟨honp, hlep⟩ := (List.pairwise_cons.mp h.chain).1 q hq
        have hlt := utf_lt_esp (h.room p (List.mem_cons_self ..)) honp
        bv_omega

variable {pgfaultHandler next : Word} {n n' : Nest} {l : Nest.Event}

/-- What flat memory may be written, when it is mapped once. -/
theorem Cpu.MayWrite.flat (h : u.MayWrite a k)
    (halone : ∀ b, Within a k b → u.mem.Alone b) :
    u.mem.flat.WritableAt a k :=
  fun b hb => ⟨(h b hb).1, (h b hb).2, halone b hb⟩

/-- The return, on memory that is mapped once. -/
theorem upcallReturn_user (hs : Saved t u.sees)
    (hflags : SameKept t.eflags u.eflags)
    (hesp : u.reg .esp = t.utf - 4) (hroom : OnUxstack t.utf)
    (hframe : u.MayWrite t.utf 52)
    (hscratch : u.MayWrite t.scratch 4)
    (hstack : ∀ a, OnUxstack a → u.mem.Alone a)
    (hword : ∀ a, Within t.scratch 4 a → u.mem.Alone a) :
    ∃ u', execAll u upcallReturn = some u' ∧ u'.reg = t.reg ∧ u'.eip = t.eip
      ∧ u'.eflags = t.eflags
      ∧ u'.sees = (u.sees.store32 (t.utf + 48) t.scratch).store32 t.scratch
        t.eip := by
  obtain ⟨w, hw, hreg, heip, hfl, hmem⟩ :=
    upcallReturn_spec (u := u.flat) hs hflags hesp
    (hframe.flat fun b hb => hstack b (on_frame hroom hb)) (hscratch.flat hword)
  obtain ⟨u', hu', rfl⟩ := execAll_flat hw
  exact ⟨u', hu', hreg, heip, hfl, congrArg Flat.bytes hmem⟩

/-- A fault pushes the frame of `u` below the others. -/
theorem NestInv.fault (h : NestInv u ps) (hroom : OnUxstack u.utf)
    (hbelow : ∀ p ∈ ps.head?, OnUxstack (u.reg .esp) ∧ u.reg .esp ≤
      p.trapped.utf)
    (hflags : u'.eflags = u.eflags) (hsaved : Saved u u'.sees)
    (hmem : ∀ b, ¬Within u.utf 52 b → u'.sees b = u.sees b) :
    NestInv u' (⟨u, fun _ => False⟩ :: ps) := by
  have hle := h.esp_le hbelow
  have hold : NestInv u' ps := by
    cases ps with
    | nil => exact .nil u'
    | cons q ps =>
        refine h.store (fun a ha => ?_) (hflags ▸ .refl _)
        have hin : Within u.utf 52 a := by
          by_contra hout
          exact ha (hmem a hout)
        have hon := (hle q (List.mem_cons_self ..)).1
        obtain ⟨hona, hlt⟩ := frame_below hroom hon (.inl hin)
        refine ⟨hona, fun p hp => ?_⟩
        have hp := (hle p hp).2
        bv_omega
  refine ⟨?_, List.pairwise_cons.mpr ⟨hle, hold.chain⟩, ?_, ?_, ?_⟩
  · exact List.forall_mem_cons.mpr ⟨hroom, hold.room⟩
  · exact List.forall_mem_cons.mpr ⟨hsaved, hold.saved⟩
  · exact List.forall_mem_cons.mpr ⟨hflags ▸ .refl _, hold.flags⟩
  · exact List.forall_mem_cons.mpr
      ⟨fun a ha _ => hmem a fun hin => frame_not_interrupted hroom hin ha,
      hold.kept⟩

theorem running_of_cur (hs : SysInv s) (hcur : s.curenv = some c) :
    Running s c := by
  obtain ⟨c', hr⟩ := hs.running
  obtain rfl : c' = c := Option.some.inj (hr.cur.symm.trans hcur)
  exact hr

theorem NestInv.step (hs : SysInv n.kern) (h : NestInv n.user n.pending)
    (hun : n.Unshared l) (hstep : Nest.Step c pgfaultHandler next n l n') :
    SysInv n'.kern ∧ NestInv n'.user n'.pending := by
  cases hstep with
  | @own s s' u u' ps hrun hcur hcr3 hmem hflags hutf =>
      refine ⟨hrun.invariant (fun _ _ _ hu _ hw => hu.step hw) hs, ?_, ?_,
        ?_, ?_, ?_⟩
      · rintro _ hq
        obtain ⟨p, hp, rfl⟩ := List.mem_map.mp hq
        exact h.room p hp
      · exact List.pairwise_map.mpr h.chain
      · rintro _ hq
        obtain ⟨p, hp, rfl⟩ := List.mem_map.mp hq
        exact (h.saved p hp).congr (hutf p hp)
      · rintro _ hq
        obtain ⟨p, hp, rfl⟩ := List.mem_map.mp hq
        exact (h.flags p hp).trans hflags
      · rintro _ hq a ha htouched
        obtain ⟨p, hp, rfl⟩ := List.mem_map.mp hq
        obtain ⟨hold, hnew⟩ := not_or.mp htouched
        exact (not_not.mp hnew).trans (h.kept p hp a ha hold)
  | @fault s s' u ps tr hcur hpg hu hroom hbelow hk hgo =>
      obtain ⟨-, hflags, hshown⟩ :=
        fault_user (running_of_cur hs hcur) hk hpg hgo hu
        fun b hb => ⟨(on_frame hroom hb).lt, hun b (on_frame hroom hb)⟩
      refine ⟨hs.step hk, h.fault hroom hbelow hflags ?_ fun b hb => ?_⟩
      · rw [Cpu.sees, hshown.bytes]
        exact saved_utfStores
      · rw [Cpu.sees, hshown.bytes]
        exact utfStores_of_not hb
  | @call s u u' p ps hesp hroom hcall =>
      have hutf := h.room p (List.mem_cons_self ..)
      have hon : ∀ a, Within (p.trapped.utf - 8) 8 a → OnUxstack a
          ∧ a < p.trapped.utf := by
        intro a hin
        simp only [Within] at hin
        simp only [onUxstack_iff] at hroom hutf ⊢
        bv_omega
      obtain ⟨hflags, hmem⟩ := upcallCall_mem
        (fun b hb => ⟨(hon b (hesp ▸ hb)).1.lt, hun b (hon b (hesp ▸ hb)).1⟩)
        hcall
      refine ⟨hs, h.store (fun a ha => ?_) (hflags ▸ .refl _)⟩
      have hin : Within (p.trapped.utf - 8) 8 a := by
        by_contra hout
        exact ha (hmem a (hesp ▸ hout))
      exact ⟨(hon a hin).1, h.lt_of_below (hon a hin).2⟩
  | @ret s u u' p ps hesp hframe hscratch hret =>
      have hp : p ∈ p :: ps := List.mem_cons_self ..
      obtain ⟨u₁, hu₁, -, -, hflags, hmem⟩ :=
        upcallReturn_user (h.saved p hp) (h.flags p hp)
        hesp (h.room p hp) hframe hscratch hun.1 (hun.2 p rfl)
      obtain rfl := Option.some.inj (hret.symm.trans hu₁)
      refine ⟨hs, ?_⟩
      cases ps with
      | nil => exact .nil u'
      | cons q ps =>
          have hle := (List.pairwise_cons.mp h.chain).1
          refine h.tail.store (fun a ha => ?_) (hflags ▸ (h.flags p hp).symm)
          have hin : Within p.trapped.utf 52 a
              ∨ Within p.trapped.scratch 4 a := by
            by_contra hout
            obtain ⟨hframe, hscratch⟩ := not_or.mp hout
            refine ha ?_
            rw [hmem, UMem.store32_of_not hscratch, UMem.store32_of_not]
            exact fun hword => hframe (within_utf (by decide) hword)
          obtain ⟨hon, hlt⟩ :=
            frame_below (h.room p hp) (hle q (List.mem_cons_self ..)).1 hin
          refine ⟨hon, fun q hq => ?_⟩
          have hq := (hle q hq).2
          bv_omega

/-! ## The run -/

/-- The law holds in the runs in which the pages of the stacks are mapped
once. -/
theorem page_fault_upcall (hs : SysInv s) : UpcallLaw Nest.Unshared s := by
  intro c pgfaultHandler next u n hrun
  obtain ⟨-, hinv⟩ :=
    hrun.invariant (I := fun n => SysInv n.kern ∧ NestInv n.user n.pending)
    (fun _ _ _ h hun hstep => h.2.step h.1 hun hstep) ⟨hs, .nil u⟩
  refine ⟨fun tr n' _ hstep => ?_,
    fun p ps hun hpending hesp hframe hscratch => ?_⟩
  · cases hstep with
    | @fault s s' u ps _ hcur hpg hu hroom hbelow hk hgo =>
        refine ⟨fun a ha hon => (frame_below hroom hon (.inl ha)).2,
          fun p hp a ha => ?_,
          fun a ha hs => scratch_apart hs ha⟩
        obtain ⟨hon, hle⟩ := hinv.esp_le hbelow p hp
        obtain ⟨hona, hlt⟩ := frame_below hroom hon (.inl ha)
        exact (below_frame (hinv.room p hp) hona (by bv_omega)).1
  · obtain ⟨s₁, u₁, ps₁⟩ := n
    obtain rfl : ps₁ = p :: ps := hpending
    have hp : p ∈ p :: ps := List.mem_cons_self ..
    obtain ⟨u', hret, hreg, heip, hflags, hmem⟩ :=
      upcallReturn_user (hinv.saved p hp)
      (hinv.flags p hp) hesp (hinv.room p hp) hframe hscratch hun.1
      (hun.2 p rfl)
    refine ⟨u', hret, hreg, heip, hflags, fun a ha htouched => ?_⟩
    rw [hmem, UMem.store32_of_not, UMem.store32_of_not]
    · exact hinv.kept p hp a ha htouched
    · exact fun hword =>
        frame_not_interrupted (hinv.room p hp) (within_utf (by decide) hword) ha
    · intro hword
      -- the word does not wrap around, since user code can write it
      have hlt : a < UTOP := (hscratch a hword).1
      have hge : p.trapped.reg .esp ≤ a := ha.1
      simp only [UTOP, UENVS] at hlt
      simp only [Within, Cpu.scratch] at hword
      bv_omega

end

/-! ## Two stacks -/

/-- The page fault that the program `u` takes. -/
def faultTrap (s : Kern) (c : Nat) (u : Cpu Paged) : Trap where
  tf := { u.tf (s.envs c).envTf with tfTrapno := T_PGFLT }
  cr2 := 0x1000
  getc := 0
  mem := u.mem.phys

/-- The kernel after it, unless it stops. -/
def Kern.fault (s : Kern) (c : Nat) (u : Cpu Paged) : Option Kern :=
  match Jos.trap (faultTrap s c u) (s.enter (faultTrap s c u)) with
  | .away t => some t
  | _ => none

section

variable {s s' : Kern} {c : Nat} {esp : Word} {ps : List Pending}

/-- A fault with another stack pointer, right after the kernel has resumed the
program. -/
theorem Kern.fault_step (hcur : s.curenv = some c)
    (h : s.fault c ((s.user c).setReg .esp esp) = some s') :
    Jos.Step s (faultTrap s c ((s.user c).setReg .esp esp)) s' := by
  refine ⟨⟨c, hcur, fun _ => .inl rfl, rfl, rfl, fun _ => rfl⟩, ?_⟩
  unfold Kern.fault at h
  split at h
  · rename_i t ht
    obtain rfl := Option.some.inj h
    exact ht
  · cases h

/-- The handler moves the stack pointer. -/
theorem Nest.Step.own_esp {pgfaultHandler next : Word} (esp : Word)
    (hcur : s.curenv = some c) :
    Nest.Step c pgfaultHandler next ⟨s, s.user c, ps⟩ .own
      ⟨s, (s.user c).setReg .esp esp, ps.map (Pending.touch (s.user c)
        ((s.user c).setReg .esp esp))⟩ :=
  .own (Runs.refl s) hcur rfl (fun _ => .inl rfl) (.refl _) fun _ _ _ _ => rfl

end

/-- The page table of the two stacks: page 405 is the exception stack, page `p`
the normal one. -/
def stackMem (p : Nat) : PhysMem :=
  ((PhysMem.setEntry (fun _ _ => 0) 402 0x3BA (page2pa 404 ||| 7#32)).setEntry
    404 0x3FF
    (page2pa 405 ||| 7#32)).setEntry 404 0x3FD (page2pa p ||| 7#32)

/-- The small kernel with these two stacks, where slot 2 has an upcall. -/
def stackKern (p : Nat) : Kern :=
  ((smallKern 0).withVm { smallVm 0 with
    mem := stackMem p
    npage := p + 1
    ppRef := fun q =>
      if q = 405 ∧ p = 405 then 2 else if 400 ≤ q ∧ q ≤ p then 1 else
        0 }).setEnv 2
    fun env => { env with envPgfaultUpcall := 0x800020 }

section

variable {m m' : Paged} {p q : Nat} {a b v f : Word} {x : BitVec 8}

theorem stackKern_sysInv : SysInv (stackKern p) := by
  refine ⟨?_, 2, rfl, by decide, rfl⟩
  exact (((SameIds.refl (smallKern 0)).withVm _).setEnv (e := 2)
    (f := fun env => { env with envPgfaultUpcall := 0x800020 }) Iff.rfl rfl
    rfl).envInv
    (smallKern_envInv 0)

/-- The flags of page `p` in it. -/
def stackFlags (p : Nat) : Word :=
  (page2pa 404 ||| 7#32) &&& (page2pa p ||| 7#32)

/-- `m` is a memory with these two stacks: only their pages have changed. -/
structure Paged.Stacks (m : Paged) (p : Nat) : Prop where
  cr3 : m.cr3 = page2pa 402
  same : ∀ q, q ≠ 405 → q ≠ p → m.phys q = stackMem p q

theorem stackMem_entry402 (i : Nat) :
    (stackMem p).entry 402 i = if i = 0x3BA then page2pa 404 ||| 7#32 else
    0#32 := by
  unfold stackMem
  rw [PhysMem.entry_setEntry_ne (.inl (by decide)),
    PhysMem.entry_setEntry_ne (.inl (by decide))]
  by_cases hi : i = 0x3BA
  · rw [if_pos hi, hi, PhysMem.entry_setEntry_self]
  · rw [if_neg hi, PhysMem.entry_setEntry_ne (.inr hi)]
    simp [PhysMem.entry, Bytes.load32]

theorem stackMem_entry404 (i : Nat) : (stackMem p).entry 404 i
    = if i = 0x3FD then page2pa p ||| 7#32 else if i = 0x3FF then
    page2pa 405 ||| 7#32 else 0#32 := by
  unfold stackMem
  by_cases hd : i = 0x3FD
  · rw [if_pos hd, hd, PhysMem.entry_setEntry_self]
  · rw [if_neg hd, PhysMem.entry_setEntry_ne (.inr hd)]
    by_cases hf : i = 0x3FF
    · rw [if_pos hf, hf, PhysMem.entry_setEntry_self]
    · rw [if_neg hf, PhysMem.entry_setEntry_ne (.inr hf),
        PhysMem.entry_setEntry_ne (.inl (by decide))]
      simp [PhysMem.entry, Bytes.load32]

namespace Paged.Stacks

variable (hp : p = 405 ∨ p = 406) (h : m.Stacks p)

include hp h

theorem entry (i : Nat) : m.phys.entry (ppn m.cr3) i
    = if i = 0x3BA then page2pa 404 ||| 7#32 else 0#32 := by
  have hne : 402 ≠ p := by rcases hp with rfl | rfl <;> decide
  rw [h.cr3, show ppn (page2pa 402) = 402 by decide,
    ← stackMem_entry402 (p := p)]
  exact PhysMem.entry_congr (h.same 402 (by decide) hne)

/-- The two pages are all that is mapped. -/
theorem translate (b : Word) : Jos.translate m.phys m.cr3 b
    = if pdx b = 0x3BA ∧ ptx b = 0x3FF then some (405, stackFlags 405)
      else if pdx b = 0x3BA ∧ ptx b = 0x3FD then some (p, stackFlags p) else
        none := by
  have hne : 404 ≠ p := by rcases hp with rfl | rfl <;> decide
  have htable : m.phys.entry 404 (ptx b) = (stackMem p).entry 404 (ptx b) :=
    PhysMem.entry_congr (h.same 404 (by decide) hne)
  have hpage : ∀ q, q = 404 ∨ q = 405 ∨ q = 406 →
      ppn (page2pa q ||| 7#32) = q ∧ present (page2pa q ||| 7#32) = true := by
    rintro q (rfl | rfl | rfl) <;> decide
  have h404 := hpage 404 (.inl rfl)
  have h405 := hpage 405 (.inr (.inl rfl))
  have hpp := hpage p (.inr hp)
  have h0 : present 0#32 = false := by decide
  unfold Jos.translate
  dsimp only
  rw [h.entry hp]
  by_cases hd : pdx b = 0x3BA
  · rw [if_pos hd, h404.1, h404.2, htable, stackMem_entry404]
    by_cases hf : ptx b = 0x3FF
    · simp [hd, hf, h405, stackFlags]
    · by_cases hn : ptx b = 0x3FD
      · simp [hd, hn, hpp, stackFlags]
      · simp [hf, hn, h0]
  · simp [hd, h0]

/-- Stores go to the two pages. -/
theorem put8 : (m.put8 a x).Stacks p := by
  unfold Paged.put8
  rw [h.translate hp]
  split
  · rename_i q g hq
    refine ⟨h.cr3, fun r h₁ h₂ => ?_⟩
    have hqp : q = 405 ∨ q = p := by
      split at hq
      · cases hq
        exact .inl rfl
      · split at hq
        · cases hq
          exact .inr rfl
        · cases hq
    have hr : r ≠ q := by rcases hqp with rfl | rfl <;> assumption
    exact (Function.update_of_ne hr ..).trans (h.same r h₁ h₂)
  · exact h

theorem put32 : (m.put32 a v).Stacks p :=
  ((((h.put8 hp).put8 hp).put8 hp).put8 hp)

theorem access {w : Bool} (hd : pdx b = 0x3BA)
    (ht : ptx b = 0x3FF ∨ ptx b = 0x3FD) :
    (userAccess m.phys m.cr3 b w).isSome = true := by
  have hflags : ∀ q, q = 405 ∨ q = 406 →
      stackFlags q &&& PTE_U ≠ 0#32 ∧ stackFlags q &&& PTE_W ≠ 0#32 := by
    rintro q (rfl | rfl) <;> decide
  unfold userAccess
  rw [h.translate hp]
  rcases ht with ht | ht
  · obtain ⟨hu, hw⟩ := hflags 405 (.inl rfl)
    simp [hd, ht, hu, hw]
  · obtain ⟨hu, hw⟩ := hflags p hp
    simp [hd, ht, hu, hw]

end Paged.Stacks

theorem stacks_kstore32 {v v' : Vm} {cr3 : Word} (hp : p = 405 ∨ p = 406)
    (h : Paged.Stacks ⟨v.mem, cr3⟩ p) (hret : kstore32 cr3 a f v = .ret () v') :
    Paged.Stacks ⟨v'.mem, cr3⟩ p := by
  have hbyte : ∀ {v v' : Vm} {a : Word} {y : BitVec 8},
      Paged.Stacks ⟨v.mem, cr3⟩ p →
      kstore8 cr3 a y v = .ret () v' → Paged.Stacks ⟨v'.mem, cr3⟩ p := by
    intro v v' a y hs hret
    rw [(kstore8_put hret).1]
    exact hs.put8 hp
  unfold kstore32 at hret
  obtain ⟨_, v₁, h₁, hret⟩ := Prog.bind_eq_ret.mp hret
  obtain ⟨_, v₂, h₂, hret⟩ := Prog.bind_eq_ret.mp hret
  obtain ⟨_, v₃, h₃, h₄⟩ := Prog.bind_eq_ret.mp hret
  exact hbyte (hbyte (hbyte (hbyte h h₁) h₂) h₃) h₄

theorem stacks_kstoreAll {v v' : Vm} {cr3 : Word} {stores : List (Word × Word)}
    (hp : p = 405 ∨ p = 406) (h : Paged.Stacks ⟨v.mem, cr3⟩ p)
    (hret : (stores.forM fun y => kstore32 cr3 (a + y.1) y.2) v = .ret () v') :
    Paged.Stacks ⟨v'.mem, cr3⟩ p := by
  induction stores generalizing v with
  | nil =>
      cases hret
      exact h
  | cons y stores ih =>
      obtain ⟨_, v₁, h₁, hret⟩ := Prog.bind_eq_ret.mp hret
      exact ih (stacks_kstore32 hp h h₁) hret

/-- The exception stack and the normal one are still there after a fault. -/
theorem stacks_fault {s s' : Kern} {c : Nat} {u : Cpu Paged} {tr : Trap}
    (hp : p = 405 ∨ p = 406) (h : u.mem.Stacks p) (hr : Running s c)
    (hstep : Step s tr s')
    (hpg : tr.tf.tfTrapno = T_PGFLT) (hcur : s'.curenv = some c)
    (hu : u.Takes s tr) :
    (s'.user c).mem.Stacks p := by
  obtain ⟨v, hv, hs'⟩ := step_pageFault hr hstep hpg hcur
  rw [pushUtf_eq, ← hu.cr3] at hv
  have hmem : (⟨(s.enter tr).vm.mem, u.mem.cr3⟩ : Paged) = u.mem := by
    rw [Kern.enter, hu.mem]
  have hstacks := stacks_kstoreAll hp (hmem ▸ h) hv
  rwa [show (s'.user c).mem = ⟨v.mem, u.mem.cr3⟩ by rw [hs', hu.cr3]; rfl]

/-- In a memory with two pages of stacks everything is mapped once. -/
theorem stacks_alone (h : m.Stacks 406) : m.Alone a := by
  have htr := h.translate (.inr rfl)
  have hq : ∀ {b q f}, translate m.phys m.cr3 b = some (q, f) → pdx b = 0x3BA
      ∧ ((ptx b = 0x3FF ∧ q = 405) ∨ (ptx b = 0x3FD ∧ q = 406)) := by
    intro b q f hb
    rw [htr] at hb
    split at hb
    · rename_i hd
      cases hb
      exact ⟨hd.1, .inl ⟨hd.2, rfl⟩⟩
    · split at hb
      · rename_i hd
        cases hb
        exact ⟨hd.1, .inr ⟨hd.2, rfl⟩⟩
      · cases hb
  refine ⟨fun b q f g _ ha hb => ?_, fun q f ha => ?_, fun q f i ha hi => ?_⟩
  · obtain ⟨hda, hta⟩ := hq ha
    obtain ⟨hdb, htb⟩ := hq hb
    rw [pdx_eq] at hda hdb
    rw [ptx_eq] at hta htb
    omega
  · obtain ⟨-, ⟨-, rfl⟩ | ⟨-, rfl⟩⟩ := hq ha <;> rw [h.cr3] <;> decide
  · rw [h.entry (.inr rfl)] at hi ⊢
    obtain ⟨-, ⟨-, rfl⟩ | ⟨-, rfl⟩⟩ := hq ha <;>
      (split at hi
       · rename_i h954
         rw [if_pos h954]
         decide
       · exact absurd hi (by decide))

theorem Cpu.of_load {u : Cpu Paged} {a x : Word} (h : u.load a = some x) :
    x = (view u.mem.phys u.mem.cr3).load32 a := by
  change (if _ then some _ else none) = some x at h
  split at h
  · exact (Option.some.inj h).symm
  · cases h

theorem Cpu.of_store {u u' : Cpu Paged} {a x : Word}
    (h : u.store a x = some u') :
    u' = { u with mem := u.mem.put32 a x } := by
  obtain ⟨m, hm, rfl⟩ := Option.map_eq_some_iff.mp h
  change (if _ then some _ else none) = some m at hm
  split at hm
  · obtain rfl := Option.some.inj hm
    rfl
  · cases hm

/-- The first half of the return stores to the stacks. -/
theorem adjust_stacks {u u' : Cpu Paged} (hp : p = 405 ∨ p = 406)
    (hs : u.mem.Stacks p)
    (h : execAll u (upcallReturn.take 6) = some u') :
    u'.reg .esp = u.reg .esp + 4 ∧ u'.mem.Stacks p := by
  simp only [upcallReturn, List.take, execAll, exec, Option.bind_eq_bind,
    Option.bind_eq_some_iff, Option.some.injEq] at h
  obtain ⟨_, rfl, _, ⟨_, -, rfl⟩, _, ⟨_, -, rfl⟩, _, rfl, _, h₅, _, h₆, rfl⟩ :=
    h
  obtain rfl := Cpu.of_store h₅
  obtain rfl := Cpu.of_store h₆
  refine ⟨?_, (hs.put32 hp).put32 hp⟩
  simp only [Cpu.setReg, Function.update_self, ne_eq, reduceCtorEq,
    not_false_eq_true,
    Function.update_of_ne]

/-- The second half loads the stack pointer from the frame. -/
theorem return_esp {u u' : Cpu Paged}
    (h : execAll u (upcallReturn.drop 6) = some u') :
    u'.mem = u.mem
      ∧ u'.reg .esp = (view u.mem.phys u.mem.cr3).load32
        (u.reg .esp + 48) + 4 := by
  simp only [upcallReturn, List.drop, execAll, exec, Option.bind_eq_bind,
    Option.bind_eq_some_iff, Option.some.injEq] at h
  obtain ⟨_, rfl, _, ⟨_, -, _, -, _, -, _, -, _, -, _, -, _, -, rfl⟩, _, rfl,
    _, ⟨_, -, rfl⟩, _, ⟨w, hw, rfl⟩, _, ⟨_, -, rfl⟩, rfl⟩ := h
  refine ⟨rfl, ?_⟩
  have hw := Cpu.of_load hw
  simp only [Cpu.setReg, Function.update_self] at hw ⊢
  rw [hw]
  congr 2
  bv_omega

theorem view_stack (h : m.Stacks 405) (hd : pdx b = 0x3BA)
    (ht : ptx b = 0x3FF ∨ ptx b = 0x3FD) :
    view m.phys m.cr3 b = m.phys 405 (pgoff b) := by
  unfold view
  rw [h.translate (.inl rfl)]
  rcases ht with ht | ht <;> simp [hd, ht]

/-- Everything on the two stacks may be written. -/
theorem stacks_mayWrite {u : Cpu Paged} {n : Nat} (hp : p = 405 ∨ p = 406)
    (h : u.mem.Stacks p) (ha : (0xEEBFF000 ≤ a.toNat ∧ a.toNat + n ≤ 0xEEC00000)
      ∨ (0xEEBFD000 ≤ a.toNat ∧ a.toNat + n ≤ 0xEEBFE000)) :
      u.MayWrite a n := by
  intro b hb
  simp only [Within] at hb
  have hpos : (0xEEBFF000 ≤ b.toNat ∧ b.toNat < 0xEEC00000)
      ∨ (0xEEBFD000 ≤ b.toNat ∧ b.toNat < 0xEEBFE000) := by bv_omega
  refine ⟨?_, h.access hp ?_ ?_⟩
  · simp only [UTOP, UENVS]
    bv_omega
  · rw [pdx_eq]
    omega
  · rw [ptx_eq]
    omega

end

/-- A fault, a fault of its handler, and the return from the second one. -/
theorem page_fault_upcall_small : ∃ n u',
    Runs (Nest.Step 2 0x804000 0x80002B) Nest.Unshared
      ⟨stackKern 406, ((stackKern 406).user 2).setReg .esp 0xEEBFDF00, []⟩ n
    ∧ n.pending.map (fun p => p.trapped.reg .esp) = [0xEEBFFFBC, 0xEEBFDF00]
    ∧ execAll n.user upcallReturn = some u' ∧ u'.reg .esp = 0xEEBFFFBC := by
  have hfault : (((stackKern 406).fault 2 (((stackKern 406).user 2).setReg .esp
      0xEEBFDF00)).bind fun s =>
        (s.fault 2 ((s.user 2).setReg .esp 0xEEBFFFBC)).map
        fun t => decide (s.curenv = some 2 ∧ t.curenv = some 2)) =
          some true := by
    decide +kernel
  obtain ⟨s, hs, hfault⟩ := Option.bind_eq_some_iff.mp hfault
  obtain ⟨t, ht, hcur⟩ := Option.map_eq_some_iff.mp hfault
  obtain ⟨hcs, hct⟩ := of_decide_eq_true hcur
  have hstep₁ := Kern.fault_step (s := stackKern 406) rfl hs
  have hstep₂ := Kern.fault_step hcs ht
  have hsys := stackKern_sysInv (p := 406).step hstep₁
  have hstacks₀ :
      (((stackKern 406).user 2).setReg .esp 0xEEBFDF00).mem.Stacks 406 :=
    ⟨rfl, fun _ _ _ => rfl⟩
  have hstacks₁ : (s.user 2).mem.Stacks 406 := stacks_fault (.inr rfl) hstacks₀
    ⟨rfl, by decide, rfl⟩ hstep₁ rfl hcs ⟨rfl, rfl, rfl⟩
  have hstacks₂ : (t.user 2).mem.Stacks 406 := stacks_fault (.inr rfl)
    (u := (s.user 2).setReg .esp 0xEEBFFFBC) hstacks₁ (running_of_cur hsys hcs)
    hstep₂ rfl
    hct ⟨rfl, rfl, rfl⟩
  have hutf₁ : (((stackKern 406).user 2).setReg .esp 0xEEBFDF00).utf =
      0xEEBFFFBC := by
    decide
  have hutf₂ : ((s.user 2).setReg .esp 0xEEBFFFBC).utf = 0xEEBFFF74 := by
    rw [Cpu.utf, Cpu.setReg_reg_self]
    decide
  have hscratch₂ : ((s.user 2).setReg .esp 0xEEBFFFBC).scratch =
      0xEEBFFFB8 := by
    rw [Cpu.scratch, Cpu.setReg_reg_self]
    decide
  have hrun := (((@Runs.refl _ _ (Nest.Step 2 0x804000 0x80002B) Nest.Unshared
    ⟨stackKern 406, ((stackKern 406).user 2).setReg .esp 0xEEBFDF00, []⟩).tail
    (l := Nest.Event.fault _) (fun _ _ => stacks_alone hstacks₀)
    (.fault rfl rfl ⟨rfl, rfl, rfl⟩ (by decide) (by simp) hstep₁ hcs)).tail
    (l := Nest.Event.own)
    trivial (.own_esp 0xEEBFFFBC hcs)).tail (l := Nest.Event.fault _)
    (fun _ _ => stacks_alone hstacks₁)
    (.fault hcs rfl ⟨rfl, rfl, rfl⟩ (hutf₂ ▸ by decide) (by
      intro p hp
      obtain rfl := Option.some.inj hp
      rw [Cpu.setReg_reg_self]
      exact ⟨by decide, (BitVec.le_of_eq hutf₁.symm)⟩) hstep₂ hct)
  have hrun := hrun.tail (l := Nest.Event.own) trivial (.own_esp 0xEEBFFF70 hct)
  obtain ⟨u', hret, hreg, -⟩ :=
    (page_fault_upcall stackKern_sysInv _ _ _ _ _ hrun).2
    ⟨(s.user 2).setReg .esp 0xEEBFFFBC, _⟩ _
    ⟨fun _ _ => stacks_alone hstacks₂, fun _ _ _ _ => stacks_alone hstacks₂⟩ rfl
    (Cpu.setReg_reg_self.trans (congrArg (· - 4) hutf₂).symm)
    (stacks_mayWrite (.inr rfl) hstacks₂
    (.inl (by dsimp only; rw [hutf₂]; decide)))
    (stacks_mayWrite (.inr rfl) hstacks₂
    (.inl (by dsimp only; rw [hscratch₂]; decide)))
  refine ⟨_, u', hrun, ?_, hret, ?_⟩
  · simp [Pending.touch]
  · rw [hreg, Cpu.setReg_reg_self]

/-- The page of the exception stack is also the page of the normal stack: the
frame of a fault overwrites the stack that it interrupts. -/
theorem page_fault_upcall_shared :
    ¬∀ s, SysInv s → UpcallLaw (fun _ _ => True) s := by
  intro h
  have hfault : ((stackKern 405).fault 2 (((stackKern 405).user 2).setReg .esp
      0xEEBFDF00)).map (fun s => decide (s.curenv = some 2)) = some true := by
    decide +kernel
  obtain ⟨s, hs, hcur⟩ := Option.map_eq_some_iff.mp hfault
  have hcur : s.curenv = some 2 := of_decide_eq_true hcur
  have hstep := Kern.fault_step (s := stackKern 405) rfl hs
  have hstacks : (s.user 2).mem.Stacks 405 :=
    stacks_fault (.inl rfl) ⟨rfl, fun _ _ _ => rfl⟩
      ⟨rfl, by decide, rfl⟩ hstep rfl hcur ⟨rfl, rfl, rfl⟩
  have hrun :=
    ((@Runs.refl _ _ (Nest.Step 2 0x804000 0x80002B) (fun _ _ => True)
    ⟨stackKern 405, ((stackKern 405).user 2).setReg .esp 0xEEBFDF00,
    []⟩).tail trivial
    (.fault rfl rfl ⟨rfl, rfl, rfl⟩ (by decide)
    (by simp) hstep hcur)).tail trivial
    (.own_esp 0xEEBFFFB8 hcur)
  have hutf : (((stackKern 405).user 2).setReg .esp 0xEEBFDF00).utf =
      0xEEBFFFBC := by decide
  have hscratch : (((stackKern 405).user 2).setReg .esp 0xEEBFDF00).scratch =
      0xEEBFDEFC := by
    decide
  obtain ⟨u', hexec, hreg, -, -, hkeep⟩ :=
    (h _ stackKern_sysInv _ _ _ _ _ hrun).2
    ⟨((stackKern 405).user 2).setReg .esp 0xEEBFDF00, _⟩ [] trivial rfl
    (Cpu.setReg_reg_self.trans (congrArg (· - 4) hutf).symm)
    (stacks_mayWrite (.inl rfl) hstacks
    (.inl (by dsimp only; rw [hutf]; decide)))
    (stacks_mayWrite (.inl rfl) hstacks
    (.inr (by dsimp only; rw [hscratch]; decide)))
  -- the stack pointer in the frame is also in the stack that was interrupted
  rw [← List.take_append_drop 6 upcallReturn, execAll_append] at hexec
  obtain ⟨u₁, h₁, h₂⟩ := Option.bind_eq_some_iff.mp hexec
  obtain ⟨hesp₁, hstacks₁⟩ :=
    adjust_stacks (u := (s.user 2).setReg .esp 0xEEBFFFB8) (.inl rfl) hstacks h₁
  obtain ⟨hmem, hesp⟩ := return_esp h₂
  have hesp₁ : u₁.reg .esp + 48 = 0xEEBFFFEC := by
    rw [hesp₁, Cpu.setReg_reg_self]
    decide
  rw [hreg, hesp₁] at hesp
  have hlow : view u₁.mem.phys u₁.mem.cr3 0xEEBFFFEC = 0xFC := by
    have hword : (view u₁.mem.phys u₁.mem.cr3).load32 0xEEBFFFEC =
        0xEEBFDEFC := by
      have hesp : (0xEEBFDF00 : Word)
          = (view u₁.mem.phys u₁.mem.cr3).load32 0xEEBFFFEC + 4 := hesp
      bv_omega
    have hbyte := congrArg (BitVec.extractLsb' 0 8) hword
    rw [UMem.load32, BitVec.extractLsb'_append_eq_right] at hbyte
    exact hbyte
  have hzero : (((stackKern 405).user 2).setReg .esp 0xEEBFDF00).sees
      0xEEBFDFEC = 0 := by
    decide +kernel
  have hview :=
    (hkeep 0xEEBFDFEC ⟨(by decide : (0xEEBFDF00 : Word) ≤ 0xEEBFDFEC),
    .inr (by decide)⟩ fun h => h.elim id fun hne => hne rfl).trans hzero
  rw [Cpu.sees, hmem] at hview
  change view u₁.mem.phys u₁.mem.cr3 0xEEBFDFEC = 0 at hview
  rw [view_stack hstacks₁ (by decide) (by decide)] at hview hlow
  cases hlow.symm.trans hview

end Jos
