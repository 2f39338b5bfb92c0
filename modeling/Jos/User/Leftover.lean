import Jos.User.Overrun

/-!
# What a failing `spawn` leaves behind

`spawn` holds a descriptor, a child and sometimes a page at `UTEMP`. The exits
behind the label `error` and the one for a bad magic number give back what there
is by then; the two between them, for no child and for a child without a stack,
give nothing back.
-/

namespace Jos

namespace Spawn

open Mmap

/-- What a process holds: its descriptors and children, and whether there is a
page at `UTEMP`. -/
structure Held where
  fds : List Word
  children : List Word
  utemp : Bool
deriving DecidableEq

/-- What it holds after one more call. -/
def Held.after (r : Held) : Call → Answer → Held
  | .open _ _, a => if a.ret.slt 0 then r else { r with fds := a.ret :: r.fds }
  | .close fd, _ => { r with fds := r.fds.erase fd }
  | .exofork, a =>
      if a.ret.slt 0 then r else { r with children := a.ret :: r.children }
  | .envDestroy env, _ => { r with children := r.children.erase env }
  | .pageAlloc env va _, a => if env = 0 ∧ va = UTEMP ∧ ¬a.ret.slt 0 then
      { r with utemp := true } else r
  | .pageMap _ _ env va _, a => if env = 0 ∧ va = UTEMP ∧ ¬a.ret.slt 0 then
      { r with utemp := true } else r
  | .pageUnmap env va, _ =>
      if env = 0 ∧ va = UTEMP then { r with utemp := false } else r
  | _, _ => r

def held : Trace → Held
  | [] => ⟨[], [], false⟩
  | (c, a) :: t => (held t).after c a

/-- If `spawn` fails it holds what it held before. -/
def FailsClean (h : Host) (elfBuf prog argv : Word) (p : Proc) : Prop :=
  ∀ r t, spawn h elfBuf prog argv p = .ret r t → r.slt 0 →
    held t.trace = held p.trace

/-- The arguments pass the test of `init_stack`, and the system gives it what it
asks for. -/
structure StackWorks (h : Host) (child argv : Word) (p : Proc) (argc : Nat)
    (size : Word) : Prop where
  fits : ¬argvStore argc size - 8 < UTEMP
  page : ¬(h p.trace (.pageAlloc 0 UTEMP (PTE_P ||| PTE_U ||| PTE_W))).ret.slt 0
  hand : ∀ r q esp t, allocPage h 0 UTEMP (PTE_P ||| PTE_U ||| PTE_W) p =
    .ret r q → layOut argv argc size q = .ret esp t →
    ¬(h t.trace (mapStack child)).ret.slt 0 ∧
      ¬(h ((mapStack child, h t.trace (mapStack child)) :: t.trace)
        (.pageUnmap 0 UTEMP)).ret.slt 0

/-- Behind the test of the magic number there is a free environment, and the
child gets its stack. -/
def ChildWorks (h : Host) (elfBuf prog argv : Word) (p : Proc) : Prop :=
  ∀ fd elf q, HasMagic h elfBuf prog p fd elf q →
    ¬(h q.trace .exofork).ret.slt 0 ∧
      ∀ x t, countArgs argv NARGS 0 0 (forked h q) = .ret x t →
      StackWorks h (h q.trace .exofork).ret argv t x.1 x.2

section

variable {h : Host} {p q t : Proc} {elfBuf prog argv elf child fd ph va memsz
    filesz off perm i esp st length : Word}
  {n k : Nat} {s : Stacked} {c : Call} {a : Answer}

/-! ## What does not change what is held -/

/-- The same is held. -/
def SameHeld : Proc → Proc → Prop := Prog.Same fun p => held p.trace

theorem SameHeld.ofTrace (ht : t.trace = p.trace) : SameHeld p t :=
  congrArg held ht

/-- The same descriptors and children are held. -/
def SameOwned : Proc → Proc → Prop :=
  Prog.Same fun p => ((held p.trace).fds, (held p.trace).children)

/-- Nothing but the trace matters. -/
def SameTrace : Proc → Proc → Prop := Prog.Same Proc.trace

theorem SameTrace.frame : StoreFrame SameTrace :=
  ⟨Prog.Same.frame, fun _ _ _ => rfl⟩

/-- A call that takes and gives nothing. -/
theorem SameHeld.call (hc : ∀ r a, Held.after r c a = r) :
    Prog.Keeps SameHeld (call h c) := fun _ => hc _ _

/-- The same is held, if a page at `va` would not be new. -/
def SameBut (va : Word) (p t : Proc) : Prop :=
  (va = UTEMP → (held p.trace).utemp = true) → SameHeld p t

theorem SameBut.refl (va : Word) (p : Proc) : SameBut va p p := fun _ => .refl p

theorem SameBut.trans (va : Word) (p q t : Proc) (hpq : SameBut va p q)
    (hqt : SameBut va q t) : SameBut va p t := by
  intro hp
  have hq := hpq hp
  refine hq.trans _ _ _ (hqt fun hva => ?_)
  rw [show held q.trace = held p.trace from hq]
  exact hp hva

/-- A page at `va` makes no difference where there is one. -/
theorem after_pageAlloc {r : Held} (hva : va = UTEMP → r.utemp = true)
    (perm : Word) (a : Answer) :
    r.after (.pageAlloc 0 va perm) a = r := by
  obtain ⟨fds, children, utemp⟩ := r
  refine ite_eq_right_iff.mpr fun hcond => ?_
  rw [show utemp = true from hva hcond.2.1]

theorem SameBut.frame : CallFrame h (· = va) (SameBut va) where
  refl := .refl va
  trans := .trans va
  call c p hc hp := by
    cases c <;> first | exact hc.elim | rfl
  alloc va' perm p hva hp := by
    obtain rfl := hva
    exact after_pageAlloc hp perm _
  mem _ _ _ _ _ _ _ := .ofTrace rfl

/-- `mmap` of a page takes nothing, if there is one. -/
theorem SameBut.mmap (hva : va ≠ 0) (hle : length.toNat ≤ PGSIZE)
    (prot mode fd offset : Word) :
    Prog.Keeps (SameBut va) (mmap h va length prot mode fd offset) :=
  SameBut.frame.mmapPage (fun _ _ _ => .ofTrace rfl) hva rfl hle _ _ _ _

/-! ## The segments -/

/-- A page for a child, or one without a place at `UTEMP`. -/
theorem after_pageAlloc_child (hchild : child ≠ 0) (r : Held) (va perm : Word)
    (a : Answer) :
    r.after (.pageAlloc child va perm) a = r :=
  if_neg fun hcond => hchild hcond.1

theorem after_pageMap_child (hchild : child ≠ 0) (r : Held) (va perm : Word)
    (a : Answer) :
    r.after (.pageMap 0 UTEMP child va perm) a = r :=
  if_neg fun hcond => hchild hcond.1

/-- A page at `UTEMP` that has come and gone. -/
theorem after_pageUnmap {r : Held} (hr : r.utemp = false) :
    ({ r with utemp := true } : Held).after (.pageUnmap 0 UTEMP) a = r := by
  obtain ⟨fds, children, utemp⟩ := r
  cases hr
  rfl

theorem SameHeld.allocChild (hchild : child ≠ 0) (va perm : Word) :
    Prog.Keeps SameHeld (allocPage h child va perm) := by
  refine .bind .trans (.call fun r a =>
    after_pageAlloc_child hchild r va perm a) fun a => ?_
  split
  · exact .bind .trans (.update fun _ => .ofTrace rfl) fun _ => .pure .refl _
  · exact .pure .refl _

/-- A page at `UTEMP`, if it works. -/
theorem wp_allocUtemp {perm : Word} {Q : Word → Proc → Prop} {A : Proc → Prop}
    {E : UserStop → Proc → Prop}
    (hbad : ∀ t, (h p.trace (.pageAlloc 0 UTEMP perm)).ret.slt 0 →
      SameHeld p t →
      Q (h p.trace (.pageAlloc 0 UTEMP perm)).ret t)
    (hok : ∀ t, ¬(h p.trace (.pageAlloc 0 UTEMP perm)).ret.slt 0 →
      held t.trace = { held p.trace with utemp := true } →
      Q (h p.trace (.pageAlloc 0 UTEMP perm)).ret t) :
    Prog.wp (allocPage h 0 UTEMP perm) Q A E p := by
  apply Prog.wp_bind_intro
  refine wp_call ?_
  by_cases hret : (h p.trace (.pageAlloc 0 UTEMP perm)).ret.slt 0
  · rw [if_neg (by rw [hret]; exact fun hcond => absurd hcond.1 nofun)]
    exact Prog.wp_pure_intro (hbad _ hret (if_neg fun hcond => hcond.2.2 hret))
  · rw [if_pos
      ⟨by simpa only [Bool.not_eq_true', Bool.not_eq_true] using hret, rfl⟩]
    exact Prog.wp_ret rfl (hok _ hret (if_pos ⟨rfl, rfl, hret⟩))

theorem minWord_PGSZ (hn : length ≠ 0) :
    minWord PGSZ length ≠ 0 ∧ (minWord PGSZ length).toNat ≤ PGSIZE := by
  unfold minWord
  split
  · exact ⟨by decide, by decide⟩
  · rename_i hgt
    exact ⟨hn, Nat.le_of_not_le fun hle => hgt hle⟩

/-- `mapPage` leaves no page at `UTEMP`. -/
theorem wp_mapPage_held (hchild : child ≠ 0)
    (hp : (held p.trace).utemp = false) :
    Prog.wp (mapPage h child va fd filesz off perm i) (fun _ => SameHeld p)
      (fun _ => True) (fun _ _ => True) p := by
  refine Prog.wp_ite _ (fun _ => ?_) fun hfile => ?_
  · exact (SameHeld.allocChild hchild _ _).wp (fun _ _ h => h)
      (fun _ _ => trivial) fun _ _ _ => trivial
  · have hlen : filesz - i ≠ 0 :=
      fun hz => hfile (BitVec.le_of_eq (sub_eq_zero.mp hz))
    obtain ⟨hmin, hle⟩ := minWord_PGSZ hlen
    apply Prog.wp_bind_intro
    refine wp_allocUtemp (fun t hbad hsame => ?_) fun t hok hq => ?_
    · exact Prog.wp_ite _ (fun _ => Prog.wp_pure_intro hsame) fun hno =>
        absurd hbad hno
    · refine Prog.wp_ite _ (fun hbad => absurd hbad hok) fun _ => ?_
      apply Prog.wp_bind_intro
      refine (SameBut.mmap (by decide) hle _ _ _ _).wp (fun m u hu => ?_)
        (fun _ _ => trivial) fun _ _ _ => trivial
      have hheld : held u.trace = { held p.trace with utemp := true } :=
        Eq.trans (hu fun _ => by rw [hq]) hq
      refine Prog.wp_ite _ (fun _ => Prog.wp_halt_intro trivial) fun _ => ?_
      apply Prog.wp_bind_intro
      refine wp_call ?_
      apply Prog.wp_bind_intro
      refine wp_panicOn (fun _ => trivial) fun _ => ?_
      refine Prog.wp_ret rfl ?_
      show Held.after (Held.after (held u.trace) _ _) _ _ = held p.trace
      rw [after_pageMap_child hchild, hheld]
      exact after_pageUnmap hp

theorem wp_mapLoop_held (hchild : child ≠ 0)
    (hp : (held p.trace).utemp = false) :
    Prog.wp (mapLoop h child va memsz fd filesz off perm n i)
      (fun _ => SameHeld p) (fun _ => True)
      (fun _ _ => True) p := by
  induction n generalizing p i with
  | zero => exact Prog.wp_away rfl trivial
  | succ n ih =>
      refine Prog.wp_ite _ (fun _ => ?_) fun _ => Prog.wp_pure_intro (.refl p)
      apply Prog.wp_bind_intro
      refine Prog.wp_imp (wp_mapPage_held hchild hp) (fun r q hq => ?_)
        (fun _ h => h) fun _ _ h => h
      refine Prog.wp_ite _ (fun _ => Prog.wp_pure_intro hq) fun _ => ?_
      have hutemp : (held q.trace).utemp = false := by
        rw [show held q.trace = held p.trace from hq, hp]
      exact Prog.wp_imp (ih hutemp) (fun _ _ h => hq.trans _ _ _ h)
        (fun _ h => h) fun _ _ h => h

theorem wp_mapSegments_held (hchild : child ≠ 0)
    (hp : (held p.trace).utemp = false) :
    Prog.wp (mapSegments h elf child fd n k ph) (fun _ => SameHeld p)
      (fun _ => True) (fun _ _ => True) p := by
  induction n generalizing p k ph with
  | zero => exact Prog.wp_pure_intro (.refl p)
  | succ n ih =>
      apply Prog.wp_ask_bind
      refine Prog.wp_ite _ (fun _ => ?_) fun _ => Prog.wp_pure_intro (.refl p)
      apply Prog.wp_bind_intro
      refine Prog.wp_ret (b := segmentAt p ph)
        (t := { p with headers := ph :: p.headers }) rfl ?_
      refine Prog.wp_ite _ (fun _ =>
        ih (p := { p with headers := ph :: p.headers }) hp) fun _ => ?_
      apply Prog.wp_bind_intro
      refine Prog.wp_imp (wp_mapLoop_held hchild hp) (fun r q hq => ?_)
        (fun _ h => h) fun _ _ h => h
      refine Prog.wp_ite _ (fun _ => Prog.wp_pure_intro hq) fun _ => ?_
      have hutemp : (held q.trace).utemp = false := by
        rw [show held q.trace = held p.trace from hq, hp]
      exact Prog.wp_imp (ih hutemp) (fun _ _ h => hq.trans _ _ _ h)
        (fun _ h => h) fun _ _ h => h

/-! ## The stack -/

theorem SameOwned.frame : StoreFrame SameOwned :=
  ⟨Prog.Same.frame, fun _ _ _ => rfl⟩

/-- A call about pages. -/
theorem SameOwned.call
    (hc : ∀ r a, ((Held.after r c a).fds, (Held.after r c a).children) =
      (r.fds, r.children)) :
    Prog.Keeps SameOwned (call h c) := fun _ => hc _ _

theorem owned_ite {c : Prop} [Decidable c] (r : Held) (b : Bool) :
    ((if c then { r with utemp := b } else r).fds,
    (if c then { r with utemp := b } else r).children)
      = (r.fds, r.children) := by
  split <;> rfl

theorem SameOwned.alloc (env va perm : Word) :
    Prog.Keeps SameOwned (Jos.call h (.pageAlloc env va perm)) :=
  .call fun r _ => owned_ite r true

theorem SameOwned.map (src srcva env va perm : Word) :
    Prog.Keeps SameOwned (Jos.call h (.pageMap src srcva env va perm)) :=
  .call fun r _ => owned_ite r true

theorem SameOwned.unmap (env va : Word) :
    Prog.Keeps SameOwned (Jos.call h (.pageUnmap env va)) :=
  .call fun r _ => owned_ite r false

theorem SameOwned.initStack :
    Prog.Keeps SameOwned (initStack h child argv) := by
  have hhand : ∀ esp, Prog.Keeps SameOwned (handStack h child esp) := by
    intro esp
    refine .bind .trans (SameOwned.map _ _ _ _ _) fun _ => .ite ?_ ?_
    · exact .bind .trans (SameOwned.unmap _ _) fun _ => .pure .refl _
    · exact .bind .trans (SameOwned.unmap _ _) fun _ =>
        .ite (.bind .trans (SameOwned.unmap _ _) fun _ => .pure .refl _)
          (.pure .refl _)
  have halloc : Prog.Keeps SameOwned
      (allocPage h 0 UTEMP (PTE_P ||| PTE_U ||| PTE_W)) := by
    refine .bind .trans (SameOwned.alloc _ _ _) fun a => ?_
    split
    · exact .bind .trans (.update fun _ => rfl) fun _ => .pure .refl _
    · exact .pure .refl _
  refine .bind .trans (SameOwned.frame.countArgs _ _ _ _) fun _ =>
    .ite (.pure .refl _) ?_
  refine .bind .trans halloc fun _ => .ite (.pure .refl _) ?_
  exact .bind .trans (SameOwned.frame.layOut _ _ _) fun _ => hhand _

/-- A page allocation returns what the call does. -/
theorem allocPage_ret (env va perm : Word) :
    ∃ t, allocPage h env va perm p =
      .ret (h p.trace (.pageAlloc env va perm)).ret t := by
  unfold allocPage
  simp only [Prog.bind_apply, call]
  split <;> exact ⟨_, rfl⟩

theorem handStack_bad_map {esp : Word}
    (hmap : (h p.trace (mapStack child)).ret.slt 0) :
    ∃ t, handStack h child esp p =
      .ret ⟨(h p.trace (mapStack child)).ret, esp⟩ t := by
  rw [handStack, Prog.bind_ret call_apply, if_pos hmap]
  exact ⟨_, rfl⟩

theorem handStack_bad_unmap {esp : Word}
    (hmap : ¬(h p.trace (mapStack child)).ret.slt 0)
    (hbad : (h ((mapStack child, h p.trace (mapStack child)) :: p.trace)
      (.pageUnmap 0 UTEMP)).ret.slt 0) :
    ∃ t, handStack h child esp p =
      .ret ⟨(h ((mapStack child, h p.trace (mapStack child)) :: p.trace)
        (.pageUnmap 0 UTEMP)).ret, esp⟩ t := by
  rw [handStack, Prog.bind_ret call_apply, if_neg hmap,
    Prog.bind_ret call_apply, Proc.asked_trace, if_pos hbad]
  exact ⟨_, rfl⟩

/-- If the stack does not work, `init_stack` fails. -/
theorem initStack_fails {x : Nat × Word}
    (hcount : countArgs argv NARGS 0 0 p = .ret x q)
    (hbad : ¬StackWorks h child argv q x.1 x.2) :
    ∃ s t, initStack h child argv p = .ret s t ∧ s.ret.slt 0 := by
  have hinit : initStack h child argv p = makeStack h child argv x.1 x.2 q := by
    rw [initStack, Prog.bind_ret hcount]
  rw [hinit]
  by_cases hfits : argvStore x.1 x.2 - 8 < UTEMP
  · exact ⟨⟨-E_NO_MEM, 0⟩, q, by rw [makeStack, if_pos hfits]; rfl, by decide⟩
  obtain ⟨u, halloc⟩ := allocPage_ret (h := h) (p := q) 0 UTEMP
    (PTE_P ||| PTE_U ||| PTE_W)
  rw [makeStack, if_neg hfits, Prog.bind_ret halloc]
  by_cases hpage :
    (h q.trace (.pageAlloc 0 UTEMP (PTE_P ||| PTE_U ||| PTE_W))).ret.slt 0
  · exact ⟨⟨_, 0⟩, u, by rw [if_pos hpage]; rfl, hpage⟩
  rw [if_neg hpage]
  by_contra hall
  push Not at hall
  refine hbad ⟨hfits, hpage, fun r u' esp t halloc' hlay => ?_⟩
  rw [halloc] at halloc'
  cases halloc'
  rw [Prog.bind_ret hlay] at hall
  have hmap : ¬(h t.trace (mapStack child)).ret.slt 0 := by
    intro hneg
    obtain ⟨v, hret⟩ := @handStack_bad_map _ _ _ esp hneg
    exact hall _ v hret hneg
  refine ⟨hmap, fun hneg => ?_⟩
  obtain ⟨v, hret⟩ := @handStack_bad_unmap _ _ _ esp hmap hneg
  exact hall _ v hret hneg

/-- If it works, what was held is held again. -/
theorem wp_makeStack_held {argc : Nat} {size : Word} (hchild : child ≠ 0)
    (hp : (held p.trace).utemp = false)
    (hworks : StackWorks h child argv p argc size) :
    Prog.wp (makeStack h child argv argc size)
      (fun s t => ¬s.ret.slt 0 ∧ SameHeld p t) (fun _ => True)
      (fun _ _ => True) p := by
  obtain ⟨u, halloc⟩ := allocPage_ret (h := h) (p := p) 0 UTEMP
    (PTE_P ||| PTE_U ||| PTE_W)
  have hu : held u.trace = { held p.trace with utemp := true } :=
    (wp_allocUtemp (Q := fun _ t => held t.trace =
      { held p.trace with utemp := true }) (A := fun _ => True)
      (E := fun _ _ => True) (fun _ hbad _ => absurd hbad hworks.page)
      fun _ _ h => h).ret halloc
  refine Prog.wp_ite _ (fun hno => absurd hno hworks.fits) fun _ => ?_
  apply Prog.wp_bind_intro
  refine Prog.wp_ret halloc ?_
  refine Prog.wp_ite _ (fun hno => absurd hno hworks.page) fun _ => ?_
  apply Prog.wp_bind_intro
  refine Prog.wp_of_runs (fun esp t hlay => ?_) (fun _ _ => trivial)
    fun _ _ _ => trivial
  obtain ⟨hmap, hunmap⟩ := hworks.hand _ u esp t halloc hlay
  have htrace : SameTrace u t := by
    have hkeeps := SameTrace.frame.layOut argv argc size u
    rwa [hlay] at hkeeps
  apply Prog.wp_bind_intro
  refine wp_call ?_
  refine Prog.wp_ite _ (fun hno => absurd hno hmap) fun _ => ?_
  apply Prog.wp_bind_intro
  refine wp_call ?_
  refine Prog.wp_ite _ (fun hno => absurd hno hunmap) fun _ =>
    Prog.wp_pure_intro ⟨(nofun : ¬(0 : Word).slt 0), ?_⟩
  show Held.after (Held.after (held t.trace) _ _) _ _ = held p.trace
  rw [mapStack, after_pageMap_child hchild, show t.trace = u.trace from
    htrace, hu]
  exact after_pageUnmap hp

/-! ## All of `spawn` -/

/-- The descriptor is held behind the mapping of the head. -/
theorem held_image (hbuf : BufOnStack elfBuf)
    (himage : HasImage h elfBuf prog p fd elf q) :
    held q.trace = { held p.trace with fds := fd :: (held p.trace).fds } := by
  obtain ⟨hfd, hopen, hmmap⟩ := himage
  have hne := hbuf.ne
  have hkeeps := SameBut.mmap (h := h) hne.1
    (by decide : (512 : Word).toNat ≤ PGSIZE) PROT_READ MAP_SHARED fd 0
    (p.asked (.open prog O_RDONLY) (h p.trace (.open prog O_RDONLY)))
  rw [hmmap] at hkeeps
  refine Eq.trans (hkeeps fun heq => absurd heq hne.2) ?_
  show Held.after _ _ _ = _
  subst hfd
  exact if_neg hopen

/-- An environment for the child. -/
theorem held_fork (hok : ¬(h q.trace .exofork).ret.slt 0) :
    held (forked h q).trace =
    { held q.trace with children := (h q.trace .exofork).ret ::
    (held q.trace).children } := if_neg hok

theorem held_nofork (hbad : (h q.trace .exofork).ret.slt 0) :
    held (forked h q).trace = held q.trace := if_pos hbad

/-- A descriptor that has been opened and closed. -/
theorem after_close {r : Held} :
    ({ r with fds := fd :: r.fds } : Held).after (.close fd) a = r :=
  congrArg (fun l => ({ r with fds := l } : Held))
    (List.erase_cons_head fd r.fds)

/-- A child that has been made and destroyed. -/
theorem after_destroy {r : Held} :
    ({ r with children := child :: r.children } : Held).after
    (.envDestroy child) a = r :=
  congrArg (fun l => ({ r with children := l } : Held))
    (List.erase_cons_head child r.children)

/-- The part of `spawn` with a child and its stack gives both back. -/
theorem wp_loadChild_held {r : Held} {eip : Word}
    (hchild : child ≠ 0) (hneg : ¬child.slt 0) (hutemp : r.utemp = false)
    (hp : held p.trace = { r with fds := fd :: r.fds, children := child ::
    r.children }) :
    Prog.wp (loadChild h elfBuf elf fd child eip esp) (fun x t => x.slt 0 →
    held t.trace = r) (fun _ => True)
      (fun _ _ => True) p := by
  apply Prog.wp_ask_bind
  apply Prog.wp_bind_intro
  refine Prog.wp_imp (wp_mapSegments_held hchild (by rw [hp]; exact hutemp))
    (fun x q hq => ?_) (fun _ h => h)
    fun _ _ h => h
  have hheld : held q.trace = _ := Eq.trans hq hp
  refine Prog.wp_ite _ (fun _ => ?_) fun _ => ?_
  · apply Prog.wp_bind_intro
    refine wp_call ?_
    apply Prog.wp_bind_intro
    refine wp_call (Prog.wp_pure_intro fun _ => ?_)
    show Held.after (Held.after (held q.trace) _ _) _ _ = r
    rw [hheld, after_destroy (r := { r with fds := fd :: r.fds }), after_close]
  · apply Prog.wp_bind_intro
    refine wp_call ?_
    apply Prog.wp_bind_intro
    refine wp_call ?_
    apply Prog.wp_bind_intro
    refine wp_panicOn (fun _ => trivial) fun _ => ?_
    apply Prog.wp_bind_intro
    refine wp_call ?_
    apply Prog.wp_bind_intro
    exact wp_panicOn (fun _ => trivial) fun _ => Prog.wp_pure_intro fun hbad =>
      absurd hbad hneg

/-- `spawn` fails cleanly just when it gets its child, and the child its stack,
or does not come to that. -/
theorem failsClean_iff (hfork : ∀ tr, (h tr .exofork).ret ≠ 0)
    (hbuf : BufOnStack elfBuf)
    (hutemp : (held p.trace).utemp = false) :
    FailsClean h elfBuf prog argv p ↔ ChildWorks h elfBuf prog argv p := by
  constructor
  · intro hclean fd elf q hmagic
    have hheld := held_image hbuf hmagic.toHasImage
    have hok : ¬(h q.trace .exofork).ret.slt 0 := by
      intro hbad
      have hsame :=
        congrArg Held.fds (hclean _ _ (spawn_nofork hmagic hbad) hbad)
      rw [held_nofork hbad, hheld] at hsame
      exact List.cons_ne_self _ _ hsame
    refine ⟨hok, fun x t hcount => ?_⟩
    by_contra hbad
    obtain ⟨s, u, hinit, hneg⟩ := initStack_fails hcount hbad
    have howned := @SameOwned.initStack h argv (h q.trace .exofork).ret
      (forked h q)
    rw [hinit] at howned
    have hsame := (congrArg Prod.fst howned).symm.trans (congrArg Held.fds
      (hclean _ _ (spawn_badStack hmagic hok hinit hneg) hneg))
    change (held (forked h q).trace).fds = _ at hsame
    rw [held_fork hok, hheld] at hsame
    exact List.cons_ne_self _ _ hsame
  · intro hworks r t hret hneg
    refine Prog.wp.ret (Q := fun r t => r.slt 0 → SameHeld p t)
      (A := fun _ => True) (E := fun _ _ => True) ?_ hret hneg
    clear hret hneg
    apply Prog.wp_bind_intro
    refine wp_call ?_
    refine Prog.wp_ite _ (fun hbad => Prog.wp_pure_intro fun _ => if_pos hbad)
      fun hopen => ?_
    apply Prog.wp_bind_intro
    refine Prog.wp_of_runs (fun elf q hmmap => ?_) (fun _ _ => trivial)
      fun _ _ _ => trivial
    have himage : HasImage h elfBuf prog p _ elf q := ⟨rfl, hopen, hmmap⟩
    have hheld := held_image hbuf himage
    apply Prog.wp_ask_bind
    refine Prog.wp_ite _ (fun _ => Prog.wp_halt_intro trivial) fun helf => ?_
    refine Prog.wp_ite _ (fun _ => ?_) fun hmagic => ?_
    · apply Prog.wp_bind_intro
      refine wp_call (Prog.wp_pure_intro fun _ => ?_)
      show Held.after (held q.trace) _ _ = _
      rw [hheld, after_close]
    · obtain ⟨hok, hstack⟩ := hworks _ elf q ⟨himage, helf, not_not.mp hmagic⟩
      apply Prog.wp_bind_intro
      refine wp_call ?_
      refine Prog.wp_ite _ (fun hbad => absurd hbad hok) fun _ => ?_
      have hforked := held_fork hok
      rw [hheld] at hforked
      apply Prog.wp_ask_bind
      apply Prog.wp_bind_intro
      apply Prog.wp_bind_intro
      change Prog.wp (countArgs argv NARGS 0 0) _ _ _ (forked h q)
      refine Prog.wp_of_runs (fun x t hcount => ?_) (fun _ _ => trivial)
        fun _ _ _ => trivial
      have htrace : SameTrace (forked h q) t := by
        have hkeeps := SameTrace.frame.countArgs argv NARGS 0 0 (forked h q)
        rwa [hcount] at hkeeps
      have ht : held t.trace = _ := (congrArg held htrace).trans hforked
      have hmake := wp_makeStack_held (hfork q.trace)
        (by rw [ht]; exact hutemp) (hstack x t hcount)
      refine Prog.wp_imp hmake (fun s u hu => ?_) (fun _ h => h) fun _ _ h => h
      refine Prog.wp_ite _ (fun hbad => absurd hbad hu.1) fun _ => ?_
      exact wp_loadChild_held (hfork q.trace) hok hutemp (Eq.trans hu.2 ht)

end

/-- The head of a file with one program header, at `phoff`. -/
def elfHead (phoff : Word) : Bytes :=
  Bytes.store32 (Bytes.store32 (Bytes.store32 (fun _ => 0) 0 ELF_MAGIC) 28
    phoff) 44 1

/-- That of a file with a segment of one byte, which is not in the file. -/
def segmentHead : Bytes := ((elfHead 52).store32 52 ELF_PROG_LOAD).store32 72 1

/-- A file that is there, and no environment for it. -/
def noEnv : Host := fun _ c =>
  match c with
  | .exofork => ⟨-5, fun _ => 0, 0⟩
  | .read _ _ n => ⟨n, segmentHead, 0⟩
  | .pageref _ => ⟨1, fun _ => 0, 0⟩
  | _ => ⟨0, fun _ => 0, 0⟩

/-- A file and an environment for it, which can have its stack and nothing
else. -/
def noRoom : Host := fun _ c =>
  match c with
  | .exofork => ⟨0x1001, fun _ => 0, 0⟩
  | .read _ _ n => ⟨n, segmentHead, 0⟩
  | .pageref _ => ⟨1, fun _ => 0, 0⟩
  | .pageAlloc env _ _ => ⟨if env = 0 then 0 else -4, fun _ => 0, 0⟩
  | _ => ⟨0, fun _ => 0, 0⟩

theorem failsClean_noRoom :
    (∃ t, spawn noRoom 0xEEBFD000#32 0 0 unmapped = .ret (-4) t) ∧
    FailsClean noRoom 0xEEBFD000#32 0 0 unmapped := by
  have hspawn : (spawn noRoom 0xEEBFD000#32 0 0 unmapped).returned.map
      Prod.fst = some (-4) := by
    decide +kernel
  have hcount : ((mmap noRoom 0xEEBFD000#32 512 PROT_READ MAP_SHARED 0 0
      (unmapped.asked (.open 0 O_RDONLY)
        (noRoom unmapped.trace (.open 0 O_RDONLY)))).returned.all
        fun x => decide
          (((countArgs 0 NARGS 0 0 (forked noRoom x.2)).returned.map Prod.fst) =
            some (0, 0))) =
      true := by decide +kernel
  constructor
  · obtain ⟨⟨r, t⟩, hret, rfl⟩ := Option.map_eq_some_iff.mp hspawn
    exact ⟨t, Outcome.returned_eq_some.mp hret⟩
  · refine (failsClean_iff (fun _ => (by decide : (0x1001 : Word) ≠ 0))
      ⟨by decide, by decide⟩ rfl).mpr
      fun fd elf q hmagic =>
      ⟨(by decide : ¬(0x1001 : Word).slt 0), fun x t hx => ?_⟩
    obtain ⟨rfl, -, hmmap⟩ := hmagic.toHasImage
    change mmap _ _ _ _ _ 0 _ _ = _ at hmmap
    rw [hmmap] at hcount
    have hnone : ((countArgs 0 NARGS 0 0 (forked noRoom q)).returned.map
        Prod.fst) = some (0, 0) :=
      of_decide_eq_true hcount
    rw [hx] at hnone
    obtain rfl : x = (0, 0) := Option.some.inj hnone
    exact ⟨by decide, (by decide : ¬(0 : Word).slt 0), fun _ _ _ _ _ _ =>
      ⟨(by decide : ¬(0 : Word).slt 0), (by decide : ¬(0 : Word).slt 0)⟩⟩

/-- Without a free environment the file stays open. -/
theorem spawn_leaves_file : ¬FailsClean noEnv 0xEEBFD000#32 0 0 unmapped := by
  intro hclean
  have hrun : ((spawn noEnv 0xEEBFD000#32 0 0 unmapped).returned.any fun x =>
      decide (x.1 = -5 ∧ held x.2.trace = ⟨[0], [], false⟩)) = true := by
    decide +kernel
  obtain ⟨⟨r, t⟩, hret, hrun⟩ := (Option.any_eq_true _ _).mp hrun
  obtain ⟨rfl, hheld⟩ := of_decide_eq_true hrun
  rw [Outcome.returned_eq_some] at hret
  exact absurd (hheld.symm.trans (hclean (-5) t hret (by decide))) (by decide)

end Spawn

end Jos
