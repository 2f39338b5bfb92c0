import Jos.User.Leftover

/-!
# Which program headers `spawn` looks at

`spawn` has the first 512 bytes of the file in `elf_buf` and looks for the
program headers `e_phoff` bytes behind its start, `e_phnum` of them. Neither
field is compared with the size of the array.
-/

namespace Jos

namespace Spawn

open Mmap

/-- A program header at `va` lies in `elf_buf`. -/
def InBuf (elfBuf va : Word) : Prop :=
  elfBuf.toNat ≤ va.toNat ∧ va.toNat + 32 ≤ elfBuf.toNat + 512

/-- The program headers of the file lie in its first 512 bytes. -/
def Inside (p : Proc) (elf : Word) : Prop :=
  (p.word (elf + 28)).toNat + 32 * phnum p elf ≤ 512

/-- Something has been mapped in another environment. -/
def MapsChild (x : Call × Answer) : Prop :=
  match x.1 with
  | .pageAlloc env _ _ | .pageMap _ _ env _ _ => env ≠ 0 ∧ ¬x.2.ret.slt 0
  | _ => False

/-- From `p` to `t` nothing has been mapped in a child. -/
def NoChild : Proc → Proc → Prop := Prog.Added Proc.trace fun x => ¬MapsChild x

/-- From `p` to `t` only headers in `elf_buf` have been looked at. -/
def LooksInside (elfBuf : Word) : Proc → Proc → Prop :=
  Prog.Added Proc.headers (InBuf elfBuf)

/-- `spawn` fails and has mapped nothing in a child. -/
def Rejects (h : Host) (elfBuf prog argv : Word) (p : Proc) : Prop :=
  ∃ r t, spawn h elfBuf prog argv p = .ret r t ∧ r.slt 0 ∧ NoChild p t

/-- `spawn` looks at headers that it has, and rejects a file with others. -/
structure HeadersOk (h : Host) (elfBuf prog argv : Word) (p : Proc) : Prop where
  inside : LooksInside elfBuf p (spawn h elfBuf prog argv p).state
  rejects : ∀ fd elf q, HasMagic h elfBuf prog p fd elf q → ¬Inside q elf →
    Rejects h elfBuf prog argv p

/-- There is no environment for a child, or `init_stack` fails and has mapped
nothing there. -/
def NotStarted (h : Host) (argv : Word) (q : Proc) : Prop :=
  (h q.trace .exofork).ret.slt 0 ∨ ∃ s t,
    initStack h (h q.trace .exofork).ret argv (forked h q) = .ret s t ∧
    s.ret.slt 0 ∧ NoChild (forked h q) t

/-- The program headers lie in the first 512 bytes, or it does not come to the
headers for another reason. Should the arguments have been copied over the head
of the file, what counts is what is there then. -/
structure HeadersFit (h : Host) (elfBuf prog argv : Word) (p : Proc) :
    Prop where
  file : ∀ fd elf q, HasMagic h elfBuf prog p fd elf q → Inside q elf ∨
    NotStarted h argv q
  copied : ∀ fd elf q child esp u,
    HasStack h elfBuf prog argv p fd elf q child esp u →
    u.word (elf + 28) ≠ q.word (elf + 28) ∨ phnum u elf ≠ phnum q elf →
      LooksInside elfBuf u (mapSegments h elf child fd NHDRS 0
        (elfBuf + u.word (elf + 28)) u).state

section

variable {h : Host} {p q t u : Proc}
  {elfBuf prog argv elf child fd ph va memsz filesz off perm i esp : Word}
  {n k : Nat}

/-! ## Frames -/

theorem NoChild.asked {c : Call} {a : Answer} (hx : ¬MapsChild (c, a)) :
    NoChild p (p.asked c a) :=
  .cons rfl hx

theorem NoChild.frame : CallFrame h (fun _ => True) NoChild where
  toFrame := Prog.Added.frame
  call c p hc := .asked (by cases c <;> first | exact hc.elim | exact id)
  alloc va perm p _ := .asked fun hx => hx.1 rfl
  mem _ _ _ _ _ _ := .of_same rfl

/-- The same headers have been looked at. -/
def SameHeaders : Proc → Proc → Prop := Prog.Same Proc.headers

theorem SameHeaders.frame : ProcFrame h SameHeaders :=
  ⟨Prog.Same.frame, fun _ _ => rfl, fun _ _ _ => rfl⟩

/-- There have been more calls. -/
def Grows : Proc → Proc → Prop := Prog.Added Proc.trace fun _ => True

theorem Grows.frame : ProcFrame h Grows :=
  ⟨Prog.Added.frame, fun _ _ => .cons rfl trivial, fun _ _ _ => .of_same rfl⟩

/-- A segment is mapped with calls and stores. -/
theorem ProcFrame.mapSegment {R : Proc → Proc → Prop} (hR : ProcFrame h R)
    (hmaps : ∀ p m, R p { p with maps := m })
    (child va memsz fd filesz off perm : Word) :
    Prog.Keeps R (mapSegment h child va memsz fd filesz off perm) := by
  have hpage : ∀ va filesz off i,
      Prog.Keeps R (mapPage h child va fd filesz off perm i) := by
    intro va filesz off i
    refine .ite (hR.allocPage _ _ _)
      (.bind hR.trans (hR.allocPage _ _ _) fun _ => .ite (.pure hR.refl _) ?_)
    refine .bind hR.trans (hR.mmap hmaps _ _ _ _ _ _) fun _ =>
      .ite (.halt hR.refl _) ?_
    exact .bind hR.trans (hR.asks _) fun _ =>
      .bind hR.trans (hR.panicOn _ _) fun _ =>
      .bind hR.trans (hR.asks _) fun _ => .pure hR.refl _
  have hloop : ∀ va memsz filesz off n i,
      Prog.Keeps R (mapLoop h child va memsz fd filesz off perm n i) := by
    intro va memsz filesz off n
    induction n with
    | zero => exact fun _ => hR.refl
    | succ n ih =>
        exact fun i => .ite (.bind hR.trans (hpage _ _ _ _) fun _ =>
          .ite (.pure hR.refl _) (ih _)) (.pure hR.refl _)
  exact hloop _ _ _ _ _ _

/-- Memory above the page at `UTEMP` is as it was. -/
def AboveSame (p t : Proc) : Prop :=
  ∀ a : Word, UTEMP.toNat + PGSIZE ≤ a.toNat → t.mem a = p.mem a

theorem AboveSame.refl (p : Proc) : AboveSame p p := fun _ _ => rfl

theorem AboveSame.trans (p q t : Proc) (hpq : AboveSame p q)
    (hqt : AboveSame q t) : AboveSame p t :=
  fun a ha => (hqt a ha).trans (hpq a ha)

theorem AboveSame.frame : CallFrame h (· = UTEMP) AboveSame where
  refl := .refl
  trans := .trans
  call _ _ _ := .refl _
  alloc _ _ _ _ := .refl _
  mem p va n data hva hn a ha := by
    obtain rfl := hva
    refine if_neg fun hlt => ?_
    rw [BitVec.toNat_sub_of_le (BitVec.le_def.mpr (by omega))] at hlt
    omega

theorem AboveSame.mapSegment (hchild : child ≠ 0)
    (va memsz filesz off perm : Word) :
    Prog.Keeps AboveSame (mapSegment h child va memsz fd filesz off perm) := by
  have hcall : ∀ c, Prog.Keeps AboveSame (call h c) := fun c p => .refl p
  have halloc : ∀ va, Prog.Keeps AboveSame (allocPage h child va perm) := by
    intro va
    refine .bind .trans (hcall _) fun a => ?_
    rw [if_neg fun hcond => hchild hcond.2]
    exact .pure .refl _
  have hpanic : ∀ r msg, Prog.Keeps AboveSame (panicOn r msg) :=
    fun _ _ => .ite (.halt .refl _) (.pure .refl _)
  have hpage : ∀ va filesz off i,
      Prog.Keeps AboveSame (mapPage h child va fd filesz off perm i) := by
    intro va filesz off i
    by_cases hfile : filesz ≤ i
    · rw [mapPage, if_pos hfile]
      exact halloc _
    · have hlen : filesz - i ≠ 0 :=
        fun hz => hfile (BitVec.le_of_eq (sub_eq_zero.mp hz))
      obtain ⟨hmin, hle⟩ := minWord_PGSZ hlen
      rw [mapPage, if_neg hfile]
      refine .bind .trans (AboveSame.frame.allocPage rfl _) fun _ =>
        .ite (.pure .refl _) ?_
      refine .bind .trans (AboveSame.frame.mmapPage (fun _ _ => .refl _)
        (by decide) rfl hle _ _ _ _)
        fun _ => .ite (.halt .refl _) ?_
      exact .bind .trans (hcall _) fun _ => .bind .trans (hpanic _ _) fun _ =>
        .bind .trans (hcall _) fun _ => .pure .refl _
  have hloop : ∀ va memsz filesz off n i, Prog.Keeps AboveSame
      (mapLoop h child va memsz fd filesz off perm n i) := by
    intro va memsz filesz off n
    induction n with
    | zero => exact fun _ => .refl
    | succ n ih => exact fun i => .ite (.bind .trans (hpage _ _ _ _) fun _ =>
        .ite (.pure .refl _) (ih _)) (.pure .refl _)
  exact hloop _ _ _ _ _ _

/-! ## The loop over the headers -/

theorem LooksInside.same (hp : LooksInside elfBuf p q) (hs : SameHeaders q t) :
    LooksInside elfBuf p t :=
  hp.trans _ _ _ (.of_same hs)

theorem LooksInside.trans (hpq : LooksInside elfBuf p q)
    (hqt : LooksInside elfBuf q t) :
    LooksInside elfBuf p t := Prog.Added.trans _ _ _ hpq hqt

theorem above_buf (hbuf : BufOnStack elfBuf) (hs : AboveSame p t) {n : Nat}
    (hn : n < 512) :
    t.mem (elfBuf + BitVec.ofNat 32 n) =
      p.mem (elfBuf + BitVec.ofNat 32 n) := by
  have habove := hbuf.above
  have hbelow := hbuf.below
  have hlt : USTACKTOP.toNat < 2 ^ 32 := USTACKTOP.isLt
  refine hs _ ?_
  rw [BitVec.toNat_add, BitVec.toNat_ofNat]
  omega

/-- The number of headers is read again each time, from memory that does not
change. -/
theorem phnum_above (hbuf : BufOnStack elfBuf) (hs : AboveSame p t) :
    phnum t elfBuf = phnum p elfBuf := by
  have h44 := above_buf hbuf hs (show 44 < 512 by decide)
  have h45 := above_buf hbuf hs (show 45 < 512 by decide)
  have h45' : elfBuf + 44 + 1 = elfBuf + BitVec.ofNat 32 45 := add_assoc _ _ _
  unfold phnum Proc.half
  rw [h45', h45, show elfBuf + 44 = elfBuf + BitVec.ofNat 32 44 from rfl, h44]

/-- So is the place where they start. -/
theorem phoff_above (hbuf : BufOnStack elfBuf) (hs : AboveSame p t) :
    t.word (elfBuf + 28) = p.word (elfBuf + 28) := by
  refine Bytes.load32_congr fun j _ hj => ?_
  have hadd : elfBuf + 28 + BitVec.ofNat 32 j =
      elfBuf + BitVec.ofNat 32 (28 + j) := by
    rw [BitVec.ofNat_add, ← add_assoc]
    rfl
  rw [bytesAt, bytesAt, hadd]
  exact above_buf hbuf hs (by omega)

theorem mapSegments_inside {N : Nat} {phoff : Word} (hchild : child ≠ 0)
    (hbuf : BufOnStack elfBuf)
    (hin : phoff.toNat + 32 * N ≤ 512) (hN : phnum p elfBuf = N)
    (hph : ph = elfBuf + phoff + 32 * BitVec.ofNat 32 k) :
    LooksInside elfBuf p (mapSegments h elfBuf child fd n k ph p).state := by
  refine Prog.wp.state ?_
  induction n generalizing p k ph with
  | zero => exact Prog.wp_pure_intro (.refl p)
  | succ n ih =>
      apply Prog.wp_ask_bind
      refine Prog.wp_ite _ (fun hk => ?_) fun _ => Prog.wp_pure_intro (.refl p)
      rw [hN] at hk
      have hlook :
          LooksInside elfBuf p { p with headers := ph :: p.headers } := by
        refine ⟨[ph], rfl, fun va hva => ?_⟩
        have habove := hbuf.above
        have hbelow := hbuf.below
        have hlt : USTACKTOP.toNat < 2 ^ 32 := USTACKTOP.isLt
        rw [List.mem_singleton.mp hva, InBuf, hph, BitVec.toNat_add,
          BitVec.toNat_add, BitVec.toNat_mul, BitVec.toNat_ofNat,
          show (32 : Word).toNat = 32 from rfl]
        omega
      have hnext : ph + 32 = elfBuf + phoff + 32 * BitVec.ofNat 32 (k + 1) := by
        rw [hph, BitVec.ofNat_add, mul_add, add_assoc]
        rfl
      apply Prog.wp_bind_intro
      refine Prog.wp_ret (b := segmentAt p ph)
        (t := { p with headers := ph :: p.headers }) rfl ?_
      refine Prog.wp_ite _ (fun _ => ?_) fun _ => ?_
      · exact Prog.wp_imp (ih (p := { p with headers := ph :: p.headers }) hN
          hnext) (fun _ _ h => hlook.trans h)
          (fun _ h => hlook.trans h) fun _ _ h => hlook.trans h
      · have hboth := (SameHeaders.frame (h := h)).mapSegment
          (fun _ _ => rfl) child (segmentAt p ph).pVa
          (segmentAt p ph).pMemsz fd (segmentAt p ph).pFilesz
          (segmentAt p ph).pOffset (segmentAt p ph).perm
          { p with headers := ph :: p.headers }
        have hmem := @AboveSame.mapSegment h _ fd hchild (segmentAt p ph).pVa
          (segmentAt p ph).pMemsz (segmentAt p ph).pFilesz
          (segmentAt p ph).pOffset (segmentAt p ph).perm
          { p with headers := ph :: p.headers }
        apply Prog.wp_bind_intro
        refine Prog.wp_of_runs (fun r q hret => ?_) (fun q hret => ?_)
          fun e q hret => ?_ <;> rw [hret] at hboth hmem
        · have hq := hlook.same hboth
          refine Prog.wp_ite _ (fun _ => Prog.wp_pure_intro hq) fun _ => ?_
          exact Prog.wp_imp (ih ((phnum_above hbuf hmem).trans hN) hnext)
            (fun _ _ h => hq.trans h)
            (fun _ h => hq.trans h) fun _ _ h => hq.trans h
        · exact hlook.same hboth
        · exact hlook.same hboth

/-! ## The stack of the child -/

/-- A stack that the child gets is mapped there. -/
theorem initStack_maps {s : Stacked} (hchild : child ≠ 0)
    (hret : initStack h child argv p = .ret s u)
    (hok : ¬s.ret.slt 0) : ∃ added, u.trace = added ++ p.trace ∧ ∃ x ∈ added,
    MapsChild x := by
  have hwp : Prog.wp (initStack h child argv)
      (fun s u => ¬s.ret.slt 0 → ∃ added, u.trace = added ++ p.trace ∧
        ∃ x ∈ added, MapsChild x)
      (fun _ => True) (fun _ _ => True) p := by
    apply Prog.wp_bind_intro
    refine (Grows.frame (h := h)).storeFrame.countArgs _ _ _ _ |>.wp
      (fun x q hq => ?_) (fun _ _ => trivial)
      fun _ _ _ => trivial
    refine Prog.wp_ite _ (fun _ => Prog.wp_pure_intro fun hno =>
      absurd (by decide) hno) fun _ => ?_
    apply Prog.wp_bind_intro
    refine (Grows.frame (h := h)).allocPage _ _ _ |>.wp (fun r q' hq' => ?_)
      (fun _ _ => trivial) fun _ _ _ => trivial
    refine Prog.wp_ite _ (fun hneg => Prog.wp_pure_intro fun hno =>
      absurd hneg hno) fun _ => ?_
    apply Prog.wp_bind_intro
    refine (Grows.frame (h := h)).storeFrame.layOut _ _ _ |>.wp
      (fun esp t ht => ?_) (fun _ _ => trivial)
      fun _ _ _ => trivial
    obtain ⟨l, hl, -⟩ := (hq.trans _ _ _ hq').trans _ _ _ ht
    apply Prog.wp_bind_intro
    refine wp_call ?_
    refine Prog.wp_ite _ (fun hneg => ?_) fun hmap => ?_
    · apply Prog.wp_bind_intro
      exact wp_call (Prog.wp_pure_intro fun hno => absurd hneg hno)
    · have hx : MapsChild (mapStack child, h t.trace (mapStack child)) :=
        ⟨hchild, hmap⟩
      have hdone :
          ∀ v, Grows (t.asked (mapStack child) (h t.trace (mapStack child))) v →
          ∃ added, v.trace = added ++ p.trace ∧ ∃ x ∈ added, MapsChild x := by
        rintro v ⟨l', hl', -⟩
        refine ⟨l' ++ ((mapStack child, h t.trace (mapStack child)) :: l), ?_,
          _,
          List.mem_append_right _ List.mem_cons_self, hx⟩
        rw [hl', Proc.asked_trace, hl, List.append_assoc, List.cons_append]
      have hrest : Prog.Keeps Grows (do
          let b ← call h (.pageUnmap 0 UTEMP)
          if b.ret.slt 0 then
            let _ ← call h (.pageUnmap 0 UTEMP)
            pure ⟨b.ret, esp⟩
          else
            pure ⟨0, esp⟩ : ProcM Stacked) :=
        .bind .trans (Grows.frame.asks _) fun _ =>
          .ite (.bind .trans (Grows.frame.asks _) fun _ => .pure .refl _)
          (.pure .refl _)
      exact hrest.wp (fun _ v hv _ => hdone v hv) (fun _ _ => trivial)
        fun _ _ _ => trivial
  exact hwp.ret hret hok

/-! ## All of `spawn` -/

/-- Up to the head of the file there is no child. -/
theorem noChild_image {fd : Word} (himage : HasImage h elfBuf prog p fd elf q) :
    NoChild p q := by
  obtain ⟨rfl, -, hmmap⟩ := himage
  have hkeeps := (NoChild.frame (h := h)).mmap elfBuf 512
    (fun _ _ => .of_same rfl)
    (fun _ _ _ _ => trivial) PROT_READ MAP_SHARED
    (h p.trace (.open prog O_RDONLY)).ret 0
    (p.asked (.open prog O_RDONLY) (h p.trace (.open prog O_RDONLY)))
  rw [hmmap] at hkeeps
  exact (NoChild.asked id).trans _ _ _ hkeeps

theorem noChild_forked (hmagic : HasMagic h elfBuf prog p fd elf q) :
    NoChild p (forked h q) :=
  (noChild_image hmagic.toHasImage).trans _ _ _ (NoChild.asked id)

/-- The buffer is where the head of the file is mapped. -/
theorem image_at (hbuf : BufOnStack elfBuf)
    (hmagic : HasMagic h elfBuf prog p fd elf q) : elf = elfBuf :=
  (mmap_ret hbuf.ne.1 hmagic.mmap_eq).resolve_right hmagic.readable

/-- Behind the loop no header is looked at. -/
theorem loadChild_headers (elfBuf elf fd child eip esp : Word) (u : Proc) :
    SameHeaders (mapSegments h elf child fd NHDRS 0
      (elfBuf + u.word (elf + 28)) u).state
      (loadChild h elfBuf elf fd child eip esp u).state := by
  rw [loadChild, Prog.ask_bind, Prog.bind_apply]
  cases mapSegments h elf child fd NHDRS 0 (elfBuf + u.word (elf + 28)) u with
  | away t | stop e t => exact .refl t
  | ret r t =>
      have hfail : Prog.Keeps SameHeaders (do
          let _ ← call h (.envDestroy child)
          let _ ← call h (.close fd)
          pure r : ProcM Word) :=
        .bind .trans (SameHeaders.frame.asks _) fun _ =>
          .bind .trans (SameHeaders.frame.asks _) fun _ => .pure .refl _
      have hstart : Prog.Keeps SameHeaders (do
          let _ ← call h (.close fd)
          startChild h child eip esp : ProcM Word) :=
        .bind .trans (SameHeaders.frame.asks _) fun _ =>
          SameHeaders.frame.startChild _ _ _
      exact (Prog.Keeps.ite hfail hstart) t

/-- No header is looked at before the child has its stack. -/
theorem stack_headers
    (hstack : HasStack h elfBuf prog argv p fd elf q child esp u) :
    SameHeaders p u := by
  obtain ⟨⟨⟨-, -, hmmap⟩, -, -⟩, rfl, -, r, hinit, -⟩ := hstack
  have himage := (SameHeaders.frame (h := h)).mmap (fun _ _ => rfl) elfBuf 512
    PROT_READ MAP_SHARED fd 0
    (p.asked (.open prog O_RDONLY) (h p.trace (.open prog O_RDONLY)))
  have hstack := (SameHeaders.frame (h := h)).initStack (h q.trace .exofork).ret
    argv (forked h q)
  rw [hmmap] at himage
  rw [hinit] at hstack
  exact Eq.trans hstack himage

/-- What `spawn` looks at is what the loop looks at. -/
theorem wp_spawn_looks (hloads : ∀ fd elf q child esp u,
      HasStack h elfBuf prog argv p fd elf q child esp u →
      LooksInside elfBuf u (mapSegments h elf child fd NHDRS 0
        (elfBuf + u.word (elf + 28)) u).state) :
    LooksInside elfBuf p (spawn h elfBuf prog argv p).state := by
  have hsame : ∀ {t}, SameHeaders p t → LooksInside elfBuf p t :=
    fun hs => .of_same hs
  refine Prog.wp.state ?_
  apply Prog.wp_bind_intro
  refine wp_call ?_
  refine Prog.wp_ite _ (fun _ => Prog.wp_pure_intro (hsame rfl)) fun hopen => ?_
  have himage := (SameHeaders.frame (h := h)).mmap (fun _ _ => rfl) elfBuf 512
    PROT_READ MAP_SHARED
    (h p.trace (.open prog O_RDONLY)).ret 0
    (p.asked (.open prog O_RDONLY) (h p.trace (.open prog O_RDONLY)))
  apply Prog.wp_bind_intro
  refine Prog.wp_of_runs (fun elf q hmmap => ?_) (fun q hmmap => ?_)
    fun e q hmmap => ?_ <;> rw [hmmap] at himage
  · have hq : SameHeaders p q := himage
    apply Prog.wp_ask_bind
    refine Prog.wp_ite _ (fun _ => Prog.wp_halt_intro (hsame hq)) fun helf => ?_
    refine Prog.wp_ite _ (fun _ => ?_) fun hmagic => ?_
    · apply Prog.wp_bind_intro
      exact wp_call (Prog.wp_pure_intro (hsame hq))
    · apply Prog.wp_bind_intro
      refine wp_call ?_
      refine Prog.wp_ite _ (fun _ => Prog.wp_pure_intro (hsame hq))
        fun hok => ?_
      have hinit := (SameHeaders.frame (h := h)).initStack
        (h q.trace .exofork).ret argv (forked h q)
      apply Prog.wp_ask_bind
      apply Prog.wp_bind_intro
      change Prog.wp (initStack h (h q.trace .exofork).ret argv) _ _ _
        (forked h q)
      refine Prog.wp_of_runs (fun s u hs => ?_) (fun u hs => ?_) fun e u hs =>
        ?_ <;> rw [hs] at hinit
      · have hu : SameHeaders p u := Eq.trans hinit hq
        refine Prog.wp_ite _ (fun _ => Prog.wp_pure_intro (hsame hu))
          fun hr => ?_
        have hlook := hloads _ elf q _ s.esp u ⟨⟨⟨rfl, hopen, hmmap⟩, helf,
          not_not.mp hmagic⟩, rfl, hok, s.ret, hs, hr⟩
        have hstate := loadChild_headers (h := h) elfBuf elf
          (h p.trace (.open prog O_RDONLY)).ret
          (h q.trace .exofork).ret ((forked h q).word (elf + 24)) s.esp u
        have hend := ((hsame hu).trans hlook).same hstate
        refine Prog.wp_of_runs (fun r t hret => ?_) (fun t hret => ?_)
          fun e t hret => ?_ <;>
          exact (congrArg (fun o => LooksInside elfBuf p o.state) hret).mp hend
      · exact hsame (Eq.trans hinit hq)
      · exact hsame (Eq.trans hinit hq)
  · exact hsame himage
  · exact hsame himage

theorem loadChild_grows (elfBuf elf fd child eip esp : Word) :
    Prog.Keeps Grows (loadChild h elfBuf elf fd child eip esp) := by
  have hloop :
      ∀ n k ph, Prog.Keeps Grows (mapSegments h elf child fd n k ph) := by
    intro n
    induction n with
    | zero => exact fun _ _ => .pure .refl _
    | succ n ih =>
        intro k ph
        refine .bind .trans (.ask .refl) fun _ => .ite ?_ (.pure .refl _)
        have hinspect : Prog.Keeps Grows (inspect ph) := fun p => .of_same rfl
        refine .bind .trans hinspect fun s => .ite (ih _ _) ?_
        exact .bind .trans (Grows.frame.mapSegment (fun _ _ => .of_same rfl) _ _
          _ _ _ _ _) fun _ =>
          .ite (.pure .refl _) (ih _ _)
  refine .bind .trans (.ask .refl) fun _ =>
    .bind .trans (hloop _ _ _) fun _ => .ite ?_ ?_
  · exact .bind .trans (Grows.frame.asks _) fun _ =>
      .bind .trans (Grows.frame.asks _) fun _ => .pure .refl _
  · exact .bind .trans (Grows.frame.asks _) fun _ =>
      Grows.frame.startChild _ _ _

/-- A child with a stack has been started. -/
theorem not_notStarted
    (hstack : HasStack h elfBuf prog argv p fd elf q child esp u) :
    ¬NotStarted h argv q := by
  obtain ⟨-, rfl, hok, r, hinit, hr⟩ := hstack
  rintro (hbad | ⟨s, t, hinit', hneg, -⟩)
  · exact hok hbad
  · rw [hinit] at hinit'
    cases hinit'
    exact hr hneg

/-- If `spawn` fails without a mapping in the child, `init_stack` did. -/
theorem notStarted_of_rejects {r : Word} (hfork : ∀ tr, (h tr .exofork).ret ≠ 0)
    (hmagic : HasMagic h elfBuf prog p fd elf q)
    (hok : ¬(h q.trace .exofork).ret.slt 0)
    (hret : spawn h elfBuf prog argv p = .ret r t) (hneg : r.slt 0)
    (hno : NoChild p t) :
    ∃ s u, initStack h (h q.trace .exofork).ret argv (forked h q) = .ret s u ∧
    s.ret.slt 0 ∧ NoChild (forked h q) u := by
  have hgrows : Grows p (forked h q) :=
    (noChild_forked hmagic).imp fun _ _ => trivial
  have hspawn := @spawn_forked _ _ _ argv _ _ _ _ hmagic hok
  have hinit := (Grows.frame (h := h)).initStack (h q.trace .exofork).ret argv
    (forked h q)
  cases hrun : initStack h (h q.trace .exofork).ret argv (forked h q) with
  | away u =>
      rw [makeChild, Prog.ask_bind, Prog.bind_away hrun, hret] at hspawn
      cases hspawn
  | stop e u =>
      rw [makeChild, Prog.ask_bind, Prog.bind_stop hrun, hret] at hspawn
      cases hspawn
  | ret s u =>
      rw [hrun] at hinit
      refine ⟨s, u, rfl, ?_⟩
      by_cases hs : s.ret.slt 0
      · have hbad := spawn_badStack hmagic hok hrun hs
        rw [hret] at hbad
        cases hbad
        exact ⟨hs, hgrows.later hno hinit⟩
      · -- the stack is mapped in the child, and what happens later does not take that back
        obtain ⟨eip, hloads⟩ := @spawn_loads _ _ _ argv _ _ _ _ _ _ _
          ⟨hmagic, rfl, hok, s.ret, hrun, hs⟩
        have hlater := loadChild_grows (h := h) elfBuf elf fd
          (h q.trace .exofork).ret eip s.esp u
        rw [← hloads, hret] at hlater
        obtain ⟨added, hadd, x, hx, hmaps⟩ := initStack_maps (hfork _) hrun hs
        obtain ⟨l, hl, hnone⟩ := hgrows.later hno (hinit.trans _ _ _ hlater)
        obtain ⟨l', hl', -⟩ := hlater
        have heq : l = l' ++ added :=
          List.append_cancel_right (hl.symm.trans (by
          show t.trace = _
          rw [show t.trace = l' ++ u.trace from hl', hadd, List.append_assoc]))
        exact absurd hmaps (hnone x (heq ▸ List.mem_append_right _ hx))

/-- `spawn` keeps to the headers that it has just when they are in the first 512
bytes of the file, or it does not come to them for another reason. -/
theorem headersOk_iff (hfork : ∀ tr, (h tr .exofork).ret ≠ 0)
    (hbuf : BufOnStack elfBuf) :
    HeadersOk h elfBuf prog argv p ↔ HeadersFit h elfBuf prog argv p := by
  constructor
  · rintro ⟨hinside, hrejects⟩
    constructor
    case file =>
      intro fd elf q hmagic
      by_cases hin : Inside q elf
      · exact .inl hin
      · obtain ⟨r, t, hret, hneg, hno⟩ := hrejects fd elf q hmagic hin
        by_cases hbad : (h q.trace .exofork).ret.slt 0
        · exact .inr (.inl hbad)
        · exact .inr
            (.inr (notStarted_of_rejects hfork hmagic hbad hret hneg hno))
    case copied =>
      intro fd elf q child esp u hstack _
      obtain ⟨eip, hloads⟩ := spawn_loads hstack
      rw [hloads] at hinside
      obtain ⟨l, hl, hin⟩ := hinside
      exact ⟨l, (loadChild_headers elfBuf elf fd child eip esp u).symm.trans
        (hl.trans (by rw [stack_headers hstack])), hin⟩
  · rintro ⟨hfile, hcopied⟩
    constructor
    case inside =>
      refine wp_spawn_looks fun fd elf q child esp u hstack => ?_
      by_cases hsame : u.word (elf + 28) = q.word (elf + 28) ∧ phnum u elf =
        phnum q elf
      · obtain rfl := image_at hbuf hstack.toHasMagic
        rcases hfile fd elf q hstack.toHasMagic with hin | hnot
        · rw [Inside, ← hsame.1, ← hsame.2] at hin
          exact mapSegments_inside (by rw [← hstack.child_eq]; exact hfork _)
            hbuf hin rfl (by simp)
        · exact absurd hnot (not_notStarted hstack)
      · exact hcopied fd elf q child esp u hstack (by tauto)
    case rejects =>
      intro fd elf q hmagic hout
      have hq := noChild_forked hmagic
      rcases (hfile fd elf q hmagic).resolve_left hout with
        hbad | ⟨s, t, hinit, hneg, hno⟩
      · exact ⟨_, _, spawn_nofork hmagic hbad, hbad, hq⟩
      · by_cases hbad : (h q.trace .exofork).ret.slt 0
        · exact ⟨_, _, spawn_nofork hmagic hbad, hbad, hq⟩
        · exact ⟨_, _, spawn_badStack hmagic hbad hinit hneg, hneg,
            hq.trans _ _ _ hno⟩

end

/-- A file that starts with `head`, and a kernel that does all it is asked
for. -/
def fileHost (head : Bytes) : Host := fun _ c =>
  match c with
  | .exofork => ⟨0x1001#32, fun _ => 0, 0⟩
  | .read _ _ n => ⟨n, head, 0⟩
  | .pageref _ => ⟨1, fun _ => 0, 0⟩
  | _ => ⟨0, fun _ => 0, 0⟩

/-- `spawn` maps the head of the file over `elf_buf`. -/
def imageOf (head : Bytes) : Outcome Proc UserStop Word :=
  mmap (fileHost head) 0xEEBFD000#32 512 PROT_READ MAP_SHARED 0 0
    (unmapped.asked (.open 0 O_RDONLY)
    (fileHost head unmapped.trace (.open 0 O_RDONLY)))

theorem headersOk_inside :
    HeadersOk (fileHost (elfHead 52#32)) 0xEEBFD000#32 0 0 unmapped := by
  have hrun : ((imageOf (elfHead 52#32)).returned.all fun x =>
        decide ((x.2.word (x.1 + 28)).toNat + 32 * phnum x.2 x.1 ≤ 512) &&
          (initStack (fileHost (elfHead 52#32)) 0x1001#32 0
            (forked (fileHost (elfHead 52#32)) x.2)).returned.all fun y =>
              decide (y.2.word (x.1 + 28) = x.2.word (x.1 + 28) ∧
                phnum y.2 x.1 = phnum x.2 x.1)) = true := by
    decide +kernel
  refine (headersOk_iff (fun _ => (by decide : 0x1001#32 ≠ 0))
    ⟨by decide, by decide⟩).mpr ⟨?_, ?_⟩
  · rintro fd elf q ⟨⟨rfl, -, hmmap⟩, -, -⟩
    change imageOf (elfHead 52#32) = _ at hmmap
    rw [hmmap] at hrun
    have hin : (q.word (elf + 28)).toNat + 32 * phnum q elf ≤ 512 :=
      of_decide_eq_true (Bool.and_eq_true_iff.mp hrun).1
    exact .inl hin
  · rintro fd elf q child esp u ⟨⟨⟨rfl, -, hmmap⟩, -, -⟩, rfl, -, r, hinit,
      -⟩ hchanged
    change imageOf (elfHead 52#32) = _ at hmmap
    change initStack _ 0x1001#32 _ _ = _ at hinit
    rw [hmmap] at hrun
    have hsame := (Bool.and_eq_true_iff.mp hrun).2
    rw [hinit] at hsame
    obtain ⟨hword, hnum⟩ := of_decide_eq_true hsame
    exact absurd hchanged (not_or.mpr ⟨not_not.mpr hword, not_not.mpr hnum⟩)

/-- A program header far behind the head of the file is looked at. -/
theorem spawn_looks_outside :
    ¬HeadersOk (fileHost (elfHead 0x10000#32)) 0xEEBFD000#32 0 0 unmapped := by
  rintro ⟨-, hrejects⟩
  have himage : ((imageOf (elfHead 0x10000#32)).returned.any fun x =>
      decide (x.1 = 0xEEBFD000#32 ∧ x.2.word x.1 = ELF_MAGIC ∧
        ¬(x.2.word (x.1 + 28)).toNat + 32 * phnum x.2 x.1 ≤ 512)) = true := by
    decide +kernel
  obtain ⟨⟨elf, q⟩, hmmap, hq⟩ := (Option.any_eq_true _ _).mp himage
  obtain ⟨rfl, hword, hout⟩ := of_decide_eq_true hq
  have hmagic : HasMagic (fileHost (elfHead 0x10000#32)) 0xEEBFD000#32 0
      unmapped 0 0xEEBFD000#32 q :=
    ⟨⟨rfl, (by decide : ¬(0 : Word).slt 0), Outcome.returned_eq_some.mp hmmap⟩,
      by decide, hword⟩
  obtain ⟨r, t, hret, hneg, -⟩ := hrejects _ _ q hmagic hout
  have hrun : (spawn (fileHost (elfHead 0x10000#32)) 0xEEBFD000#32 0 0
      unmapped).returned.map Prod.fst =
      some 0x1001#32 := by decide +kernel
  rw [hret] at hrun
  have hr : r = 0x1001#32 := Option.some.inj hrun
  rw [hr] at hneg
  exact absurd hneg (by decide)

end Spawn

end Jos
