import Jos.User.Load
import Jos.User.Mmap

/-!
# Starting a program

lib/spawn.c: `spawn` maps the head of the program's file, makes a child with a
stack that holds the arguments, and maps the segments of the file into it.
`elfBuf` is the array `elf_buf` on the stack.
-/

namespace Jos

def E_NOT_EXEC : Word := 14#32
def ELF_PROG_FLAG_WRITE : Word := 2#32

namespace Spawn

/-! ## Strings -/

/-- `strlen(s)`, with `n` bytes counted. Only 2 ^ 32 bytes can be told apart; if
none of them is 0 the loop never ends. -/
def strlenLoop : Nat → Word → Word → ProcM Word
  | 0, _, _ => Prog.leave
  | k + 1, s, n => do
      let p ← Prog.ask
      if p.mem s ≠ 0 then
        strlenLoop k (s + 1) (n + 1)
      else
        pure n

def strlen (s : Word) : ProcM Word := strlenLoop (2 ^ 32) s 0

def strcpyLoop : Nat → Word → Word → ProcM Unit
  | 0, _, _ => Prog.leave
  | k + 1, dst, src => do
      let p ← Prog.ask
      storeByte dst (p.mem src)
      if p.mem src ≠ 0 then
        strcpyLoop k (dst + 1) (src + 1)

def strcpy (dst src : Word) : ProcM Unit := strcpyLoop (2 ^ 32) dst src

/-! ## `init_stack` -/

/-- `UTEMP2USTACK(addr)`. -/
def utemp2ustack (addr : Word) : Word := addr + (USTACKTOP - PGSZ) - UTEMP

/-- The address of entry `i` of an array of words. -/
def entry (a : Word) (i : Nat) : Word := a + 4 * BitVec.ofNat 32 i

/-- Count the arguments from `argv[argc]` on, and the bytes of the strings. -/
def countArgs (argv : Word) : Nat → Nat → Word → ProcM (Nat × Word)
  | 0, _, _ => Prog.leave
  | k + 1, argc, size => do
      let p ← Prog.ask
      if p.word (entry argv argc) ≠ 0 then
        let len ← strlen (p.word (entry argv argc))
        countArgs argv k (argc + 1) (size + len + 1)
      else
        pure (argc, size)

/-- Copy the arguments from `argv[i]` on, `k` of them; the place behind the last
string. -/
def copyArgs (argv argvStore : Word) : Nat → Nat → Word → ProcM Word
  | 0, _, str => pure str
  | k + 1, i, str => do
      storeWord (entry argvStore i) (utemp2ustack str)
      let p ← Prog.ask
      strcpy str (p.word (entry argv i))
      let p ← Prog.ask
      let len ← strlen (p.word (entry argv i))
      copyArgs argv argvStore k (i + 1) (str + len + 1)

/-- `string_store`, for strings of `size` bytes. -/
def stringStore (size : Word) : Word := UTEMP + PGSZ - size

/-- `argv_store`: the array ends at the word below the strings. -/
def argvStore (argc : Nat) (size : Word) : Word :=
  (stringStore size - stringStore size % 4) - 4 * BitVec.ofNat 32 (argc + 1)

/-- Lay the arguments out at `UTEMP`; the stack pointer of the child. -/
def layOut (argv : Word) (argc : Nat) (size : Word) : ProcM Word := do
  let store := argvStore argc size
  let str ← copyArgs argv store argc 0 (stringStore size)
  storeWord (entry store argc) 0
  if str ≠ UTEMP + PGSZ then
    Prog.halt (.panic "assertion failed: %s" [])
  else
    storeWord (store - 4) (utemp2ustack store)
    storeWord (store - 8) (BitVec.ofNat 32 argc)
    pure (utemp2ustack (store - 8))

/-- What `init_stack` returns, and the stack pointer, which is set only behind
the page allocation. -/
structure Stacked where
  ret : Word
  esp : Word

/-- The call that gives the page at `UTEMP` to the child as its stack. -/
def mapStack (child : Word) : Call :=
  .pageMap 0 UTEMP child (USTACKTOP - PGSZ) (PTE_P ||| PTE_U ||| PTE_W)

/-- Hand the page at `UTEMP` to the child. -/
def handStack (h : Host) (child esp : Word) : ProcM Stacked := do
  let a ← call h (mapStack child)
  if a.ret.slt 0 then
    let _ ← call h (.pageUnmap 0 UTEMP)
    pure ⟨a.ret, esp⟩
  else
    let b ← call h (.pageUnmap 0 UTEMP)
    if b.ret.slt 0 then
      let _ ← call h (.pageUnmap 0 UTEMP)
      pure ⟨b.ret, esp⟩
    else
      pure ⟨0, esp⟩

/-- Make the stack once the arguments have been counted. -/
def makeStack (h : Host) (child argv : Word) (argc : Nat) (size : Word) :
    ProcM Stacked := do
  if argvStore argc size - 8 < UTEMP then
    pure ⟨-E_NO_MEM, 0⟩
  else
    let r ← allocPage h 0 UTEMP (PTE_P ||| PTE_U ||| PTE_W)
    if r.slt 0 then
      pure ⟨r, 0⟩
    else
      let esp ← layOut argv argc size
      handStack h child esp

/-- An array of words has 2 ^ 30 entries before it comes round. -/
def NARGS : Nat := 2 ^ 30

def initStack (h : Host) (child argv : Word) : ProcM Stacked := do
  let x ← countArgs argv NARGS 0 0
  makeStack h child argv x.1 x.2

/-! ## `map_segment` -/

/-- What a segment needs of a file. -/
structure Segment extends Proghdr where
  pFlags : Word

/-- The page at `va`, from offset `i` of the segment: an error, or 0. -/
def mapPage (h : Host) (child va fd filesz fileoffset perm i : Word) :
    ProcM Word := do
  if filesz ≤ i then
    allocPage h child (va + i) perm
  else
    let r ← allocPage h 0 UTEMP (PTE_P ||| PTE_U ||| PTE_W)
    if r.slt 0 then
      pure r
    else
      let m ← Mmap.mmap h UTEMP (minWord PGSZ (filesz - i)) PROT_READ MAP_SHARED
          fd (fileoffset + i)
      if m = MAP_FAILED then
        Prog.halt (.panic "lib/spawn.c/map_segment(): mmap: %e" [E_INVAL])
      else
        let a ← call h (.pageMap 0 UTEMP child (va + i) perm)
        panicOn a.ret "spawn: sys_page_map data: %e"
        let _ ← call h (.pageUnmap 0 UTEMP)
        pure 0

/-- The pages from offset `i` on. The offset has come round when there are no
turns left. -/
def mapLoop (h : Host) (child va memsz fd filesz fileoffset perm : Word) :
    Nat → Word → ProcM Word
  | 0, _ => Prog.leave
  | n + 1, i => do
      if i < memsz then
        let r ← mapPage h child va fd filesz fileoffset perm i
        if r.slt 0 then
          pure r
        else
          mapLoop h child va memsz fd filesz fileoffset perm n (i + PGSZ)
      else
        pure 0

/-- `PGOFF(va)`. -/
def pgoff (va : Word) : Word := va &&& 0xFFF

def mapSegment (h : Host) (child va memsz fd filesz fileoffset perm : Word) :
    ProcM Word :=
  let i := pgoff va
  mapLoop h child (va - i) (memsz + i) fd (filesz + i)
  (fileoffset - i) perm Mmap.NPAGES 0

/-! ## `spawn` -/

/-- The program header at `va`. -/
def segmentAt (p : Proc) (va : Word) : Segment where
  pType := p.word va
  pOffset := p.word (va + 4)
  pVa := p.word (va + 8)
  pFilesz := p.word (va + 16)
  pMemsz := p.word (va + 20)
  pFlags := p.word (va + 24)

/-- Look at the program header at `va`. -/
def inspect (va : Word) : ProcM Segment := do
  Prog.update fun p => { p with headers := va :: p.headers }
  let p ← Prog.ask
  pure (segmentAt p va)

/-- The permissions of the pages of a segment. -/
def Segment.perm (s : Segment) : Word :=
  if s.pFlags &&& ELF_PROG_FLAG_WRITE ≠ 0 then PTE_P ||| PTE_U ||| PTE_W else
    PTE_P ||| PTE_U

/-- `elf->e_phnum`. -/
def phnum (p : Proc) (elf : Word) : Nat := (p.half (elf + 44)).toNat

/-- `e_phnum` has 16 bits. -/
def NHDRS : Nat := 2 ^ 16

/-- Map the segments from header `i`, at `ph`, on: an error, or 0. -/
def mapSegments (h : Host) (elf child fd : Word) : Nat → Nat → Word → ProcM Word
  | 0, _, _ => pure 0
  | n + 1, i, ph => do
      let p ← Prog.ask
      if i < phnum p elf then
        let s ← inspect ph
        if s.pType ≠ ELF_PROG_LOAD then
          mapSegments h elf child fd n (i + 1) (ph + 32)
        else
          let r ← mapSegment h child s.pVa s.pMemsz fd s.pFilesz
              s.pOffset s.perm
          if r.slt 0 then
            pure r
          else
            mapSegments h elf child fd n (i + 1) (ph + 32)
      else
        pure 0

/-- The part of `spawn` that has mapped everything. -/
def startChild (h : Host) (child eip esp : Word) : ProcM Word := do
  let a ← call h (.envSetTrapframe child eip esp)
  panicOn a.ret "sys_env_set_trapframe: %e"
  let b ← call h (.envSetStatus child ENV_RUNNABLE)
  panicOn b.ret "sys_env_set_status: %e"
  pure child

/-- The part of `spawn` with a child that has a stack. -/
def loadChild (h : Host) (elfBuf elf fd child eip esp : Word) : ProcM Word := do
  let p ← Prog.ask
  let r ← mapSegments h elf child fd NHDRS 0 (elfBuf + p.word (elf + 28))
  if r.slt 0 then
    let _ ← call h (.envDestroy child)
    let _ ← call h (.close fd)
    pure r
  else
    let _ ← call h (.close fd)
    startChild h child eip esp

/-- The part of `spawn` with a child. -/
def makeChild (h : Host) (elfBuf elf argv fd child : Word) : ProcM Word := do
  let p ← Prog.ask
  let s ← initStack h child argv
  if s.ret.slt 0 then
    pure s.ret
  else
    loadChild h elfBuf elf fd child (p.word (elf + 24)) s.esp

/-- The part of `spawn` with the head of the file. `MAP_FAILED` is no address
that can be read. -/
def spawnImage (h : Host) (elfBuf elf argv fd : Word) : ProcM Word := do
  let p ← Prog.ask
  if elf = MAP_FAILED then
    Prog.halt (.fault elf false)
  else if p.word elf ≠ ELF_MAGIC then
    let _ ← call h (.close fd)
    pure (-E_NOT_EXEC)
  else
    let c ← call h .exofork
    if c.ret.slt 0 then
      pure c.ret
    else
      makeChild h elfBuf elf argv fd c.ret

def spawn (h : Host) (elfBuf prog argv : Word) : ProcM Word := do
  let a ← call h (.open prog O_RDONLY)
  if a.ret.slt 0 then
    pure a.ret
  else
    let elf ← Mmap.mmap h elfBuf 512 PROT_READ MAP_SHARED a.ret 0
    spawnImage h elfBuf elf argv a.ret

/-! ## How far `spawn` gets -/

/-- `elf_buf` lies on the stack. -/
structure BufOnStack (elfBuf : Word) : Prop where
  above : UTEMP.toNat + PGSIZE ≤ elfBuf.toNat
  below : elfBuf.toNat + 512 ≤ USTACKTOP.toNat

theorem BufOnStack.ne {elfBuf : Word} (hbuf : BufOnStack elfBuf) :
    elfBuf ≠ 0 ∧ elfBuf ≠ UTEMP := by
  constructor <;> rintro rfl <;> exact absurd hbuf.above (by decide)

/-- `spawn` has the head of the file, at `elf`, and descriptor `fd`. -/
structure HasImage (h : Host) (elfBuf prog : Word) (p : Proc) (fd elf : Word)
    (q : Proc) : Prop where
  open_eq : (h p.trace (.open prog O_RDONLY)).ret = fd
  opened : ¬fd.slt 0
  mmap_eq : Mmap.mmap h elfBuf 512 PROT_READ MAP_SHARED fd 0
    (p.asked (.open prog O_RDONLY)
    (h p.trace (.open prog O_RDONLY))) = .ret elf q

/-- The head can be read, and has the magic number. -/
structure HasMagic (h : Host) (elfBuf prog : Word) (p : Proc) (fd elf : Word)
    (q : Proc) : Prop
    extends HasImage h elfBuf prog p fd elf q where
  readable : elf ≠ MAP_FAILED
  magic : q.word elf = ELF_MAGIC

/-- The process after `sys_exofork`. -/
def forked (h : Host) (q : Proc) : Proc := q.asked .exofork (h q.trace .exofork)

/-- The child has got its stack. -/
structure HasStack (h : Host) (elfBuf prog argv : Word) (p : Proc)
    (fd elf : Word) (q : Proc) (child esp : Word)
    (u : Proc) : Prop extends HasMagic h elfBuf prog p fd elf q where
  child_eq : (h q.trace .exofork).ret = child
  child_ok : ¬child.slt 0
  stack : ∃ r, initStack h child argv (forked h q) = .ret ⟨r, esp⟩ u ∧ ¬r.slt 0

section

variable {h : Host} {elfBuf prog argv : Word} {p : Proc} {fd elf : Word}
  {q : Proc} {child esp : Word} {u : Proc}
  {s : Stacked}

theorem spawn_image (himage : HasImage h elfBuf prog p fd elf q) :
    spawn h elfBuf prog argv p = spawnImage h elfBuf elf argv fd q := by
  obtain ⟨rfl, hopen, hmmap⟩ := himage
  rw [spawn, Prog.bind_ret call_apply, if_neg hopen, Prog.bind_ret hmmap]

theorem spawn_nofork (hmagic : HasMagic h elfBuf prog p fd elf q)
    (hbad : (h q.trace .exofork).ret.slt 0) :
    spawn h elfBuf prog argv p =
      .ret (h q.trace .exofork).ret (forked h q) := by
  rw [spawn_image hmagic.toHasImage, spawnImage, Prog.ask_bind,
    if_neg hmagic.readable,
    if_neg (not_not.mpr hmagic.magic), Prog.bind_ret call_apply, if_pos hbad]
  rfl

theorem spawn_forked (hmagic : HasMagic h elfBuf prog p fd elf q)
    (hok : ¬(h q.trace .exofork).ret.slt 0) :
    spawn h elfBuf prog argv p =
      makeChild h elfBuf elf argv fd (h q.trace .exofork).ret (forked h q) := by
  rw [spawn_image hmagic.toHasImage, spawnImage, Prog.ask_bind,
    if_neg hmagic.readable,
    if_neg (not_not.mpr hmagic.magic), Prog.bind_ret call_apply, if_neg hok]
  rfl

theorem spawn_badStack (hmagic : HasMagic h elfBuf prog p fd elf q)
    (hok : ¬(h q.trace .exofork).ret.slt 0)
    (hinit : initStack h (h q.trace .exofork).ret argv (forked h q) = .ret s u)
    (hneg : s.ret.slt 0) :
    spawn h elfBuf prog argv p = .ret s.ret u := by
  rw [spawn_forked hmagic hok, makeChild, Prog.ask_bind, Prog.bind_ret hinit,
    if_pos hneg]
  rfl

/-- With a stack for the child, the segments are next. -/
theorem spawn_loads
    (hstack : HasStack h elfBuf prog argv p fd elf q child esp u) :
    ∃ eip, spawn h elfBuf prog argv p =
      loadChild h elfBuf elf fd child eip esp u := by
  obtain ⟨hmagic, rfl, hok, r, hinit, hr⟩ := hstack
  refine ⟨(forked h q).word (elf + 24), ?_⟩
  rw [spawn_forked hmagic hok, makeChild, Prog.ask_bind, Prog.bind_ret hinit,
    if_neg hr]

end

/-! ## What the arguments leave alone -/

/-- A relation between processes that a store keeps. -/
structure StoreFrame (R : Proc → Proc → Prop) : Prop extends Prog.Frame R where
  store : ∀ p va c,
    R p { p with mem := Function.update p.mem va c, stores := va :: p.stores }

namespace StoreFrame

variable {R : Proc → Proc → Prop} (hR : StoreFrame R)
include hR

theorem storeByte (va : Word) (c : BitVec 8) : Prog.Keeps R (storeByte va c) :=
  .bind hR.trans (.ask hR.refl) fun _ => .ite (.update fun _ => hR.store _ _ _)
    (.halt hR.refl _)

theorem storeWord (va v : Word) : Prog.Keeps R (storeWord va v) :=
  .bind hR.trans (hR.storeByte _ _) fun _ =>
    .bind hR.trans (hR.storeByte _ _) fun _ =>
    .bind hR.trans (hR.storeByte _ _) fun _ => hR.storeByte _ _

theorem strlen (s : Word) : Prog.Keeps R (Spawn.strlen s) := by
  have hloop : ∀ k s n, Prog.Keeps R (strlenLoop k s n) := by
    intro k
    induction k with
    | zero => exact fun _ _ => hR.refl
    | succ k ih => exact fun s n => .bind hR.trans (.ask hR.refl) fun _ => .ite (ih _ _) (.pure hR.refl _)
  exact hloop _ _ _

theorem strcpyLoop (k : Nat) (dst src : Word) : Prog.Keeps R (Spawn.strcpyLoop k dst src) := by
  induction k generalizing dst src with
  | zero => exact hR.refl
  | succ k ih =>
      exact .bind hR.trans (.ask hR.refl) fun _ =>
        .bind hR.trans (hR.storeByte _ _) fun _ =>
        .ite (ih _ _) (.pure hR.refl _)

theorem strcpy (dst src : Word) : Prog.Keeps R (Spawn.strcpy dst src) :=
  hR.strcpyLoop _ _ _

theorem countArgs (argv : Word) (k argc : Nat) (size : Word) :
    Prog.Keeps R (Spawn.countArgs argv k argc size) := by
  induction k generalizing argc size with
  | zero => exact hR.refl
  | succ k ih =>
      exact .bind hR.trans (.ask hR.refl) fun _ =>
        .ite (.bind hR.trans (hR.strlen _) fun _ => ih _ _) (.pure hR.refl _)

theorem copyArgs (argv store : Word) (k j : Nat) (str : Word) :
    Prog.Keeps R (Spawn.copyArgs argv store k j str) := by
  induction k generalizing j str with
  | zero => exact .pure hR.refl _
  | succ k ih =>
      exact .bind hR.trans (hR.storeWord _ _) fun _ =>
        .bind hR.trans (.ask hR.refl) fun _ =>
        .bind hR.trans (hR.strcpy _ _) fun _ =>
          .bind hR.trans (.ask hR.refl) fun _ =>
          .bind hR.trans (hR.strlen _) fun _ => ih _ _

theorem layOut (argv : Word) (argc : Nat) (size : Word) :
    Prog.Keeps R (Spawn.layOut argv argc size) := by
  refine .bind hR.trans (hR.copyArgs _ _ _ _ _) fun _ =>
    .bind hR.trans (hR.storeWord _ _) fun _ =>
    .ite (.halt hR.refl _) ?_
  exact .bind hR.trans (hR.storeWord _ _) fun _ =>
    .bind hR.trans (hR.storeWord _ _) fun _ => .pure hR.refl _

end StoreFrame

/-- A relation that all calls keep, and all stores. -/
structure ProcFrame (h : Host) (R : Proc → Proc → Prop) :
    Prop extends Prog.Frame R where
  call : ∀ c p, R p (p.asked c (h p.trace c))
  mem : ∀ p m s, R p { p with mem := m, stores := s }

namespace ProcFrame

variable {h : Host} {R : Proc → Proc → Prop} (hR : ProcFrame h R)
include hR

theorem callFrame : Mmap.CallFrame h (fun _ => True) R where
  toFrame := hR.toFrame
  call c p _ := hR.call c p
  alloc _ _ p _ := hR.call _ p
  mem p _ _ _ _ _ := hR.mem p _ p.stores

/-- `mmap` makes calls and stores, and records the mapping. -/
theorem mmap (hmaps : ∀ p m, R p { p with maps := m })
  (start length prot mode fd offset : Word) :
    Prog.Keeps R (Mmap.mmap h start length prot mode fd offset) :=
  hR.callFrame.mmap _ _ hmaps (fun _ _ _ _ => trivial) _ _ _ _

theorem storeFrame : StoreFrame R := ⟨hR.toFrame, fun p _ _ => hR.mem p _ _⟩

theorem asks (c : Call) : Prog.Keeps R (Jos.call h c) := fun p => hR.call c p

theorem panicOn (r : Word) (msg : String) : Prog.Keeps R (panicOn r msg) :=
  .ite (.halt hR.refl _) (.pure hR.refl _)

theorem allocPage (env va perm : Word) :
    Prog.Keeps R (allocPage h env va perm) := by
  refine .bind hR.trans (hR.asks _) fun a => ?_
  split
  · exact .bind hR.trans (.update fun p => hR.mem p _ p.stores) fun _ =>
      .pure hR.refl _
  · exact .pure hR.refl _

theorem handStack (child esp : Word) :
    Prog.Keeps R (handStack h child esp) := by
  refine .bind hR.trans (hR.asks _) fun _ => .ite ?_ ?_
  · exact .bind hR.trans (hR.asks _) fun _ => .pure hR.refl _
  · exact .bind hR.trans (hR.asks _) fun _ => .ite
      (.bind hR.trans (hR.asks _) fun _ => .pure hR.refl _) (.pure hR.refl _)

theorem initStack (child argv : Word) :
    Prog.Keeps R (initStack h child argv) := by
  refine .bind hR.trans (hR.storeFrame.countArgs _ _ _ _) fun _ =>
    .ite (.pure hR.refl _) ?_
  refine .bind hR.trans (hR.allocPage _ _ _) fun _ => .ite (.pure hR.refl _) ?_
  exact .bind hR.trans (hR.storeFrame.layOut _ _ _) fun _ => hR.handStack _ _

theorem startChild (child eip esp : Word) :
    Prog.Keeps R (startChild h child eip esp) :=
  .bind hR.trans (hR.asks _) fun _ => .bind hR.trans (hR.panicOn _ _) fun _ =>
    .bind hR.trans (hR.asks _) fun _ =>
    .bind hR.trans (hR.panicOn _ _) fun _ => .pure hR.refl _

end ProcFrame

end Spawn

end Jos
