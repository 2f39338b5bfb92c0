import Jos.User.Prog

/-!
# Library code and what it calls

lib/mmap.c and lib/spawn.c ask the kernel, the file server and the rest of the
library for things. Here anything may answer: a `Host` gives an answer to each
call, which may depend on all the calls before. What a process has mapped,
opened or written is what its trace says; the pages that it can store to are
kept as well, since a store anywhere else faults.
-/

namespace Jos

/-- A call that the library code makes. An environment is 0 for the caller
itself. -/
inductive Call where
  | open (prog mode : Word)
  | close (fd : Word)
  | read (fd va n : Word)
  | write (fd va n : Word)
  | seek (fd offset : Word)
  /-- `fd_lookup`, whose answer has the mode of the descriptor. -/
  | fdLookup (fd : Word)
  | pageref (va : Word)
  | pageAlloc (env va perm : Word)
  | pageMap (srcenv srcva dstenv dstva perm : Word)
  | pageUnmap (env va : Word)
  | exofork
  | envDestroy (env : Word)
  | envSetTrapframe (env eip esp : Word)
  | envSetStatus (env status : Word)
deriving DecidableEq

/-- What a call returns, with the bytes of a read and the mode of a
descriptor. -/
structure Answer where
  ret : Word
  data : Bytes
  omode : Word

/-- The calls so far, the last one first. -/
abbrev Trace : Type := List (Call × Answer)

abbrev Host : Type := Trace → Call → Answer

/-- A mapping that `mmap` has recorded. -/
structure MapRow where
  start : Word
  mode : Word
  fd : Word
  offset : Word
deriving DecidableEq

/-- The arrays of lib/mmap.c and the number of entries in use; `touched` are the
indices of the accesses. -/
structure MapTable where
  row : Int → MapRow
  cnt : Int
  touched : List Int

/-- A process, with its memory and its calls. -/
structure Proc where
  trace : Trace
  mem : Word → BitVec 8
  /-- The permissions of its pages; 0 where there is none. -/
  pages : Nat → Word
  maps : MapTable
  /-- The addresses that its code has stored a byte to. -/
  stores : List Word
  /-- The addresses of the program headers that it has looked at. -/
  headers : List Word

/-- A library function in a process. -/
abbrev ProcM (α : Type) : Type := Prog Proc UserStop α

/-- The pages of the caller after a call. -/
def pagesAfter (c : Call) (a : Answer) (pages : Nat → Word) : Nat → Word :=
  match c with
  | .pageAlloc env va perm | .pageMap _ _ env va perm =>
      if env = 0 ∧ ¬a.ret.slt 0 then
        Function.update pages (ppn va) perm else pages
  | .pageUnmap env va =>
      if env = 0 ∧ ¬a.ret.slt 0 then Function.update pages (ppn va) 0 else pages
  | _ => pages

/-- The process after a call and its answer. -/
def Proc.asked (p : Proc) (c : Call) (a : Answer) : Proc :=
  { p with trace := (c, a) :: p.trace, pages := pagesAfter c a p.pages }

/-- A store to `va` goes through: the page is the user's to write, or becomes so
when the handler of lib/fork.c has copied it. There are no such pages from
`UTOP` on. -/
def Proc.CanStore (p : Proc) (va : Word) : Prop :=
  va < UTOP ∧ p.pages (ppn va) &&& (PTE_P ||| PTE_U) = PTE_P ||| PTE_U ∧
    p.pages (ppn va) &&& (PTE_W ||| PTE_COW) ≠ 0

instance (p : Proc) (va : Word) : Decidable (p.CanStore va) :=
  inferInstanceAs (Decidable (_ ∧ _ ∧ _))

def call (h : Host) (c : Call) : ProcM Answer :=
  fun p => .ret (h p.trace c) (p.asked c (h p.trace c))

/-- Memory with the first `n` bytes of `data` at `va`. -/
def putBytes (mem : Word → BitVec 8) (va : Word) (n : Nat) (data : Bytes) :
    Word → BitVec 8 :=
  fun a => if (a - va).toNat < n then data (a - va).toNat else mem a

/-- `sys_page_alloc(env, va, perm)`: the page is zero. -/
def allocPage (h : Host) (env va perm : Word) : ProcM Word := do
  let a ← call h (.pageAlloc env va perm)
  if !a.ret.slt 0 ∧ env = 0 then
    Prog.update fun p => { p with mem := putBytes p.mem va PGSIZE fun _ => 0 }
  pure a.ret

/-- Store the first `n` bytes of `data` at `va`, up to the first address that
faults. -/
def fill (va : Word) (n : Nat) (data : Bytes) : ProcM Unit := do
  let p ← Prog.ask
  match (List.range n).find? fun i => ¬p.CanStore (va + BitVec.ofNat 32 i) with
  | none => Prog.update fun p => { p with mem := putBytes p.mem va n data }
  | some i => do
      Prog.update fun p => { p with mem := putBytes p.mem va i data }
      Prog.halt (.fault (va + BitVec.ofNat 32 i) true)

/-- `read(fd, va, n)`. -/
def readFile (h : Host) (fd va n : Word) : ProcM Word := do
  let a ← call h (.read fd va n)
  if !a.ret.slt 0 then
    fill va (min a.ret.toNat n.toNat) a.data
  pure a.ret

/-- The bytes from `va` on. -/
def bytesAt (mem : Word → BitVec 8) (va : Word) : Bytes :=
  fun i => mem (va + BitVec.ofNat 32 i)

def Proc.word (p : Proc) (va : Word) : Word := (bytesAt p.mem va).load32 0

def Proc.half (p : Proc) (va : Word) : BitVec 16 := p.mem (va + 1) ++ p.mem va

def storeByte (va : Word) (c : BitVec 8) : ProcM Unit := do
  let p ← Prog.ask
  if p.CanStore va then
    Prog.update fun p =>
      { p with mem := Function.update p.mem va c, stores := va :: p.stores }
  else
    Prog.halt (.fault va true)

def storeWord (va v : Word) : ProcM Unit := do
  storeByte va (v.extractLsb' 0 8)
  storeByte (va + 1) (v.extractLsb' 8 8)
  storeByte (va + 2) (v.extractLsb' 16 8)
  storeByte (va + 3) (v.extractLsb' 24 8)

/-- `panic(msg, r)` if `r` is an error. -/
def panicOn (r : Word) (msg : String) : ProcM Unit :=
  if r.slt 0 then Prog.halt (.panic msg [r]) else pure ()

section

variable {h : Host} {p : Proc} {c : Call} {a : Answer} {r fd va n : Word}
  {msg : String}
  {R : Proc → Proc → Prop} {A : Proc → Prop} {E : UserStop → Proc → Prop}

@[simp] theorem Proc.asked_trace :
    (p.asked c a).trace = (c, a) :: p.trace := rfl
@[simp] theorem Proc.asked_mem : (p.asked c a).mem = p.mem := rfl
@[simp] theorem Proc.asked_maps : (p.asked c a).maps = p.maps := rfl
@[simp] theorem Proc.asked_stores : (p.asked c a).stores = p.stores := rfl
@[simp] theorem Proc.asked_headers : (p.asked c a).headers = p.headers := rfl

theorem call_apply : call h c p =
      .ret (h p.trace c) (p.asked c (h p.trace c)) := rfl

theorem wp_call {Q : Answer → Proc → Prop}
    (hQ : Q (h p.trace c) (p.asked c (h p.trace c))) :
    Prog.wp (call h c) Q A E p := Prog.wp_ret rfl hQ

theorem pagesAfter_alloc {perm : Word} {pages : Nat → Word}
    (ha : ¬a.ret.slt 0) :
    pagesAfter (.pageAlloc 0 va perm) a pages =
      Function.update pages (ppn va) perm :=
  if_pos ⟨rfl, ha⟩

/-! ## Stores -/

theorem storeByte_ret {x : BitVec 8} (hva : p.CanStore va) : storeByte va x p =
    .ret () { p with mem := Function.update p.mem va x, stores := va ::
    p.stores } := by
  rw [storeByte, Prog.ask_bind, if_pos hva]
  rfl

theorem storeByte_fault {x : BitVec 8} (hva : ¬p.CanStore va) :
    storeByte va x p = .stop (.fault va true) p := by
  rw [storeByte, Prog.ask_bind, if_neg hva]
  rfl

theorem wp_storeByte {x : BitVec 8} {Q : Unit → Proc → Prop}
    (hok : p.CanStore va →
      Q ()
      { p with mem := Function.update p.mem va x, stores := va :: p.stores })
    (hbad : ¬p.CanStore va → E (.fault va true) p) :
    Prog.wp (storeByte va x) Q A E p := by
  by_cases hva : p.CanStore va
  · exact Prog.wp_ret (storeByte_ret hva) (hok hva)
  · exact Prog.wp_stop (storeByte_fault hva) (hbad hva)

theorem fill_ret {k : Nat} {data : Bytes}
    (hall : ∀ i < k, p.CanStore (va + BitVec.ofNat 32 i)) :
    fill va k data p = .ret () { p with mem := putBytes p.mem va k data } := by
  have hnone : (List.range k).find?
      (fun i => ¬p.CanStore (va + BitVec.ofNat 32 i)) = none := by
    simpa using hall
  rw [fill, Prog.ask_bind, hnone]
  rfl

/-- A store keeps what all shorter ones keep. -/
theorem Keeps.fill (hR : Prog.Frame R) {k : Nat} {data : Bytes}
    (hmem : ∀ p, ∀ i ≤ k, R p { p with mem := putBytes p.mem va i data }) :
    Prog.Keeps R (fill va k data) := by
  refine .bind hR.trans (.ask hR.refl) fun p => ?_
  split
  · exact .update fun q => hmem q k le_rfl
  · rename_i i hi
    have hik : i < k := by simpa using List.mem_of_find?_eq_some hi
    exact .bind hR.trans (.update fun q => hmem q i hik.le) fun _ =>
      .halt hR.refl _

theorem wp_panicOn {Q : Unit → Proc → Prop}
    (hstop : r.slt 0 → E (.panic msg [r]) p) (hok : ¬r.slt 0 → Q () p) :
    Prog.wp (panicOn r msg) Q A E p :=
  Prog.wp_ite _ (fun h => Prog.wp_halt_intro (hstop h)) fun h =>
    Prog.wp_pure_intro (hok h)

end

end Jos
