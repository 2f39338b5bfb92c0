import Jos.Fs.Flush
import Jos.Fs.Serv

/-!
# A client of the file server

lib/file.c and the file functions of lib/fd.c in an environment that has a file
open. The request page `fsipcbuf` is the page that the server maps at `fsreq`,
and the `struct Fd` is on the page of the server's table entry, so what either
of the two stores there the other sees.

The reference for them is a byte array with a cursor.
-/

namespace Jos

def MAXFD : Nat := 32
def O_RDONLY : Word := 0#32
def O_WRONLY : Word := 1#32
def O_RDWR : Word := 2#32

/-- `sizeof(fsipcbuf.write.req_buf)`. -/
def REQBUF : Nat := PGSIZE - 8

/-! ## The library -/

/-- The server, and a client of it: its id, the table entry whose Fd page it
maps at each file descriptor, and its request page. -/
structure Client where
  srv : Server
  env : Word
  fds : Nat → Option Nat
  fsipcbuf : Bytes

abbrev ClientM (α : Type) : Type := Prog Client Stop α

/-- What the server does, seen from the client. -/
def inSrv {α : Type} (f : SrvM α) : ClientM α :=
  Prog.zoom Client.srv (fun t c => { c with srv := t }) f

/-- Send the request page to the file server and wait for its reply. -/
def fsipc (type : Word) : ClientM Word := do
  Prog.update fun c =>
  { c with srv := { c.srv with fs := { c.srv.fs with req := c.fsipcbuf } } }
  let c ← Prog.ask
  let r ← inSrv (serve c.env type false)
  Prog.update fun c => { c with fsipcbuf := c.srv.fs.req }
  pure r

/-- Store to the request page. -/
def setBuf (g : Bytes → Bytes) : ClientM Unit :=
  Prog.update fun c => { c with fsipcbuf := g c.fsipcbuf }

/-- Read at most `n` bytes from the Fd of entry `i` at the current position into
`buf`: the number of bytes, and what `buf` holds. -/
def devfileRead (i : Nat) (buf : Bytes) (n : Word) :
    ClientM (Word × Bytes) := do
  let id ← inSrv (fdWord i 12)
  setBuf fun b => (b.store32 0 id).store32 4 n
  let r ← fsipc FSREQ_READ
  if r.slt 0 then
    pure (r, buf)
  else
    let c ← Prog.ask
    pure (r, buf.copy 0 c.fsipcbuf 0 r.toNat)

/-- Write at most `n` bytes from `buf` to the Fd of entry `i` at the current
position. -/
def devfileWrite (i : Nat) (buf : Bytes) (n : Word) : ClientM Word := do
  let id ← inSrv (fdWord i 12)
  let n := if n < BitVec.ofNat 32 REQBUF then n else BitVec.ofNat 32 REQBUF
  setBuf fun b => ((b.store32 0 id).store32 4 n).copy 8 buf 0 n.toNat
  fsipc FSREQ_WRITE

/-- The Fd page at descriptor `fdnum`. -/
def fdLookup (fdnum : Word) : ClientM (Except Word Nat) := do
  if fdnum.slt 0 ∨ (BitVec.ofNat 32 MAXFD).sle fdnum then
    pure (.error (-E_INVAL))
  else
    let c ← Prog.ask
    match c.fds fdnum.toNat with
    | none => pure (.error (-E_INVAL))
    | some i => pure (.ok i)

/-- The device of `dev_id`: there is `devfile` only. -/
def devLookup (devId : Word) : Except Word Unit :=
  if devId = DEVFILE then .ok () else .error (-E_INVAL)

/-- What `read` and `write` share: `dev` is the function of the device, which a
descriptor in mode `bad` does not allow. -/
def fdIo {α : Type} (bad : Word) (fail : Word → α) (dev : Nat → ClientM α)
    (fdnum : Word) :
    ClientM α := do
  match ← fdLookup fdnum with
  | .error r => pure (fail r)
  | .ok i =>
      match devLookup (← inSrv (fdWord i 0)) with
      | .error r => pure (fail r)
      | .ok () =>
          if (← inSrv (fdWord i 8)) &&& O_ACCMODE = bad then
            pure (fail (-E_INVAL))
          else
            dev i

def fdRead (fdnum : Word) (buf : Bytes) (n : Word) : ClientM (Word × Bytes) :=
  fdIo O_WRONLY (fun r => (r, buf)) (fun i => devfileRead i buf n) fdnum

def fdWrite (fdnum : Word) (buf : Bytes) (n : Word) : ClientM Word :=
  fdIo O_RDONLY (fun r => r) (fun i => devfileWrite i buf n) fdnum

def seek (fdnum offset : Word) : ClientM Word := do
  match ← fdLookup fdnum with
  | .error r => pure r
  | .ok i =>
      inSrv (setFdWord i 4 offset)
      pure 0

/-! ## The reference -/

/-- A byte array of `size` bytes with a cursor. Beyond the size its bytes are
zero. -/
structure ByteFile where
  data : Bytes
  size : Nat
  pos : Nat

/-- A call on an open file: what it stores to or reads from `buf`. -/
inductive FdOp where
  | write (buf : Bytes) (n : Word)
  | read (buf : Bytes) (n : Word)
  | seek (offset : Word)

/-- What a call returns: its value and, for a read, what the buffer holds
then. -/
abbrev FdAns : Type := Word × Option Bytes

namespace ByteFile

/-- An empty file. -/
def empty : ByteFile := ⟨fun _ => 0, 0, 0⟩

/-- How much a write or a read of `n` bytes moves. -/
def writeLen (n : Word) : Nat := min n.toNat REQBUF
def readLen (r : ByteFile) (n : Word) : Nat :=
  min n.toNat (min PGSIZE (r.size - r.pos))

def step (r : ByteFile) : FdOp → FdAns × ByteFile
  | .write buf n =>
      let k := writeLen n
      ((BitVec.ofNat 32 k, none),
        { data := r.data.copy r.pos buf 0 k, size :=
        max r.size (r.pos + k), pos := r.pos + k })
  | .read buf n =>
      let k := r.readLen n
      ((BitVec.ofNat 32 k, some (buf.copy 0 r.data r.pos k)),
      { r with pos := r.pos + k })
  | .seek offset => ((0, none), { r with pos := offset.toNat })

end ByteFile

/-- A call in the client. -/
def FdOp.run (fdnum : Word) : FdOp → ClientM FdAns
  | write buf n => do
      let r ← fdWrite fdnum buf n
      pure (r, none)
  | read buf n => do
      let (r, buf) ← fdRead fdnum buf n
      pure (r, some buf)
  | seek offset => do
      let r ← Jos.seek fdnum offset
      pure (r, none)

/-! ## The server's side of a call -/

section

variable {s : Server} {c : Client} {d m : PhysMem} {q p page buf : Bytes}
  {i : Nat} {f : FilePtr}
  {id n v fdnum : Word} {A : Server → Prop} {E : Stop → Server → Prop}
  {B : Client → Prop}
  {G : Stop → Client → Prop}

/-- Entry `i` is for file `f`, open by a client; `p` is its Fd page. -/
structure Server.Open (s : Server) (i : Nat) (f : FilePtr) (p : Bytes) :
    Prop where
  id : (s.opentab i).oFileid.toNat % MAXOPEN = i
  file : (s.opentab i).oFile = some f
  page : s.fdPage i = some p
  held : ∃ h ∈ s.held, h.entry = i
  arg : s.arg = none

theorem Server.Open.fd (h : s.Open i f p) : s.fd i = some p := by
  rw [Server.fd, h.page, h.arg]
  rfl

/-- The client's mapping counts. -/
theorem Server.Open.pageref (h : s.Open i f p) : s.pageref i ≠ 1 := by
  obtain ⟨g, hg, he⟩ := h.held
  have hpos : 0 < s.held.countP (fun h => h.entry = i) :=
    List.countP_pos_iff.mpr ⟨g, hg, decide_eq_true he⟩
  rw [Server.pageref, h.page]
  simp only
  omega

theorem Server.Open.setFs (h : s.Open i f p) (t : Fs) :
    Server.Open { s with fs := t } i f p :=
  ⟨h.id, h.file, h.page, h.held, h.arg⟩

theorem Server.Open.setFd (h : s.Open i f p) (p' : Bytes) :
    (s.setFd i p').Open i f p' ∧ (s.setFd i p').fs = s.fs ∧
    (s.setFd i p').opentab = s.opentab := by
  have hset : s.setFd i p' =
      { s with fdPage := Function.update s.fdPage i (some p') } := by
    rw [Server.setFd, h.arg]
    rfl
  rw [hset]
  exact ⟨⟨h.id, h.file, Function.update_self .., h.held, h.arg⟩, rfl, rfl⟩

theorem wp_inFs {α : Type} {g : FsM α} {Q : α → Server → Prop}
    (h : Prog.wp g (fun a t => Q a { s with fs := t })
    (fun t => A { s with fs := t })
      (fun x t => E x { s with fs := t }) s.fs) : Prog.wp (inFs g) Q A E s := by
  rw [inFs, Prog.wp_zoom]
  exact h

theorem wp_fdWord (h : s.fd i = some p) {off : Nat} {Q : Word → Server → Prop}
    (hQ : Q (p.load32 off) s) : Prog.wp (fdWord i off) Q A E s := by
  apply Prog.wp_ask_bind
  rw [h]
  exact Prog.wp_pure_intro hQ

theorem wp_setFdWord (h : s.fd i = some p) {off : Nat}
    {Q : Unit → Server → Prop}
    (hQ : Q () (s.setFd i (p.store32 off v))) :
    Prog.wp (setFdWord i off v) Q A E s := by
  apply Prog.wp_ask_bind
  rw [h]
  exact Prog.wp_update_intro hQ

/-- `serve_read` and `serve_write` on an open file. -/
theorem wp_serveIo (ho : s.Open i f p)
    (hid : s.fs.req.load32 0 = (s.opentab i).oFileid)
    (hn : (if s.fs.req.load32 4 < BitVec.ofNat 32 PGSIZE then s.fs.req.load32 4
      else BitVec.ofNat 32 PGSIZE) = n)
    {io : FilePtr → Word → Word → FsM (Except Word Word)}
    {Q : Word → Server → Prop}
    (hio : Prog.wp (io f n (p.load32 4)) (fun r t => match r with
      | .ok k => Q k (({ s with fs := t } : Server).setFd i
          (p.store32 4 (p.load32 4 + k)))
      | .error e => Q e { s with fs := t })
      (fun t => A { s with fs := t })
      (fun x t => E x { s with fs := t }) s.fs) :
    Prog.wp (serveIo io) Q A E s := by
  apply Prog.wp_bind_intro
  apply Prog.wp_ask_bind
  apply Prog.wp_pure_intro
  rw [hid]
  apply Prog.wp_bind_intro
  apply Prog.wp_ask_bind
  rw [ho.id]
  refine Prog.wp_ite _ (fun hno => absurd hno ?_) fun _ => Prog.wp_pure_intro ?_
  · exact not_or.mpr ⟨ho.pageref, not_not.mpr rfl⟩
  apply Prog.wp_bind_intro
  apply Prog.wp_bind_intro
  apply Prog.wp_ask_bind
  apply Prog.wp_pure_intro
  apply Prog.wp_pure_intro
  rw [hn]
  apply Prog.wp_bind_intro
  apply Prog.wp_ask_bind
  rw [ho.file]
  apply Prog.wp_pure_intro
  apply Prog.wp_bind_intro
  refine wp_fdWord ho.fd ?_
  apply Prog.wp_bind_intro
  apply wp_inFs
  refine Prog.wp_imp hio (fun r t hr => ?_) (fun _ h => h) fun _ _ h => h
  have ho' := ho.setFs t
  cases r with
  | error e => exact Prog.wp_pure_intro hr
  | ok k =>
      apply Prog.wp_bind_intro
      refine wp_fdWord ho'.fd ?_
      apply Prog.wp_bind_intro
      refine wp_setFdWord ho'.fd (Prog.wp_pure_intro hr)

/-- A turn of the loop on a request other than open. -/
theorem wp_serve {whom req : Word} {accept : Bool} (hreq : req ≠ FSREQ_OPEN)
    {Q : Word → Server → Prop}
    (h : Prog.wp (handler req) (fun r t => t.arg = none ∧ Q r t) A E s) :
    Prog.wp (serve whom req accept) Q A E s := by
  apply Prog.wp_bind_intro
  refine Prog.wp_ite _ (fun he => absurd he hreq) fun _ => ?_
  apply Prog.wp_bind_intro
  refine Prog.wp_imp h (fun r t ht => Prog.wp_pure_intro ?_) (fun _ h => h)
    fun _ _ h => h
  apply Prog.wp_bind_intro
  apply Prog.wp_update_intro
  have hun : unmapReq t = t := by
    rw [unmapReq, ht.1]
  rw [hun]
  exact Prog.wp_pure_intro ht.2

theorem wp_inSrv {α : Type} {g : SrvM α} {Q : α → Client → Prop}
    (h : Prog.wp g (fun a t => Q a { c with srv := t })
    (fun t => B { c with srv := t })
      (fun x t => G x { c with srv := t }) c.srv) :
      Prog.wp (inSrv g) Q B G c := by
  rw [inSrv, Prog.wp_zoom]
  exact h

/-- A call of the server other than open. -/
theorem wp_fsipc {type : Word} (htype : type ≠ FSREQ_OPEN)
    {Q : Word → Client → Prop}
    (h : Prog.wp (handler type) (fun r t => t.arg = none ∧
        Q r { c with srv := t, fsipcbuf := t.fs.req })
      (fun t => B { c with srv := t }) (fun x t => G x { c with srv := t })
      { c.srv with fs := { c.srv.fs with req := c.fsipcbuf } }) :
      Prog.wp (fsipc type) Q B G c := by
  apply Prog.wp_update_bind
  apply Prog.wp_ask_bind
  apply Prog.wp_bind_intro
  apply wp_inSrv
  refine wp_serve htype (Prog.wp_imp h (fun r t ht => ⟨ht.1, ?_⟩) (fun _ h => h)
    fun _ _ h => h)
  apply Prog.wp_update_bind
  exact Prog.wp_pure_intro ht.2

/-! ## The client's side -/

/-- The client has file `f` open for reading and writing at descriptor `fdnum`,
with table entry `i`; `p` is its Fd page. -/
structure Client.Has (c : Client) (fdnum : Word) (i : Nat) (f : FilePtr)
    (p : Bytes) : Prop where
  lt : fdnum.toNat < MAXFD
  fd : c.fds fdnum.toNat = some i
  isOpen : c.srv.Open i f p
  dev : p.load32 0 = DEVFILE
  omode : p.load32 8 = O_RDWR
  fileid : p.load32 12 = (c.srv.opentab i).oFileid

theorem wp_fdLookup (h : c.Has fdnum i f p)
    {Q : Except Word Nat → Client → Prop}
    (hQ : Q (.ok i) c) : Prog.wp (fdLookup fdnum) Q B G c := by
  have hM : MAXFD = 32 := rfl
  have hlt := h.lt
  refine Prog.wp_ite _ (fun hno => absurd hno ?_) fun _ => ?_
  · rw [BitVec.slt_iff_toInt_lt, BitVec.sle_iff_toInt_le,
      toInt_of_nonneg (v := fdnum) (by omega)]
    have h0 : (0 : Word).toInt = 0 := by decide
    have h32 : (BitVec.ofNat 32 MAXFD).toInt = 32 := by decide
    omega
  · apply Prog.wp_ask_bind
    rw [h.fd]
    exact Prog.wp_pure_intro hQ

/-- Reading or writing on a descriptor reaches the function of the device. -/
theorem wp_fdIo (h : c.Has fdnum i f p) {α : Type} {bad : Word}
    (hbad : bad ≠ O_RDWR)
    {fail : Word → α} {dev : Nat → ClientM α} {Q : α → Client → Prop}
    (hdev : Prog.wp (dev i) Q B G c) :
    Prog.wp (fdIo bad fail dev fdnum) Q B G c := by
  apply Prog.wp_bind_intro
  refine wp_fdLookup h ?_
  apply Prog.wp_bind_intro
  apply wp_inSrv
  refine wp_fdWord h.isOpen.fd ?_
  rw [h.dev, devLookup, if_pos rfl]
  apply Prog.wp_bind_intro
  apply wp_inSrv
  refine wp_fdWord h.isOpen.fd ?_
  rw [h.omode]
  exact Prog.wp_ite _ (fun he => absurd (he.symm.trans (by decide)) hbad)
    fun _ => hdev

/-- After a call that has moved the position by `k`. -/
theorem Client.Has.moved (h : c.Has fdnum i f p) {t : Fs} {k : Word}
    {b : Bytes} :
    Client.Has { c with
      srv := ({ c.srv with fs := t } : Server).setFd i
        (p.store32 4 (p.load32 4 + k))
      fsipcbuf := b } fdnum i f (p.store32 4 (p.load32 4 + k)) := by
  obtain ⟨ho, _, htab⟩ :=
    (h.isOpen.setFs t).setFd (p.store32 4 (p.load32 4 + k))
  refine ⟨h.lt, h.fd, ho, ?_, ?_, ?_⟩
  · rw [Bytes.load32_store32_of_ne (by omega), h.dev]
  · rw [Bytes.load32_store32_of_ne (by omega), h.omode]
  · rw [Bytes.load32_store32_of_ne (by omega), h.fileid, htab]

theorem Client.Has.setBuf (h : c.Has fdnum i f p) (b : Bytes) :
    Client.Has { c with fsipcbuf := b } fdnum i f p :=
  ⟨h.lt, h.fd, h.isOpen, h.dev, h.omode, h.fileid⟩

/-- What `fsipc` gets for a read or a write request: an error, or `k` and a
position that is `k` further. -/
theorem wp_fsipcIo (h : c.Has fdnum i f p) {type : Word}
    (htype : type ≠ FSREQ_OPEN)
    {io : FilePtr → Word → Word → FsM (Except Word Word)}
    (hhandler : handler type = serveIo io)
    (hid : c.fsipcbuf.load32 0 = p.load32 12)
    (hn : (if c.fsipcbuf.load32 4 < BitVec.ofNat 32 PGSIZE then
      c.fsipcbuf.load32 4
      else BitVec.ofNat 32 PGSIZE) = n) {Q : Word → Client → Prop}
    (hio : Prog.wp (io f n (p.load32 4)) (fun r t => ∀ k c', c'.srv.fs = t →
      c'.fsipcbuf = t.req →
        r = .error k ∨ r = .ok k ∧ c'.Has fdnum i f
        (p.store32 4 (p.load32 4 + k)) → Q k c')
      (fun _ => False) (fun _ _ => False) { c.srv.fs with req := c.fsipcbuf }) :
    Prog.wp (fsipc type) Q B G c := by
  refine wp_fsipc htype ?_
  rw [hhandler]
  have ho := h.isOpen.setFs { c.srv.fs with req := c.fsipcbuf }
  refine wp_serveIo ho (hid.trans h.fileid) hn ?_
  refine Prog.wp_imp hio (fun r t hr => ?_) (fun _ hf => hf.elim)
    fun _ _ hf => hf.elim
  cases r with
  | error e => exact ⟨h.isOpen.arg, hr e _ rfl rfl (.inl rfl)⟩
  | ok k =>
      obtain ⟨ho', hfs, _⟩ :=
        (h.isOpen.setFs t).setFd (p.store32 4 (p.load32 4 + k))
      exact ⟨ho'.arg, hr k _ hfs (congrArg Fs.req hfs) (.inr ⟨rfl, h.moved⟩)⟩

end

/-! ## Simulation -/

/-- The open file at descriptor `fdnum` is the byte array `r`: the data and the
size are in the record `f`, the cursor is in the Fd page. -/
structure Client.Represents (c : Client) (fdnum : Word) (i : Nat) (f : FilePtr)
    (r : ByteFile) :
    Prop where
  has : ∃ p, c.Has fdnum i f p ∧ p.load32 4 = BitVec.ofNat 32 r.pos
  disk : ∃ d m q, c.srv.fs.Shows d m q ∧ m.Sound ∧ m.Rec f ∧
    m.fType f ≠ FTYPE_DIR ∧
    (m.fSize f).toNat = r.size ∧ ∀ o, o < MAXFILESIZE → m.byte f o = r.data o
  pos : r.pos ≤ MAXFILESIZE
  size : r.size ≤ MAXFILESIZE

/-- The positions that a call leads to are at most `MAXFILESIZE`, and a write is
of something. -/
def FdOp.Allowed (r : ByteFile) : FdOp → Prop
  | write _ n => 0 < n ∧ r.pos + ByteFile.writeLen n ≤ MAXFILESIZE
  | read _ _ => True
  | seek offset => offset.toNat ≤ MAXFILESIZE

/-- What is true after a call that has not filled the disk. -/
def FdOp.Sim (op : FdOp) (fdnum : Word) (i : Nat) (f : FilePtr) (r : ByteFile)
    (ans : FdAns)
    (c : Client) : Prop :=
  (∃ b, c.srv.fs.mem.isFree b) → ans = (r.step op).1 ∧
    c.Represents fdnum i f (r.step op).2

section

variable {c c' : Client} {fdnum n : Word} {i : Nat} {f : FilePtr} {r : ByteFile}
  {buf : Bytes}
  {B : Client → Prop} {G : Stop → Client → Prop}

theorem maxFileSize_lt : MAXFILESIZE < 2 ^ 31 := by decide

theorem ofNat_small {k : Nat} (hk : k ≤ MAXFILESIZE) :
    (BitVec.ofNat 32 k).toNat = k := by
  have := maxFileSize_lt
  rw [BitVec.toNat_ofNat, Nat.mod_eq_of_lt (by omega)]

theorem div_lt_blocks {x : Nat} (hx : x < MAXFILESIZE) :
    x / BLKSIZE < NDIRECT + NINDIRECT :=
  Nat.div_lt_of_lt_mul (by rwa [Nat.mul_comm])

/-- `n < max ? n : max`. -/
theorem clip_toNat (n m : Word) :
    (if n < m then n else m).toNat = min n.toNat m.toNat := by
  split
  · rename_i h
    rw [BitVec.lt_def] at h
    omega
  · rename_i h
    rw [BitVec.lt_def] at h
    omega

/-- A write through the library. -/
theorem wp_fdWrite (h : c.Represents fdnum i f r)
    (ha : (FdOp.write buf n).Allowed r) :
    Prog.wp ((FdOp.write buf n).run fdnum) ((FdOp.write buf n).Sim fdnum i f r)
      B G c := by
  obtain ⟨p, hp, hpos⟩ := h.has
  obtain ⟨d, m, q, hs, hm, hf, ht, hsize, hbyte⟩ := h.disk
  have hmax := maxFileSize_lt
  have hposn : (p.load32 4).toNat = r.pos := by rw [hpos, ofNat_small h.pos]
  apply Prog.wp_bind_intro
  refine wp_fdIo hp (by decide) ?_
  apply Prog.wp_bind_intro
  apply wp_inSrv
  refine wp_fdWord hp.isOpen.fd ?_
  generalize hn :
    (if n < BitVec.ofNat 32 REQBUF then n else BitVec.ofNat 32 REQBUF) = k
  have hk : k.toNat = ByteFile.writeLen n := by
    rw [← hn, clip_toNat]
    rfl
  have hle : ByteFile.writeLen n ≤ REQBUF := min_le_right ..
  have hR : REQBUF = 4088 := rfl
  have hB : BLKSIZE = 4096 := rfl
  apply Prog.wp_update_bind
  change Prog.wp (fsipc FSREQ_WRITE) _ B G
    { c with fsipcbuf :=
    ((c.fsipcbuf.store32 0 (p.load32 12)).store32 4 k).copy 8 buf 0 k.toNat }
  generalize hb :
    ((c.fsipcbuf.store32 0 (p.load32 12)).store32 4 k).copy 8 buf 0 k.toNat = b
  have hid : b.load32 0 = p.load32 12 := by
    rw [← hb, Bytes.load32_congr fun j _ _ => Bytes.copy_of_ne (by omega),
      Bytes.load32_store32_of_ne (by omega), Bytes.load32_store32]
  have hcount : b.load32 4 = k := by
    rw [← hb, Bytes.load32_congr fun j _ _ => Bytes.copy_of_ne (by omega),
      Bytes.load32_store32]
  have hdata : ∀ j, j < k.toNat → b (8 + j) = buf j := by
    intro j hj
    rw [← hb, Bytes.copy_of_mem (by omega)]
    congr 1
    omega
  refine wp_fsipcIo (hp.setBuf b) (show FSREQ_WRITE ≠ FSREQ_OPEN by decide) rfl
    hid (n := k) ?_ ?_
  · rw [hcount, if_pos]
    rw [BitVec.lt_def, hk]
    exact Nat.lt_of_le_of_lt hle (by decide)
  have hs' : Fs.Shows d { c.srv.fs with req := b } m b :=
    ⟨hs.mem, fun _ _ => rfl, hs.ok, hs.bits, hs.late⟩
  have hend : (p.load32 4).toNat + k.toNat ≤ MAXFILESIZE := by
    rw [hposn, hk]
    exact ha.2
  refine wp_fileWrite (r := 8) hm hf ht hs' (by omega) (by omega)
    (fun m' t hput htm x c' hfs _ hx => Prog.wp_pure_intro fun hfree => ?_)
    fun y e m' t hy he _ htm x c' hfs _ _ => Prog.wp_pure_intro fun hfree => ?_
  · obtain ⟨hk', hhas⟩ := hx.resolve_left nofun
    cases hk'
    obtain ⟨hm₀, hf₀, ht₀⟩ := hm.sound_extend hf (v := p.load32 4 + k)
    obtain ⟨hm', hf'⟩ := hput.sound hm₀ hf₀
    refine ⟨?_, ⟨_, hhas, ?_⟩, ⟨d, m', b, hfs ▸ htm, hm', hf', ?_,
      ?_, fun o ho => ?_⟩, ?_, ?_⟩
    · simp only [ByteFile.step, ← hk, BitVec.ofNat_toNat, BitVec.setWidth_eq]
    · rw [Bytes.load32_store32, hpos]
      simp only [ByteFile.step, ← hk, BitVec.ofNat_add, BitVec.ofNat_toNat,
        BitVec.setWidth_eq]
    · rwa [hput.fType, ht₀]
    · have hsize' : m'.fSize f = (m.extend f (p.load32 4 + k)).fSize
          f := hput.field 32 (by decide)
      have hsum : (p.load32 4 + k).toNat = r.pos + k.toNat := by
        rw [BitVec.toNat_add, hposn]
        omega
      rw [hsize', PhysMem.fSize_extend, hsize, hsum, hk]
      rfl
    · rw [hput.byte o ho, hm.byte_extend hf ho, hbyte o ho, hposn]
      by_cases hin : r.pos ≤ o ∧ o < r.pos + k.toNat
      · rw [if_pos hin, hdata _ (by omega)]
        refine Eq.trans ?_ (Bytes.copy_of_mem (hk ▸ hin)).symm
        rw [Nat.zero_add]
      · rw [if_neg hin]
        exact (Bytes.copy_of_ne (by rw [← hk]; omega)).symm
    · exact ha.2
    · exact max_le h.size ha.2
  · obtain ⟨a, ha'⟩ := hfree
    rw [hfs, htm.mem] at ha'
    exact absurd ha' ((he (div_lt_blocks (by omega))).2 a)

/-- A read through the library. -/
theorem wp_fdRead (h : c.Represents fdnum i f r) :
    Prog.wp ((FdOp.read buf n).run fdnum) ((FdOp.read buf n).Sim fdnum i f r)
      B G c := by
  obtain ⟨p, hp, hpos⟩ := h.has
  obtain ⟨d, m, q, hs, hm, hf, ht, hsize, hbyte⟩ := h.disk
  have hmax := maxFileSize_lt
  have hposn : (p.load32 4).toNat = r.pos := by rw [hpos, ofNat_small h.pos]
  have hB : BLKSIZE = 4096 := rfl
  have hP : PGSIZE = 4096 := rfl
  apply Prog.wp_bind_intro
  refine wp_fdIo hp (by decide) ?_
  apply Prog.wp_bind_intro
  apply wp_inSrv
  refine wp_fdWord hp.isOpen.fd ?_
  apply Prog.wp_update_bind
  apply Prog.wp_bind_intro
  -- the request
  change Prog.wp (fsipc FSREQ_READ) _ B G
    { c with fsipcbuf := (c.fsipcbuf.store32 0 (p.load32 12)).store32 4 n }
  generalize hb : (c.fsipcbuf.store32 0 (p.load32 12)).store32 4 n = b
  have hid : b.load32 0 = p.load32 12 := by
    rw [← hb, Bytes.load32_store32_of_ne (by omega), Bytes.load32_store32]
  have hcount : b.load32 4 = n := by
    rw [← hb, Bytes.load32_store32]
  generalize hk :
    (if n < BitVec.ofNat 32 PGSIZE then n else BitVec.ofNat 32 PGSIZE) = k
  have hkn : k.toNat = min n.toNat PGSIZE := by
    rw [← hk, clip_toNat]
    rfl
  have hlen : min k.toNat ((m.fSize f).toNat - (p.load32 4).toNat) =
      r.readLen n := by
    rw [hkn, hsize, hposn, ByteFile.readLen, min_assoc]
  have hle : r.readLen n ≤ 4096 ∧ r.readLen n ≤ r.size - r.pos := by
    simp only [ByteFile.readLen]
    omega
  have hsz := h.size
  have hps := h.pos
  refine wp_fsipcIo (hp.setBuf b) (show FSREQ_READ ≠ FSREQ_OPEN by decide) rfl
    hid (n := k)
    (by rw [hcount]; exact hk) ?_
  have hs' : Fs.Shows d { c.srv.fs with req := b } m b :=
    ⟨hs.mem, fun _ _ => rfl, hs.ok, hs.bits, hs.late⟩
  have haddr : FSREQ = -(BLKSIZE : Int) + (0 : Nat) := by
    rw [FSREQ, Int.natCast_zero, Int.add_zero]
  change Prog.wp (fileRead f FSREQ k (p.load32 4)) _ _ _ _
  rw [haddr]
  refine wp_fileRead hm hf hs' (by omega) (by omega) (by omega)
    (fun m' t hg htm x c' hfs hreq hx => ?_)
    fun y e m' q' t hy he _ htm x c' hfs _ hx => ?_
  · obtain ⟨hk', hhas⟩ := hx.resolve_left nofun
    cases hk'
    rw [hlen] at htm hhas ⊢
    have hpos0 : ¬(BitVec.ofNat 32 (r.readLen n)).slt 0 := by
      rw [BitVec.slt_iff_toInt_lt,
        toInt_of_nonneg (by rw [ofNat_small (by omega)]; omega)]
      have h0 : (0 : Word).toInt = 0 := by decide
      omega
    refine Prog.wp_ite _ (fun hneg => absurd hneg hpos0) fun _ => ?_
    apply Prog.wp_ask_bind
    refine Prog.wp_pure_intro (Prog.wp_pure_intro fun _ => ⟨?_, ?_⟩)
    · rw [ofNat_small (by omega)]
      simp only [ByteFile.step, Prod.mk.injEq, Option.some.injEq, true_and]
      funext j
      by_cases hj : j < r.readLen n
      · rw [Bytes.copy_of_mem (by omega), Bytes.copy_of_mem (by omega), hreq,
          Nat.zero_add,
          htm.req _ (by omega), Bytes.copy_of_mem (by omega),
          hbyte _ (by omega), hposn,
          Nat.sub_zero, Nat.sub_zero]
      · rw [Bytes.copy_of_ne (by omega), Bytes.copy_of_ne (by omega)]
    · obtain ⟨hm', hf'⟩ := hg.sound hm hf
      refine ⟨⟨_, hhas, ?_⟩, ⟨d, m', _, hfs ▸ htm, hm', hf',
        ?_, ?_, fun o ho => ?_⟩, ?_, h.size⟩
      · rw [Bytes.load32_store32, hpos]
        simp only [ByteFile.step, BitVec.ofNat_add]
      · rwa [hg.fType]
      · rw [hg.fSize, hsize]
        rfl
      · rw [hg.byte o ho, hbyte o ho]
        rfl
      · simp only [ByteFile.step]
        omega
  · obtain ⟨hk', _⟩ | hx := hx
    swap
    · exact nomatch hx.1
    have hfull : ∀ ans, (FdOp.read buf n).Sim fdnum i f r ans c' := by
      rintro ans ⟨a, ha⟩
      rw [hfs, htm.mem] at ha
      exact absurd ha ((he (div_lt_blocks (by omega))).2 a)
    refine Prog.wp_ite _ (fun _ =>
      Prog.wp_pure_intro (Prog.wp_pure_intro (hfull _))) fun _ => ?_
    apply Prog.wp_ask_bind
    exact Prog.wp_pure_intro (Prog.wp_pure_intro (hfull _))

/-- A seek. -/
theorem wp_seek {off : Word} (h : c.Represents fdnum i f r)
    (ha : (FdOp.seek off).Allowed r) :
    Prog.wp ((FdOp.seek off).run fdnum) ((FdOp.seek off).Sim fdnum i f r)
      B G c := by
  obtain ⟨p, hp, hpos⟩ := h.has
  apply Prog.wp_bind_intro
  apply Prog.wp_bind_intro
  refine wp_fdLookup hp ?_
  apply Prog.wp_bind_intro
  apply wp_inSrv
  refine wp_setFdWord hp.isOpen.fd (Prog.wp_pure_intro (Prog.wp_pure_intro
    fun _ => ⟨rfl, ?_⟩))
  obtain ⟨ho, hfs, htab⟩ := hp.isOpen.setFd (p.store32 4 off)
  refine ⟨⟨p.store32 4 off, ⟨hp.lt, hp.fd, ho, ?_, ?_, ?_⟩, ?_⟩, ?_, ha, h.size⟩
  · rw [Bytes.load32_store32_of_ne (by omega), hp.dev]
  · rw [Bytes.load32_store32_of_ne (by omega), hp.omode]
  · rw [Bytes.load32_store32_of_ne (by omega), hp.fileid]
    exact congrArg (fun t => (t i).oFileid) htab.symm
  · rw [Bytes.load32_store32]
    simp [ByteFile.step]
  · exact hfs ▸ h.disk

/-- A call does what it does to the byte array. -/
theorem FdOp.wp_run {op : FdOp} (h : c.Represents fdnum i f r)
    (ha : op.Allowed r) :
    Prog.wp (op.run fdnum) (op.Sim fdnum i f r) B G c := by
  cases op with
  | write buf n => exact wp_fdWrite h ha
  | read buf n => exact wp_fdRead h
  | seek off => exact wp_seek h ha

end

/-! ## Runs -/

/-- A client with a file open, and the byte array that it should be. -/
structure Session where
  client : Client
  file : ByteFile

/-- A call returns, and leaves a free block on the disk. -/
def Session.Step (fdnum : Word) (s : Session) (l : FdOp × FdAns)
    (s' : Session) : Prop :=
  l.1.run fdnum s.client = .ret l.2 s'.client ∧
    (∃ b, s'.client.srv.fs.mem.isFree b) ∧
    s'.file = (s.file.step l.1).2

/-- The client has the new file `f` open for reading and writing: it is empty
and the position is 0. -/
structure Client.NewFile (c : Client) (fdnum : Word) (i : Nat) (f : FilePtr) :
    Prop where
  has : ∃ p, c.Has fdnum i f p ∧ p.load32 4 = 0
  disk : ∃ d m q, c.srv.fs.Shows d m q ∧ m.Sound ∧ m.Rec f ∧
    m.fType f ≠ FTYPE_DIR ∧
    m.fSize f = 0 ∧ ∀ k, k < NDIRECT + NINDIRECT → m.ref (.data f k) = 0

section

variable {c : Client} {s : Session} {fdnum : Word} {i : Nat} {f : FilePtr}
  {op : FdOp}

theorem Client.NewFile.represents (h : c.NewFile fdnum i f) :
    c.Represents fdnum i f .empty := by
  obtain ⟨d, m, q, hs, hm, hf, ht, hsize, href⟩ := h.disk
  refine ⟨h.has, ⟨d, m, q, hs, hm, hf, ht, ?_, fun o ho => ?_⟩, Nat.zero_le _,
    Nat.zero_le _⟩
  · rw [hsize]
    rfl
  · exact if_pos (href _ (div_lt_blocks ho))

/-- The file of a descriptor is a byte array with a cursor. From a new file,
after every run of calls that does not fill the disk: the size, the data and the
position are those of the byte array, and the next call returns, with the value
and the data that the byte array gives unless the disk is full after it. -/
theorem fd_simulates_byteFile (h : c.NewFile fdnum i f)
    (hrun : Runs (Session.Step fdnum) (fun s l => l.1.Allowed s.file)
      ⟨c, .empty⟩ s) :
    s.client.Represents fdnum i f s.file ∧
    ∀ op : FdOp, op.Allowed s.file → ∃ ans c', op.run fdnum s.client =
      .ret ans c' ∧
      ((∃ b, c'.srv.fs.mem.isFree b) →
        ans = (s.file.step op).1 ∧
        c'.Represents fdnum i f (s.file.step op).2) := by
  have hinv : s.client.Represents fdnum i f s.file := by
    refine hrun.invariant (I := fun s => s.client.Represents fdnum i f s.file)
      ?_ h.represents
    rintro s ⟨op, ans⟩ t hrep ha ⟨hret, hfree, hfile⟩
    rw [hfile]
    exact ((FdOp.wp_run (B := fun _ => True) (G := fun _ _ => True) hrep ha).ret
      hret hfree).2
  exact ⟨hinv, fun op ha => (FdOp.wp_run hinv ha).exists_ret⟩

end


/-- The small disk after its root directory has got a block of empty files. -/
def smallFileDisk : PhysMem := smallDisk.attach (.data ROOT 0) 3

theorem smallFileDisk_sound :
    smallFileDisk.Sound ∧ smallFileDisk.Rec (slot 3 0) ∧
    smallFileDisk.fType (slot 3 0) ≠ FTYPE_DIR ∧
    smallFileDisk.fSize (slot 3 0) = 0 ∧
    ∀ k, k < NDIRECT + NINDIRECT →
    smallFileDisk.ref (.data (slot 3 0) k) = 0 := by
  have hroot : smallDisk.Valid (.data ROOT 0) :=
    .data (.inl rfl) (show 0 < NDIRECT + NINDIRECT by decide)
  have hp : smallDisk.Placed (.data ROOT 0) := .inl (by decide)
  have hfree : smallDisk.isFree 3 := by decide
  have hm := (smallDisk_sound.attach_evolves hroot hp hfree (by decide)).sound
    smallDisk_sound
  have href : smallFileDisk.ref (.data ROOT 0) = 3 :=
    smallDisk_sound.ref_attach_self hroot hp hfree
  have hzero : ∀ j, j < BLKSIZE → smallFileDisk 3 j = 0 :=
    fun j hj => PhysMem.attach_zero hj
  obtain ⟨ht, hs, _, _, hrefs⟩ :=
    PhysMem.slot_of_zero hzero (j := 0) (by decide)
  refine ⟨hm, .inr ⟨ROOT, 0, 0, .root _, by decide, by decide, ?_, ?_⟩, ?_, hs,
    fun k hk => hrefs (.data _ k) hk rfl⟩
  · rw [href]
    decide
  · rw [href]
  · rw [ht]
    decide

/-- A client that has the first of these files open. -/
def smallClient : Client where
  srv :=
    { serveInit ⟨smallFileDisk, fun _ => none, fun _ => false, fun _ => 0⟩ with
      opentab := fun _ => ⟨1024, some (slot 3 0), O_RDWR⟩
      fdPage := fun _ => some
        ((Bytes.store32 (Bytes.store32 (Bytes.store32 (fun _ => 0) 0 DEVFILE)
        8 O_RDWR) 12 1024))
      held := [⟨0x1001, 0, 1024⟩] }
  env := 0x1001
  fds _ := some 0
  fsipcbuf _ := 0

theorem smallClient_newFile : smallClient.NewFile 0 0 (slot 3 0) := by
  obtain ⟨hm, hf, ht, hs, href⟩ := smallFileDisk_sound
  refine ⟨⟨_, ⟨by decide, rfl,
    ⟨by decide, rfl, rfl, ⟨_, List.mem_singleton.mpr rfl, rfl⟩, rfl⟩,
    by decide, by decide, by decide⟩, by decide⟩, ?_⟩
  exact ⟨smallFileDisk, smallFileDisk, fun _ => 0,
    ⟨rfl, fun _ _ => rfl, nofun, fun _ _ _ h => h,
    fun _ _ _ => rfl⟩, hm, hf, ht, hs, href⟩

/-- Three bytes are written to the new file. -/
theorem fd_simulates_byteFile_small : ∃ ans c',
    (FdOp.write (fun _ => 0x61) 3).run 0 smallClient = .ret ans c' ∧
      ((∃ b, c'.srv.fs.mem.isFree b) → ans = (3, none) ∧
        c'.Represents 0 0 (slot 3 0)
        (ByteFile.empty.step (.write (fun _ => 0x61) 3)).2) :=
  (fd_simulates_byteFile smallClient_newFile (.refl _)).2 _
    ⟨by decide, by decide⟩

end Jos
