import Jos.Fs.File
import Jos.Lib.Run

/-!
# The file server

fs/serv.c: the table of open files, the request handlers and the server's loop,
and the clients around it. The Fd page of table entry `i` is mapped at `FILEVA +
i * PGSIZE` once it is allocated; `pageref` counts the server's mapping, those
of the clients, and the one at `fsreq` while a client has sent the page as the
argument of its request.
-/

namespace Jos

def MAXOPEN : Nat := 1024

def O_ACCMODE : Word := 3#32
def O_CREAT : Word := 0x100#32
def O_TRUNC : Word := 0x200#32
def O_EXCL : Word := 0x400#32

def FSREQ_OPEN : Word := 1#32
def FSREQ_SET_SIZE : Word := 2#32
def FSREQ_READ : Word := 3#32
def FSREQ_WRITE : Word := 4#32
def FSREQ_STAT : Word := 5#32
def FSREQ_FLUSH : Word := 6#32
def FSREQ_REMOVE : Word := 7#32
def FSREQ_SYNC : Word := 8#32

/-- `devfile.dev_id`. -/
def DEVFILE : Word := 0x66#32

/-! ## State -/

/-- `struct OpenFile`. -/
structure OpenFile where
  oFileid : Word
  oFile : Option FilePtr
  oMode : Word

/-- A mapping of the Fd page of entry `entry` in environment `env`. `id` is the
file id that the server gave the page out for. -/
structure Holding where
  env : Word
  entry : Nat
  id : Word
deriving DecidableEq

/-- The server, and who maps its Fd pages. -/
structure Server where
  fs : Fs
  opentab : Nat → OpenFile
  /-- The Fd pages that are allocated. -/
  fdPage : Nat → Option Bytes
  held : List Holding
  /-- The Fd page that is mapped at `fsreq`, if it is one. -/
  arg : Option Nat
  /-- The kernel has a page left. -/
  memory : Bool

abbrev SrvM (α : Type) : Type := Prog Server Stop α

namespace Server

/-- `pageref(opentab[i].o_fd)`. -/
def pageref (s : Server) (i : Nat) : Nat :=
  match s.fdPage i with
  | none => 0
  | some _ =>
      1 + s.held.countP (fun h => h.entry = i) + if s.arg = some i then 1 else 0

/-- The Fd page of entry `i`; while it is mapped at `fsreq`, the model has its
bytes there. -/
def fd (s : Server) (i : Nat) : Option Bytes :=
  (s.fdPage i).map fun p => if s.arg = some i then s.fs.req else p

def setFd (i : Nat) (p : Bytes) (s : Server) : Server :=
  if s.arg = some i then { s with fs := { s.fs with req := p } }
  else { s with fdPage := Function.update s.fdPage i (some p) }

/-- `sys_page_alloc(0, opentab[i].o_fd, PTE_P|PTE_U|PTE_W)`. -/
def allocFd (i : Nat) (s : Server) : Server :=
  { s with fdPage := Function.update s.fdPage i (some fun _ => 0) }

def setOpen (i : Nat) (o : OpenFile) (s : Server) : Server :=
  { s with opentab := Function.update s.opentab i o }

end Server

/-- An operation on files, in the server. -/
def inFs {α : Type} (f : FsM α) : SrvM α :=
  Prog.zoom Server.fs (fun t s => { s with fs := t }) f

/-- The negative code, or the value. -/
def codeOf : Except Word Word → Word
  | .error r => r
  | .ok v => v

/-- The negative code, or 0. -/
def statusOf {α : Type} : Except Word α → Word
  | .error r => r
  | .ok _ => 0

/-! ## Open files -/

/-- `opentab` and the Fd pages after `serve_init`. -/
def serveInit (fs : Fs) : Server where
  fs := fs
  opentab i := ⟨BitVec.ofNat 32 i, none, if i = 0 then 1 else 0⟩
  fdPage _ := none
  held := []
  arg := none
  memory := true

/-- Give entry `i` its next file id. -/
def openfileTake (i : Nat) : SrvM (Word × Option Nat) := do
  Prog.update fun s => s.setOpen i
    { s.opentab i with oFileid :=
    (s.opentab i).oFileid + BitVec.ofNat 32 MAXOPEN }
  Prog.update (Server.setFd i fun _ => 0)
  let s ← Prog.ask
  pure ((s.opentab i).oFileid, some i)

/-- The loop of `openfile_alloc` from entry `i` on. -/
def openfileAllocFrom : Nat → Nat → SrvM (Word × Option Nat)
  | 0, _ => pure (-E_MAX_OPEN, none)
  | n + 1, i => do
      let s ← Prog.ask
      if s.pageref i = 0 then
        if s.memory then
          Prog.update (Server.allocFd i)
          openfileTake i
        else
          pure (-E_NO_MEM, none)
      else if s.pageref i = 1 then
        openfileTake i
      else
        openfileAllocFrom n (i + 1)

/-- Allocate an open file: the code, which is the file id on success, and the
entry. -/
def openfileAlloc : SrvM (Word × Option Nat) := openfileAllocFrom MAXOPEN 0

/-- Look up an open file. -/
def openfileLookup (fileid : Word) : SrvM (Except Word Nat) := do
  let s ← Prog.ask
  let i := fileid.toNat % MAXOPEN
  if s.pageref i = 1 ∨ (s.opentab i).oFileid ≠ fileid then
    pure (.error (-E_INVAL))
  else
    pure (.ok i)

/-- `o->o_file`, to be dereferenced. -/
def oFile (i : Nat) : SrvM FilePtr := do
  let s ← Prog.ask
  match (s.opentab i).oFile with
  | none => Prog.halt .fsFault
  | some f => pure f

/-- The word at offset `off` of `o->o_fd`. -/
def fdWord (i off : Nat) : SrvM Word := do
  let s ← Prog.ask
  match s.fd i with
  | none => Prog.halt .fsFault
  | some p => pure (p.load32 off)

def setFdWord (i off : Nat) (v : Word) : SrvM Unit := do
  let s ← Prog.ask
  match s.fd i with
  | none => Prog.halt .fsFault
  | some p => Prog.update (Server.setFd i (p.store32 off v))

/-- The word at offset `off` of the request. -/
def reqWord (off : Nat) : SrvM Word := do
  let s ← Prog.ask
  pure (s.fs.req.load32 off)

/-- `req_path`, made sure it is null-terminated. -/
def reqPath : SrvM (List (BitVec 8)) := do
  let s ← Prog.ask
  pure (((List.range (MAXPATHLEN - 1)).map s.fs.req).takeWhile (· != 0))

/-! ## Requests -/

/-- The file `serve_open` opens. -/
def openPath (path : List (BitVec 8)) (omode : Word) :
    FsM (Except Word FilePtr) := do
  if omode &&& O_CREAT ≠ 0 then
    match ← fileCreate path with
    | .ok f => pure (.ok f)
    | .error r =>
        if omode &&& O_EXCL = 0 ∧ r = -E_FILE_EXISTS then
          fileOpen path
        else
          pure (.error r)
  else
    fileOpen path

/-- Open `req_path` in mode `req_omode`: the code, and the Fd page to return. -/
def serveOpen : SrvM (Word × Option Nat) := do
  let path ← reqPath
  match ← openfileAlloc with
  | (r, none) => pure (r, none)
  | (r, some i) =>
      if r.slt 0 then
        pure (r, none)
      else
        let omode ← reqWord MAXPATHLEN
        match ← inFs (openPath path omode) with
        | .error r => pure (r, none)
        | .ok f =>
            let truncated ←
              if omode &&& O_TRUNC ≠ 0 then inFs (fileSetSize f 0) else
                pure (.ok ())
            match truncated with
            | .error r => pure (r, none)
            | .ok () =>
                Prog.update fun s => s.setOpen i
                  { s.opentab i with oFile := some f, oMode := omode }
                let s ← Prog.ask
                setFdWord i 12 (s.opentab i).oFileid
                setFdWord i 8 (omode &&& O_ACCMODE)
                setFdWord i 0 DEVFILE
                pure (0, some i)

/-- Set the size of `req_fileid` to `req_size` bytes. -/
def serveSetSize : SrvM Word := do
  match ← openfileLookup (← reqWord 0) with
  | .error r => pure r
  | .ok i =>
      let f ← oFile i
      let size ← reqWord 4
      pure (statusOf (← inFs (fileSetSize f size)))

/-- `req_n`, limited to a page. -/
def reqN : SrvM Word := do
  let n ← reqWord 4
  pure (if n < BitVec.ofNat 32 PGSIZE then n else BitVec.ofNat 32 PGSIZE)

/-- What `serve_read` and `serve_write` share: `io` moves up to `n` bytes at the
seek position, which advances by what it returns. -/
def serveIo (io : FilePtr → Word → Word → FsM (Except Word Word)) :
    SrvM Word := do
  match ← openfileLookup (← reqWord 0) with
  | .error r => pure r
  | .ok i =>
      let n ← reqN
      let f ← oFile i
      let offset ← fdWord i 4
      match ← inFs (io f n offset) with
      | .error r => pure r
      | .ok r =>
          setFdWord i 4 ((← fdWord i 4) + r)
          pure r

/-- The address of the request page. -/
def FSREQ : Int := -BLKSIZE

/-- Read at most `req_n` bytes from the current seek position into `ret_buf`. -/
def serveRead : SrvM Word := serveIo fun f n offset => fileRead f FSREQ n offset

/-- `serve_write` with `move` for `memmove`. -/
def serveWriteBy (move : Int → Int → Nat → FsM Unit) : SrvM Word :=
  serveIo fun f n offset =>
    fileWriteBy (fun _ g => g) move f (FSREQ + 8) n offset

/-- Write `req_n` bytes from `req_buf` at the current seek position. -/
def serveWrite : SrvM Word := serveWriteBy memmove

/-- The length of the string at address `a`, if it ends within `n` bytes. -/
def Fs.strlen (s : Fs) : Nat → Int → Nat
  | 0, _ => 0
  | n + 1, a => if s.byteAt a = 0 then 0 else s.strlen n (a + 1) + 1

/-- `strcpy(dst, src)`. -/
def strcpy (dst src : Int) : FsM Unit := do
  let s ← Prog.ask
  memmove dst src (s.strlen DISKSIZE src + 1)

/-- A store of the word `v` to offset `off` of the request page. -/
def writeReq (off : Nat) (v : Word) : FsM Unit :=
  Prog.update fun s => { s with req := s.req.store32 off v }

/-- Store the `struct Stat` of `f` in the request page. -/
def statFile (f : FilePtr) : FsM Unit := do
  touch f.blk
  strcpy FSREQ (BLKSIZE * f.blk + 4 * f.off)
  writeReq 128 (← readWord f.blk (f.off + 32))
  writeReq 132 (if (← readWord f.blk (f.off + 33)) = FTYPE_DIR then 1 else 0)

/-- Stat `req_fileid`. -/
def serveStat : SrvM Word := do
  match ← openfileLookup (← reqWord 0) with
  | .error r => pure r
  | .ok i =>
      let f ← oFile i
      inFs (statFile f)
      pure 0

/-- Flush all data and metadata of `req_fileid` to disk. -/
def serveFlush : SrvM Word := do
  match ← openfileLookup (← reqWord 0) with
  | .error r => pure r
  | .ok i =>
      let f ← oFile i
      inFs (fileFlush f)
      pure 0

/-- Remove the file `req_path`. -/
def serveRemove : SrvM Word := do
  let path ← reqPath
  pure (statusOf (← inFs (fileRemove path)))

def serveSync : SrvM Word := do
  inFs fsSync
  pure 0

/-- The handler of request code `req`. -/
def handler (req : Word) : SrvM Word :=
  if req = FSREQ_SET_SIZE then serveSetSize
  else if req = FSREQ_READ then serveRead
  else if req = FSREQ_WRITE then serveWrite
  else if req = FSREQ_STAT then serveStat
  else if req = FSREQ_FLUSH then serveFlush
  else if req = FSREQ_REMOVE then serveRemove
  else if req = FSREQ_SYNC then serveSync
  else pure (-E_INVAL)

/-- The code and the page that the reply to request `req` carries. -/
def serveRequest (req : Word) : SrvM (Word × Option Nat) := do
  if req = FSREQ_OPEN then
    serveOpen
  else
    pure (← handler req, none)

/-- `sys_page_unmap(0, fsreq)`. -/
def unmapReq (s : Server) : Server :=
  match s.arg with
  | none => s
  | some i =>
      { s with arg := none, fdPage :=
        Function.update s.fdPage i (some s.fs.req) }

/-- A turn of the server's loop on request `req` of `whom`. The client of an
open maps the page of the reply if `accept`. -/
def serve (whom req : Word) (accept : Bool) : SrvM Word := do
  let (r, pg) ← serveRequest req
  match pg with
  | none => pure ()
  | some i =>
      if accept then
        Prog.update fun s =>
        { s with held := ⟨whom, i, (s.opentab i).oFileid⟩ :: s.held }
  Prog.update unmapReq
  pure r

/-! ## Clients -/

/-- The server and the request that waits for it: who sent it, and its code. -/
structure World where
  srv : Server
  pending : Option (Word × Word)

inductive Event where
  /-- `env` sends a request with a page of its own. -/
  | send (env req : Word) (page : Bytes)
  /-- `env` sends a request with the Fd page of entry `i`. -/
  | sendFd (env req : Word) (i : Nat)
  /-- The server takes the request. -/
  | serve (accept : Bool)
  /-- The environment of `h` shares its Fd page with `env`. -/
  | share (h : Holding) (env : Word)
  | unmap (h : Holding)
  /-- The environment of `h` writes its Fd page. -/
  | poke (h : Holding) (page : Bytes)
  /-- The kernel runs out of pages, or has some again. -/
  | memory (left : Bool)

/-- A step of the server or of a client. A request without a page is not
answered and changes nothing. -/
inductive World.Step : World → Event → World → Prop where
  | send {w env req page} : w.pending = none →
      World.Step w (.send env req page)
        { srv := { w.srv with fs := { w.srv.fs with req := page } },
          pending := some (env, req) }
  | sendFd {w env req i h p} : w.pending = none → h ∈ w.srv.held → h.env = env →
      h.entry = i → w.srv.fdPage i = some p →
      World.Step w (.sendFd env req i)
        { srv := { w.srv with fs := { w.srv.fs with req := p }, arg := some i },
          pending := some (env, req) }
  | serve {w env req accept r s} : w.pending = some (env, req) →
      Jos.serve env req accept w.srv = .ret r s →
      World.Step w (.serve accept) { srv := s, pending := none }
  | share {w h env} : h ∈ w.srv.held →
      World.Step w (.share h env)
        { w with srv := { w.srv with held := { h with env := env } ::
        w.srv.held } }
  | unmap {w h} : h ∈ w.srv.held →
      World.Step w (.unmap h) { w with
      srv := { w.srv with held := w.srv.held.erase h } }
  | poke {w h page} : h ∈ w.srv.held →
      World.Step w (.poke h page) { w with srv := w.srv.setFd h.entry page }
  | memory {w left} :
      World.Step w (.memory left)
      { w with srv := { w.srv with memory := left } }

end Jos
