import Jos.Fs.File

/-!
# Making a disk

fs/fsformat.c, which runs on the host: the image in `diskmap`, what is allocated
of it from the start on, and the array of directory entries from `malloc`, which
has arbitrary contents. `ROUNDUP` is computed in the type of its argument. Where
a `struct File` is in one of the two memories is its address. A store past the
map is a fault of the host.
-/

namespace Jos

def FS_MAGIC : Word := 0x4A0530AE#32
def MAX_DIR_ENTS : Nat := 128

/-- A file of the host, and the bytes that `read` gives at a place in it when it
is asked for some. -/
structure HostFile where
  path : List (BitVec 8)
  regular : Bool
  size : Nat
  data : Bytes
  read : Nat → Nat → Nat

/-- The state of `fsformat`. -/
structure Fmt where
  nblocks : Word
  diskmap : Bytes
  /-- `diskpos - diskmap`. -/
  diskpos : Nat
  /-- The memory at `root.ents`. -/
  ents : Bytes
  /-- `root.n`. -/
  n : Nat

inductive FmtStop where
  | panic (msg : String)
  | usage
  | segv
deriving DecidableEq

abbrev FmtM (α : Type) : Type := Prog Fmt FmtStop α

/-- A `struct File *`: `&super->s_root`, or `&root.ents[i]`. -/
inductive FileAt where
  | root
  | ent (i : Nat)

/-- `blockof`. -/
def blockof (pos : Nat) : Word := BitVec.ofNat 32 (pos / BLKSIZE)

/-- `ROUNDUP(n, BLKSIZE)` of a `uint32_t`. -/
def roundUp (n : Word) : Word := n - 1 + 4096#32 - (n - 1) % 4096#32

/-- `ROUNDUP(n, BLKSIZE)` of an `int`. -/
def roundUpInt (n : Word) : Word := n - 1 + 4096#32 - (n - 1).srem 4096#32

/-- The part of a path after its last slash. -/
def baseName (path : List (BitVec 8)) : List (BitVec 8) :=
  (path.reverse.takeWhile (· != SLASH)).reverse

namespace Fmt

/-- `alloc`. -/
def alloc (bytes : Word) : FmtM Nat := do
  let s ← Prog.ask
  Prog.update fun s => { s with diskpos := s.diskpos + (roundUp bytes).toNat }
  if s.nblocks ≤ blockof (s.diskpos + (roundUp bytes).toNat) then
    Prog.halt (.panic "out of disk blocks")
  else
    pure s.diskpos

/-- A store to the `n` bytes at `pos` of the map. -/
def inMap (pos n : Nat) (g : Bytes → Bytes) : FmtM Unit := do
  let s ← Prog.ask
  if s.nblocks.toNat * BLKSIZE < pos + n then
    Prog.halt .segv
  else
    Prog.update fun s => { s with diskmap := g s.diskmap }

/-- A store to the `n` bytes from byte `off` of a `struct File` on. The store is
given the address of the byte. -/
def inFile (f : FileAt) (off n : Nat) (g : Nat → Bytes → Bytes) : FmtM Unit :=
  match f with
  | .root => inMap (BLKSIZE + 8 + off) n (g (BLKSIZE + 8 + off))
  | .ent i => Prog.update fun s => { s with ents := g (256 * i + off) s.ents }

/-- Store to word `i` of a `struct File`. -/
def setWord (f : FileAt) (i : Nat) (v : Word) : FmtM Unit :=
  inFile f (4 * i) 4 fun a b => b.store32 a v

/-- `strcpy(f->f_name, name)`. -/
def copyFileName (f : FileAt) (name : List (BitVec 8)) : FmtM Unit :=
  inFile f 0 (name.length + 1) fun a b =>
    b.copy a (name.getD · 0) 0 (name.length + 1)

/-- `opendisk`, without what it does to the host's file. -/
def opendisk (nblocks : Word) (ents : Bytes) : FmtM Unit := do
  Prog.update fun _ => ⟨nblocks, fun _ => 0, 0, ents, 0⟩
  let _ ← alloc 4096
  let super ← alloc 4096
  inMap super 4 fun b => b.store32 super FS_MAGIC
  inMap (super + 4) 4 fun b => b.store32 (super + 4) nblocks
  setWord .root 33 FTYPE_DIR
  copyFileName .root [SLASH]
  let nbitblocks := (nblocks.toNat + BLKBITSIZE - 1) / BLKBITSIZE
  let bitmap ← alloc (BitVec.ofNat 32 nbitblocks)
  inMap bitmap (nbitblocks * BLKSIZE) fun b =>
  b.fill bitmap (nbitblocks * BLKSIZE) 0xFF

/-- `finishdisk`. -/
def finishdisk : FmtM Unit := do
  let s ← Prog.ask
  Prog.forUp (blockof s.diskpos).toNat fun i =>
    inMap (2 * BLKSIZE + 4 * (i / 32)) 4 fun b =>
      b.store32 (2 * BLKSIZE + 4 * (i / 32))
        (b.load32 (2 * BLKSIZE + 4 * (i / 32)) &&& ~~~(1#32 <<< (i % 32)))

/-- `finishfile`. -/
def finishfile (f : FileAt) (start len : Word) : FmtM Unit := do
  setWord f 32 len
  let n := (roundUp len).toNat / BLKSIZE
  Prog.forUp (min n NDIRECT) fun i =>
  setWord f (34 + i) (start + BitVec.ofNat 32 i)
  if NDIRECT ≤ n then
    let ind ← alloc 4096
    setWord f 44 (blockof ind)
    Prog.forUp (n - NDIRECT) fun i =>
      inMap (ind + 4 * i) 4 fun b =>
        b.store32 (ind + 4 * i) (start + BitVec.ofNat 32 (NDIRECT + i))

/-- `diradd`. -/
def diradd (type : Word) (name : List (BitVec 8)) : FmtM FileAt := do
  let s ← Prog.ask
  Prog.update fun s => { s with n := s.n + 1 }
  if MAX_DIR_ENTS < s.n + 1 then
    Prog.halt (.panic "too many directory entries")
  else
    copyFileName (.ent s.n) name
    setWord (.ent s.n) 33 type
    pure (.ent s.n)

/-- `finishdir`. -/
def finishdir : FmtM Unit := do
  let s ← Prog.ask
  let size := BitVec.ofNat 32 (s.n * 256)
  let start ← alloc size
  inMap start size.toNat fun b => b.copy start s.ents 0 size.toNat
  finishfile .root (blockof start) (roundUpInt size)

/-- The loop of `readn` at `p`. A negative result of `read` is not noticed. -/
def readnFrom (h : HostFile) (out n : Nat) : Nat → Nat → FmtM Unit
  | 0, _ => pure ()
  | fuel + 1, p => do
      if p < n then
        let m := h.read p (n - p)
        inMap (out + p) m fun b => b.copy (out + p) h.data p m
        if m = 0 then
          Prog.halt (.panic "read: Unexpected EOF")
        else
          readnFrom h out n fuel (p + m)

/-- `writefile` of a file that the host can open. -/
def writefile (h : HostFile) : FmtM Unit := do
  if h.regular = false then
    Prog.halt (.panic "%s is not a regular file")
  else if MAXFILESIZE ≤ h.size then
    Prog.halt (.panic "%s too large")
  else
    let f ← diradd FTYPE_REG (baseName h.path)
    let start ← alloc (BitVec.ofNat 32 h.size)
    readnFrom h start h.size h.size 0
    finishfile f (blockof start) (BitVec.ofNat 32 h.size)

def writefiles : List HostFile → FmtM Unit
  | [] => pure ()
  | h :: hs => do
      writefile h
      writefiles hs

/-- `main`, after it has read its arguments. `ents` is what `malloc` finds. -/
def fsformat (nblocks : Word) (ents : Bytes) (files : List HostFile) :
    FmtM Unit := do
  if nblocks < 2 ∨ 1024#32 < nblocks then
    Prog.halt .usage
  else
    opendisk nblocks ents
    writefiles files
    finishdir
    finishdisk

/-- The image as blocks. -/
def image (s : Fmt) : PhysMem := fun b j => s.diskmap (BLKSIZE * b + j)

end Fmt

end Jos
