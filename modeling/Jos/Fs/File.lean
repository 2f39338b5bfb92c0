import Jos.Fs.Disk

/-!
# Files

fs/fs.c: the bitmap, the block pointers of a file, directories and paths, and
the operations on files. A `struct File *` is the block it is in and the word of
the block it starts at; the fields are words, except for the name. A path or a
name is the list of its characters without the terminating zero. `Except`
carries the negative codes.
-/

namespace Jos

/-- A `struct File *`. -/
structure FilePtr where
  blk : Nat
  off : Nat
deriving DecidableEq

/-- `&super->s_root`. -/
def ROOT : FilePtr := ⟨1, 2⟩

/-- The `j`th `struct File` of block `b`. -/
def slot (b j : Nat) : FilePtr := ⟨b, 64 * j⟩

namespace PhysMem

def fSize (m : PhysMem) (f : FilePtr) : Word := m.entry f.blk (f.off + 32)
def fType (m : PhysMem) (f : FilePtr) : Word := m.entry f.blk (f.off + 33)
def fDirect (m : PhysMem) (f : FilePtr) (i : Nat) : Word :=
  m.entry f.blk (f.off + 34 + i)
def fIndirect (m : PhysMem) (f : FilePtr) : Word := m.entry f.blk (f.off + 44)

/-- `f->f_name[i]`. -/
def fName (m : PhysMem) (f : FilePtr) (i : Nat) : BitVec 8 :=
  m f.blk (4 * f.off + i)

end PhysMem

/-- `(n + BLKSIZE - 1) / BLKSIZE` in the arithmetic of `off_t`. -/
def roundBlocks (n : Word) : Word := (n + 4095#32).sdiv 4096#32

/-- `MIN(a, b)`, where one of the two is unsigned. -/
def minWord (a b : Word) : Word := if a ≤ b then a else b

/-! ## Free block bitmap -/

def blockIsFree (blockno : Nat) : FsM Bool := do
  let s ← Prog.ask
  if s.mem.nblocks ≤ blockno then
    pure false
  else
    let w ← readWord (PhysMem.bitmapAt blockno).1 (PhysMem.bitmapAt blockno).2
    pure (w.getLsbD (blockno % 32))

/-- Mark a block free in the bitmap. -/
def freeBlock (blockno : Word) : FsM Unit := do
  if blockno = 0 then
    Prog.halt (.panic "attempt to free zero block")
  else
    let a := PhysMem.bitmapAt blockno.toNat
    let w ← readWord a.1 a.2
    writeWord a.1 a.2 (w ||| 1#32 <<< (blockno.toNat % 32))

/-- The loop of `alloc_block` from block `blockno` on, for `n` blocks. -/
def allocBlockFrom : Nat → Nat → FsM (Except Word Word)
  | 0, _ => pure (.error (-E_NO_DISK))
  | n + 1, blockno => do
      if ← blockIsFree blockno then
        let a := PhysMem.bitmapAt blockno
        let w ← readWord a.1 a.2
        writeWord a.1 a.2 (w &&& ~~~(1#32 <<< (blockno % 32)))
        flushBlock 2
        pure (.ok (BitVec.ofNat 32 blockno))
      else
        allocBlockFrom n (blockno + 1)

/-- Allocate the first free block. -/
def allocBlock : FsM (Except Word Word) := do
  let s ← Prog.ask
  allocBlockFrom s.mem.nblocks 0

/-! ## File system structures -/

/-- Allocate a block for the pointer in word `a.2` of block `a.1`, and clear
it. -/
def allocInto (a : Nat × Nat) : FsM (Except Word Unit) := do
  match ← allocBlock with
  | .error r => pure (.error r)
  | .ok r =>
      writeWord a.1 a.2 r
      clearBlock (← diskaddr (← readWord a.1 a.2))
      flushBlock (← diskaddr (← readWord a.1 a.2))
      pure (.ok ())

/-- The place of `f->f_indirect`. -/
def FilePtr.indirectAt (f : FilePtr) : Nat × Nat := (f.blk, f.off + 44)

/-- The place of the block number of the `filebno`th block of `f`; with
`alloc`, after an indirect block has been allocated if need be. -/
def fileBlockWalk (f : FilePtr) (filebno : Word) (alloc : Bool) :
    FsM (Except Word (Nat × Nat)) := do
  if NDIRECT + NINDIRECT ≤ filebno.toNat then
    pure (.error (-E_INVAL))
  else if filebno.toNat < NDIRECT then
    pure (.ok (f.blk, f.off + 34 + filebno.toNat))
  else
    if (← readWord f.blk (f.off + 44)) = 0 then
      if ¬alloc then
        pure (.error (-E_NOT_FOUND))
      else
        match ← allocInto f.indirectAt with
        | .error r => pure (.error r)
        | .ok () =>
            let b ← diskaddr (← readWord f.blk (f.off + 44))
            pure (.ok (b, filebno.toNat - NDIRECT))
    else
      let b ← diskaddr (← readWord f.blk (f.off + 44))
      pure (.ok (b, filebno.toNat - NDIRECT))

/-- The `filebno`th block of `f`, which is allocated if it does not exist. -/
def fileGetBlock (f : FilePtr) (filebno : Word) : FsM (Except Word Nat) := do
  match ← fileBlockWalk f filebno true with
  | .error r => pure (.error r)
  | .ok a =>
      if (← readWord a.1 a.2) = 0 then
        match ← allocInto a with
        | .error r => pure (.error r)
        | .ok () =>
            let b ← diskaddr (← readWord a.1 a.2)
            pure (.ok b)
      else
        let b ← diskaddr (← readWord a.1 a.2)
        pure (.ok b)

/-! ## File contents -/

/-- The loop that `file_read` and `file_write` share, with `get` for
`file_get_block`: `move a p n` moves `n` bytes between address `a` of the disk
map and address `p` of the buffer. Every turn moves at least one byte. -/
def moveLoop {σ : Type} (get : Word → Prog σ Stop (Except Word Nat))
    (move : Int → Int → Nat → Prog σ Stop Unit) (stop : Word) :
    Nat → Word → Int → Prog σ Stop (Except Word Unit)
  | 0, _, _ => pure (.ok ())
  | n + 1, pos, buf => do
      if pos < stop then
        match ← get (pos.sdiv 4096#32) with
        | .error r => pure (.error r)
        | .ok blk =>
            let bn := minWord (4096#32 - pos.srem 4096#32) (stop - pos)
            move (BLKSIZE * blk + (pos.srem 4096#32).toInt) buf bn.toNat
            moveLoop get move stop n (pos + bn) (buf + bn.toInt)
      else
        pure (.ok ())

/-- The loop over a buffer that the file server can address. -/
def fileLoop (f : FilePtr) (move : Int → Int → Nat → FsM Unit) (stop : Word) :
    Nat → Word → Int → FsM (Except Word Unit) :=
  moveLoop (fileGetBlock f) move stop

/-- `file_read`, wherever the buffer is: `up` runs what concerns the disk map
alone, `move` is `memmove(buf, blk, n)`. -/
def fileReadBy {σ : Type} (up : (α : Type) → FsM α → Prog σ Stop α)
    (move : Int → Int → Nat → Prog σ Stop Unit) (f : FilePtr) (buf : Int)
    (count offset : Word) : Prog σ Stop (Except Word Word) := do
  let size ← up _ (readWord f.blk (f.off + 32))
  if size.sle offset then
    pure (.ok 0)
  else
    let count := minWord count (size - offset)
    match ← moveLoop (fun k => up _ (fileGetBlock f k)) move (offset + count)
        count.toNat offset buf with
    | .error r => pure (.error r)
    | .ok () => pure (.ok count)

/-- Read `count` bytes from `f` into `buf`, starting from `offset`. -/
def fileRead (f : FilePtr) (buf : Int) (count offset : Word) :
    FsM (Except Word Word) :=
  fileReadBy (fun _ g => g) (fun a p n => memmove p a n) f buf count offset

/-- Remove a block from file `f`. If it is not there, just silently succeed. -/
def fileFreeBlock (f : FilePtr) (filebno : Word) : FsM (Except Word Unit) := do
  match ← fileBlockWalk f filebno false with
  | .error r => pure (.error r)
  | .ok a =>
      let b ← readWord a.1 a.2
      if b ≠ 0 then
        freeBlock b
        writeWord a.1 a.2 0
      pure (.ok ())

/-- Free the blocks that a file of size `newsize` does not need. -/
def fileTruncateBlocks (f : FilePtr) (newsize : Word) : FsM Unit := do
  let oldNblocks := roundBlocks (← readWord f.blk (f.off + 32))
  let newNblocks := roundBlocks newsize
  Prog.forUp (oldNblocks.toNat - newNblocks.toNat) fun i => do
    -- an error is only a warning on the console
    let _ ← fileFreeBlock f (newNblocks + BitVec.ofNat 32 i)
  let ind ← readWord f.blk (f.off + 44)
  if newNblocks.toNat ≤ NDIRECT ∧ ind ≠ 0 then
    freeBlock ind
    writeWord f.blk (f.off + 44) 0

/-- Set the size of file `f`, truncating or extending as necessary. -/
def fileSetSize (f : FilePtr) (newsize : Word) : FsM (Except Word Unit) := do
  let size ← readWord f.blk (f.off + 32)
  if newsize.slt size then
    fileTruncateBlocks f newsize
  writeWord f.blk (f.off + 32) newsize
  flushBlock f.blk
  pure (.ok ())

section

variable {σ : Type} (up : (α : Type) → FsM α → Prog σ Stop α)
  (move : Int → Int → Nat → Prog σ Stop Unit) (f : FilePtr) (buf : Int)
  (count offset : Word)

/-- The end of `file_write`, from its loop on. -/
def fillLoop : Prog σ Stop (Except Word Word) := do
  match ← moveLoop (fun k => up _ (fileGetBlock f k)) move (offset + count)
      count.toNat offset buf with
  | .error r => pure (.error r)
  | .ok () => pure (.ok count)

/-- `file_write`, wherever the buffer is, with `move` for `memmove(blk, buf,
n)`. -/
def fileWriteBy : Prog σ Stop (Except Word Word) := do
  let size ← up _ (readWord f.blk (f.off + 32))
  let extended ←
    if size < offset + count then up _ (fileSetSize f (offset + count))
    else pure (.ok ())
  match extended with
  | .error r => pure (.error r)
  | .ok () => fillLoop up move f buf count offset

end

/-- Write `count` bytes from `buf` into `f`, starting at `offset`. -/
def fileWrite (f : FilePtr) (buf : Int) (count offset : Word) :
    FsM (Except Word Word) :=
  fileWriteBy (fun _ g => g) memmove f buf count offset

/-- Flush the contents and metadata of file `f` out to disk. -/
def fileFlush (f : FilePtr) : FsM Unit := do
  let size ← readWord f.blk (f.off + 32)
  Prog.forUp (roundBlocks size).toInt.toNat fun i => do
    match ← fileBlockWalk f (BitVec.ofNat 32 i) false with
    | .error _ => pure ()
    | .ok a =>
        let b ← readWord a.1 a.2
        if b ≠ 0 then
          flushBlock (← diskaddr b)
  flushBlock f.blk
  let ind ← readWord f.blk (f.off + 44)
  if ind ≠ 0 then
    flushBlock (← diskaddr ind)

/-! ## Directories -/

/-- `strcmp(b + i, name) == 0`. -/
def strEq (b : Bytes) (i : Nat) : List (BitVec 8) → Bool
  | [] => b i == 0
  | c :: cs => b i == c && strEq b (i + 1) cs

/-- The panic of the assertion in `dir_lookup` and `dir_alloc_file`. -/
def Stop.dirSize : Stop :=
  .panic "assertion failed: (dir->f_size % BLKSIZE) == 0"

/-- The search that `dir_lookup` and `dir_alloc_file` share: the first of `n`
blocks from the `i`th on with a file that `p` holds of. -/
def dirSearch (dir : FilePtr) (p : PhysMem → FilePtr → Bool) :
    Nat → Nat → FsM (Except Word (Option FilePtr))
  | 0, _ => pure (.ok none)
  | n + 1, i => do
      match ← fileGetBlock dir (BitVec.ofNat 32 i) with
      | .error r => pure (.error r)
      | .ok blk =>
          touch blk
          let s ← Prog.ask
          match (List.range BLKFILES).find? fun j => p s.mem (slot blk j) with
          | some j => pure (.ok (some (slot blk j)))
          | none => dirSearch dir p n (i + 1)

/-- The number of blocks of `dir`, whose size is asserted to be a multiple of
the block size. -/
def dirNblock (dir : FilePtr) : FsM Nat := do
  let size ← readWord dir.blk (dir.off + 32)
  if size.srem 4096#32 ≠ 0 then
    Prog.halt .dirSize
  else
    pure (size.sdiv 4096#32).toNat

/-- Try to find a file named `name` in `dir`. -/
def dirLookup (dir : FilePtr) (name : List (BitVec 8)) :
    FsM (Except Word FilePtr) := do
  let nblock ← dirNblock dir
  let named := fun m f => strEq (m f.blk) (4 * f.off) name
  match ← dirSearch dir named nblock 0 with
  | .error r => pure (.error r)
  | .ok (some f) => pure (.ok f)
  | .ok none => pure (.error (-E_NOT_FOUND))

/-- Find a free `struct File` in `dir`. -/
def dirAllocFile (dir : FilePtr) : FsM (Except Word FilePtr) := do
  let nblock ← dirNblock dir
  match ← dirSearch dir (fun m f => m.fName f 0 == 0) nblock 0 with
  | .error r => pure (.error r)
  | .ok (some f) => pure (.ok f)
  | .ok none => do
      let size ← readWord dir.blk (dir.off + 32)
      writeWord dir.blk (dir.off + 32) (size + 4096#32)
      match ← fileGetBlock dir (BitVec.ofNat 32 nblock) with
      | .error r => pure (.error r)
      | .ok blk => pure (.ok (slot blk 0))

/-! ## Paths -/

/-- The slash. -/
def SLASH : BitVec 8 := 0x2F#8

def skipSlash : List (BitVec 8) → List (BitVec 8) := List.dropWhile (· == SLASH)

/-- What `walk_path` returns and stores. -/
inductive Walk where
  /-- 0, with `*pdir` and `*pf`. -/
  | found (pdir : Option FilePtr) (pf : FilePtr)
  /-- `-E_NOT_FOUND`, with `*pdir` and `lastelem`. -/
  | missing (pdir : FilePtr) (lastelem : List (BitVec 8))
  /-- A negative code, with `*pdir` null. -/
  | error (r : Word)

/-- The loop of `walk_path` at `f`, which is in `dir`, for `n` characters. -/
def walkPathFrom : Nat → List (BitVec 8) → Option FilePtr → FilePtr → FsM Walk
  | 0, _, dir, f => pure (.found dir f)
  | n + 1, path, dir, f => do
      if path = [] then
        pure (.found dir f)
      else
        let name := path.takeWhile (· != SLASH)
        if MAXNAMELEN ≤ name.length then
          pure (.error (-E_BAD_PATH))
        else
          let path := skipSlash (path.dropWhile (· != SLASH))
          if (← readWord f.blk (f.off + 33)) ≠ FTYPE_DIR then
            pure (.error (-E_NOT_FOUND))
          else
            match ← dirLookup f name with
            | .error r =>
                if r = -E_NOT_FOUND ∧ path = [] then
                  pure (.missing f name)
                else
                  pure (.error r)
            | .ok g => walkPathFrom n path (some f) g

/-- Evaluate a path name, starting at the root. -/
def walkPath (path : List (BitVec 8)) : FsM Walk :=
  walkPathFrom path.length (skipSlash path) none ROOT

/-! ## File operations -/

/-- `strcpy(f->f_name, name)`. -/
def setName (f : FilePtr) (name : List (BitVec 8)) : FsM Unit := do
  touch f.blk
  Prog.update fun s => s.store f.blk
    ((s.mem f.blk).copy (4 * f.off) (name.getD · 0) 0 (name.length + 1))

/-- Create `path`. When `dir_alloc_file` fails, `r` is still the code of
`walk_path`. -/
def fileCreate (path : List (BitVec 8)) : FsM (Except Word FilePtr) := do
  match ← walkPath path with
  | .found _ _ => pure (.error (-E_FILE_EXISTS))
  | .error r => pure (.error r)
  | .missing dir name =>
      match ← dirAllocFile dir with
      | .error _ => pure (.error (-E_NOT_FOUND))
      | .ok f =>
          setName f name
          fileFlush dir
          pure (.ok f)

/-- Open `path`. -/
def fileOpen (path : List (BitVec 8)) : FsM (Except Word FilePtr) := do
  match ← walkPath path with
  | .found _ f => pure (.ok f)
  | .missing _ _ => pure (.error (-E_NOT_FOUND))
  | .error r => pure (.error r)

/-- Remove a file by truncating it and then zeroing the name. -/
def fileRemove (path : List (BitVec 8)) : FsM (Except Word Unit) := do
  match ← fileOpen path with
  | .error r => pure (.error r)
  | .ok f =>
      fileTruncateBlocks f 0
      setName f []
      writeWord f.blk (f.off + 32) 0
      flushBlock f.blk
      pure (.ok ())

/-- Sync the entire file system. -/
def fsSync : FsM Unit := do
  let s ← Prog.ask
  Prog.forUp (s.mem.nblocks - 1) fun i => do
    flushBlock (← diskaddr (BitVec.ofNat 32 (i + 1)))

end Jos
