import Jos.Kern.State

/-!
# The disk and the block cache

The constants of inc/fs.h and fs/fs.h, and fs/bc.c: the disk, the pages of the
disk map that are mapped so far, and the accesses to them, which fault in a
block at its first use. The state is the one after `fs_init`, with `super`
and `bitmap` set and the blocks 1 and 2 they point to mapped. Without memory
for a block `bc_pgfault` panics; the model has memory.

An address is an offset from `DISKMAP`, so the page below it, where the server
receives its requests, has the addresses from -4096 to -1.
-/

namespace Jos

/-! ## Constants -/

def E_NO_DISK : Word := 9#32
def E_MAX_OPEN : Word := 10#32
def E_NOT_FOUND : Word := 11#32
def E_BAD_PATH : Word := 12#32
def E_FILE_EXISTS : Word := 13#32

def BLKSIZE : Nat := PGSIZE
def BLKBITSIZE : Nat := BLKSIZE * 8
def MAXNAMELEN : Nat := 128
def MAXPATHLEN : Nat := 1024
def NDIRECT : Nat := 10
def NINDIRECT : Nat := BLKSIZE / 4
def MAXFILESIZE : Nat := (NDIRECT + NINDIRECT) * BLKSIZE
def BLKFILES : Nat := BLKSIZE / 256
def FTYPE_REG : Word := 0#32
def FTYPE_DIR : Word := 1#32
def DISKSIZE : Nat := 0xC0000000

/-! ## State -/

/-- The memory of the file server that its files live in. -/
structure Fs where
  /-- The blocks on the disk. -/
  disk : PhysMem
  /-- The blocks that are mapped. -/
  cache : Nat → Option Bytes
  /-- `PTE_D` of a mapped block. -/
  dirty : Nat → Bool
  /-- The page at `fsreq`. -/
  req : Bytes

/-- A computation of the file server. -/
abbrev FsM (α : Type) : Type := Prog Fs Stop α

namespace PhysMem

/-- `super->s_nblocks`. -/
def nblocks (m : PhysMem) : Nat := (m.entry 1 1).toNat

/-- The block and the word in it that holds the bit of block `b`. -/
def bitmapAt (b : Nat) : Nat × Nat := (2 + b / 32 / 1024, b / 32 % 1024)

/-- `bitmap[b/32] & (1 << (b%32))`: the block is free. -/
def bit (m : PhysMem) (b : Nat) : Bool :=
  (m.entry (bitmapAt b).1 (bitmapAt b).2).getLsbD (b % 32)

/-- What `block_is_free` returns. -/
def isFree (m : PhysMem) (b : Nat) : Bool := decide (b < m.nblocks) && m.bit b

end PhysMem

namespace Fs

/-- The disk map: what is mapped, or what a fault would read from the disk. -/
def mem (s : Fs) : PhysMem := fun b => (s.cache b).getD (s.disk b)

/-- Map block `b`, as it is on the disk. `ide_read` stores to the page, which
sets `PTE_D`. -/
def load (b : Nat) (s : Fs) : Fs :=
  { s with
    cache := Function.update s.cache b (some (s.disk b))
    dirty := Function.update s.dirty b true }

/-- A store to the mapped block `b`, which holds `p` afterwards. -/
def store (b : Nat) (p : Bytes) (s : Fs) : Fs :=
  { s with
    cache := Function.update s.cache b (some p)
    dirty := Function.update s.dirty b true }

/-- The byte at address `a`. -/
def byteAt (s : Fs) (a : Int) : BitVec 8 :=
  if a < 0 then s.req (a + BLKSIZE).toNat
  else s.mem (a / BLKSIZE).toNat (a % BLKSIZE).toNat

/-- A store of `data` to the `n` bytes at `dst`. -/
def poke (dst : Int) (n : Nat) (data : Nat → BitVec 8) (s : Fs) : Fs :=
  { s with
    cache := fun b =>
      if dst < BLKSIZE * (b + 1) ∧ BLKSIZE * b < dst + n then
        some fun j =>
          if dst ≤ BLKSIZE * b + j ∧ BLKSIZE * b + j < dst + n then
            data (BLKSIZE * b + j - dst).toNat
          else s.mem b j
      else s.cache b
    dirty := fun b =>
      decide (dst < BLKSIZE * (b + 1) ∧ BLKSIZE * b < dst + n) || s.dirty b
    req := fun j =>
      if dst ≤ (j : Int) - BLKSIZE ∧ (j : Int) - BLKSIZE < dst + n then
        data ((j : Int) - BLKSIZE - dst).toNat
      else s.req j }

end Fs

/-! ## Faults -/

/-- The panic of `bc_pgfault` outside the disk map. -/
def Stop.fsFault : Stop :=
  .panic "page fault in FS: eip %08x, va %08x, err %04x"

/-- An access to block `b`. `bc_pgfault` looks at the bitmap, which may fault in
turn, but the bits of the bitmap blocks are all in block 2: `depth` is how
many more faults there can be. -/
def touchAt : Nat → Nat → FsM Unit
  | 0, _ => pure ()
  | depth + 1, b => do
      let s ← Prog.ask
      if (s.cache b).isSome then
        pure ()
      else if DISKSIZE / BLKSIZE ≤ b then
        Prog.halt .fsFault
      else
        Prog.update (Fs.load b)
        if s.mem.nblocks ≤ b then
          Prog.halt (.panic "reading non-existent block %08x\n")
        else
          touchAt depth (PhysMem.bitmapAt b).1
          let s ← Prog.ask
          if s.mem.isFree b then
            Prog.halt (.panic "reading free block %08x\n")

/-- An access to block `b`, from outside the fault handler. -/
def touch (b : Nat) : FsM Unit := touchAt 2 b

/-- An access to the page with the addresses from `BLKSIZE * p` on. -/
def touchPage (p : Int) : FsM Unit :=
  if p = -1 then pure ()
  else if p < 0 then Prog.halt .fsFault
  else touch p.toNat

/-- An access to all of the `n` bytes at `a`. -/
def touchRange (a : Int) (n : Nat) : FsM Unit :=
  if n = 0 then pure ()
  else
    Prog.forUp ((a + n - 1) / BLKSIZE - a / BLKSIZE + 1).toNat fun i =>
      touchPage (a / BLKSIZE + i)

/-! ## Accesses -/

/-- Read word `i` of block `b`. -/
def readWord (b i : Nat) : FsM Word := do
  touch b
  let s ← Prog.ask
  pure (s.mem.entry b i)

/-- Write word `i` of block `b`. -/
def writeWord (b i : Nat) (v : Word) : FsM Unit := do
  touch b
  Prog.update fun s => s.store b ((s.mem b).store32 (4 * i) v)

/-- `memset(p, 0, BLKSIZE)` for block `b`. -/
def clearBlock (b : Nat) : FsM Unit := do
  touch b
  Prog.update fun s => s.store b ((s.mem b).fill 0 BLKSIZE 0)

/-- `memmove(dst, src, n)`. -/
def memmove (dst src : Int) (n : Nat) : FsM Unit := do
  touchRange src n
  touchRange dst n
  Prog.update fun s => s.poke dst n fun i => s.byteAt (src + i)

/-- The address of a disk block. -/
def diskaddr (blockno : Word) : FsM Nat := do
  let s ← Prog.ask
  if blockno = 0 ∨ s.mem.nblocks ≤ blockno.toNat then
    Prog.halt (.panic "bad block number %08x in diskaddr")
  else
    pure blockno.toNat

/-- Write block `b` out to the disk, if it is mapped and dirty. -/
def flushBlock (b : Nat) : FsM Unit := do
  if DISKSIZE / BLKSIZE ≤ b then
    Prog.halt (.panic "flush_block of bad va %08x")
  else
    Prog.update fun s =>
      if (s.cache b).isSome ∧ s.dirty b then
        { s with
          disk := Function.update s.disk b (s.mem b)
          dirty := Function.update s.dirty b false }
      else s

/-! ## What the server sees -/

namespace Fs

/-- A mapped block whose `PTE_D` is clear has its contents on the disk. -/
def CacheOk (s : Fs) : Prop := ∀ b p, s.cache b = some p → s.dirty b = false →
  p = s.disk b

/-- From `s` to `t` the memory has not changed, and blocks of `F` only were
written out. -/
structure Wrote (F : Nat → Prop) (s t : Fs) : Prop where
  mem : t.mem = s.mem
  req : t.req = s.req
  disk : ∀ b, t.disk b = s.disk b ∨ F b ∧ t.disk b = s.mem b
  ok : s.CacheOk → t.CacheOk

variable {s s₀ t : Fs} {m : PhysMem} {q : Bytes} {b : Nat} {p : Bytes}
  {F G : Nat → Prop}

theorem mem_load (h : ¬(s.cache b).isSome) : (s.load b).mem = s.mem := by
  have hn := Option.not_isSome_iff_eq_none.mp h
  funext c
  by_cases hc : c = b
  · subst hc
    simp [Fs.mem, load, hn]
  · simp [Fs.mem, load, Function.update_of_ne hc]

@[simp] theorem mem_store : (s.store b p).mem = Function.update s.mem b p := by
  funext c
  by_cases hc : c = b
  · subst hc
    simp [Fs.mem, store]
  · simp [Fs.mem, store, Function.update_of_ne hc]

/-- A store to a range of addresses changes the bytes in the range. -/
theorem mem_poke {dst : Int} {n : Nat} {data : Nat → BitVec 8} {c j : Nat}
    (hj : j < BLKSIZE) : (s.poke dst n data).mem c j =
      if dst ≤ BLKSIZE * c + j ∧ BLKSIZE * c + j < dst + n then
        data (BLKSIZE * c + j - dst).toNat
      else s.mem c j := by
  by_cases hc : dst < BLKSIZE * (c + 1) ∧ BLKSIZE * c < dst + n
  · simp [Fs.mem, poke, hc]
  · rw [if_neg (by simp only [BLKSIZE, PGSIZE] at hc hj ⊢; omega)]
    simp [Fs.mem, poke, hc]

theorem disk_poke {dst : Int} {n : Nat} {data : Nat → BitVec 8} :
    (s.poke dst n data).disk = s.disk := rfl

theorem CacheOk.load (h : s.CacheOk) : (s.load b).CacheOk := by
  intro c p hp hd
  by_cases hc : c = b
  · subst hc
    simp [Fs.load] at hd
  · simp only [Fs.load, Function.update_of_ne hc] at hp hd
    exact h c p hp hd

theorem CacheOk.store (h : s.CacheOk) : (s.store b p).CacheOk := by
  intro c p hp hd
  by_cases hc : c = b
  · subst hc
    simp [Fs.store] at hd
  · simp only [Fs.store, Function.update_of_ne hc] at hp hd
    exact h c p hp hd

theorem CacheOk.poke {dst : Int} {n : Nat} {data : Nat → BitVec 8}
    (h : s.CacheOk) :
    (s.poke dst n data).CacheOk := by
  intro c p hp hd
  simp only [Fs.poke, Bool.or_eq_false_iff, decide_eq_false_iff_not] at hp hd
  rw [if_neg hd.1] at hp
  exact h c p hp hd.2

theorem Wrote.refl (F : Nat → Prop) (s : Fs) : s.Wrote F s :=
  ⟨rfl, rfl, fun _ => .inl rfl, id⟩

theorem Wrote.trans (h : s₀.Wrote F s) (h' : s.Wrote F t) : s₀.Wrote F t where
  mem := h'.mem.trans h.mem
  req := h'.req.trans h.req
  disk b := by
    rcases h'.disk b with hb | ⟨hF, hb⟩
    · rw [hb]
      exact h.disk b
    · exact .inr ⟨hF, by rw [hb, h.mem]⟩
  ok hs := h'.ok (h.ok hs)

/-- What is written back stays so. -/
theorem Wrote.synced (h : s.Wrote F t) (hb : s.disk b = s.mem b) :
    t.disk b = t.mem b := by
  rw [h.mem]
  rcases h.disk b with hd | ⟨_, hd⟩
  · rw [hd, hb]
  · exact hd

theorem wrote_load (h : ¬(s.cache b).isSome) : s.Wrote F (s.load b) :=
  ⟨mem_load h, rfl, fun _ => .inl rfl, CacheOk.load⟩

end Fs

/-! ## The bitmap -/

namespace PhysMem

/-- The number of blocks and the bitmap are the same in `m'`. -/
structure SameMap (m m' : PhysMem) : Prop where
  nblocks : m'.nblocks = m.nblocks
  bit : ∀ b, b < m.nblocks → m'.bit b = m.bit b

/-- Block `b` exists and is marked in use. -/
def InUse (m : PhysMem) (b : Nat) : Prop := b < m.nblocks ∧ m.bit b = false

/-- The boot sector, the super-block and the bitmap blocks. -/
def Reserved (m : PhysMem) (b : Nat) : Prop :=
  b < 2 ∨ 2 ≤ b ∧ (b - 2) * BLKBITSIZE < m.nblocks

/-- What `check_super` and `check_bitmap` check. -/
structure MapOk (m : PhysMem) : Prop where
  nblocks_le : m.nblocks ≤ DISKSIZE / BLKSIZE
  inUse : ∀ b, m.Reserved b → m.InUse b

variable {m m' : PhysMem} {b : Nat}

theorem reserved_congr (h : m'.nblocks = m.nblocks) :
    m'.Reserved b ↔ m.Reserved b := by
  simp only [Reserved, h]

theorem isFree_iff : m.isFree b = true ↔ b < m.nblocks ∧ m.bit b = true := by
  simp [isFree]

theorem InUse.not_free (h : m.InUse b) : ¬m.isFree b := by
  simp [isFree_iff, h.2]

theorem bitmapAt_fst (b : Nat) : (bitmapAt b).1 = 2 + b / BLKBITSIZE := by
  simp only [bitmapAt, BLKBITSIZE, BLKSIZE, PGSIZE]
  omega

theorem reserved_bitmapAt (h : b < m.nblocks) : m.Reserved (bitmapAt b).1 := by
  rw [bitmapAt_fst]
  simp only [Reserved, BLKBITSIZE, BLKSIZE, PGSIZE]
  omega

/-- The bits of the first blocks are in block 2. -/
theorem bit_congr (h : m' 2 = m 2) (hb : b < BLKBITSIZE) :
    m'.bit b = m.bit b := by
  have h2 : (bitmapAt b).1 = 2 := by
    rw [bitmapAt_fst, Nat.div_eq_of_lt hb]
  rw [bit, bit, h2, entry_congr h]

theorem MapOk.lt_disksize (hm : m.MapOk) (hb : b < m.nblocks) :
    b < DISKSIZE / BLKSIZE := Nat.lt_of_lt_of_le hb hm.nblocks_le

end PhysMem

/-- The disk map shows `m`, and the request page `q`. What the first block of
the bitmap marks in use is so on the disk, where the others are as in `d`. -/
structure Fs.Shows (d : PhysMem) (s : Fs) (m : PhysMem) (q : Bytes) : Prop where
  mem : s.mem = m
  req : ∀ j, j < BLKSIZE → s.req j = q j
  ok : s.CacheOk
  bits : ∀ b, b < m.nblocks → b < BLKBITSIZE → s.disk.bit b = true →
    m.bit b = true
  late : ∀ c, 3 ≤ c → m.Reserved c → s.disk c = d c

/-! ## Rules of the accesses

An access to a block that is in use is one to a plain memory `m`; `Wrote` is
what any access does that returns. -/

section

open Fs PhysMem

variable {d : PhysMem} {s s₀ t : Fs} {m : PhysMem} {q : Bytes} {b i : Nat}
  {v : Word} {A : Fs → Prop}
  {E : Stop → Fs → Prop} {F : Nat → Prop}

theorem wp_touchAt (n : Nat)
    (hE : ¬(s.mem.MapOk ∧ s.mem.InUse b) → ∀ x t, E x t)
    {Q : Unit → Fs → Prop} (hQ : ∀ t, s.Wrote F t → Q () t) :
    Prog.wp (touchAt n b) Q A E s := by
  induction n generalizing s b Q with
  | zero => exact Prog.wp_pure_intro (hQ s (.refl F s))
  | succ n ih =>
      apply Prog.wp_ask_bind
      refine Prog.wp_ite _ (fun _ => Prog.wp_pure_intro (hQ s (.refl F s)))
        fun hc => ?_
      refine Prog.wp_ite _ (fun hbig => ?_) fun _ => ?_
      · exact Prog.wp_halt_intro (hE (fun h => by
          have := h.1.lt_disksize h.2.1
          omega) _ _)
      apply Prog.wp_update_bind
      have hload := wrote_load (F := F) hc
      refine Prog.wp_ite _ (fun hno => ?_) fun _ => ?_
      · exact Prog.wp_halt_intro (hE (fun h => by
          have := h.2.1
          omega) _ _)
      apply Prog.wp_bind_intro
      refine ih (fun hno => hE fun h => hno ?_) fun t ht => ?_
      · rw [hload.mem]
        exact ⟨h.1, h.1.inUse _ (reserved_bitmapAt h.2.1)⟩
      · apply Prog.wp_ask_bind
        refine Prog.wp_ite _ (fun hfree => ?_) fun _ =>
          Prog.wp_pure_intro (hQ t (hload.trans ht))
        rw [ht.mem, hload.mem] at hfree
        exact Prog.wp_halt_intro (hE (fun h => h.2.not_free hfree) _ _)

/-- The address of a block that exists. -/
theorem wp_blockAddr (hE : v = 0 ∨ s.mem.nblocks ≤ v.toNat → ∀ x, E x s)
    {Q : Nat → Fs → Prop}
    (hQ : v ≠ 0 → v.toNat < s.mem.nblocks → Q v.toNat s) :
    Prog.wp (diskaddr v) Q A E s := by
  apply Prog.wp_ask_bind
  refine Prog.wp_ite _ (fun hno => Prog.wp_halt_intro (hE hno _)) fun hv => ?_
  rw [not_or, Nat.not_le] at hv
  exact Prog.wp_pure_intro (hQ hv.1 hv.2)

/-- Writing a block out. -/
theorem wp_writeOut (hE : DISKSIZE / BLKSIZE ≤ b → ∀ x, E x s) (hF : F b)
    {Q : Unit → Fs → Prop}
    (hQ : ∀ t, s.Wrote F t → (s.CacheOk → t.disk b = t.mem b) → Q () t) :
    Prog.wp (flushBlock b) Q A E s := by
  refine Prog.wp_ite _ (fun hbig => Prog.wp_halt_intro (hE hbig _)) fun _ => ?_
  apply Prog.wp_update_intro
  split
  · rename_i hc
    obtain ⟨p, hp⟩ := Option.isSome_iff_exists.mp hc.1
    have hmem : s.mem b = p := by simp [Fs.mem, hp]
    refine hQ _ ⟨?_, rfl, fun c => ?_, fun hok c q hq hd => ?_⟩ fun _ => ?_
    · funext c
      by_cases hcb : c = b
      · subst hcb
        simp [Fs.mem, hp]
      · simp [Fs.mem, Function.update_of_ne hcb]
    · by_cases hcb : c = b
      · subst hcb
        exact .inr ⟨hF, Function.update_self ..⟩
      · exact .inl (Function.update_of_ne hcb ..)
    · by_cases hcb : c = b
      · subst hcb
        rw [← Option.some.inj (hp.symm.trans hq), ← hmem]
        simp
      · simp only [Function.update_of_ne hcb] at hd ⊢
        exact hok c q hq hd
    · simp [Fs.mem, hp]
  · rename_i hc
    refine hQ s (.refl F s) fun hok => ?_
    cases hp : s.cache b with
    | none => simp [Fs.mem, hp]
    | some p =>
        have hd : s.dirty b = false := by
          rw [hp] at hc
          simpa using hc
        simp [Fs.mem, hp, hok b p hp hd]

theorem Fs.Shows.wrote (hs : s.Shows d m q) (h : s.Wrote F t)
    (hF : ∀ c, F c → ¬(3 ≤ c ∧ m.Reserved c)) : t.Shows d m q where
  mem := h.mem.trans hs.mem
  req j hj := by rw [h.req, hs.req j hj]
  ok := h.ok hs.ok
  bits b hlt hb hd := by
    rcases h.disk 2 with h2 | ⟨_, h2⟩
    · exact hs.bits b hlt hb (bit_congr h2 hb ▸ hd)
    · rw [hs.mem] at h2
      exact bit_congr h2 hb ▸ hd
  late c hc hr := by
    rcases h.disk c with hd | ⟨hFc, _⟩
    · exact hd.trans (hs.late c hc hr)
    · exact absurd ⟨hc, hr⟩ (hF c hFc)

/-- A store that leaves the bitmap as it is. -/
theorem Fs.Shows.store (hs : s.Shows d m q) {p : Bytes}
    (hmap : SameMap m (Function.update m b p)) :
    (s.store b p).Shows d (Function.update m b p) q where
  mem := by rw [mem_store, hs.mem]
  req := hs.req
  ok := hs.ok.store
  bits c hlt hc hd := by
    rw [hmap.nblocks] at hlt
    rw [hmap.bit c hlt]
    exact hs.bits c hlt hc hd
  late c hc hr := hs.late c hc ((reserved_congr hmap.nblocks).mp hr)

theorem wp_touch (hm : m.MapOk) (hs : s.Shows d m q) (hb : m.InUse b)
    {Q : Unit → Fs → Prop} (hQ : ∀ s', s'.Shows d m q → Q () s') :
    Prog.wp (touch b) Q A E s := by
  refine wp_touchAt (F := fun _ => False) 2 (fun hno => ?_) fun t ht =>
    hQ t (hs.wrote ht fun _ h => h.elim)
  rw [hs.mem] at hno
  exact absurd ⟨hm, hb⟩ hno

theorem wp_readWord (hm : m.MapOk) (hs : s.Shows d m q) (hb : m.InUse b)
    {Q : Word → Fs → Prop} (hQ : ∀ s', s'.Shows d m q → Q (m.entry b i) s') :
    Prog.wp (readWord b i) Q A E s := by
  apply Prog.wp_bind_intro
  apply wp_touch hm hs hb
  intro t ht
  apply Prog.wp_ask_bind
  rw [ht.mem]
  exact Prog.wp_pure_intro (hQ t ht)

theorem wp_writeWord (hm : m.MapOk) (hs : s.Shows d m q) (hb : m.InUse b)
    (hmap : SameMap m (m.setEntry b i v))
    {Q : Unit → Fs → Prop} (hQ : ∀ s', s'.Shows d (m.setEntry b i v) q →
      Q () s') :
    Prog.wp (writeWord b i v) Q A E s := by
  apply Prog.wp_bind_intro
  apply wp_touch hm hs hb
  intro t ht
  apply Prog.wp_update_intro
  rw [ht.mem]
  exact hQ _ (ht.store hmap)

theorem wp_clearBlock (hm : m.MapOk) (hs : s.Shows d m q) (hb : m.InUse b)
    (hmap : SameMap m (m.zeroPage b))
    {Q : Unit → Fs → Prop} (hQ : ∀ s', s'.Shows d (m.zeroPage b) q → Q () s') :
    Prog.wp (clearBlock b) Q A E s := by
  apply Prog.wp_bind_intro
  apply wp_touch hm hs hb
  intro t ht
  apply Prog.wp_update_intro
  rw [ht.mem]
  exact hQ _ (ht.store hmap)

theorem wp_diskaddr (hs : s.Shows d m q) (hv : v ≠ 0)
    (hlt : v.toNat < m.nblocks)
    {Q : Nat → Fs → Prop} (hQ : Q v.toNat s) :
    Prog.wp (diskaddr v) Q A E s := by
  refine wp_blockAddr (fun hno => ?_) fun _ _ => hQ
  rw [hs.mem] at hno
  exact absurd hno (not_or.mpr ⟨hv, Nat.not_le.mpr hlt⟩)

/-- Writing a block out changes nothing in the memory of the server. -/
theorem wp_flushBlock (hm : m.MapOk) (hs : s.Shows d m q) (hb : b < m.nblocks)
    (hlate : ¬(3 ≤ b ∧ m.Reserved b)) {Q : Unit → Fs → Prop}
    (hQ : ∀ s', s'.Shows d m q → s'.disk b = m b → Q () s') :
    Prog.wp (flushBlock b) Q A E s := by
  refine wp_writeOut (F := (· = b)) (fun hbig => ?_) rfl fun t ht hsync =>
    hQ t (hs.wrote ht fun c hc => hc ▸ hlate) ?_
  swap
  · rw [hsync hs.ok, ht.mem, hs.mem]
  have := hm.lt_disksize hb
  omega

end

end Jos
