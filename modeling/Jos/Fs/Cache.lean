import Jos.Fs.Edit
import Jos.Lib.Run
import Mathlib.Tactic.IntervalCases

/-!
# The block cache

The disk map is a plain memory of blocks that is written back now and then: the
operations on blocks refine reads and writes of a `PhysMem`, and what is on the
disk is behind it only where a page is dirty.
-/

namespace Jos

open PhysMem

/-! ## Invariant -/

/-- Nothing has been written since what is mapped was read in. -/
def Fs.Fresh (s : Fs) : Prop := ∀ b p, s.cache b = some p → p = s.disk b

section

variable {F G : Nat → Prop} {s s₀ t : Fs} {b i n : Nat} {v : Word}
  {A : Fs → Prop}

theorem Fs.Fresh.ok (h : s.Fresh) : s.CacheOk := fun b p hp _ => h b p hp

theorem Fs.Fresh.mem (h : s.Fresh) : s.mem = s.disk := by
  funext b
  cases hb : s.cache b with
  | none => simp [Fs.mem, hb]
  | some p => simp [Fs.mem, hb, h b p hb]

/-! ## Rules

The operations that write nothing to memory, from a state `s` that comes from
`s₀`. -/

theorem wrote_touch (h : s₀.Wrote F s) {Q : Unit → Fs → Prop}
    (hQ : ∀ t, s₀.Wrote F t → Q () t) :
    Prog.wp (touch b) Q A (fun _ _ => True) s :=
  wp_touchAt 2 (fun _ _ _ => trivial) fun t ht => hQ t (h.trans ht)

theorem wrote_readWord (h : s₀.Wrote F s) {Q : Word → Fs → Prop}
    (hQ : ∀ t, s₀.Wrote F t → Q (s₀.mem.entry b i) t) :
    Prog.wp (readWord b i) Q A (fun _ _ => True) s := by
  apply Prog.wp_bind_intro
  refine wrote_touch h fun t ht => ?_
  apply Prog.wp_ask_bind
  rw [ht.mem]
  exact Prog.wp_pure_intro (hQ t ht)

theorem wrote_diskaddr {Q : Nat → Fs → Prop}
    (hQ : v ≠ 0 → v.toNat < s.mem.nblocks → Q v.toNat s) :
    Prog.wp (diskaddr v) Q A (fun _ _ => True) s :=
  wp_blockAddr (fun _ _ => trivial) hQ

/-- `flush_block` writes the block out, and nothing else. -/
theorem wrote_flushBlock (h : s₀.Wrote F s) (hF : F b) {Q : Unit → Fs → Prop}
    (hQ : ∀ t, s₀.Wrote F t → (s₀.CacheOk → t.disk b = t.mem b) → Q () t) :
    Prog.wp (flushBlock b) Q A (fun _ _ => True) s :=
  wp_writeOut (fun _ _ => trivial) hF fun t ht hb =>
    hQ t (h.trans ht) fun hok => hb (h.ok hok)

/-! ## `file_flush` and `fs_sync` -/

/-- Block `b` holds the record of `f`, or is a data block or the indirect block
that `f` has. -/
def PhysMem.FileBlock (m : PhysMem) (f : FilePtr) (b : Nat) : Prop :=
  b = f.blk ∨ b ≠ 0 ∧ ∃ ρ : Role, ρ.file = f ∧ ρ.Ok ∧ b = m.ref ρ

/-- Without `alloc`, `file_block_walk` finds the place of a pointer. -/
theorem wrote_fileBlockWalk {f : FilePtr} (h : s₀.Wrote F s)
    {Q : Except Word (Nat × Nat) → Fs → Prop}
    (herr : ∀ r t, s₀.Wrote F t →
      (v.toNat < NDIRECT + NINDIRECT → s₀.mem.ref (.data f v.toNat) = 0) → Q
      (.error r) t)
    (hok : ∀ t, s₀.Wrote F t → v.toNat < NDIRECT + NINDIRECT →
      s₀.mem.Placed (.data f v.toNat) →
      Q (.ok (s₀.mem.place (.data f v.toNat))) t) :
    Prog.wp (fileBlockWalk f v false) Q A (fun _ _ => True) s := by
  refine Prog.wp_ite _ (fun hbig =>
    Prog.wp_pure_intro (herr _ _ h fun hlt => ?_)) fun hbig => ?_
  · exact absurd hlt (Nat.not_lt.mpr hbig)
  have hlt : v.toNat < NDIRECT + NINDIRECT := Nat.not_le.mp hbig
  refine Prog.wp_ite _ (fun hd => Prog.wp_pure_intro ?_) fun hd => ?_
  · have hq := hok s h hlt (.inl hd)
    rwa [place_data_direct hd] at hq
  · apply Prog.wp_bind_intro
    refine wrote_readWord h fun t ht => ?_
    refine Prog.wp_ite _ (fun h0 => ?_) fun hne => ?_
    · exact Prog.wp_ite _ (fun _ => Prog.wp_pure_intro (herr _ _ ht fun _ =>
        ref_of_not_placed fun hp => hp.elim hd (· h0))) fun hno =>
          absurd nofun hno
    · apply Prog.wp_bind_intro
      refine wrote_readWord ht fun t' ht' => ?_
      apply Prog.wp_bind_intro
      refine wrote_diskaddr fun _ _ => Prog.wp_pure_intro ?_
      have hq := hok t' ht' hlt (.inr hne)
      rwa [place_data_indirect hd] at hq

theorem wrote_flushAddr (h : s₀.Wrote F s) (hF : F v.toNat)
    {Q : Unit → Fs → Prop}
    (hQ : ∀ t, s₀.Wrote F t →
      (s₀.CacheOk → t.disk v.toNat = t.mem v.toNat) → Q () t) :
    Prog.wp (do flushBlock (← diskaddr v)) Q A (fun _ _ => True) s := by
  apply Prog.wp_bind_intro
  exact wrote_diskaddr fun _ _ => wrote_flushBlock h hF hQ

/-- The first `n` data blocks of `f` are on the disk. -/
def Fs.DataSynced (f : FilePtr) (m : PhysMem) (n : Nat) (t : Fs) : Prop :=
  ∀ k, k < n → k < NDIRECT + NINDIRECT → m.ref (.data f k) ≠ 0 →
    t.disk (m.ref (.data f k)) = t.mem (m.ref (.data f k))

/-- What `file_flush` has written out. -/
structure Fs.Flushed (f : FilePtr) (m : PhysMem) (t : Fs) : Prop where
  record : t.disk f.blk = t.mem f.blk
  data : Fs.DataSynced f m (roundBlocks (m.fSize f)).toInt.toNat t
  ind : m.ref (.ind f) ≠ 0 → t.disk (m.ref (.ind f)) = t.mem (m.ref (.ind f))

theorem Fs.DataSynced.wrote {f : FilePtr} {m : PhysMem}
    (hd : Fs.DataSynced f m n s)
    (h : s.Wrote F t) : Fs.DataSynced f m n t :=
  fun k hk hlt hne => h.synced (hd k hk hlt hne)

/-- A turn of the loop of `file_flush`. -/
theorem wrote_flushData {f : FilePtr} (hF : ∀ b, s₀.mem.FileBlock f b → F b)
    (hi : i < 2 ^ 32)
    (h : s₀.Wrote F s) (hd : s₀.CacheOk → Fs.DataSynced f s₀.mem i s) :
    Prog.wp (do
      match ← fileBlockWalk f (BitVec.ofNat 32 i) false with
      | .error _ => pure ()
      | .ok a =>
          let b ← readWord a.1 a.2
          if b ≠ 0 then
            flushBlock (← diskaddr b))
      (fun _ t => s₀.Wrote F t ∧
        (s₀.CacheOk → Fs.DataSynced f s₀.mem (i + 1) t)) A
      (fun _ _ => True) s := by
  have hi' : (BitVec.ofNat 32 i).toNat = i := by
    rw [BitVec.toNat_ofNat, Nat.mod_eq_of_lt hi]
  have hnext : ∀ t, s₀.Wrote F t → s.Wrote F t →
      (s₀.CacheOk → i < NDIRECT + NINDIRECT →
      s₀.mem.ref (.data f i) ≠ 0 → t.disk (s₀.mem.ref (.data f i)) =
        t.mem (s₀.mem.ref (.data f i))) →
      s₀.Wrote F t ∧ (s₀.CacheOk → Fs.DataSynced f s₀.mem (i + 1) t) := by
    intro t ht hst hnew
    refine ⟨ht, fun hok k hk hlt hne => ?_⟩
    by_cases hki : k < i
    · exact (hd hok).wrote hst k hki hlt hne
    · obtain rfl : k = i := by omega
      exact hnew hok hlt hne
  have hmem := h.mem
  apply Prog.wp_bind_intro
  refine wrote_fileBlockWalk (.refl F s)
    (fun _ t ht h0 => Prog.wp_pure_intro ?_)
    fun t ht hlt hp => ?_
  · rw [hi', hmem] at h0
    exact hnext t (h.trans ht) ht fun _ hlt hne => absurd (h0 hlt) hne
  rw [hi'] at hlt
  rw [hi', hmem] at hp
  rw [hi', hmem]
  apply Prog.wp_bind_intro
  refine wrote_readWord ht fun u hu => ?_
  rw [hmem]
  have href := ref_eq_entry hp
  refine Prog.wp_ite _ (fun hne => ?_) fun h0 => Prog.wp_pure_intro ?_
  · have hblock := hF _ (.inr ⟨fun h0 => hne (BitVec.eq_of_toNat_eq h0),
      .data f i, rfl, hlt, href.symm⟩)
    refine wrote_flushAddr hu hblock fun w hw hnew => ?_
    refine hnext w (h.trans hw) hw fun hok _ _ => ?_
    rw [href]
    exact hnew (h.ok hok)
  · refine hnext u (h.trans hu) hu fun _ _ hne => absurd ?_ hne
    rw [href, not_not.mp h0]
    rfl

/-- `file_flush` writes out blocks of the file only. -/
theorem wrote_fileFlush {f : FilePtr} (hF : ∀ b, s.mem.FileBlock f b → F b)
    {Q : Unit → Fs → Prop}
    (hQ : ∀ t, s.Wrote F t → (s.CacheOk → Fs.Flushed f s.mem t) → Q () t) :
    Prog.wp (fileFlush f) Q A (fun _ _ => True) s := by
  apply Prog.wp_bind_intro
  refine wrote_readWord (.refl F s) fun s₁ h₁ => ?_
  apply Prog.wp_bind_intro
  refine Prog.wp_imp (Prog.wp_forUp
    (fun i t => s.Wrote F t ∧ (s.CacheOk → Fs.DataSynced f s.mem i t))
    ⟨h₁, fun _ k hk => by omega⟩ fun i t hi ht => ?_) (fun _ t ht =>
    ?_) (fun _ h => h) fun _ _ h => h
  · refine wrote_flushData hF ?_ ht.1 ht.2
    have := (roundBlocks (s.mem.entry f.blk (f.off + 32))).toInt_lt
    omega
  obtain ⟨ht, hdata⟩ := ht
  apply Prog.wp_bind_intro
  refine wrote_flushBlock (.refl F t) (hF _ (.inl rfl)) fun t' ht' hrec => ?_
  apply Prog.wp_bind_intro
  refine wrote_readWord (.refl F t') fun u hu => ?_
  rw [ht'.mem, ht.mem]
  refine Prog.wp_ite _ (fun hne => ?_) fun h0 => Prog.wp_pure_intro ?_
  · have hblock := hF _ (.inr ⟨fun h0 => hne (BitVec.eq_of_toNat_eq h0), .ind f,
      rfl, trivial, rfl⟩)
    refine wrote_flushAddr (.refl F u) hblock fun w hw hind => ?_
    refine hQ w (((ht.trans ht').trans hu).trans hw) fun hok =>
      ⟨?_, ?_, fun _ => ?_⟩
    · exact (hu.trans hw).synced (hrec (ht.ok hok))
    · exact (hdata hok).wrote ((ht'.trans hu).trans hw)
    · exact hind (hu.ok (ht'.ok (ht.ok hok)))
  · refine hQ u ((ht.trans ht').trans hu) fun hok =>
      ⟨?_, ?_, fun hne => absurd ?_ hne⟩
    · exact hu.synced (hrec (ht.ok hok))
    · exact (hdata hok).wrote (ht'.trans hu)
    · exact congrArg BitVec.toNat (not_not.mp h0)

/-- `fs_sync` writes out every block of the disk. -/
theorem wrote_fsSync (hF : ∀ b, 1 ≤ b → b < s.mem.nblocks → F b)
    {Q : Unit → Fs → Prop}
    (hQ : ∀ t, s.Wrote F t →
      (s.CacheOk → ∀ b, 1 ≤ b → b < t.mem.nblocks → t.disk b = t.mem b) →
      Q () t) : Prog.wp fsSync Q A (fun _ _ => True) s := by
  apply Prog.wp_ask_bind
  refine Prog.wp_imp (Prog.wp_forUp (fun i t => s.Wrote F t ∧
    (s.CacheOk → ∀ b, 1 ≤ b → b ≤ i → t.disk b = t.mem b)) ⟨.refl F s,
    fun _ b _ _ => by omega⟩
    fun i t hi ht => ?_) (fun _ t ht => ?_) (fun _ h => h) fun _ _ h => h
  · have hlt : i + 1 < 2 ^ 32 := by
      have := (s.mem.entry 1 1).isLt
      unfold PhysMem.nblocks at hi
      omega
    have hi' : (BitVec.ofNat 32 (i + 1)).toNat = i + 1 := by
      rw [BitVec.toNat_ofNat, Nat.mod_eq_of_lt hlt]
    refine wrote_flushAddr (.refl F t) (hF _ (by omega) (by omega))
      fun u hu hnew => ?_
    refine ⟨ht.1.trans hu, fun hok b h1 hb => ?_⟩
    by_cases hbi : b ≤ i
    · exact hu.synced (ht.2 hok b h1 hbi)
    · obtain rfl : b = i + 1 := by omega
      rw [hi'] at hnew
      exact hnew (ht.1.ok hok)
  · refine hQ t ht.1 fun hok b h1 hb => ht.2 hok b h1 ?_
    rw [ht.1.mem] at hb
    omega

end

/-! ## Runs -/

/-- An operation on blocks: an access to the block with a number, which
`diskaddr` gives the address of and a write stores `g` of what it holds to, or
one of the three ways to flush. -/
inductive CacheOp where
  | read (blockno : Word)
  | write (blockno : Word) (g : Bytes → Bytes)
  | flush (blockno : Word)
  | fileFlush (f : FilePtr)
  | sync

namespace CacheOp

def run : CacheOp → FsM (Option Bytes)
  | read blockno => do
      let b ← diskaddr blockno
      touch b
      let s ← Prog.ask
      pure (some (s.mem b))
  | write blockno g => do
      let b ← diskaddr blockno
      touch b
      Prog.update fun s => s.store b (g (s.mem b))
      pure none
  | flush blockno => do
      flushBlock (← diskaddr blockno)
      pure none
  | fileFlush f => do
      Jos.fileFlush f
      pure none
  | sync => do
      fsSync
      pure none

/-- What the operation does to a plain memory. -/
def apply (m : PhysMem) : CacheOp → PhysMem
  | write blockno g => Function.update m blockno.toNat (g (m blockno.toNat))
  | _ => m

/-- What a read returns. -/
def answer (m : PhysMem) : CacheOp → Option Bytes
  | read blockno => some (m blockno.toNat)
  | _ => none

/-- The blocks that the operation may write out. -/
def Targets (m : PhysMem) : CacheOp → Nat → Prop
  | flush blockno => fun b => b = blockno.toNat
  | fileFlush f => m.FileBlock f
  | sync => fun b => 1 ≤ b ∧ b < m.nblocks
  | read _ | write _ _ => fun _ => False

/-- An operation on `s` that ends in `t` with answer `r` has done what it does
to a plain memory, and only blocks that it may write out have changed on the
disk. -/
structure Done (op : CacheOp) (s : Fs) (r : Option Bytes) (t : Fs) : Prop where
  answer : r = op.answer s.mem
  mem : t.mem = op.apply s.mem
  ok : t.CacheOk
  disk : ∀ b, ¬op.Targets s.mem b → t.disk b = s.disk b
  zero : s.mem 0 = s.disk 0 → t.mem 0 = t.disk 0
  synced : op = .sync → ∀ b, 1 ≤ b → b < t.mem.nblocks → t.disk b = t.mem b

section

variable {op : CacheOp} {s t : Fs} {r : Option Bytes} {A : Fs → Prop}

/-- An operation that changes nothing in memory. -/
theorem Done.of_wrote (hok : s.CacheOk) (h : s.Wrote (op.Targets s.mem) t)
    (hans : r = op.answer s.mem) (hop : op.apply s.mem = s.mem)
    (hsync : op = .sync → ∀ b, 1 ≤ b → b < t.mem.nblocks → t.disk b = t.mem b) :
    op.Done s r t where
  answer := hans
  mem := h.mem.trans hop.symm
  ok := h.ok hok
  disk b hb := (h.disk b).resolve_right fun h => hb h.1
  zero h0 := (h.synced h0.symm).symm
  synced := hsync

theorem wp_run (op : CacheOp) (hok : s.CacheOk) :
    Prog.wp op.run (fun r t => op.Done s r t) A (fun _ _ => True) s := by
  cases op with
  | read n =>
      apply Prog.wp_bind_intro
      refine wrote_diskaddr fun _ _ => ?_
      apply Prog.wp_bind_intro
      refine wrote_touch (.refl ((read n).Targets s.mem) s) fun t ht => ?_
      apply Prog.wp_ask_bind
      rw [ht.mem]
      exact Prog.wp_pure_intro (.of_wrote hok ht rfl rfl fun h => by cases h)
  | write n g =>
      apply Prog.wp_bind_intro
      refine wrote_diskaddr fun hn _ => ?_
      apply Prog.wp_bind_intro
      refine wrote_touch (.refl (fun _ => False) s) fun t ht => ?_
      apply Prog.wp_update_bind
      have hdisk : ∀ b, t.disk b = s.disk b :=
        fun b => (ht.disk b).resolve_right fun h => h.1
      refine Prog.wp_pure_intro ⟨rfl, ?_, fun b p hp hd => ?_,
        fun b _ => hdisk b, fun h0 => ?_, fun h => by cases h⟩
      · rw [Fs.mem_store, ht.mem]
        rfl
      · by_cases hb : b = n.toNat
        · simp [Fs.store, hb] at hd
        · simp only [Fs.store, Function.update_of_ne hb] at hp hd
          exact ht.ok hok b p hp hd
      · have hne : (0 : Nat) ≠ n.toNat :=
          fun h => hn (BitVec.eq_of_toNat_eq h.symm)
        rw [Fs.mem_store, Function.update_of_ne hne, ht.mem, h0]
        exact (hdisk 0).symm
  | flush n =>
      apply Prog.wp_bind_intro
      refine wrote_diskaddr fun _ _ => ?_
      apply Prog.wp_bind_intro
      refine wrote_flushBlock (.refl ((flush n).Targets s.mem) s) rfl
        fun t ht _ => ?_
      exact Prog.wp_pure_intro (.of_wrote hok ht rfl rfl fun h => by cases h)
  | fileFlush f =>
      apply Prog.wp_bind_intro
      refine wrote_fileFlush (F := (fileFlush f).Targets s.mem) (fun _ h => h)
        fun t ht _ => ?_
      exact Prog.wp_pure_intro (.of_wrote hok ht rfl rfl fun h => by cases h)
  | sync =>
      apply Prog.wp_bind_intro
      refine wrote_fsSync (F := sync.Targets s.mem) (fun _ h h' => ⟨h, h'⟩)
        fun t ht hsync => ?_
      exact Prog.wp_pure_intro (.of_wrote hok ht rfl rfl fun _ => hsync hok)

end

end CacheOp

/-- The server's block cache, and a plain memory with the same operations. -/
structure Cached where
  fs : Fs
  logical : PhysMem

/-- An operation returns. -/
def Cached.Step (c : Cached) (l : CacheOp × Option Bytes)
    (c' : Cached) : Prop :=
  l.1.run c.fs = .ret l.2 c'.fs ∧ c'.logical = l.1.apply c.logical

/-- The disk map shows the plain memory, and is behind it on the disk where it
is dirty. -/
structure CachedInv (c : Cached) : Prop where
  ok : c.fs.CacheOk
  mem : c.fs.mem = c.logical
  zero : c.fs.mem 0 = c.fs.disk 0

section

variable {c c' : Cached} {op : CacheOp} {r : Option Bytes} {s : Fs}

theorem Cached.Step.done (h : CachedInv c) (hstep : c.Step (op, r) c') :
    op.Done c.fs r c'.fs :=
  (op.wp_run (A := fun _ => True) h.ok).ret hstep.1

theorem CachedInv.step {l : CacheOp × Option Bytes} (h : CachedInv c)
    (hstep : c.Step l c') :
    CachedInv c' := by
  have hd := Cached.Step.done h hstep
  exact ⟨hd.ok, by rw [hd.mem, hstep.2, h.mem], hd.zero h.zero⟩

/-- The block cache is transparent. From what the disk holds, in every run: a
clean block is as on the disk; an operation answers as the plain memory does and
changes no other block on the disk than those it may write out; after `fs_sync`
the disk is the plain memory; and blocks in use can be read and written. -/
theorem block_cache_transparent (h : s.Fresh)
    (hrun : Runs Cached.Step (fun _ _ => True) ⟨s, s.disk⟩ c) :
    c.fs.CacheOk ∧
    (∀ op r c', c.Step (op, r) c' → r = op.answer c.logical ∧
      (∀ b, ¬op.Targets c.logical b → c'.fs.disk b = c.fs.disk b) ∧
      (op = .sync → ∀ b, b < c'.logical.nblocks →
        c'.fs.disk b = c'.logical b)) ∧
    (c.logical.MapOk → ∀ n, n ≠ 0 → c.logical.InUse n.toNat →
      (∃ c', c.Step (.read n, some (c.logical n.toNat)) c') ∧
      ∀ g, ∃ c', c.Step (.write n g, none) c') := by
  have hinv : CachedInv c :=
    hrun.invariant (fun _ _ _ h _ hstep => h.step hstep)
      ⟨h.ok, h.mem, congrFun h.mem 0⟩
  refine ⟨hinv.ok, fun op r c' hstep => ?_, fun hm n hn hb => ?_⟩
  · have hd := hstep.done hinv
    have hinv' := hinv.step hstep
    rw [← hinv.mem, ← hinv'.mem]
    refine ⟨hd.answer, hd.disk, fun hs b hb => ?_⟩
    cases b with
    | zero => exact hinv'.zero.symm
    | succ b => exact hd.synced hs (b + 1) (by omega) hb
  · rw [← hinv.mem] at hm hb
    have hno : ¬(n = 0 ∨ c.fs.mem.nblocks ≤ n.toNat) :=
      not_or.mpr ⟨hn, Nat.not_le.mpr hb.1⟩
    have hread :
        Prog.wp (CacheOp.read n).run (fun r _ => r = some (c.fs.mem n.toNat))
        (fun _ => False) (fun _ _ => False) c.fs := by
      apply Prog.wp_bind_intro
      refine wp_blockAddr (fun h => absurd h hno) fun _ _ => ?_
      apply Prog.wp_bind_intro
      refine wp_touchAt (F := fun _ => False) 2 (fun h => absurd ⟨hm, hb⟩ h)
        fun t ht => ?_
      apply Prog.wp_ask_bind
      rw [ht.mem]
      exact Prog.wp_pure_intro rfl
    have hwrite : ∀ g, Prog.wp (CacheOp.write n g).run (fun r _ => r = none)
        (fun _ => False) (fun _ _ => False) c.fs := by
      intro g
      apply Prog.wp_bind_intro
      refine wp_blockAddr (fun h => absurd h hno) fun _ _ => ?_
      apply Prog.wp_bind_intro
      refine wp_touchAt (F := fun _ => False) 2 (fun h => absurd ⟨hm, hb⟩ h)
        fun t _ => ?_
      apply Prog.wp_update_bind
      exact Prog.wp_pure_intro rfl
    rw [← hinv.mem]
    refine ⟨?_, fun g => ?_⟩
    · obtain ⟨r, t, hret, rfl⟩ := hread.exists_ret
      exact ⟨⟨t, c.logical⟩, hret, rfl⟩
    · obtain ⟨r, t, hret, rfl⟩ := (hwrite g).exists_ret
      exact ⟨⟨t, _⟩, hret, rfl⟩

end

/-- A disk of 8 blocks with an empty root directory: 3 to 7 are free. -/
def smallDisk : PhysMem :=
  ((PhysMem.setEntry (fun _ _ => 0) 1 1 8).setEntry 1 35 FTYPE_DIR).setEntry
    2 0 0xF8

def smallFs : Fs := ⟨smallDisk, fun _ => none, fun _ => false, fun _ => 0⟩

theorem smallDisk_mapOk : smallDisk.MapOk := by
  have hn : smallDisk.nblocks = 8 := by decide
  refine ⟨by rw [hn]; decide, fun b hb => ?_⟩
  have hlt : b < 3 := by
    unfold PhysMem.Reserved at hb
    rw [hn] at hb
    simp only [BLKBITSIZE, BLKSIZE, PGSIZE] at hb
    omega
  refine ⟨by omega, ?_⟩
  interval_cases b <;> decide

/-- The super block is written and flushed, the bitmap is written, and all is
synced. -/
theorem block_cache_transparent_small : ∃ c c',
    Runs Cached.Step (fun _ _ => True) ⟨smallFs, smallDisk⟩ c ∧ c.fs.CacheOk ∧
      c.Step (.sync, none) c' ∧ c'.fs.disk 2 3000 = 8 ∧
      ∀ b, b < c'.logical.nblocks → c'.fs.disk b = c'.logical b := by
  let w₁ : CacheOp := .write 1 fun p => Function.update p 3000 7
  let w₂ : CacheOp := .write 2 fun p => Function.update p 3000 8
  have hrun : (w₁.run smallFs).returned.any
      (fun x => ((CacheOp.flush 1).run x.2).returned.any fun y =>
      (w₂.run y.2).returned.any fun z =>
        (CacheOp.sync.run z.2).returned.any fun u =>
        decide (u.2.disk 2 3000 = 8) && x.1.isNone && y.1.isNone &&
          z.1.isNone && u.1.isNone) = true := by
    decide +kernel
  obtain ⟨⟨a, x⟩, hx, hrun⟩ := (Option.any_eq_true _ _).mp hrun
  obtain ⟨⟨b, y⟩, hy, hrun⟩ := (Option.any_eq_true _ _).mp hrun
  obtain ⟨⟨d, z⟩, hz, hrun⟩ := (Option.any_eq_true _ _).mp hrun
  obtain ⟨⟨r, u⟩, hu, hdone⟩ := (Option.any_eq_true _ _).mp hrun
  simp only [Bool.and_eq_true, decide_eq_true_eq,
    Option.isNone_iff_eq_none] at hdone
  obtain ⟨⟨⟨⟨hbyte, rfl⟩, rfl⟩, rfl⟩, rfl⟩ := hdone
  have hwrite : Cached.Step ⟨smallFs, smallDisk⟩ (w₁, none)
      ⟨x, w₁.apply smallDisk⟩ :=
    ⟨Outcome.returned_eq_some.mp hx, rfl⟩
  have hflush : Cached.Step ⟨x, w₁.apply smallDisk⟩ (.flush 1, none)
      ⟨y, w₁.apply smallDisk⟩ :=
    ⟨Outcome.returned_eq_some.mp hy, rfl⟩
  have hwrite' : Cached.Step ⟨y, w₁.apply smallDisk⟩ (w₂, none)
      ⟨z, w₂.apply (w₁.apply smallDisk)⟩ :=
    ⟨Outcome.returned_eq_some.mp hz, rfl⟩
  have hsync : Cached.Step ⟨z, w₂.apply (w₁.apply smallDisk)⟩ (.sync, none)
      ⟨u, w₂.apply (w₁.apply smallDisk)⟩ :=
    ⟨Outcome.returned_eq_some.mp hu, rfl⟩
  have hruns : Runs Cached.Step (fun _ _ => True) ⟨smallFs, smallDisk⟩
      ⟨z, w₂.apply (w₁.apply smallDisk)⟩ :=
    ((Runs.single trivial hwrite).tail trivial hflush).tail trivial hwrite'
  obtain ⟨hok, hops, -⟩ := block_cache_transparent (s := smallFs) nofun hruns
  exact ⟨_, _, hruns, hok, hsync, hbyte, (hops _ _ _ hsync).2.2 rfl⟩

end Jos
