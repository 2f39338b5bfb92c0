import Jos.Fs.Io
import Jos.Fs.Cache

/-!
# What `file_flush` makes durable

After a run of allocations and writes, `file_flush` leaves the record, the
pointers and the data of the file on the disk. The bitmap is another matter:
`alloc_block` flushes its first block, whichever block it has changed.
-/

namespace Jos

open PhysMem

section

variable {d : PhysMem} {s s₀ t : Fs} {m : PhysMem} {q : Bytes} {f : FilePtr}
  {n i : Nat} {v : Word}
  {A : Fs → Prop} {E : Stop → Fs → Prop} {F : Nat → Prop}

/-! ## `file_flush` returns -/

theorem wp_flushAddr (hm : m.Sound) (hs : s.Shows d m q) {ρ : Role}
    (hρ : m.Valid ρ) (hv : v.toNat = m.ref ρ) (h0 : v ≠ 0)
    {Q : Unit → Fs → Prop}
    (hQ : ∀ t, t.Shows d m q → Q () t) :
    Prog.wp (do flushBlock (← diskaddr v)) Q A E s := by
  have hne : m.ref ρ ≠ 0 := fun hz => h0 (BitVec.eq_of_toNat_eq (hv.trans hz))
  obtain ⟨huse, hres⟩ := hm.named ρ hρ hne
  apply Prog.wp_bind_intro
  refine wp_diskaddr hs h0 (hv ▸ huse.1) ?_
  rw [hv]
  exact wp_flushBlock hm.toMapOk hs huse.1 (fun h => hres h.2)
    fun t ht _ => hQ t ht

/-- On a sound disk `file_flush` returns. -/
theorem wp_fileFlush (hm : m.Sound) (hf : m.Rec f) (hs : s.Shows d m q)
    {Q : Unit → Fs → Prop}
    (hQ : ∀ t, t.Shows d m q → Q () t) : Prog.wp (fileFlush f) Q A E s := by
  have huse := hm.blk_inUse hf
  apply Prog.wp_bind_intro
  refine wp_readWord hm.toMapOk hs huse fun s₁ h₁ => ?_
  apply Prog.wp_bind_intro
  refine Prog.wp_imp (Prog.wp_forUp (fun _ t => t.Shows d m q) h₁
    fun i t _ ht => ?_)
    (fun _ t ht => ?_) (fun _ h => h) fun _ _ h => h
  · apply Prog.wp_bind_intro
    refine wp_fileBlockWalk hm hf ht (fun u _ hu => Prog.wp_pure_intro hu)
      (fun u _ _ hu => Prog.wp_pure_intro hu) (fun u h => nomatch h)
      fun m' u hlt hw hm' hu => ?_
    obtain rfl := hm' rfl
    have hp := hw.placed hm hf
    have hρ : m'.Valid (.data f (BitVec.ofNat 32 i).toNat) := .data hf hlt
    apply Prog.wp_bind_intro
    refine wp_readWord hm.toMapOk hu (hm.place_inUse hρ hp) fun w hw => ?_
    refine Prog.wp_ite _ (fun h0 => ?_) fun _ => Prog.wp_pure_intro hw
    exact wp_flushAddr hm hw hρ (ref_eq_entry hp).symm h0 fun _ h => h
  · apply Prog.wp_bind_intro
    refine wp_flushBlock hm.toMapOk ht huse.1 (fun h => ?_) fun u hu _ => ?_
    · exact hm.blk_not_bitmap hf ⟨by omega, h.2⟩
    · apply Prog.wp_bind_intro
      refine wp_readWord hm.toMapOk hu huse fun w hw => ?_
      refine Prog.wp_ite _ (fun h0 => ?_) fun _ => Prog.wp_pure_intro (hQ w hw)
      exact wp_flushAddr hm hw (.ind hf) rfl h0 hQ

/-! ## Durability -/

/-- What is on the disk of `f` is what the server has in memory: the size, the
block pointers, and the data below the size; and the blocks that are named are
marked in use there. -/
structure Fs.Durable (f : FilePtr) (s : Fs) : Prop where
  size : s.disk.fSize f = s.mem.fSize f
  ref : ∀ ρ : Role, ρ.file = f → ρ.Ok → s.disk.ref ρ = s.mem.ref ρ
  data : ∀ o, o < MAXFILESIZE → (o : Int) < (s.mem.fSize f).toInt →
    s.disk.byte f o = s.mem.byte f o
  used : ∀ ρ : Role, ρ.file = f → ρ.Ok → s.disk.ref ρ ≠ 0 →
    s.disk.bit (s.disk.ref ρ) = false

/-- The number of blocks of a file of size `v` can be computed in an `off_t`. -/
def RoundsUp (v : Word) : Prop := v.toNat ≤ 2 ^ 31 - BLKSIZE ∨ 2 ^ 31 ≤ v.toNat

theorem roundBlocks_toNat (hv : v.toNat ≤ 2 ^ 31 - BLKSIZE) :
    (roundBlocks v).toNat = (v.toNat + 4095) / 4096 := by
  have hB : BLKSIZE = 4096 := rfl
  have hadd : (v + 4095#32).toNat = v.toNat + 4095 := by
    rw [BitVec.toNat_add, BitVec.toNat_ofNat]
    omega
  rw [roundBlocks, sdiv_of_nonneg (by omega) (by decide), hadd]
  rfl

/-- Every byte below the size is in one of the blocks that `file_flush` goes
through. -/
theorem block_lt_roundBlocks (hv : RoundsUp v) {o : Nat}
    (ho : (o : Int) < v.toInt) :
    o / BLKSIZE < (roundBlocks v).toInt.toNat := by
  have hB : BLKSIZE = 4096 := rfl
  have hsmall : v.toNat < 2 ^ 31 := by
    by_contra hbig
    have hmsb : v.msb = true := by
      rw [BitVec.msb_eq_decide, decide_eq_true_eq]
      omega
    have := BitVec.toInt_neg_of_msb_true hmsb
    omega
  have hle : v.toNat ≤ 2 ^ 31 - BLKSIZE := hv.resolve_right (by omega)
  have hnat := roundBlocks_toNat hle
  rw [toInt_of_nonneg hsmall] at ho
  rw [toInt_of_nonneg (by omega), hnat, Int.toNat_natCast, hB]
  omega

/-- The bitmap on the disk marks a block of `f` in use, but for what was
allocated out of reach of its first block. -/
theorem Fs.Shows.bit_disk (hs : s.Shows d m q) {b : Nat} (hb : m.InUse b) :
    s.disk.bit b = false ↔ (BLKBITSIZE ≤ b → d.bit b = false) := by
  by_cases hlt : b < BLKBITSIZE
  · refine ⟨fun _ h => absurd hlt (Nat.not_lt.mpr h), fun _ => ?_⟩
    by_contra hd
    rw [Bool.not_eq_false] at hd
    have := hs.bits b hb.1 hlt hd
    rw [hb.2] at this
    cases this
  · rw [Nat.not_lt] at hlt
    have hlate : s.disk (bitmapAt b).1 = d (bitmapAt b).1 := by
      refine hs.late _ ?_ (reserved_bitmapAt hb.1)
      rw [bitmapAt_fst]
      have := Nat.div_pos hlt (by decide)
      omega
    have hbit : s.disk.bit b = d.bit b := by
      rw [PhysMem.bit, PhysMem.entry_congr hlate, PhysMem.bit]
    rw [hbit]
    exact ⟨fun h _ => h, fun h => h hlt⟩

/-- What `file_flush` has written out is durable, if the blocks are marked in
use. -/
theorem Fs.Flushed.durable_iff (h : Fs.Flushed f m t) (hs : t.Shows d m q)
    (hm : m.Sound)
    (hf : m.Rec f) (hsize : RoundsUp (m.fSize f)) :
    t.Durable f ↔ ∀ ρ : Role, ρ.file = f → ρ.Ok → BLKBITSIZE ≤ m.ref ρ →
    d.bit (m.ref ρ) = false := by
  have hsame : Same m t.disk f :=
    ⟨fun j _ _ => by rw [h.record, hs.mem], fun h0 j _ => by
      have hi := h.ind fun hz => h0 (BitVec.eq_of_toNat_eq hz)
      rw [hs.mem] at hi
      exact congrFun hi j⟩
  have href : ∀ ρ : Role, ρ.file = f → ρ.Ok → t.disk.ref ρ = m.ref ρ := by
    rintro ρ rfl hok
    exact hsame.ref hok
  constructor
  · intro hd ρ hρ hok hbig
    have hne : m.ref ρ ≠ 0 := by
      have : 0 < BLKBITSIZE := by decide
      omega
    have hu := hd.used ρ hρ hok (by rwa [href ρ hρ hok])
    rw [href ρ hρ hok] at hu
    exact (hs.bit_disk (hm.named ρ ⟨hρ ▸ hf, hok⟩ hne).1).mp hu hbig
  · intro hlate
    refine ⟨?_, fun ρ hρ hok => ?_, fun o ho hlt => ?_, fun ρ hρ hok hne => ?_⟩
    · rw [hs.mem]
      exact hsame.fSize
    · rw [hs.mem]
      exact href ρ hρ hok
    · rw [hs.mem] at hlt
      have hk : o / BLKSIZE < NDIRECT + NINDIRECT :=
        Nat.div_lt_of_lt_mul (by rwa [Nat.mul_comm])
      rw [hs.mem, PhysMem.byte, href (.data f _) rfl hk, PhysMem.byte]
      by_cases h0 : m.ref (.data f (o / BLKSIZE)) = 0
      · rw [if_pos h0, if_pos h0]
      · rw [if_neg h0, if_neg h0,
          h.data _ (block_lt_roundBlocks hsize hlt) hk h0, hs.mem]
    · rw [href ρ hρ hok] at hne ⊢
      exact (hs.bit_disk (hm.named ρ ⟨hρ ▸ hf, hok⟩ hne).1).mpr (hlate ρ hρ hok)

/-! ## Runs of allocations and writes -/

/-- An allocation of the `filebno`th block of the file, or a write to it from
offset `buf` of the request page, which holds `page`. -/
inductive FileOp where
  | getBlock (filebno : Word)
  | write (page : Bytes) (buf : Nat) (count offset : Word)

namespace FileOp

def run (f : FilePtr) : FileOp → FsM Unit
  | getBlock filebno => do
      let _ ← fileGetBlock f filebno
  | write page buf count offset => do
      Prog.update fun s => { s with req := page }
      let _ ← fileWrite f (-BLKSIZE + buf) count offset

/-- The operation returns, with whatever code. -/
def Step (f : FilePtr) (s : Fs) (op : FileOp) (t : Fs) : Prop :=
  op.run f s = .ret () t

/-- What is written comes from the request page and goes to a regular file, at
positions that are an `off_t`. -/
def Allowed (f : FilePtr) (s : Fs) : FileOp → Prop
  | getBlock _ => True
  | write _ buf count offset =>
      s.mem.fType f ≠ FTYPE_DIR ∧ buf + count.toNat ≤ BLKSIZE ∧
      offset.toNat + count.toNat < 2 ^ 31

/-- The server shows a sound disk with the record `f`. -/
def Intact (d : PhysMem) (f : FilePtr) (s : Fs) : Prop :=
  ∃ m q, s.Shows d m q ∧ m.Sound ∧ m.Rec f

theorem wp_run (op : FileOp) (h : Intact d f s) (ha : op.Allowed f s) :
    Prog.wp (op.run f) (fun _ t => Intact d f t) A E s := by
  obtain ⟨m, q, hs, hm, hf⟩ := h
  cases op with
  | getBlock n =>
      apply Prog.wp_bind_intro
      refine wp_fileGetBlock hm hf hs
        (fun m' t _ hg ht => Prog.wp_pure_intro ?_)
        fun _ m' t _ _ hg _ _ ht => Prog.wp_pure_intro ?_
      · exact ⟨m', q, ht, hg.grows.sound hm hf⟩
      · exact ⟨m', q, ht, hg.sound hm hf⟩
  | write page buf count offset =>
      obtain ⟨htype, hbuf, hend⟩ := ha
      rw [hs.mem] at htype
      apply Prog.wp_update_bind
      have hs' : Fs.Shows d { s with req := page } m page :=
        ⟨hs.mem, fun _ _ => rfl, hs.ok, hs.bits, hs.late⟩
      obtain ⟨hm₀, hf₀, _⟩ := hm.sound_extend hf (v := offset + count)
      apply Prog.wp_bind_intro
      refine wp_fileWrite hm hf htype hs' hend hbuf
        (fun m' t hput ht => Prog.wp_pure_intro ?_)
        fun p e m' t _ _ hput ht => Prog.wp_pure_intro ?_
      · exact ⟨m', page, ht, hput.sound hm₀ hf₀⟩
      · exact ⟨m', page, ht, hput.sound hm₀ hf₀⟩

theorem Intact.runs (h : Intact d f s₀)
    (hrun : Runs (Step f) (Allowed f) s₀ s) : Intact d f s :=
  hrun.invariant (fun _ _ _ h ha hstep =>
    (wp_run _ (A := fun _ => True) (E := fun _ _ => True) h ha).ret hstep) h

end FileOp

/-- A file server that has written nothing yet. -/
theorem Fs.Fresh.intact (h : s.Fresh) (hm : s.mem.Sound) (hf : s.mem.Rec f) :
    FileOp.Intact s.disk f s :=
  ⟨s.mem, s.req, ⟨rfl, fun _ _ => rfl, h.ok,
    fun b _ _ hb => by rw [h.mem]; exact hb,
    fun _ _ _ => rfl⟩, hm, hf⟩

/-- From a state that shows a sound disk, `file_flush` returns, and what it
leaves is durable if the blocks from `BLKBITSIZE` on were marked in use in
`d`. -/
theorem FileOp.Intact.flush (h : FileOp.Intact d f s)
    (hsize : RoundsUp (s.mem.fSize f)) :
    ∃ t, fileFlush f s = .ret () t ∧
    (t.Durable f ↔ ∀ ρ : Role, ρ.file = f → ρ.Ok →
      BLKBITSIZE ≤ s.mem.ref ρ → d.bit (s.mem.ref ρ) = false) := by
  obtain ⟨m, q, hs, hm, hf⟩ := h
  obtain ⟨_, t, hret, ht⟩ :=
    (wp_fileFlush hm hf hs (Q := fun _ t => t.Shows d m q)
    fun _ ht => ht).exists_ret
  have hflush := (wrote_fileFlush (A := fun _ => True) (F := s.mem.FileBlock f)
    (Q := fun _ t => Fs.Flushed f s.mem t) (fun _ h => h) fun t _ hfl =>
    hfl hs.ok).ret hret
  rw [hs.mem] at hflush hsize ⊢
  exact ⟨t, hret, hflush.durable_iff ht hm hf hsize⟩

/-- `file_flush` makes a file durable, whatever was allocated and written
before, exactly when each block of the file from `BLKBITSIZE` on was marked in
use on the disk to begin with. -/
theorem file_flush_durable (hfresh : s₀.Fresh) (hm : s₀.mem.Sound)
    (hf : s₀.mem.Rec f)
    (hrun : Runs (FileOp.Step f) (FileOp.Allowed f) s₀ s)
    (hsize : RoundsUp (s.mem.fSize f)) :
    ∃ t, fileFlush f s = .ret () t ∧
    (t.Durable f ↔ ∀ ρ : Role, ρ.file = f → ρ.Ok →
      BLKBITSIZE ≤ s.mem.ref ρ → s₀.disk.bit (s.mem.ref ρ) = false) :=
  ((hfresh.intact hm hf).runs hrun).flush hsize

end


theorem smallDisk_sound : smallDisk.Sound :=
  PhysMem.MapOk.sound_of_empty (by decide) (by decide) smallDisk_mapOk
    (by decide)

/-- The root directory gets a block, and is flushed. -/
theorem file_flush_durable_small :
    ∃ s t, Runs (FileOp.Step ROOT) (FileOp.Allowed ROOT) smallFs s ∧
    fileFlush ROOT s = .ret () t ∧ t.Durable ROOT ∧
    t.disk.ref (.data ROOT 0) = 3 := by
  have hfresh : smallFs.Fresh := nofun
  have hroot : smallFs.mem.Rec ROOT := .inl rfl
  have hget := FileOp.wp_run (.getBlock 0) (A := fun _ => False)
    (E := fun _ _ => False)
    (hfresh.intact smallDisk_sound hroot) trivial
  obtain ⟨_, s, hret, m, q, hs, hm, hf⟩ := hget.exists_ret
  have hstep : ((FileOp.getBlock 0).run ROOT smallFs).returned.all (fun x =>
      decide (x.2.mem.fSize ROOT = 0 ∧ x.2.mem.nblocks = 8 ∧
        (fileFlush ROOT x.2).returned.all fun y =>
        decide (y.2.disk.ref (.data ROOT 0) = 3))) = true := by
    decide +kernel
  rw [hret] at hstep
  obtain ⟨hsize, hn, hflush⟩ := of_decide_eq_true hstep
  have hrun : Runs (FileOp.Step ROOT) (FileOp.Allowed ROOT) smallFs s :=
    .single (show FileOp.Allowed ROOT smallFs (.getBlock 0) from trivial) hret
  obtain ⟨t, ht, hdur⟩ := file_flush_durable hfresh smallDisk_sound hroot hrun
    (by rw [hsize]; exact .inl (by decide))
  refine ⟨s, t, hrun, ht, hdur.mpr fun ρ hρ hok hge => ?_, ?_⟩
  · have hlt : s.mem.ref ρ < 8 := by
      by_cases h0 : s.mem.ref ρ = 0
      · omega
      · rw [hs.mem] at h0 hn ⊢
        rw [← hn]
        exact (hm.named ρ ⟨hρ ▸ hf, hok⟩ h0).1.1
    simp only [BLKBITSIZE, BLKSIZE, PGSIZE] at hge
    omega
  · rw [ht] at hflush
    exact of_decide_eq_true hflush

/-- A disk with more blocks than the first block of the bitmap has bits, and one
free block, out of its reach. -/
def bigDisk : PhysMem :=
  ((PhysMem.setEntry (fun _ _ => 0) 1 1 32770).setEntry 1 35 FTYPE_DIR).setEntry
    3 0 2

def bigFs : Fs := ⟨bigDisk, fun _ => none, fun _ => false, fun _ => 0⟩

theorem bigDisk_isFree {b : Nat} (h : bigDisk.isFree b) : b = 32769 := by
  have hn : bigDisk.nblocks = 32770 := by decide
  obtain ⟨hlt, hbit⟩ := PhysMem.isFree_iff.mp h
  rw [hn] at hlt
  by_contra hne
  have hclear : bigDisk.bit b = false := by
    by_cases hlow : b < BLKBITSIZE
    · have h2 : (PhysMem.bitmapAt b).1 = 2 := by
        rw [PhysMem.bitmapAt_fst, Nat.div_eq_of_lt hlow]
      have hzero : bigDisk 2 = fun _ => 0 := by
        rw [bigDisk, PhysMem.setEntry_of_ne (by decide),
          PhysMem.setEntry_of_ne (by decide),
          PhysMem.setEntry_of_ne (by decide)]
      have hentry : bigDisk.entry 2 (PhysMem.bitmapAt b).2 = 0#32 := by
        rw [PhysMem.entry, hzero, Bytes.load32]
        decide
      rw [PhysMem.bit, h2, hentry, BitVec.getLsbD_zero]
    · have hB : BLKBITSIZE = 32768 := rfl
      obtain rfl : b = 32768 := by omega
      decide
  rw [hclear] at hbit
  cases hbit

theorem bigDisk_sound : bigDisk.Sound := by
  have hn : bigDisk.nblocks = 32770 := by decide
  refine PhysMem.MapOk.sound_of_empty (by decide) (by decide)
    ⟨by rw [hn]; decide, fun b hb => ?_⟩ (by decide)
  have hlt : b < 4 := by
    unfold PhysMem.Reserved at hb
    rw [hn] at hb
    simp only [BLKBITSIZE, BLKSIZE, PGSIZE] at hb
    omega
  refine ⟨by omega, ?_⟩
  interval_cases b <;> decide

/-- The only free block goes to the root directory, and stays marked free on the
disk. -/
theorem file_flush_not_durable :
    ∃ s t, bigFs.Fresh ∧ bigFs.mem.Sound ∧ bigFs.mem.Rec ROOT ∧
    (FileOp.getBlock 0).Step ROOT bigFs s ∧ fileFlush ROOT s = .ret () t ∧
    ¬t.Durable ROOT := by
  have hfresh : bigFs.Fresh := nofun
  have hroot : bigDisk.Rec ROOT := .inl rfl
  have hs : Fs.Shows bigDisk bigFs bigDisk (fun _ => 0) :=
    ⟨rfl, fun _ _ => rfl, hfresh.ok, fun _ _ _ h => h, fun _ _ _ => rfl⟩
  have hget : Prog.wp ((FileOp.getBlock 0).run ROOT)
      (fun _ s => ∃ m, s.Shows bigDisk m (fun _ => 0) ∧
      Got ROOT 0 bigDisk m) (fun _ => False) (fun _ _ => False) bigFs := by
    apply Prog.wp_bind_intro
    refine wp_fileGetBlock bigDisk_sound hroot hs
      (fun m t _ hg ht => Prog.wp_pure_intro ⟨m, ht, hg⟩)
      fun r m t hr _ _ hwalk _ _ => ?_
    have hsame : m = bigDisk := hwalk.elim id fun hw =>
      hw.eq_of_placed (.inl (by decide))
    rw [hsame] at hr
    exact absurd (by decide) ((hr (by decide)).2 32769)
  obtain ⟨_, s, hret, m, hs', hg⟩ := hget.exists_ret
  obtain ⟨hm, hf⟩ := hg.grows.sound bigDisk_sound hroot
  have hsize : RoundsUp (s.mem.fSize ROOT) := by
    rw [hs'.mem, hg.grows.fSize]
    exact .inl (by decide)
  obtain ⟨t, hflush, hiff⟩ := FileOp.Intact.flush ⟨m, _, hs', hm, hf⟩ hsize
  refine ⟨s, t, hfresh, bigDisk_sound, hroot, hret, hflush, fun hd => ?_⟩
  have hfree := bigDisk_isFree (hg.free (by decide))
  have hbit :=
    hiff.mp hd (.data ROOT 0) rfl (show 0 < NDIRECT + NINDIRECT by decide)
  rw [hs'.mem, hfree] at hbit
  exact absurd (hbit (by decide)) (by decide)

end Jos
