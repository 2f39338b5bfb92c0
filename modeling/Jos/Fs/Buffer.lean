import Jos.Fs.Client

/-!
# Reading and writing at a position

`file_read` and `file_write` of fs/fs.c with a buffer anywhere outside the disk
map, so of any length: what they leave of the file, and what of it they leave
alone.
-/

namespace Jos

open PhysMem

/-- The file server, with a buffer of the caller. -/
structure Buffered where
  fs : Fs
  buf : Bytes

abbrev BufM (α : Type) : Type := Prog Buffered Stop α

def onFs {α : Type} (f : FsM α) : BufM α :=
  Prog.zoom Buffered.fs (fun t s => { s with fs := t }) f

/-- `memmove(buf, a, n)`, where `buf` is byte `p` and on of the buffer. -/
def moveOut (a p : Int) (n : Nat) : BufM Unit := do
  onFs (touchRange a n)
  Prog.update fun s =>
  { s with buf := s.buf.copy p.toNat (fun i => s.fs.byteAt (a + i)) 0 n }

/-- `memmove(a, buf, n)`. -/
def moveIn (a p : Int) (n : Nat) : BufM Unit := do
  onFs (touchRange a n)
  Prog.update fun s =>
  { s with fs := s.fs.poke a n fun i => s.buf (p.toNat + i) }

/-- `file_read` to the buffer. -/
def fileReadBuf (f : FilePtr) (count offset : Word) : BufM (Except Word Word) :=
  fileReadBy (fun _ => onFs) moveOut f 0 count offset

/-- `file_write` from the buffer. -/
def fileWriteBuf (f : FilePtr) (count offset : Word) :
    BufM (Except Word Word) :=
  fileWriteBy (fun _ => onFs) moveIn f 0 count offset

/-- The loop of `file_write` from the buffer. -/
def fillBuf (f : FilePtr) (count offset : Word) : BufM (Except Word Word) :=
  fillLoop (fun _ => onFs) moveIn f 0 count offset

section

variable {d m m₀ m₁ m' : PhysMem} {s : Fs} {q buf : Bytes} {f : FilePtr}
  {b n lo hi p e : Nat}
  {count offset v : Word} {A : Buffered → Prop} {E : Stop → Buffered → Prop}

/-! ## Moving bytes -/

theorem wp_onFs {α : Type} {g : FsM α} {Q : α → Buffered → Prop}
    (h : Prog.wp g (fun a t => Q a ⟨t, buf⟩) (fun t => A ⟨t, buf⟩)
      (fun x t => E x ⟨t, buf⟩) s) :
    Prog.wp (onFs g) Q A E ⟨s, buf⟩ := by
  rw [onFs, Prog.wp_zoom]
  exact h

/-- Loading bytes of block `b` to the buffer. -/
theorem wp_moveOut (hm : m.MapOk) (hs : s.Shows d m q) (hb : m.InUse b)
    {o r : Nat}
    (ho : o + n ≤ BLKSIZE) {Q : Unit → Buffered → Prop}
    (hQ : ∀ t, t.Shows d m q → Q () ⟨t, buf.copy r (m b) o n⟩) :
    Prog.wp (moveOut (BLKSIZE * b + o) r n) Q A E ⟨s, buf⟩ := by
  have hB : (BLKSIZE : Int) = 4096 := rfl
  have hbn : BLKSIZE = 4096 := rfl
  apply Prog.wp_bind_intro
  apply wp_onFs
  refine wp_touchRange (p := b) hm hs (by rw [hB]; omega) (.inr ⟨by omega, hb⟩)
    fun t ht => ?_
  apply Prog.wp_update_intro
  have hcopy : buf.copy r (fun i => t.byteAt (BLKSIZE * b + o + i)) 0 n =
      buf.copy r (m b) o n := by
    funext j
    by_cases hj : r ≤ j ∧ j < r + n
    · rw [Bytes.copy_of_mem hj, Bytes.copy_of_mem hj, Fs.byteAt, ht.mem, hB,
        if_neg (by omega)]
      congr 1
      · omega
      · omega
    · rw [Bytes.copy_of_ne (by omega), Bytes.copy_of_ne (by omega)]
  simp only [Int.toNat_natCast, hcopy]
  exact hQ t ht

/-- Storing bytes of the buffer in block `b`. -/
theorem wp_moveIn (hm : m.MapOk) (hs : s.Shows d m q) (hb : m.InUse b)
    (hr : ¬m.Reserved b) {o r : Nat}
    (ho : o + n ≤ BLKSIZE) {Q : Unit → Buffered → Prop}
    (hQ : ∀ t, t.Shows d (Function.update m b ((m b).copy o buf r n)) q →
      Q () ⟨t, buf⟩) :
    Prog.wp (moveIn (BLKSIZE * b + o) r n) Q A E ⟨s, buf⟩ := by
  have hB : (BLKSIZE : Int) = 4096 := rfl
  have hbn : BLKSIZE = 4096 := rfl
  apply Prog.wp_bind_intro
  apply wp_onFs
  refine wp_touchRange (p := b) hm hs (by rw [hB]; omega) (.inr ⟨by omega, hb⟩)
    fun t ht => ?_
  apply Prog.wp_update_intro
  have hmap : SameMap m (Function.update m b ((m b).copy o buf r n)) :=
    .update hr
  refine hQ _ ⟨?_, fun j hj => ?_, ht.ok.poke, fun c hlt hc hd => ?_,
    fun c hc hres => ?_⟩
  · rw [mem_poke_block ho, ht.mem, Int.toNat_natCast, Bytes.copy_shift,
      Nat.add_zero]
  · rw [← ht.req j hj]
    refine if_neg ?_
    rw [hB]
    omega
  · rw [hmap.nblocks] at hlt
    rw [hmap.bit c hlt]
    rw [Fs.disk_poke] at hd
    exact ht.bits c hlt hc hd
  · exact ht.late c hc ((reserved_congr hmap.nblocks).mp hres)

/-! ## Blocks of a range -/

namespace PhysMem

/-- Every byte from `lo` on, below `hi`, is in a block of `f`. -/
def Backed (m : PhysMem) (f : FilePtr) (lo hi : Nat) : Prop :=
  ∀ x, lo ≤ x → x < hi → x / BLKSIZE < NDIRECT + NINDIRECT ∧
    m.ref (.data f (x / BLKSIZE)) ≠ 0

theorem Backed.mono (h : m.Backed f lo hi) {hi' : Nat} (hle : hi' ≤ hi) :
    m.Backed f lo hi' :=
  fun x hx hlt => h x hx (Nat.lt_of_lt_of_le hlt hle)

theorem Backed.self (m : PhysMem) (f : FilePtr) (lo : Nat) : m.Backed f lo lo :=
  fun _ hx hlt => absurd hx (Nat.not_le.mpr hlt)

theorem Backed.of_ref (h : m.Backed f lo hi)
    (hk : ∀ k, k < NDIRECT + NINDIRECT → m.ref (.data f k) ≠ 0 →
      m'.ref (.data f k) ≠ 0) :
    m'.Backed f lo hi :=
  fun x hx hlt => ⟨(h x hx hlt).1, hk _ (h x hx hlt).1 (h x hx hlt).2⟩

/-- The bytes that a turn of the loop moves are in one block. -/
theorem div_chunk {x : Nat} (hp : p ≤ x) (hx : x < p + chunk p e) :
    x / BLKSIZE = p / BLKSIZE := by
  have hdiv : BLKSIZE * (p / BLKSIZE) + p % BLKSIZE = p :=
    Nat.div_add_mod p BLKSIZE
  obtain ⟨hc, _⟩ := chunk_le p e
  refine Nat.div_eq_of_lt_le ?_ ?_
  · rw [Nat.mul_comm]
    omega
  · rw [Nat.mul_comm, Nat.mul_succ]
    omega

theorem Backed.chunk (h : m.Backed f lo p)
    (hk : p / BLKSIZE < NDIRECT + NINDIRECT)
    (h0 : m.ref (.data f (p / BLKSIZE)) ≠ 0) :
    m.Backed f lo (p + Jos.chunk p e) := by
  intro x hx hlt
  by_cases hxp : x < p
  · exact h x hx hxp
  · rw [div_chunk (Nat.not_lt.mp hxp) hlt]
    exact ⟨hk, h0⟩

/-- What `file_get_block` keeps or adds is there. -/
theorem Got.backed {k : Nat} (h : Got f k m m₁) (hb : m.Backed f lo hi) :
    m₁.Backed f lo hi :=
  hb.of_ref fun j hj h0 => by rwa [h.grows.kept (.data f j) rfl hj h0]

/-- `MIN(count, MAX(0, f_size - offset))`. -/
def readLen (m : PhysMem) (f : FilePtr) (count offset : Word) : Nat :=
  min count.toNat ((m.fSize f).toInt.toNat - offset.toNat)

end PhysMem

/-- An index that is out of range is found first. -/
theorem fileGetBlock_inval (h : NDIRECT + NINDIRECT ≤ v.toNat) :
    fileGetBlock f v s = .ret (.error (-E_INVAL)) s := by
  have hwalk : fileBlockWalk f v true = pure (.error (-E_INVAL)) := if_pos h
  rw [fileGetBlock, hwalk]
  rfl

/-! ## Reading -/

/-- What `file_read` has done at position `p`. -/
structure Reading (d m : PhysMem) (q buf : Bytes) (f : FilePtr) (lo p : Nat)
    (t : Buffered)
    (m' : PhysMem) : Prop where
  le : lo ≤ p
  shows : t.fs.Shows d m' q
  buf : t.buf = buf.copy 0 (m.byte f) lo (p - lo)
  grows : Grows f m m'
  backed : m'.Backed f lo p
  same : m.Backed f lo p → m' = m

/-- `file_read` of a sound disk: either the range has blocks in the end, which
it had before if nothing has changed, or it had not. -/
theorem wp_fileReadBuf (hm : m.Sound) (hf : m.Rec f) (hs : s.Shows d m q)
    (hoff : offset.toNat < 2 ^ 31)
    {Q : Except Word Word → Buffered → Prop}
    (hok : ∀ t m', Reading d m q buf f offset.toNat
      (offset.toNat + m.readLen f count offset) t m' →
      Q (.ok (BitVec.ofNat 32 (m.readLen f count offset))) t)
    (herr : ∀ x t, ¬m.Backed f offset.toNat
      (offset.toNat + m.readLen f count offset) → Q (.error x) t) :
    Prog.wp (fileReadBuf f count offset) Q A E ⟨s, buf⟩ := by
  apply Prog.wp_bind_intro
  apply wp_onFs
  refine wp_readWord hm.toMapOk hs (hm.blk_inUse hf) fun t ht => ?_
  have hent : m.entry f.blk (f.off + 32) = m.fSize f := rfl
  rw [hent]
  have hsle : (m.fSize f).sle offset = true ↔
      (m.fSize f).toInt ≤ offset.toNat := by
    rw [BitVec.sle_iff_toInt_le, toInt_of_nonneg hoff]
  have hstart : ∀ p, p = offset.toNat →
      Reading d m q buf f offset.toNat p ⟨t, buf⟩ m := by
    rintro p rfl
    refine ⟨le_rfl, ht, ?_, .refl f m, .self m f _, fun _ => rfl⟩
    funext j
    rw [Nat.sub_self, Bytes.copy_of_ne (by omega)]
  refine Prog.wp_ite _ (fun hle => Prog.wp_pure_intro ?_) fun hgt => ?_
  · rw [hsle] at hle
    have hn : m.readLen f count offset = 0 := by
      rw [readLen]
      omega
    have h := hok ⟨t, buf⟩ m
    rw [hn] at h
    exact h (hstart _ rfl)
  rw [hsle, Int.not_le] at hgt
  have hsize : (m.fSize f).toNat < 2 ^ 31 := by
    by_contra hbig
    have hmsb : (m.fSize f).msb = true := by
      rw [BitVec.msb_eq_decide, decide_eq_true_eq]
      omega
    have := BitVec.toInt_neg_of_msb_true hmsb
    omega
  have hint := toInt_of_nonneg hsize
  have hsub : (m.fSize f - offset).toNat =
      (m.fSize f).toNat - offset.toNat := by
    rw [BitVec.toNat_sub_of_le (by rw [BitVec.le_def]; omega)]
  have hn : (minWord count (m.fSize f - offset)).toNat =
      m.readLen f count offset := by
    rw [minWord_toNat, hsub, readLen, hint, Int.toNat_natCast]
  have hle : m.readLen f count offset ≤ (m.fSize f).toNat - offset.toNat := by
    rw [readLen, hint, Int.toNat_natCast]
    exact min_le_right ..
  generalize m.readLen f count offset = n at *
  have hstop : (offset + minWord count (m.fSize f - offset)).toNat =
      offset.toNat + n := by
    rw [BitVec.toNat_add, hn]
    omega
  have hval : minWord count (m.fSize f - offset) = BitVec.ofNat 32 n := by
    rw [← hn, BitVec.ofNat_toNat, BitVec.setWidth_eq]
  apply Prog.wp_bind_intro
  refine wp_moveLoop (-offset.toNat) hstop
    (fun p t => ∃ m', Reading d m q buf f offset.toNat p t m')
    (fun p _ hlt _ => by omega)
    (fun p v t hlt hv hJ => ?_) (fun t hJ => Prog.wp_pure_intro ?_) rfl
    (by omega) (by omega) (by omega)
    ⟨m, hstart _ rfl⟩
  · obtain ⟨m', hJ⟩ := hJ
    obtain ⟨hm', hf'⟩ := hJ.grows.sound hm hf
    have hlo := hJ.le
    -- a block that is missing was missing before
    have hmiss :
        (v.toNat < NDIRECT + NINDIRECT → m'.ref (.data f v.toNat) = 0) →
        ¬m.Backed f offset.toNat (offset.toNat + n) := by
      intro h0 hb
      obtain ⟨hk, hne⟩ := hb p hlo hlt
      rw [hv, hJ.same (hb.mono (Nat.le_of_lt hlt))] at h0
      exact hne (h0 hk)
    apply wp_onFs
    refine wp_fileGetBlock hm' hf' hJ.shows (fun m₁ u hk hg hu => ⟨nofun, ?_⟩)
      fun r m₁ u _ _ _ _ h0 _ => ⟨?_, nofun⟩
    · rintro _ ⟨⟩
      rw [hv] at hk hg ⊢
      obtain ⟨hm₁, hf₁⟩ := hg.grows.sound hm' hf'
      obtain ⟨hc1, hc2⟩ := chunk_le p (offset.toNat + n)
      have hbase : (-offset.toNat + p : Int) =
          (p - offset.toNat : Nat) := by omega
      rw [hbase]
      refine wp_moveOut hm₁.toMapOk hu (hm₁.named _ (.data hf₁ hk) hg.ne).1 hc1
        fun w hw =>
        ⟨m₁, by omega, hw, ?_, hJ.grows.trans hg.grows,
          (hg.backed hJ.backed).chunk hk hg.ne, fun hb => ?_⟩
      · rw [hJ.buf]
        have := copy_chunk (q := buf) (r := 0) hlo hk
          (hJ.grows.trans hg.grows) hg.ne hc1
        rwa [Nat.zero_add] at this
      · have hsame := hJ.same (hb.mono (by omega))
        rw [hsame] at hg
        exact hg.same (hb p hlo (by have := chunk_pos hlt; omega)).2
    · rintro _ ⟨⟩
      exact Prog.wp_pure_intro (herr r _ (hmiss h0))
  · obtain ⟨m', hJ⟩ := hJ
    rw [hval]
    exact hok t m' hJ

/-- `file_read` returns what there is and changes no block exactly when each
byte of the range is in a block: one that is not gets a block, or there is
none. -/
theorem file_read_pure (hm : m.Sound) (hf : m.Rec f) (hs : s.Shows d m q)
    (hoff : offset.toNat < 2 ^ 31) :
    (∃ t, fileReadBuf f count offset ⟨s, buf⟩ =
      .ret (.ok (BitVec.ofNat 32 (m.readLen f count offset))) t ∧
      t.buf = buf.copy 0 (m.byte f) offset.toNat (m.readLen f count offset) ∧
      (∀ b, b < m.nblocks → t.fs.mem.bit b = m.bit b) ∧
      ∀ ρ, m.Valid ρ → t.fs.mem.ref ρ = m.ref ρ) ↔
    m.Backed f offset.toNat (offset.toNat + m.readLen f count offset) := by
  have hread : Prog.wp (fileReadBuf f count offset) _ (fun _ => False)
      (fun _ _ => False) ⟨s, buf⟩ :=
    wp_fileReadBuf hm hf hs hoff (Q := fun r t =>
      (m.Backed f offset.toNat (offset.toNat + m.readLen f count offset) →
        r = .ok (BitVec.ofNat 32 (m.readLen f count offset))) ∧
        ((∃ n, r = .ok n) →
        ∃ m', Reading d m q buf f offset.toNat
        (offset.toNat + m.readLen f count offset) t m'))
    (fun t m' h => ⟨fun _ => rfl, fun _ => ⟨m', h⟩⟩) fun x t h =>
    ⟨fun hb => absurd hb h, nofun⟩
  obtain ⟨r, t, hret, hback, hread⟩ := hread.exists_ret
  constructor
  · rintro ⟨t', hret', _, _, href⟩
    rw [hret] at hret'
    cases hret'
    obtain ⟨m', hr⟩ := hread ⟨_, rfl⟩
    refine hr.backed.of_ref fun k hk h0 => ?_
    rw [← href _ (.data hf hk), hr.shows.mem]
    exact h0
  · intro hb
    rw [hback hb] at hret hread
    obtain ⟨m', hr⟩ := hread ⟨_, rfl⟩
    refine ⟨t, hret, ?_, fun b _ => ?_, fun ρ _ => ?_⟩
    · rw [hr.buf, Nat.add_sub_cancel_left]
    · rw [hr.shows.mem, hr.same hb]
    · rw [hr.shows.mem, hr.same hb]

/-! ## Writing -/

namespace PhysMem

/-- The blocks of `f` and the free blocks are the same in `m'`. -/
structure SameBlocks (f : FilePtr) (m m' : PhysMem) : Prop where
  ref : ∀ ρ : Role, ρ.file = f → ρ.Ok → m'.ref ρ = m.ref ρ
  isFree : ∀ b, m'.isFree b = m.isFree b

theorem SameBlocks.refl (f : FilePtr) (m : PhysMem) : SameBlocks f m m :=
  ⟨fun _ _ _ => rfl, fun _ => rfl⟩

end PhysMem

/-- What `file_write` has done at position `p`. A byte that has no block gets a
free one. -/
structure Writing (d m : PhysMem) (q buf : Bytes) (f : FilePtr) (lo p : Nat)
    (t : Buffered)
    (m' : PhysMem) : Prop where
  le : lo ≤ p
  shows : t.fs.Shows d m' q
  data : t.buf = buf
  put : Put f lo p buf m m'
  backed : m'.Backed f lo p
  same : m.Backed f lo p → SameBlocks f m m'
  free : ¬m.Backed f lo p → ∃ b, m.isFree b

/-- What `file_write` leaves when it stops short at position `p` with `m₁`. -/
structure ShortWrite (f : FilePtr) (p : Nat) (m₁ m' : PhysMem) (x : Word) :
    Prop where
  inRange : p / BLKSIZE < NDIRECT + NINDIRECT → x = -E_NO_DISK ∧
    m₁.ref (.data f (p / BLKSIZE)) = 0 ∧
    (∀ b, ¬m'.isFree b) ∧ (m' = m₁ ∨ m₁.Walked f (p / BLKSIZE) m')
  outside : NDIRECT + NINDIRECT ≤ p / BLKSIZE → x = -E_INVAL ∧ m' = m₁

/-- A turn of the loop of `file_write` that gets its block. -/
theorem Writing.chunk {t : Buffered} {u : Fs} (hm : m.Sound) (hf : m.Rec f)
    (ht : m.fType f ≠ FTYPE_DIR)
    (h : Writing d m q buf f lo p t m') (hlt : p < e)
    (hk : p / BLKSIZE < NDIRECT + NINDIRECT)
    (hg : Got f (p / BLKSIZE) m' m₁) {m₂ : PhysMem}
    (hm₂ : m₂ = Function.update m₁ (m₁.ref (.data f (p / BLKSIZE)))
      ((m₁ (m₁.ref (.data f (p / BLKSIZE)))).copy (p % BLKSIZE) buf (p - lo)
        (Jos.chunk p e)))
    (hu : u.Shows d m₂ q) : Writing d m q buf f lo (p + Jos.chunk p e)
      ⟨u, buf⟩ m₂ := by
  obtain ⟨hm', hf'⟩ := h.put.sound hm hf
  obtain ⟨hm₁, hf₁⟩ := hg.grows.sound hm' hf'
  obtain ⟨hc, _⟩ := chunk_le p e
  have hlo := h.le
  have hpos := chunk_pos hlt
  have ht₁ : m₁.fType f ≠ FTYPE_DIR := by
    rw [hg.grows.fType, h.put.fType]
    exact ht
  have hput := h.put.chunk hm hf ht hlo hk hg hc
  rw [← hm₂] at hput
  have hother : ∀ c j, j < BLKSIZE → c ≠ m₁.ref (.data f (p / BLKSIZE)) →
      m₂ c j = m₁ c j :=
    fun c j _ hc => by rw [hm₂, Function.update_of_ne hc]
  have hsame := hm₁.same_fill hf₁ ht₁ hk hg.ne hother hf₁
  have href : ∀ ρ : Role, ρ.file = f → ρ.Ok → m₂.ref ρ = m₁.ref ρ := by
    rintro ρ rfl hok
    exact hsame.ref hok
  have hfree : ∀ b, m₂.isFree b = m₁.isFree b := by
    rw [hm₂]
    exact fun b => (SameMap.update (hm₁.named _ (.data hf₁ hk) hg.ne).2).isFree
  refine ⟨by omega, hu, rfl, hput, ?_, fun hb => ?_, fun hb => ?_⟩
  · refine ((hg.backed h.backed).chunk hk hg.ne).of_ref fun k hk h0 => ?_
    rwa [href (.data f k) rfl hk]
  · have hsb := h.same (hb.mono (by omega))
    have hne := (hb p hlo (by omega)).2
    rw [← hsb.ref (.data f (p / BLKSIZE)) rfl hk] at hne
    rw [hg.same hne] at href hfree
    exact ⟨fun ρ hρ hok => (href ρ hρ hok).trans (hsb.ref ρ hρ hok), fun b =>
      (hfree b).trans (hsb.isFree b)⟩
  · by_cases hbp : m.Backed f lo p
    · have hsb := h.same hbp
      refine ⟨m₁.ref (.data f (p / BLKSIZE)), ?_⟩
      rw [← hsb.isFree]
      refine hg.free ?_
      by_contra hne
      rw [hsb.ref (.data f (p / BLKSIZE)) rfl hk] at hne
      exact hb (hbp.chunk hk hne)
    · exact h.free hbp

/-- The loop of `file_write`. -/
theorem wp_fillBuf (hm : m.Sound) (hf : m.Rec f) (ht : m.fType f ≠ FTYPE_DIR)
    (hs : s.Shows d m q)
    (hoff : offset.toNat < 2 ^ 31) (hend : offset.toNat + count.toNat < 2 ^ 32)
    {Q : Except Word Word → Buffered → Prop}
    (hok : ∀ t m', Writing d m q buf f offset.toNat (offset.toNat + count.toNat)
      t m' → Q (.ok count) t)
    (herr : ∀ p x t m₁ m' u, p < offset.toNat + count.toNat →
      Writing d m q buf f offset.toNat p t m₁ →
      Grows f m₁ m' → ShortWrite f p m₁ m' x → u.Shows d m' q → Q
      (.error x) ⟨u, buf⟩) :
    Prog.wp (fillBuf f count offset) Q A E ⟨s, buf⟩ := by
  have hstop : (offset + count).toNat = offset.toNat + count.toNat := by
    rw [BitVec.toNat_add]
    omega
  have hM : MAXFILESIZE < 2 ^ 31 := maxFileSize_lt
  apply Prog.wp_bind_intro
  refine wp_moveLoop (-offset.toNat) hstop
    (fun p t => p < 2 ^ 31 ∧ ∃ m', Writing d m q buf f offset.toNat p t m')
    (fun p _ _ hJ => hJ.1)
    (fun p v t hlt hv hJ => ?_) (fun t hJ => Prog.wp_pure_intro ?_) rfl
    (by omega) (by omega) (by omega) ?_
  · obtain ⟨_, m', hJ⟩ := hJ
    obtain ⟨hm', hf'⟩ := hJ.put.sound hm hf
    have hlo := hJ.le
    obtain ⟨t, _⟩ := t
    obtain rfl : _ = buf := hJ.data
    apply wp_onFs
    by_cases hk : NDIRECT + NINDIRECT ≤ v.toNat
    · refine Prog.wp_ret (fileGetBlock_inval hk) ⟨?_, nofun⟩
      rintro _ ⟨⟩
      rw [hv] at hk
      exact Prog.wp_pure_intro (herr p _ _ m' m' t hlt hJ (.refl f m')
        ⟨fun h => absurd hk (Nat.not_le.mpr h), fun _ => ⟨rfl, rfl⟩⟩ hJ.shows)
    refine wp_fileGetBlock hm' hf' hJ.shows (fun m₁ u hk hg hu => ⟨nofun, ?_⟩)
      fun r m₁ u hr _ hg hw h0 hu => ⟨?_, nofun⟩
    · rintro _ ⟨⟩
      rw [hv] at hk hg ⊢
      obtain ⟨hm₁, hf₁⟩ := hg.grows.sound hm' hf'
      obtain ⟨hc1, hc2⟩ := chunk_le p (offset.toNat + count.toNat)
      have hbase : (-offset.toNat + p : Int) =
          (p - offset.toNat : Nat) := by omega
      obtain ⟨huse, hres⟩ := hm₁.named _ (.data hf₁ hk) hg.ne
      rw [hbase]
      refine wp_moveIn hm₁.toMapOk hu huse hres hc1 fun w hw =>
        ⟨?_, _, hJ.chunk hm hf ht hlt hk hg rfl hw⟩
      have hle : BLKSIZE * (p / BLKSIZE + 1) ≤
          BLKSIZE * (NDIRECT + NINDIRECT) := Nat.mul_le_mul_left _ hk
      have hdiv : BLKSIZE * (p / BLKSIZE) + p % BLKSIZE = p :=
        Nat.div_add_mod p BLKSIZE
      rw [MAXFILESIZE, Nat.mul_comm] at hM
      rw [Nat.mul_succ] at hle
      omega
    · rintro _ ⟨⟩
      rw [hv] at hr hw h0 hk
      refine Prog.wp_pure_intro
        (herr p r _ m' m₁ u hlt hJ hg ⟨fun hlt => ?_, fun h => absurd h hk⟩ hu)
      exact ⟨(hr hlt).1, h0 hlt, (hr hlt).2, hw⟩
  · obtain ⟨_, m', hJ⟩ := hJ
    exact hok t m' hJ
  · exact ⟨hoff, m, le_rfl, hs, rfl, .refl f _ buf m, .self m f _,
      fun _ => .refl f m,
      fun h => absurd (Backed.self m f _) h⟩

/-! ## Positions before the start -/

namespace PhysMem

/-- The size of `f`, its data below the size and its blocks are as in `m`. -/
structure AsBefore (f : FilePtr) (m m' : PhysMem) : Prop where
  fSize : m'.fSize f = m.fSize f
  byte : ∀ x, x < (m.fSize f).toNat → x < MAXFILESIZE → m'.byte f x = m.byte f x
  ref : ∀ ρ : Role, ρ.file = f → ρ.Ok → m'.ref ρ = m.ref ρ

end PhysMem

theorem PhysMem.AsBefore.refl (f : FilePtr) (m : PhysMem) : AsBefore f m m :=
  ⟨rfl, fun _ _ _ => rfl, fun _ _ _ => rfl⟩

/-- Another file does not get longer. -/
theorem PhysMem.Sound.keeps_extend (hm : m.Sound) (hf : m.Rec f) {r : FilePtr}
    (hr : m.Rec r) (hne : r ≠ f) :
    (m.extend f v).Rec r ∧ Kept m (m.extend f v) r := by
  unfold extend
  split
  · have hev := hm.setSize_evolves hf (v := v)
    refine ⟨record_mono (fun p k hp hk _ =>
      hm.ref_setSize hf (.data hp.record hk)) (fun r hr => hev.fType r hr) hr,
      hm.kept_of_foot hf (fun _ _ _ hno => foot_setSize hno) hr hne⟩
  · exact ⟨hr, .refl m r⟩

/-- `file_write` to a regular file, at a position in range. -/
theorem wp_fileWriteBuf (hm : m.Sound) (hf : m.Rec f)
    (ht : m.fType f ≠ FTYPE_DIR) (hs : s.Shows d m q)
    (hsize : (m.fSize f).toNat < 2 ^ 31)
    (hend : offset.toNat + count.toNat < 2 ^ 31)
    {Q : Except Word Word → Buffered → Prop}
    (hok : ∀ t m', Writing d (m.extend f (offset + count)) q buf f offset.toNat
      (offset.toNat + count.toNat) t m' → Q (.ok count) t)
    (herr : ∀ p x t m₁ m' u, p < offset.toNat + count.toNat →
      Writing d (m.extend f (offset + count)) q buf f offset.toNat p t m₁ →
      Grows f m₁ m' → ShortWrite f p m₁ m' x → u.Shows d m' q → Q
      (.error x) ⟨u, buf⟩) :
    Prog.wp (fileWriteBuf f count offset) Q A E ⟨s, buf⟩ := by
  obtain ⟨hm₀, hf₀, ht₀⟩ := hm.sound_extend hf (v := offset + count)
  rw [← ht₀] at ht
  apply Prog.wp_bind_intro
  apply wp_onFs
  refine wp_readWord hm.toMapOk hs (hm.blk_inUse hf) fun t hts => ?_
  have hent : m.entry f.blk (f.off + 32) = m.fSize f := rfl
  rw [hent]
  have hloop : ∀ u : Fs, u.Shows d (m.extend f (offset + count)) q →
      Prog.wp (fillBuf f count offset) Q A E ⟨u, buf⟩ := fun u hu =>
    wp_fillBuf hm₀ hf₀ ht hu (by omega) (by omega) hok herr
  refine Prog.wp_ite _ (fun hlt => Prog.wp_bind_intro (wp_onFs ?_)) fun hge =>
    Prog.wp_bind_intro (Prog.wp_pure_intro ?_)
  · rw [PhysMem.extend, if_pos hlt] at hloop
    refine wp_fileSetSize hm hf hts (fun _ _ hslt => ?_) fun u _ hu =>
      hloop u hu
    have hstop : (offset + count).toNat = offset.toNat + count.toNat := by
      rw [BitVec.toNat_add]
      omega
    rw [BitVec.lt_def] at hlt
    rw [BitVec.slt_iff_toInt_lt, toInt_of_nonneg (by omega),
      toInt_of_nonneg (by omega)] at hslt
    omega
  · rw [PhysMem.extend, if_neg hge] at hloop
    exact hloop t hts

/-- `file_write` gives the bytes to the file, which `file_read` gets back, and
to no other file. -/
theorem file_write_read (hm : m.Sound) (hf : m.Rec f)
    (ht : m.fType f ≠ FTYPE_DIR) (hs : s.Shows d m q)
    (hsize : (m.fSize f).toNat < 2 ^ 31)
    (hend : offset.toNat + count.toNat ≤ MAXFILESIZE) {t : Buffered}
    (hret : fileWriteBuf f count offset ⟨s, buf⟩ = .ret (.ok count) t) :
    (t.fs.mem.fSize f).toNat =
      max (m.fSize f).toNat (offset.toNat + count.toNat) ∧
      (∀ x, x < (m.fSize f).toNat → x < MAXFILESIZE → x < offset.toNat ∨
        offset.toNat + count.toNat ≤ x →
        t.fs.mem.byte f x = m.byte f x) ∧
      (∀ r, m.Rec r → r ≠ f → t.fs.mem.Rec r ∧ Kept m t.fs.mem r) ∧
      ∀ out, ∃ u, fileReadBuf f count offset ⟨t.fs, out⟩ = .ret (.ok count) u ∧
        ∀ i, i < count.toNat → u.buf i = buf i := by
  have hM := maxFileSize_lt
  obtain ⟨hm₀, hf₀, ht₀⟩ := hm.sound_extend hf (v := offset + count)
  have hstop : (offset + count).toNat = offset.toNat + count.toNat := by
    rw [BitVec.toNat_add]
    omega
  have hwp : Prog.wp (fileWriteBuf f count offset) _ (fun _ => True)
      (fun _ _ => True) ⟨s, buf⟩ :=
    wp_fileWriteBuf hm hf ht hs hsize (by omega)
      (Q := fun r t => r = .ok count → ∃ m',
      Writing d (m.extend f (offset + count)) q buf f offset.toNat
      (offset.toNat + count.toNat) t m')
    (fun t m' hw _ => ⟨m', hw⟩) fun _ _ _ _ _ _ _ _ _ _ _ => nofun
  obtain ⟨m', hw⟩ := hwp.ret hret rfl
  obtain ⟨hm', hf'⟩ := hw.put.sound hm₀ hf₀
  have hsz : (m'.fSize f).toNat =
      max (m.fSize f).toNat (offset.toNat + count.toNat) := by
    have hfield : m'.fSize f = (m.extend f (offset + count)).fSize f :=
      hw.put.field 32 (by decide)
    rw [hfield, fSize_extend, hstop]
  have hn : m'.readLen f count offset = count.toNat := by
    rw [readLen, toInt_of_nonneg (by rw [hsz]; omega), hsz, Int.toNat_natCast]
    omega
  rw [hw.shows.mem]
  refine ⟨hsz, fun x _ hx hout => ?_, fun r hr hne => ?_, fun out => ?_⟩
  · rw [hw.put.byte x hx, if_neg (by omega), hm.byte_extend hf hx]
  · obtain ⟨hr₀, hkept⟩ := hm.keeps_extend hf hr hne (v := offset + count)
    have hkeep := hw.put.edits.keeps hm₀ hf₀ (by rwa [ht₀]) hr₀ hne
    exact ⟨hkeep.1, hkept.trans hkeep.2⟩
  · have hback : m'.Backed f offset.toNat
        (offset.toNat + m'.readLen f count offset) := by
      rw [hn]
      exact hw.backed
    obtain ⟨u, hread, hbuf, _⟩ :=
      (file_read_pure hm' hf' hw.shows (by omega)).mpr hback
    rw [hn] at hread hbuf
    refine ⟨u, ?_, fun i hi => ?_⟩
    · rw [hread, BitVec.ofNat_toNat, BitVec.setWidth_eq]
    · rw [hbuf, Bytes.copy_of_mem (by omega), hw.put.byte _ (by omega),
        if_pos (by omega)]
      congr 1
      omega

end

/-! ## Examples -/

/-- The first file of the small disk, with a size but no block. -/
def holeDisk : PhysMem := smallFileDisk.setSize (slot 3 0) 1

def holeFs : Fs := ⟨holeDisk, fun _ => none, fun _ => false, fun _ => 0⟩

theorem holeDisk_sound : holeDisk.Sound ∧ holeDisk.Rec (slot 3 0) ∧
      holeDisk.fType (slot 3 0) ≠ FTYPE_DIR ∧
    holeFs.Shows holeDisk holeDisk (fun _ => 0) := by
  obtain ⟨hm, hf, ht, _⟩ := smallFileDisk_sound
  obtain ⟨hm', hf'⟩ := hm.sound_setSize hf (v := 1)
  refine ⟨hm', hf', ?_, rfl, fun _ _ => rfl, nofun, fun _ _ _ h => h,
    fun _ _ _ => rfl⟩
  rwa [holeDisk, fType_setSize]

/-- Two bytes are written over the hole, and read back. -/
theorem file_write_read_small : ∃ t u,
      fileWriteBuf (slot 3 0) 2 0 ⟨holeFs, fun _ => 0x61⟩ = .ret (.ok 2) t ∧
    fileReadBuf (slot 3 0) 2 0 ⟨t.fs, fun _ => 0⟩ = .ret (.ok 2) u ∧
    u.buf 1 = 0x61 := by
  obtain ⟨hm, hf, ht, hs⟩ := holeDisk_sound
  have hrun : (match fileWriteBuf (slot 3 0) 2 0 ⟨holeFs, fun _ => 0x61⟩ with
      | .ret (.ok n) _ => decide (n = 2)
      | _ => false) = true := by decide +kernel
  cases hret : fileWriteBuf (slot 3 0) 2 0 ⟨holeFs, fun _ => 0x61⟩ with
  | away t | stop x t =>
      rw [hret] at hrun
      cases hrun
  | ret r t =>
      rw [hret] at hrun
      cases r with
      | error x => cases hrun
      | ok n =>
          obtain rfl := of_decide_eq_true hrun
          obtain ⟨_, _, _, hread⟩ :=
            file_write_read hm hf ht hs (by decide) (by decide) hret
          obtain ⟨u, hu, hbuf⟩ := hread fun _ => 0
          exact ⟨t, u, rfl, hu, hbuf 1 (by decide)⟩

/-- The root directory has the size of its block. -/
def blockDisk : PhysMem := holeDisk.setSize ROOT 4096

def blockFs : Fs := ⟨blockDisk, fun _ => none, fun _ => false, fun _ => 0⟩

/-- Two bytes are read of that block. -/
theorem file_read_pure_small :
    ∃ t, fileReadBuf ROOT 2 0 ⟨blockFs, fun _ => 0⟩ = .ret (.ok 2) t ∧
    (∀ b, b < blockDisk.nblocks → t.fs.mem.bit b = blockDisk.bit b) ∧
      ∀ ρ, blockDisk.Valid ρ → t.fs.mem.ref ρ = blockDisk.ref ρ := by
  obtain ⟨hm, hf⟩ : blockDisk.Sound ∧ blockDisk.Rec ROOT :=
    holeDisk_sound.1.sound_setSize (.inl rfl)
  have hs : blockFs.Shows blockDisk blockDisk fun _ => 0 :=
    ⟨rfl, fun _ _ => rfl, nofun, fun _ _ _ h => h, fun _ _ _ => rfl⟩
  have hlen : blockDisk.readLen ROOT 2 0 = 2 := by decide +kernel
  have hback : blockDisk.Backed ROOT (0 : Word).toNat
      ((0 : Word).toNat + blockDisk.readLen ROOT 2 0) := by
    rw [hlen]
    intro x _ hx
    have hblock : x / BLKSIZE = 0 :=
      Nat.div_eq_of_lt (Nat.lt_trans hx (by decide))
    rw [hblock]
    exact ⟨by decide, by decide +kernel⟩
  obtain ⟨t, hret, _, hbits, href⟩ :=
    (file_read_pure hm hf hs (by decide)).mpr hback
  rw [hlen] at hret
  exact ⟨t, hret, hbits, href⟩

/-- Reading a hole allocates a block for it. -/
theorem file_read_allocates : holeDisk.Sound ∧ holeDisk.Rec (slot 3 0) ∧
    holeFs.Shows holeDisk holeDisk (fun _ => 0) ∧ ∃ t,
      fileReadBuf (slot 3 0) 1 0 ⟨holeFs, fun _ => 0⟩ = .ret (.ok 1) t ∧
      holeDisk.bit 4 = true ∧
        t.fs.mem.bit 4 = false ∧ t.fs.mem.ref (.data (slot 3 0) 0) ≠
          holeDisk.ref (.data (slot 3 0) 0) := by
  obtain ⟨hm, hf, _, hs⟩ := holeDisk_sound
  refine ⟨hm, hf, hs, ?_⟩
  have hrun : (match fileReadBuf (slot 3 0) 1 0 ⟨holeFs, fun _ => 0⟩ with
      | .ret (.ok n) t =>
          decide (n = 1 ∧ holeDisk.bit 4 = true ∧ t.fs.mem.bit 4 = false ∧
          t.fs.mem.ref (.data (slot 3 0) 0) ≠ holeDisk.ref (.data (slot 3 0) 0))
      | _ => false) = true := by decide +kernel
  cases hret : fileReadBuf (slot 3 0) 1 0 ⟨holeFs, fun _ => 0⟩ with
  | away t | stop x t =>
      rw [hret] at hrun
      cases hrun
  | ret r t =>
      rw [hret] at hrun
      cases r with
      | error x => cases hrun
      | ok n =>
          obtain ⟨rfl, hrest⟩ := of_decide_eq_true hrun
          exact ⟨t, rfl, hrest⟩

end Jos
