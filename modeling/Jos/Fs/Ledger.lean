import Jos.Fs.Remove

/-!
# The blocks and their owners

On a disk whose ledger balances every block that is in use is reserved or named
by one pointer of a live file, no file has a block beyond its size, and a free
`struct File` has none at all. `LedgerBut f` leaves out what is said of `f`
itself: an edit of `f` keeps it, and the ledger balances again as soon as `f` is
in order.
-/

namespace Jos

namespace PhysMem

variable {m m' : PhysMem} {r f d : FilePtr} {name : List (BitVec 8)} {ρ : Role}
  {v : Word} {k n : Nat}

/-! ## Records and owners -/

/-- `r` is the root, or a `struct File` that has a name. -/
def InDir (m : PhysMem) (r : FilePtr) : Prop := r = ROOT ∨ m.fName r 0 ≠ 0

/-- What a record is like between two operations. A directory can have the size
of one block more than a file can have, since `dir_alloc_file` sets its size
before it allocates the block. -/
structure RecordOk (m : PhysMem) (r : FilePtr) : Prop where
  tail : m.TailZero r
  reg : m.fType r ≠ FTYPE_DIR → (m.fSize r).toNat ≤ MAXFILESIZE
  dir : m.fType r = FTYPE_DIR → ∃ n, n ≤ NDIRECT + NINDIRECT + 1 ∧
    (m.fSize r).toNat = n * BLKSIZE
  free : ¬m.InDir r → m.Empty r

/-- A block that is in use is reserved, or there is a pointer to it. -/
def Spent (m : PhysMem) : Prop :=
  ∀ b, m.InUse b → m.Reserved b ∨ ∃ ρ, m.Valid ρ ∧ m.ref ρ = b

/-- The ledger of blocks balances. -/
structure Ledger (m : PhysMem) : Prop extends Sound m where
  recordOk : ∀ r, m.Rec r → m.RecordOk r
  spent : m.Spent

/-- The ledger balances, apart from what is in the record of `f`. -/
structure LedgerBut (f : FilePtr) (m : PhysMem) : Prop extends Sound m where
  others : ∀ r, m.Rec r → r ≠ f → m.RecordOk r
  spent : m.Spent

theorem Ledger.but (h : m.Ledger) (f : FilePtr) : m.LedgerBut f :=
  ⟨h.toSound, fun r hr _ => h.recordOk r hr, h.spent⟩

theorem LedgerBut.ledger (h : m.LedgerBut f) (hok : m.RecordOk f) :
    m.Ledger := by
  refine ⟨h.toSound, fun r hr => ?_, h.spent⟩
  by_cases hrf : r = f
  · rw [hrf]
    exact hok
  · exact h.others r hr hrf

theorem Same.inDir (h : Same m m' r) : m'.InDir r ↔ m.InDir r := by
  rw [InDir, h.fName (by decide), InDir]

theorem Same.recordOk (h : Same m m' r) (hok : m.RecordOk r) :
    m'.RecordOk r where
  tail := h.tailZero hok.tail
  reg ht := by
    rw [h.fSize]
    exact hok.reg (h.fType ▸ ht)
  dir ht := by
    rw [h.fSize]
    exact hok.dir (h.fType ▸ ht)
  free hno := h.empty (hok.free fun hin => hno (h.inDir.mpr hin))

theorem Blank.recordOk (h : m.Blank r) : m.RecordOk r where
  tail := h.tailZero
  reg _ := by
    rw [h.size]
    exact Nat.zero_le _
  dir ht := absurd (h.type.symm.trans ht) (by decide)
  free _ := h.toEmpty

/-- The sizes of records are far from the end of an `off_t`. -/
theorem RecordOk.size_le (h : m.RecordOk r) :
    (m.fSize r).toNat ≤ MAXFILESIZE + BLKSIZE := by
  by_cases ht : m.fType r = FTYPE_DIR
  · obtain ⟨n, hn, hsize⟩ := h.dir ht
    rw [hsize, MAXFILESIZE, ← Nat.succ_mul]
    exact Nat.mul_le_mul_right _ hn
  · exact Nat.le_add_right_of_le (h.reg ht)

theorem RecordOk.roundBlocks (h : m.RecordOk r) :
    (roundBlocks (m.fSize r)).toNat = ((m.fSize r).toNat + 4095) / 4096 :=
  roundBlocks_toNat (Nat.le_trans h.size_le (by decide))

/-! ## Edits of one record -/

/-- A change of the record of `f`, or of data, that leaves the bitmap, the types
and the pointers alone. -/
theorem LedgerBut.of_same (h : m.LedgerBut f) (hmap : SameMap m m')
    (ht : ∀ r, m.Rec r → m'.fType r = m.fType r)
    (href : ∀ ρ, m.Valid ρ → m'.ref ρ = m.ref ρ)
    (hsame : ∀ r, m.Rec r → r ≠ f → Same m m' r) : m'.LedgerBut f := by
  have hev := h.evolves_of_same hmap ht href
  refine ⟨hev.sound h.toSound, fun r hr hrf => ?_, fun b hb => ?_⟩
  · rcases hev.record hr with hr | ⟨_, _, _, ⟨⟩, _⟩
    exact (hsame r hr hrf).recordOk (h.others r hr hrf)
  · rcases h.spent b (hmap.inUse.mp hb) with hres | ⟨ρ, hρ, rfl⟩
    · exact .inl ((reserved_congr hmap.nblocks).mpr hres)
    · exact .inr ⟨ρ, ⟨record_mono (fun p k hp hk _ =>
        href _ (.data hp.record hk)) ht hρ.1, hρ.2⟩, href ρ hρ⟩

theorem LedgerBut.setSize (h : m.LedgerBut f) (hf : m.Rec f) :
    (m.setSize f v).LedgerBut f :=
  h.of_same (h.setSize_sameMap hf) (fun r hr =>
    (h.setSize_evolves hf).fType r hr) (fun _ hρ => h.ref_setSize hf hρ)
    fun _ hr hne => h.same_setSize hf hr hne

theorem LedgerBut.putName (h : m.LedgerBut f) (hf : m.Rec f)
    (hn : name.length < MAXNAMELEN) :
    (m.putName f name).LedgerBut f :=
  h.of_same (h.putName_sameMap hn hf)
    (fun r hr => (h.putName_evolves hn hf).fType r hr)
    (fun _ hρ => h.ref_putName hn hf hρ) fun _ hr hne =>
    h.same_putName hn hf hr hne

/-- A block that is attached is spent for the pointer. -/
theorem LedgerBut.attachEdit (h : m.LedgerBut f) (hf : m.Rec f)
    (he : Edit (· = .attach) f m m') : m'.LedgerBut f := by
  have hext := he.extends h.toSound hf
  have hedits := Edits.one he
  refine ⟨he.sound h.toSound hf, fun r hr hrf => ?_, fun c hc => ?_⟩
  · rcases Edits.record_attach h.toSound hf hedits hr with hr | hb
    · exact (he.same h.toSound hf hr hrf).recordOk (h.others r hr hrf)
    · exact hb.recordOk
  · cases he with
    | detach k | setSize k | putName k | fill k => cases k
    | @attach ρ b _ hfile hok hp h0 hb _ =>
        subst hfile
        have hρ : m.Valid ρ := ⟨hf, hok⟩
        by_cases hcb : c = b
        · exact .inr ⟨ρ, ⟨hext.record _ hf, hok⟩,
            by rw [hcb, h.ref_attach_self hρ hp hb]⟩
        · have hold := (h.inUse_attach hρ hp hb (c := c)).mp hc
          rcases h.spent c (hold.resolve_right hcb) with hres | ⟨ρ', hρ', rfl⟩
          · exact .inl ((reserved_congr (h.nblocks_attach hρ hp hb)).mpr hres)
          · by_cases hc0 : m.ref ρ' = 0
            · refine .inl (.inl ?_)
              rw [hc0]
              decide
            · exact .inr ⟨ρ', ⟨hext.record _ hρ'.1, hρ'.2⟩, hext.ref ρ' hρ' hc0⟩

theorem LedgerBut.attach (h : m.LedgerBut f) (hf : m.Rec f)
    (he : Edits (· = .attach) f m m') : m'.LedgerBut f := by
  induction he with
  | refl => exact h
  | tail he he' ih => exact ih.attachEdit (Edits.sound h.toSound hf he).2 he'

/-- The blocks of a regular file that are freed are not spent any more, and no
others are lost. -/
theorem LedgerBut.detach (h : m.LedgerBut f) (hf : m.Rec f)
    (ht : m.fType f ≠ FTYPE_DIR) (htail : m.TailZero f)
    (he : Edits (· = .detach) f m m') : m'.LedgerBut f := by
  have hshrink := Edits.shrinks h.toSound hf he
  refine ⟨(Edits.sound h.toSound hf he).1, fun r hr hrf => ?_, fun b hb => ?_⟩
  · have hr' := hshrink.record r hr
    exact (Edits.keeps h.toSound hf ht he hr' hrf).2.toSame.recordOk
      (h.others r hr' hrf)
  · rcases h.spent b (hshrink.inUse b hb) with hres | ⟨ρ, hρ, rfl⟩
    · exact .inl ((reserved_congr hshrink.nblocks).mpr hres)
    by_cases hfile : ρ.file = f
    · rcases hshrink.ref ρ hfile hρ.2 with hsame | hzero
      · exact .inr ⟨ρ, ⟨hfile ▸ (Edits.sound h.toSound hf he).2, hρ.2⟩, hsame⟩
      · by_cases hne : m.ref ρ = 0
        · refine .inl (.inl ?_)
          rw [hne]
          decide
        · exact absurd hb (hshrink.gone htail ρ hfile hρ.2 hne hzero)
    · obtain ⟨hr, hkept⟩ := Edits.keeps h.toSound hf ht he hρ.1 hfile
      exact .inr ⟨ρ, ⟨hr, hρ.2⟩, hkept.ref hρ.2⟩

/-! ## Blocks below the size -/

/-- `f` is a live file of size `v`, and no directory. -/
structure Regular (m : PhysMem) (f : FilePtr) (v : Word) : Prop where
  record : m.Rec f
  inDir : m.InDir f
  type : m.fType f ≠ FTYPE_DIR
  size : m.fSize f = v

theorem Extends.inDir (h : Extends m m') (hf : m.Rec f) (hin : m.InDir f) :
    m'.InDir f := by
  rcases hin with hroot | hname
  · exact .inl hroot
  · right
    rwa [h.fName hf (by decide)]

theorem Extends.regular (h : Extends m m') (hf : m.Regular f v) :
    m'.Regular f v where
  record := h.record f hf.record
  inDir := h.inDir hf.record hf.inDir
  type := by
    rw [h.fType hf.record]
    exact hf.type
  size := (h.fSize hf.record).trans hf.size

theorem Same.regular (h : Same m m' f) (hf : m.Regular f v) (hr : m'.Rec f) :
    m'.Regular f v where
  record := hr
  inDir := h.inDir.mpr hf.inDir
  type := by
    rw [h.fType]
    exact hf.type
  size := h.fSize.trans hf.size

/-- A store to a data block of a regular file. -/
theorem Ledger.fill (h : m.Ledger) (hf : m.Regular f v)
    (hk : k < NDIRECT + NINDIRECT) (h0 : m.ref (.data f k) ≠ 0)
    {p : Bytes} : Ledger (Function.update m (m.ref (.data f k)) p) ∧
      Regular (Function.update m (m.ref (.data f k)) p) f v := by
  have hsame : ∀ r, m.Rec r →
      Same m (Function.update m (m.ref (.data f k)) p) r := fun r hr =>
    h.same_fill hf.record hf.type hk h0
      (fun c j _ hc => by rw [Function.update_of_ne hc]) hr
  have hmap : SameMap m (Function.update m (m.ref (.data f k)) p) :=
    .update (h.named _ (.data hf.record hk) h0).2
  have hbut := (h.but f).of_same hmap (fun r hr => (hsame r hr).fType)
    (fun ρ hρ => (hsame ρ.file hρ.1).ref hρ.2)
    fun r hr _ => hsame r hr
  have hrec := h.record_self hf.record
    (fun ρ hρ _ => (hsame ρ.file hρ.1).ref hρ.2) fun r hr => (hsame r hr).fType
  exact ⟨hbut.ledger ((hsame f hf.record).recordOk (h.recordOk f hf.record)),
    (hsame f hf.record).regular hf hrec⟩

/-- A live record gets blocks below its size. -/
theorem Ledger.grown (h : m.Ledger) (hf : m.Rec f) (hin : m.InDir f)
    (he : Edits (· = .attach) f m m')
    (hdata : ∀ k, (roundBlocks (m.fSize f)).toNat ≤ k →
      k < NDIRECT + NINDIRECT → m'.ref (.data f k) = m.ref (.data f k)) :
    m'.Ledger := by
  have hext := Edits.extends h.toSound hf he
  have hok := h.recordOk f hf
  refine ((h.but f).attach hf he).ledger ⟨fun k hk hkn => ?_, fun ht => ?_,
    fun ht => ?_, fun hno => ?_⟩
  · rw [hext.fSize hf] at hk
    rw [hdata k hk hkn]
    exact hok.tail k hk hkn
  · rw [hext.fSize hf]
    exact hok.reg (by rwa [hext.fType hf] at ht)
  · rw [hext.fSize hf]
    exact hok.dir (by rwa [hext.fType hf] at ht)
  · exact absurd (hext.inDir hf hin) hno

theorem Ledger.got (h : m.Ledger) (hf : m.Rec f) (hin : m.InDir f)
    (hk : k < (roundBlocks (m.fSize f)).toNat)
    (hg : Got f k m m') : m'.Ledger :=
  h.grown hf hin hg.grows.edits fun j hj hjn => hg.other j hjn (by omega)

theorem Ledger.walked (h : m.Ledger) (hf : m.Rec f) (hin : m.InDir f)
    (hw : m = m' ∨ m.Walked f k m') : m'.Ledger := by
  rcases hw with rfl | hw
  · exact h
  · exact h.grown hf hin (hw.grows h.toSound hf).edits fun j _ hjn =>
      hw.data h.toSound hf hjn

/-! ## Sizes of regular files -/

theorem roundBlocks_mono {w : Word} (hv : v.toNat ≤ w.toNat)
    (hw : w.toNat ≤ MAXFILESIZE) :
    (roundBlocks v).toNat ≤ (roundBlocks w).toNat := by
  have hmax : MAXFILESIZE = 4235264 := rfl
  have hB : BLKSIZE = 4096 := rfl
  rw [roundBlocks_toNat (by omega), roundBlocks_toNat (by omega)]
  omega

/-- A live regular file that has a new size, and blocks below it only. -/
theorem LedgerBut.regular (h : m.LedgerBut f) (hin : m.InDir f)
    (ht : m.fType f ≠ FTYPE_DIR)
    (hsize : (m.fSize f).toNat ≤ MAXFILESIZE) (htail : m.TailZero f) :
    m.Ledger :=
  h.ledger ⟨htail, fun _ => hsize, fun hd => absurd hd ht, fun hno =>
    absurd hin hno⟩

theorem inDir_setSize : (m.setSize f v).InDir f ↔ m.InDir f := by
  have hname : (m.setSize f v).fName f 0 = m.fName f 0 :=
    setEntry_byte (.inr (.inl (by omega)))
  rw [InDir, hname, InDir]

theorem Ledger.extend (h : m.Ledger) (hf : m.Regular f v) {w : Word}
    (hle : v.toNat ≤ w.toNat) (hw : w.toNat ≤ MAXFILESIZE) :
    (m.setSize f w).Ledger ∧ (m.setSize f w).Regular f w := by
  have hrec := (h.sound_setSize hf.record (v := w)).2
  have htype : (m.setSize f w).fType f ≠ FTYPE_DIR := by
    rw [fType_setSize]
    exact hf.type
  refine ⟨((h.but f).setSize hf.record).regular (inDir_setSize.mpr hf.inDir)
    htype ?_ fun k hk hkn => ?_,
    ⟨hrec, inDir_setSize.mpr hf.inDir, htype, fSize_setSize⟩⟩
  · rwa [fSize_setSize]
  · rw [fSize_setSize] at hk
    rw [h.ref_setSize hf.record (.data hf.record hkn)]
    refine (h.recordOk f hf.record).tail k (Nat.le_trans ?_ hk) hkn
    rw [hf.size]
    exact roundBlocks_mono hle hw

/-- The first words of a record are its name. -/
theorem fName_of_field (h : ∀ i, i < 32 → m'.entry f.blk (f.off + i) =
      m.entry f.blk (f.off + i)) {i : Nat}
    (hi : i < MAXNAMELEN) : m'.fName f i = m.fName f i := by
  have hM : MAXNAMELEN = 128 := rfl
  have hword : (m' f.blk).load32 (4 * (f.off + i / 4)) =
      (m f.blk).load32 (4 * (f.off + i / 4)) := h (i / 4) (by omega)
  rw [PhysMem.fName, PhysMem.fName]
  exact Bytes.eq_of_load32 hword (by omega) (by omega)

theorem Cut.fName {lo hi i : Nat} (h : Cut f lo hi m m') (hi : i < MAXNAMELEN) :
    m'.fName f i = m.fName f i :=
  fName_of_field (fun j hj => h.field j (by omega)) hi

/-- What truncation frees is what is beyond the new size. -/
theorem Ledger.cut (h : m.Ledger) (hf : m.Regular f v) {w : Word}
    (hw : w.toNat ≤ MAXFILESIZE)
    (hcut : Cut f (roundBlocks w).toNat
      (max (roundBlocks w).toNat (roundBlocks (m.fSize f)).toNat) m m') :
    (m'.setSize f w).Ledger ∧ (m'.setSize f w).Regular f w := by
  have htail := (h.recordOk f hf.record).tail
  have hbut := (h.but f).detach hf.record hf.type htail hcut.edits
  obtain ⟨hm', hf'⟩ := hcut.sound h.toSound hf.record
  have hrec := (hm'.sound_setSize hf' (v := w)).2
  have hin : m'.InDir f := by
    rw [InDir, hcut.fName (by decide)]
    exact hf.inDir
  have htype : (m'.setSize f w).fType f ≠ FTYPE_DIR := by
    rw [fType_setSize, Edits.fType h.toSound hf.record hcut.edits]
    exact hf.type
  refine ⟨(hbut.setSize hf').regular (inDir_setSize.mpr hin) htype ?_
    fun k hk hkn => ?_,
    ⟨hrec, inDir_setSize.mpr hin, htype, fSize_setSize⟩⟩
  · rwa [fSize_setSize]
  · rw [fSize_setSize] at hk
    rw [hm'.ref_setSize hf' (.data hf' hkn), hcut.data k hkn]
    split
    · rfl
    · exact htail k (by omega) hkn

/-! ## Names that come and go -/

/-- A record without data is in order, whatever its name and its type are. -/
theorem Empty.recordOk (h : m.Empty r) : m.RecordOk r where
  tail := h.tailZero
  reg _ := by
    rw [h.size]
    exact Nat.zero_le _
  dir _ := by
    refine ⟨0, Nat.zero_le _, ?_⟩
    rw [h.size]
    rfl
  free _ := h

/-- A free record gets a name. -/
theorem Ledger.give (h : m.Ledger) (hf : m.Rec f) (he : m.Empty f)
    (hn : IsName name) : (m.putName f name).Ledger := by
  refine ((h.but f).putName hf hn.short).ledger (Empty.recordOk ⟨?_, ?_⟩)
  · have hsize : (m.putName f name).fSize f = m.fSize f :=
      entry_putName hn.short (.inr (.inr (by omega)))
    rw [hsize, he.size]
  · rintro ρ rfl hok
    rw [h.ref_putName hn.short hf ⟨hf, hok⟩, he.ref ρ rfl hok]

theorem Ledger.empty_of_free (h : m.Ledger) (hf : m.Rec f) (hroot : f ≠ ROOT)
    (h0 : m.fName f 0 = 0) : m.Empty f := by
  refine (h.recordOk f hf).free ?_
  rintro (he | he)
  · exact hroot he
  · exact he h0

/-- The pointers of a file that is truncated to nothing. -/
theorem TailZero.cut_ref (htail : m.TailZero f)
    (hcut : Cut f 0 (max 0 (roundBlocks (m.fSize f)).toNat) m m')
    (hfile : ρ.file = f) (hok : ρ.Ok) : m'.ref ρ = 0 := by
  cases ρ with
  | ind g =>
      obtain rfl : g = f := hfile
      exact hcut.ind.trans (if_pos (Nat.zero_le _))
  | data g k =>
      obtain rfl : g = f := hfile
      rw [hcut.data k hok]
      split
      · rfl
      · rename_i hout
        rw [not_or] at hout
        exact htail k (by omega) hok

/-- A regular file that loses its blocks, its name and its size. -/
theorem Ledger.remove (h : m.Ledger) (hf : m.Regular f v)
    (hcut : Cut f 0 (max 0 (roundBlocks (m.fSize f)).toNat) m m') :
    (m'.cleared f).Ledger := by
  have htail := (h.recordOk f hf.record).tail
  obtain ⟨_, hf'⟩ := hcut.sound h.toSound hf.record
  have hn : ([] : List (BitVec 8)).length < MAXNAMELEN := by decide
  have hbut :=
    ((h.but f).detach hf.record hf.type htail hcut.edits).putName hf' hn
  have hf₂ : (m'.putName f []).Rec f := record_mono
    (fun p k hp hk _ => (hcut.sound h.toSound hf.record).1.ref_putName hn hf'
    (.data hp.record hk))
    (fun r hr =>
    ((hcut.sound h.toSound hf.record).1.putName_evolves hn hf').fType r hr) hf'
  refine (hbut.setSize hf₂).ledger (Empty.recordOk ⟨fSize_setSize, ?_⟩)
  rintro ρ rfl hok
  obtain ⟨_, _, _, _, _, href, _⟩ := Sound.cleared_map hf.record hcut h.toSound
  exact (href ρ ⟨hf', hok⟩).trans (htail.cut_ref hcut rfl hok)

end PhysMem

/-! ## The operations on a file -/

section

open PhysMem

variable {d m : PhysMem} {s : Fs} {q : Bytes} {f : FilePtr} {v w : Word}
  {A : Fs → Prop} {E : Stop → Fs → Prop}

/-- The server shows a disk whose ledger balances. -/
def Fs.Balanced (d : PhysMem) (s : Fs) : Prop := ∃ m q, s.Shows d m q ∧ m.Ledger

theorem wp_fileSetSize_ledger (h : m.Ledger) (hf : m.Regular f v)
    (hw : w.toNat ≤ MAXFILESIZE) (hs : s.Shows d m q) :
    Prog.wp (fileSetSize f w) (fun _ t => t.Balanced d) A E s := by
  have hv : v.toNat ≤ MAXFILESIZE :=
    hf.size ▸ (h.recordOk f hf.record).reg hf.type
  have hmax : MAXFILESIZE = 4235264 := rfl
  refine wp_fileSetSize h.toSound hf.record hs
    (fun m' t _ hcut ht => ⟨_, q, ht, (h.cut hf hw hcut).1⟩) fun t hge ht => ?_
  refine ⟨_, q, ht, (h.extend hf ?_ hw).1⟩
  rw [hf.size, BitVec.slt_iff_toInt_lt, toInt_of_nonneg (by omega),
    toInt_of_nonneg (by omega)] at hge
  omega

/-- `file_get_block` for a block below the size. -/
theorem wp_fileGetBlock_ledger (h : m.Ledger) (hf : m.Rec f) (hin : m.InDir f)
    (hw : w.toNat < (roundBlocks (m.fSize f)).toNat)
    (hs : s.Shows d m q) {Q : Except Word Nat → Fs → Prop}
    (hok : ∀ m' t, w.toNat < NDIRECT + NINDIRECT → Got f w.toNat m m' →
      m'.Ledger → t.Shows d m' q →
      Q (.ok (m'.ref (.data f w.toNat))) t)
    (herr : ∀ r m' t, m'.Ledger → Grows f m m' → t.Shows d m' q →
      Q (.error r) t) :
    Prog.wp (fileGetBlock f w) Q A E s :=
  wp_fileGetBlock h.toSound hf hs
    (fun m' t hlt hg ht => hok m' t hlt hg (h.got hf hin hw hg) ht)
    fun r m' t _ _ hg hwalk _ ht =>
    herr r m' t (h.walked hf hin (hwalk.imp Eq.symm id)) hg ht

/-- The ledger balances, and `f` is a file of size `v`. -/
def Fs.Serves (d : PhysMem) (f : FilePtr) (v : Word) (s : Fs) : Prop :=
  ∃ m q, s.Shows d m q ∧ m.Ledger ∧ m.Regular f v

theorem Fs.Serves.balanced (h : s.Serves d f v) : s.Balanced d := by
  obtain ⟨m, q, hs, hm, _⟩ := h
  exact ⟨m, q, hs, hm⟩

/-- The loop of `file_read` and `file_write` below the size of the file. -/
theorem wp_fileLoop_ledger {move : Int → Int → Nat → FsM Unit} (base : Int)
    {e lo : Nat} {stop : Word} (hstop : stop.toNat = e)
    (he : e ≤ v.toNat)
    (hmove : ∀ p m q t, lo ≤ p → p < e → p / BLKSIZE < NDIRECT + NINDIRECT →
      m.Ledger → m.Regular f v →
      m.ref (.data f (p / BLKSIZE)) ≠ 0 → t.Shows d m q →
      Prog.wp (move (BLKSIZE * m.ref (.data f (p / BLKSIZE)) +
        (p % BLKSIZE : Nat)) (base + p) (chunk p e))
        (fun _ u => u.Serves d f v) A E t)
    {fuel : Nat} {pos : Word} {buf : Int} (hpos : pos.toNat = lo)
    (hbuf : buf = base + lo) (hpe : lo ≤ e)
    (hfuel : e ≤ lo + fuel) (hs : s.Serves d f v) :
    Prog.wp (fileLoop f move stop fuel pos buf) (fun _ t => t.Serves d f v)
      A E s := by
  have hmax : MAXFILESIZE = 4235264 := rfl
  refine wp_moveLoop base hstop (fun p t => lo ≤ p ∧ t.Serves d f v)
    (fun p t hlt ht => ?_) (fun p w t hlt hw ht => ?_)
    (fun t ht => ht.2) hpos hbuf hpe hfuel ⟨le_rfl, hs⟩
  · obtain ⟨_, m, q, _, hm, hf⟩ := ht
    have hv := hf.size ▸ (hm.recordOk f hf.record).reg hf.type
    omega
  · obtain ⟨hlo, m, q, ht, hm, hf⟩ := ht
    have hv := hf.size ▸ (hm.recordOk f hf.record).reg hf.type
    have hbelow : w.toNat < (roundBlocks (m.fSize f)).toNat := by
      have hB : BLKSIZE = 4096 := rfl
      rw [(hm.recordOk f hf.record).roundBlocks, hf.size, hw, hB]
      omega
    refine wp_fileGetBlock_ledger hm hf.record hf.inDir hbelow ht
      (fun m' u hlt' hg hm' hu => ⟨nofun, ?_⟩)
      fun r m' u hm' hg hu => ⟨fun _ _ => ⟨m', q, hu, hm', ?_⟩, nofun⟩
    · rintro _ ⟨⟩
      rw [hw] at hlt' hg ⊢
      have hf' := (hg.grows.edits.extends hm.toSound hf.record).regular hf
      refine Prog.wp_imp (hmove p m' q u hlo hlt hlt' hm' hf' hg.ne hu)
        (fun _ w hw => ⟨?_, hw⟩) (fun _ h => h)
        fun _ _ h => h
      exact Nat.le_trans hlo (Nat.le_add_right p _)
    · exact (hg.edits.extends hm.toSound hf.record).regular hf

/-- `file_read` into the request page. -/
theorem wp_fileRead_ledger (h : m.Ledger) (hf : m.Regular f v)
    {count offset : Word} {r : Nat}
    (hend : offset.toNat + count.toNat ≤ MAXFILESIZE)
    (hr : r + count.toNat ≤ BLKSIZE) (hs : s.Shows d m q) :
    Prog.wp (fileRead f (-BLKSIZE + r) count offset) (fun _ t => t.Serves d f v)
      A E s := by
  have hmax : MAXFILESIZE = 4235264 := rfl
  have hv := hf.size ▸ (h.recordOk f hf.record).reg hf.type
  apply Prog.wp_bind_intro
  refine wp_readWord h.toMapOk hs (h.blk_inUse hf.record) fun t ht => ?_
  have hent : m.entry f.blk (f.off + 32) = v := hf.size
  rw [hent]
  refine Prog.wp_ite _ (fun _ => Prog.wp_pure_intro ⟨m, q, ht, h, hf⟩)
    fun hgt => ?_
  have hlt : offset.toNat < v.toNat := by
    rw [BitVec.sle_iff_toInt_le, toInt_of_nonneg (by omega),
      toInt_of_nonneg (by omega)] at hgt
    omega
  have hn : (minWord count (v - offset)).toNat =
      min count.toNat (v.toNat - offset.toNat) := by
    rw [minWord_toNat, BitVec.toNat_sub_of_le (by rw [BitVec.le_def]; omega)]
  have hstop : (offset + minWord count (v - offset)).toNat =
      offset.toNat + min count.toNat (v.toNat - offset.toNat) := by
    rw [BitVec.toNat_add, hn]
    omega
  apply Prog.wp_bind_intro
  refine Prog.wp_imp (wp_fileLoop_ledger (-BLKSIZE + r - offset.toNat) hstop
    (by omega)
    (fun p m' q' u hlo hlt' hk hm' hf' hne hu => ?_) rfl (by omega) (by omega)
    (by omega) ⟨m, q, ht, h, hf⟩)
    (fun a u hu => ?_) (fun _ h => h) fun _ _ h => h
  · obtain ⟨hc1, hc2⟩ :=
      chunk_le p (offset.toNat + min count.toNat (v.toNat - offset.toNat))
    have hbase : (-BLKSIZE + r - offset.toNat + p : Int) =
        -BLKSIZE + (r + (p - offset.toNat) : Nat) := by
      omega
    rw [hbase]
    exact wp_loadData hm'.toMapOk hu (hm'.named _ (.data hf'.record hk) hne).1
      hc1 (by omega) fun w hw =>
      ⟨m', _, hw, hm', hf'⟩
  · cases a with
    | error x => exact Prog.wp_pure_intro hu
    | ok => exact Prog.wp_pure_intro hu

/-- `file_write` from the request page. -/
theorem wp_fileWrite_ledger (h : m.Ledger) (hf : m.Regular f v)
    {count offset : Word} {r : Nat}
    (hend : offset.toNat + count.toNat ≤ MAXFILESIZE)
    (hr : r + count.toNat ≤ BLKSIZE) (hs : s.Shows d m q) :
    Prog.wp (fileWrite f (-BLKSIZE + r) count offset) (fun _ t => t.Balanced d)
      A E s := by
  have hmax : MAXFILESIZE = 4235264 := rfl
  have hv := hf.size ▸ (h.recordOk f hf.record).reg hf.type
  have hstop : (offset + count).toNat = offset.toNat + count.toNat := by
    rw [BitVec.toNat_add]
    omega
  -- what is left when the file is long enough
  have hloop :
      ∀ (w : Word) (t : Fs) (k : Except Word Unit → FsM (Except Word Word)),
      offset.toNat + count.toNat ≤ w.toNat →
      t.Serves d f w → (∀ a, ∃ x, k a = pure x) →
      Prog.wp (fileLoop f (fun a p n => memmove a p n)
        (offset + count) count.toNat offset (-BLKSIZE + r) >>= k)
        (fun _ t => t.Balanced d) A E t := by
    intro w t k hw ht hk
    apply Prog.wp_bind_intro
    refine Prog.wp_imp
      (wp_fileLoop_ledger (-BLKSIZE + r - offset.toNat) hstop hw
      (fun p m' q' u hlo hlt' hk hm' hf' hne hu => ?_) rfl (by omega) (by omega)
      (by omega) ht)
      (fun a u hu => ?_) (fun _ h => h) fun _ _ h => h
    · obtain ⟨hc1, hc2⟩ := chunk_le p (offset.toNat + count.toNat)
      have hbase : (-BLKSIZE + r - offset.toNat + p : Int) =
          -BLKSIZE + (r + (p - offset.toNat) : Nat) := by
        omega
      obtain ⟨huse, hres⟩ := hm'.named _ (.data hf'.record hk) hne
      rw [hbase]
      exact wp_storeData hm'.toMapOk hu huse hres hc1 (by omega) fun x hx =>
        ⟨_, _, hx, hm'.fill hf' hk hne⟩
    · obtain ⟨x, hx⟩ := hk a
      rw [hx]
      exact Prog.wp_pure_intro hu.balanced
  apply Prog.wp_bind_intro
  refine wp_readWord h.toMapOk hs (h.blk_inUse hf.record) fun t ht => ?_
  have hent : m.entry f.blk (f.off + 32) = v := hf.size
  rw [hent]
  refine Prog.wp_ite _ (fun hlt => Prog.wp_bind_intro ?_) fun hge =>
    Prog.wp_bind_intro (Prog.wp_pure_intro ?_)
  · rw [BitVec.lt_def] at hlt
    have hext := h.extend hf (w := offset + count) (by omega) (by omega)
    refine wp_fileSetSize h.toSound hf.record ht (fun _ _ hslt => ?_)
      fun u _ hu => ?_
    · rw [hf.size, BitVec.slt_iff_toInt_lt, toInt_of_nonneg (by omega),
        toInt_of_nonneg (by omega)] at hslt
      omega
    · refine hloop (offset + count) u _ (by omega) ⟨_, q, hu, hext⟩ fun a => ?_
      cases a with
      | error x => exact ⟨_, rfl⟩
      | ok => exact ⟨_, rfl⟩
  · rw [BitVec.lt_def] at hge
    refine hloop v t _ (by omega) ⟨m, q, ht, h, hf⟩ fun a => ?_
    cases a with
    | error x => exact ⟨_, rfl⟩
    | ok => exact ⟨_, rfl⟩

end

end Jos
