import Jos.Fs.Image
import Jos.Fs.Mounted

/-!
# What `fsformat` writes is what the file server reads

The image of at least one file, whose entries had no pointers in the memory from
`malloc` that `finishfile` does not set, is a volume that mirrors the files in
the root directory.
-/

namespace Jos

open PhysMem Fmt

/-- The pointers that `finishfile` does not set are 0 in the memory from
`malloc`. -/
def CleanEnts (old : Bytes) (files : List HostFile) : Prop :=
  ∀ i h, files[i]? = some h →
    (∀ k, blocksOf h.size ≤ k → k < NDIRECT →
    old.load32 (256 * i + 136 + 4 * k) = 0) ∧
    (blocksOf h.size < NDIRECT → old.load32 (256 * i + 176) = 0)

/-- The `e`th `struct File` of a directory with its blocks from `p` on. -/
def slotAt (p e : Nat) : FilePtr := slot (p + e / BLKFILES) (e % BLKFILES)

/-- What is at each path of the image. -/
def imageMap (files : List HostFile) : FileMap
  | [] => some .dir
  | [c] => (files.find? fun h => baseName h.path = c).map fun h =>
      .file ⟨h.size, fun o => if o < h.size then h.data o else 0⟩
  | _ => none

/-- What is in an image, word by word. -/
structure Laid (nblocks : Nat) (files : List HostFile) (m : PhysMem) :
    Prop where
  nonempty : 0 < files.length
  fits : Formattable nblocks files
  small : nblocks ≤ 1024
  total : m.nblocks = nblocks
  bit : ∀ b, b < nblocks → m.bit b = decide (endBlock files ≤ b)
  rootType : m.fType ROOT = FTYPE_DIR
  rootSize : m.fSize ROOT =
    BitVec.ofNat 32 (BLKSIZE * blocksOf (256 * files.length))
  rootDirect : ∀ k, k < NDIRECT → m.fDirect ROOT k =
    if k < blocksOf (256 * files.length) then
      BitVec.ofNat 32 (firstBlock files files.length + k) else 0
  rootIndirect : m.fIndirect ROOT = 0
  listed : ∀ e h, files[e]? = some h →
    ∃ ents, Listed (fun _ => 0) ents (256 * e) (firstBlock files e) h ∧
    ∀ y, y < 256 → m (slotAt (firstBlock files files.length) e).blk
      (4 * (slotAt (firstBlock files files.length) e).off + y) =
      ents (256 * e + y)
  blank : ∀ e, files.length ≤ e → e < BLKFILES * blocksOf (256 * files.length) →
    ∀ y, y < 256 →
    m (slotAt (firstBlock files files.length) e).blk
      (4 * (slotAt (firstBlock files files.length) e).off + y) = 0
  placed : ∀ e h, files[e]? = some h →
    ∃ disk, Placed disk (firstBlock files e) h ∧
    ∀ b j, firstBlock files e ≤ b → b < firstBlock files e + h.span →
    j < BLKSIZE → m b j = disk (BLKSIZE * b + j)

theorem load32_copy_of_ne {b src : Bytes} {i k n j : Nat}
    (h : j + 4 ≤ i ∨ i + n ≤ j) : (b.copy i src k n).load32 j = b.load32 j :=
  Bytes.load32_congr fun _ _ _ => Bytes.copy_of_ne (by omega)

theorem entry_image {t : Fmt} {b i : Nat} :
    t.image.entry b i = t.diskmap.load32 (BLKSIZE * b + 4 * i) := by
  rw [PhysMem.entry, Bytes.load32, Bytes.load32]
  rfl

section Head

variable {nblocks : Word} {i : Nat}

theorem headOf_nblocks :
    (headOf nblocks).load32 (BLKSIZE + 4 * 1) = nblocks := by
  have hB : BLKSIZE = 4096 := rfl
  have hname : ([SLASH] : List (BitVec 8)).length = 1 := rfl
  rw [headOf, Bytes.load32_fill_of_ne (by omega), load32_copy_of_ne (by omega),
    Bytes.load32_store32_of_ne (by omega)]
  exact Bytes.load32_store32 _ _ _

theorem headOf_type : (headOf nblocks).load32 (BLKSIZE + 4 * 35) =
      FTYPE_DIR := by
  have hB : BLKSIZE = 4096 := rfl
  have hname : ([SLASH] : List (BitVec 8)).length = 1 := rfl
  rw [headOf, Bytes.load32_fill_of_ne (by omega), load32_copy_of_ne (by omega)]
  exact Bytes.load32_store32 _ _ _

theorem headOf_zero (hi : 36 ≤ i) (hi' : i < 1024) :
    (headOf nblocks).load32 (BLKSIZE + 4 * i) = 0 := by
  have hB : BLKSIZE = 4096 := rfl
  have hname : ([SLASH] : List (BitVec 8)).length = 1 := rfl
  rw [headOf, Bytes.load32_fill_of_ne (by omega), load32_copy_of_ne (by omega),
    Bytes.load32_store32_of_ne (by omega),
    Bytes.load32_store32_of_ne (by omega),
    Bytes.load32_store32_of_ne (by omega)]
  exact load32_of_zero fun _ _ => rfl

end Head

section Laid

variable {nblocks : Word} {old : Bytes} {files : List HostFile} {t : Fmt}

theorem Fmt.Imaged.laid (hi : Imaged nblocks old files t)
    (hn : nblocks.toNat ≤ 1024) (hne : files ≠ [])
    (hclean : CleanEnts old files) :
    Laid nblocks.toNat files t.image := by
  have hB : BLKSIZE = 4096 := rfl
  have hBB : BLKBITSIZE = 32768 := rfl
  have hN : NDIRECT = 10 := rfl
  have hF : BLKFILES = 16 := rfl
  obtain ⟨hfits, s, hs, hout, hbits⟩ := hi
  have hpos : 0 < files.length := List.length_pos_iff.mpr hne
  have hfirst : 3 ≤ firstBlock files files.length := Nat.le_add_right _ _
  have hle := dirBlocksOf_le hs.entries
  have hdir : dirBlocksOf files.length = blocksOf (256 * files.length) := by
    rw [dirBlocksOf, blocksOf, hB]
    omega
  have hend := hfits.blocks
  rw [endBlock] at hend
  rw [hdir] at hle
  -- words of the super block
  have hword : ∀ i, i < 1024 → t.image.entry 1 i =
      (withRoot s.diskmap s.ents files.length
        (firstBlock files files.length)).load32 (BLKSIZE + 4 * i) := by
    intro i hi
    rw [entry_image, Nat.mul_one]
    exact Bytes.load32_congr fun x _ _ => hout x (by omega)
  have hold : ∀ i, i < 34 ∨ 34 < i ∧ i < 36 ∨
      36 + blocksOf (256 * files.length) ≤ i ∧ i < 1024 →
      t.image.entry 1 i = (headOf nblocks).load32 (BLKSIZE + 4 * i) := by
    intro i hi
    rw [hword i (by omega), withRoot, hdir, Bytes.load32_words_of_ne (by omega),
      Bytes.load32_store32_of_ne (by omega)]
    refine Bytes.load32_congr fun x _ _ => ?_
    rw [Bytes.copy_of_ne (by rw [hB]; omega)]
    exact hs.head x (by omega)
  -- entries
  have hslot : ∀ e y, e < 16 * blocksOf (256 * files.length) → y < 256 →
      t.image (slotAt (firstBlock files files.length) e).blk
        (4 * (slotAt (firstBlock files files.length) e).off + y) =
        if e < files.length then s.ents (256 * e + y) else 0 := by
    intro e y he hy
    have haddr : t.image (slotAt (firstBlock files files.length) e).blk
        (4 * (slotAt (firstBlock files files.length) e).off + y) =
        t.diskmap (BLKSIZE * firstBlock files files.length +
          (256 * e + y)) := by
      rw [Fmt.image, slotAt, slot]
      congr 1
      dsimp only
      rw [hF, hB]
      omega
    rw [haddr, hout _ (by rw [hB]; omega), withRoot, hdir,
      Bytes.words_of_ne (by rw [hB]; omega),
      Bytes.store32_of_ne (by rw [hB]; omega)]
    split
    · rw [Bytes.copy_of_mem (by omega)]
      congr 1
      omega
    · rw [Bytes.copy_of_ne (by omega)]
      exact hs.blank _ (by omega)
  refine ⟨hpos, hfits, hn, ?_, fun b hb => ?_, ?_, ?_, fun k hk => ?_, ?_,
    fun e h he => ?_, fun e hlo hhi y hy => ?_, fun e h he => ?_⟩
  · rw [PhysMem.nblocks, hold 1 (by omega), headOf_nblocks]
  · have hb' : b < BLKBITSIZE := by omega
    have hentry : t.image.entry (bitmapAt b).1 (bitmapAt b).2 =
        t.diskmap.load32 (2 * BLKSIZE + 4 * (b / 32)) := by
      rw [entry_image, bitmapAt]
      dsimp only
      congr 1
      rw [hB]
      omega
    rw [PhysMem.bit, hentry]
    exact hbits b hb'
  · rw [fType]
    exact (hold 35 (by omega)).trans headOf_type
  · have hsize : t.image.fSize ROOT = _ := hword 34 (by omega)
    rw [hsize, withRoot, hdir, Bytes.load32_words_of_ne (by omega)]
    exact Bytes.load32_store32 _ _ _
  · have hptr : t.image.fDirect ROOT k = _ := hword (2 + 34 + k) (by omega)
    rw [hptr]
    split
    · rename_i hlt
      rw [withRoot, hdir, show BLKSIZE + 4 * (2 + 34 + k) =
        BLKSIZE + 8 + 4 * 34 + 4 * k by omega, Bytes.load32_words hlt,
        BitVec.ofNat_add]
    · rw [← hword _ (by omega), hold _ (by omega),
        headOf_zero (by omega) (by omega)]
  · have hptr : t.image.fIndirect ROOT = _ := hold (2 + 44) (by omega)
    rw [hptr, headOf_zero (by omega) (by omega)]
  · obtain ⟨_, _, _, hl⟩ := hs.files e h (List.getElem?_eq_some_iff.mp he).1 he
    have hlt := (List.getElem?_eq_some_iff.mp he).1
    obtain ⟨hdirect, hind⟩ := hclean e h he
    refine ⟨s.ents, ⟨hl.name, hl.size, hl.type, fun k hk => ?_, ?_⟩,
      fun y hy => ?_⟩
    · rw [hl.direct k hk]
      split
      · rfl
      · rw [hdirect k (by omega) hk]
        exact (load32_of_zero fun _ _ => rfl).symm
    · rw [hl.ind]
      split
      · rfl
      · rw [hind (by omega)]
        exact (load32_of_zero fun _ _ => rfl).symm
    · rw [hslot e y ?_ hy, if_pos hlt]
      rw [blocksOf, hB]
      omega
  · rw [hF] at hhi
    rw [hslot e y hhi hy, if_neg (by omega)]
  · obtain ⟨_, _, hp, _⟩ := hs.files e h (List.getElem?_eq_some_iff.mp he).1 he
    have hlt := (List.getElem?_eq_some_iff.mp he).1
    have hapart : firstBlock files e + h.span ≤
        firstBlock files files.length := by
      have := offset_apart (w := widths files) hlt
      rw [widths_of_get he] at this
      rw [firstBlock, firstBlock]
      omega
    have h3 : 3 ≤ firstBlock files e := Nat.le_add_right _ _
    refine ⟨s.diskmap, hp, fun b j hlo hhi hj => ?_⟩
    rw [hB] at hj
    rw [Fmt.image, hB, hout _ (by rw [hB]; omega), withRoot,
      Bytes.words_of_ne (by rw [hB, hdir]; omega),
      Bytes.store32_of_ne (by rw [hB]; omega),
      Bytes.copy_of_ne (by rw [hB]; omega)]

end Laid

/-! ## The image as a volume -/

namespace Laid

variable {nblocks e k : Nat} {files : List HostFile} {m : PhysMem}
  {h : HostFile} {r f d : FilePtr} {name : List (BitVec 8)}

theorem first_le (he : files[e]? = some h) :
    3 ≤ firstBlock files e ∧ firstBlock files e + h.span ≤
      firstBlock files files.length := by
  have hlt := (List.getElem?_eq_some_iff.mp he).1
  have hapart := offset_apart (w := widths files) hlt
  rw [widths_of_get he] at hapart
  rw [firstBlock, firstBlock]
  omega

/-- A pointer of a file names a block of its piece. -/
theorem piece_of {ρ : Role} (hρ : (∃ k, k < blocksOf h.size ∧
      ρ = .data (slotAt (firstBlock files files.length) e) k ∧
      m.ref ρ = firstBlock files e + k) ∨
      (NDIRECT ≤ blocksOf h.size ∧
        ρ = .ind (slotAt (firstBlock files files.length) e) ∧
      m.ref ρ = firstBlock files e + blocksOf h.size)) :
    firstBlock files e ≤ m.ref ρ ∧ m.ref ρ < firstBlock files e + h.span := by
  rcases hρ with ⟨k, hk, _, href⟩ | ⟨hk, _, href⟩
  · rw [href, HostFile.span]
    omega
  · rw [href, HostFile.span, if_pos hk]
    omega

section

variable (hm : Laid nblocks files m)
include hm

theorem dirBlocks_le : blocksOf (256 * files.length) ≤ 8 ∧
      0 < blocksOf (256 * files.length) ∧
    files.length ≤ BLKFILES * blocksOf (256 * files.length) := by
  have hB : BLKSIZE = 4096 := rfl
  have hF : BLKFILES = 16 := rfl
  have hmax : MAX_DIR_ENTS = 128 := rfl
  have hpos := hm.nonempty
  have hmany := hm.fits.entries
  rw [blocksOf, hB, hF]
  omega

theorem end_lt : firstBlock files files.length + blocksOf (256 * files.length) <
      nblocks := hm.fits.blocks

/-- What the file server reads in an entry. -/
theorem word_listed (he : files[e]? = some h) :
    ∃ ents, Listed (fun _ => 0) ents (256 * e) (firstBlock files e) h ∧
    (∀ i, i < 64 → m.entry (slotAt (firstBlock files files.length) e).blk
      ((slotAt (firstBlock files files.length) e).off + i) =
      ents.load32 (256 * e + 4 * i)) ∧
    ∀ y, y < MAXNAMELEN → m.fName (slotAt (firstBlock files files.length) e) y =
      ents (256 * e + y) := by
  have hM : MAXNAMELEN = 128 := rfl
  obtain ⟨ents, hl, hbytes⟩ := hm.listed e h he
  refine ⟨ents, hl, fun i hi => ?_, fun y hy => hbytes y (by omega)⟩
  have hbyte : ∀ z, z < 4 → m (slotAt (firstBlock files files.length) e).blk
      (4 * ((slotAt (firstBlock files files.length) e).off + i) + z) =
        ents (256 * e + 4 * i + z) := by
    intro z hz
    rw [Nat.mul_add, Nat.add_assoc, hbytes _ (by omega), Nat.add_assoc]
  rw [PhysMem.entry, Bytes.load32, Bytes.load32, hbyte 3 (by decide),
    hbyte 2 (by decide), hbyte 1 (by decide)]
  exact congrArg _ (hbyte 0 (by decide))

theorem word_blank (hlo : files.length ≤ e)
    (hhi : e < BLKFILES * blocksOf (256 * files.length)) {i : Nat}
    (hi : i < 64) :
    m.entry (slotAt (firstBlock files files.length) e).blk
      ((slotAt (firstBlock files files.length) e).off + i) = 0 := by
  refine load32_of_zero fun z hz => ?_
  rw [Nat.mul_add, Nat.add_assoc]
  exact hm.blank e hlo hhi _ (by omega)

/-! ### Pointers -/

theorem ref_root : m.ref (.data ROOT k) =
    if k < blocksOf (256 * files.length) then firstBlock files files.length +
      k else 0 := by
  have hN : NDIRECT = 10 := rfl
  have hend := hm.end_lt
  have hsmall := hm.small
  have hle := hm.dirBlocks_le
  rw [ref]
  by_cases hd : k < NDIRECT
  · rw [if_pos hd, hm.rootDirect k hd]
    split
    · rw [BitVec.toNat_ofNat]
      omega
    · rfl
  · rw [if_neg hd, if_pos hm.rootIndirect, if_neg (by omega)]

theorem ref_rootInd : m.ref (.ind ROOT) = 0 := by
  rw [ref, hm.rootIndirect]
  rfl

theorem ref_ind (he : files[e]? = some h) :
    m.ref (.ind (slotAt (firstBlock files files.length) e)) =
    if NDIRECT ≤ blocksOf h.size then
      firstBlock files e + blocksOf h.size else 0 := by
  have hend := hm.end_lt
  have hsmall := hm.small
  obtain ⟨_, hspan⟩ := first_le he
  have hle : blocksOf h.size ≤ h.span := Nat.le_add_right _ _
  obtain ⟨ents, hl, hword, _⟩ := hm.word_listed he
  rw [ref, fIndirect, hword 44 (by decide), show 256 * e + 4 * 44 =
    256 * e + 176 from rfl, hl.ind]
  split
  · rw [BitVec.toNat_ofNat]
    omega
  · rw [load32_of_zero fun _ _ => rfl]
    rfl

theorem ref_data (he : files[e]? = some h) (hk : k < NDIRECT + NINDIRECT) :
    m.ref (.data (slotAt (firstBlock files files.length) e) k) = if k <
      blocksOf h.size then firstBlock files e + k else 0 := by
  have hN : NDIRECT = 10 := rfl
  have hNI : NINDIRECT = 1024 := rfl
  have hB : BLKSIZE = 4096 := rfl
  have hend := hm.end_lt
  have hsmall := hm.small
  obtain ⟨hfirst, hspan⟩ := first_le he
  have hle : blocksOf h.size ≤ h.span := Nat.le_add_right _ _
  have hind := hm.ref_ind he
  obtain ⟨ents, hl, hword, _⟩ := hm.word_listed he
  rw [ref]
  by_cases hd : k < NDIRECT
  · rw [if_pos hd, fDirect, Nat.add_assoc, hword (34 + k) (by omega),
      show 256 * e + 4 * (34 + k) = 256 * e + 136 + 4 * k by omega,
        hl.direct k hd]
    split
    · rw [BitVec.toNat_ofNat]
      omega
    · rw [load32_of_zero fun _ _ => rfl]
      rfl
  · rw [if_neg hd]
    rw [ref] at hind
    by_cases hlarge : NDIRECT ≤ blocksOf h.size
    · rw [if_pos hlarge] at hind
      have hne :
          m.fIndirect (slotAt (firstBlock files files.length) e) ≠ 0 := by
        intro h0
        have hz : (0 : Word).toNat = 0 := rfl
        rw [h0, hz] at hind
        omega
      obtain ⟨disk, hp, hbytes⟩ := hm.placed e h he
      have hspan' : h.span = blocksOf h.size + 1 := by
        rw [HostFile.span, if_pos hlarge]
      have hentry : m.entry (firstBlock files e + blocksOf h.size)
          (k - NDIRECT) =
          disk.load32 (BLKSIZE * (firstBlock files e + blocksOf h.size) +
            4 * (k - NDIRECT)) := by
        have hbyte : ∀ z, z < 4 →
            m (firstBlock files e + blocksOf h.size) (4 * (k - NDIRECT) + z) =
            disk (BLKSIZE * (firstBlock files e + blocksOf h.size) +
              4 * (k - NDIRECT) + z) := by
          intro z hz
          rw [hbytes _ _ (Nat.le_add_right _ _) (by omega) (by omega),
            ← Nat.add_assoc]
        rw [PhysMem.entry, Bytes.load32, Bytes.load32, hbyte 3 (by decide),
          hbyte 2 (by decide), hbyte 1 (by decide)]
        exact congrArg _ (hbyte 0 (by decide))
      rw [if_neg hne, hind, hentry, hp.ind hlarge _ (by omega)]
      by_cases hlt : k < blocksOf h.size
      · rw [if_pos (by omega), if_pos hlt, BitVec.toNat_ofNat]
        omega
      · rw [if_neg (by omega), if_neg hlt]
        rfl
    · rw [if_neg hlarge] at hind
      rw [if_pos (BitVec.eq_of_toNat_eq hind), if_neg (by omega)]

theorem ref_blank (hlo : files.length ≤ e)
    (hhi : e < BLKFILES * blocksOf (256 * files.length)) {ρ : Role}
    (hfile : ρ.file = slotAt (firstBlock files files.length) e) (hok : ρ.Ok) :
    m.ref ρ = 0 := by
  have hind : m.fIndirect (slotAt (firstBlock files files.length) e) = 0 :=
    hm.word_blank hlo hhi (i := 44) (by decide)
  cases ρ with
  | ind g =>
      obtain rfl : g = _ := hfile
      rw [ref, hind]
      rfl
  | data g k =>
      obtain rfl : g = _ := hfile
      rw [ref]
      by_cases hd : k < NDIRECT
      · have hN : NDIRECT = 10 := rfl
        rw [if_pos hd, fDirect, Nat.add_assoc,
          hm.word_blank hlo hhi (i := 34 + k) (by omega)]
        rfl
      · rw [if_neg hd, if_pos hind]

/-! ### Records -/

theorem slot_root {j : Nat} (hne : m.ref (.data ROOT k) ≠ 0)
    (hj : j < BLKFILES) : ∃ e, e < BLKFILES * blocksOf (256 * files.length) ∧
    slot (m.ref (.data ROOT k)) j =
      slotAt (firstBlock files files.length) e := by
  have hF : BLKFILES = 16 := rfl
  rw [hm.ref_root] at hne ⊢
  by_cases hk : k < blocksOf (256 * files.length)
  · rw [if_pos hk]
    rw [hF] at hj
    refine ⟨16 * k + j, by rw [hF]; omega, ?_⟩
    rw [slotAt, hF, show (16 * k + j) / 16 = k by omega,
      show (16 * k + j) % 16 = j by omega]
  · rw [if_neg hk] at hne
    exact absurd rfl hne

theorem type_slot (he : e < BLKFILES * blocksOf (256 * files.length)) :
    m.fType (slotAt (firstBlock files files.length) e) = FTYPE_REG := by
  by_cases hlt : e < files.length
  · obtain ⟨ents, hl, hword, _⟩ := hm.word_listed (List.getElem?_eq_getElem hlt)
    rw [fType, hword 33 (by decide), show 256 * e + 4 * 33 = 256 * e + 132 from
      rfl, hl.type]
  · rw [fType, hm.word_blank (Nat.not_lt.mp hlt) he (by decide)]
    rfl

theorem isDir_root (hd : m.IsDir d) : d = ROOT := by
  obtain ⟨n, hn⟩ := hd
  induction n generalizing d with
  | zero => exact hn
  | succ n ih =>
      obtain ⟨p, k, j, hp, _, hj, hne, rfl, ht⟩ := hn
      obtain rfl := ih hp
      obtain ⟨e, he, hslot⟩ := hm.slot_root hne hj
      rw [hslot, hm.type_slot he] at ht
      exact absurd ht (by decide)

theorem rec_cases (hr : m.Rec r) :
    r = ROOT ∨ ∃ e, e < BLKFILES * blocksOf (256 * files.length) ∧
    r = slotAt (firstBlock files files.length) e := by
  rcases hr with rfl | ⟨p, k, j, hp, _, hj, hne, rfl⟩
  · exact .inl rfl
  · obtain rfl := hm.isDir_root hp
    exact .inr (hm.slot_root hne hj)

theorem dirBlocks_root : m.dirBlocks ROOT = blocksOf (256 * files.length) := by
  have hB : BLKSIZE = 4096 := rfl
  have hle := hm.dirBlocks_le
  have hsize : (m.fSize ROOT).toNat = blocksOf (256 * files.length) *
      BLKSIZE := by
    rw [hm.rootSize, BitVec.toNat_ofNat, hB]
    omega
  refine dirBlocks_eq hsize ?_
  rw [hsize, hB]
  omega

theorem slotOf_root (he : e < BLKFILES * blocksOf (256 * files.length)) :
    m.SlotOf ROOT (slotAt (firstBlock files files.length) e) := by
  have hF : BLKFILES = 16 := rfl
  have hN : NDIRECT + NINDIRECT = 1034 := rfl
  have hle := hm.dirBlocks_le
  have hfirst : 3 ≤ firstBlock files files.length := Nat.le_add_right _ _
  rw [hF] at he
  have hk : e / 16 < blocksOf (256 * files.length) := by omega
  refine ⟨e / 16, e % 16, by rwa [hm.dirBlocks_root], by omega,
    by rw [hF]; omega, ?_, ?_⟩
  · rw [hm.ref_root, if_pos hk]
    omega
  · rw [hm.ref_root, if_pos hk, slotAt, hF]

/-- What the pointers of the image are. -/
theorem valid_cases {ρ : Role} (hρ : m.Valid ρ) (hne : m.ref ρ ≠ 0) :
    (∃ k, k < blocksOf (256 * files.length) ∧ ρ = .data ROOT k ∧
      m.ref ρ = firstBlock files files.length + k) ∨
    ∃ e h, files[e]? = some h ∧ ((∃ k, k < blocksOf h.size ∧
      ρ = .data (slotAt (firstBlock files files.length) e) k ∧
      m.ref ρ = firstBlock files e + k) ∨ (NDIRECT ≤ blocksOf h.size ∧
      ρ = .ind (slotAt (firstBlock files files.length) e) ∧
      m.ref ρ = firstBlock files e + blocksOf h.size)) := by
  obtain ⟨hr, hok⟩ := hρ
  rcases hm.rec_cases hr with hroot | ⟨e, he, hslot⟩
  · left
    cases ρ with
    | ind g =>
        obtain rfl : g = ROOT := hroot
        exact absurd hm.ref_rootInd hne
    | data g k =>
        obtain rfl : g = ROOT := hroot
        have href := hm.ref_root (k := k)
        by_cases hk : k < blocksOf (256 * files.length)
        · rw [if_pos hk] at href
          exact ⟨k, hk, rfl, href⟩
        · rw [if_neg hk] at href
          exact absurd href hne
  · by_cases hlt : e < files.length
    swap
    · exact absurd (hm.ref_blank (Nat.not_lt.mp hlt) he hslot hok) hne
    have hget := List.getElem?_eq_getElem hlt
    refine .inr ⟨e, files[e], hget, ?_⟩
    cases ρ with
    | ind g =>
        obtain rfl : g = _ := hslot
        have href := hm.ref_ind hget
        by_cases hk : NDIRECT ≤ blocksOf files[e].size
        · rw [if_pos hk] at href
          exact .inr ⟨hk, rfl, href⟩
        · rw [if_neg hk] at href
          exact absurd href hne
    | data g k =>
        obtain rfl : g = _ := hslot
        have href := hm.ref_data hget hok
        by_cases hk : k < blocksOf files[e].size
        · rw [if_pos hk] at href
          exact .inl ⟨k, hk, rfl, href⟩
        · rw [if_neg hk] at href
          exact absurd href hne

theorem ref_range {ρ : Role} (hρ : m.Valid ρ) (hne : m.ref ρ ≠ 0) :
    3 ≤ m.ref ρ ∧ m.ref ρ < endBlock files := by
  have hfirst : 3 ≤ firstBlock files files.length := Nat.le_add_right _ _
  rw [endBlock]
  rcases hm.valid_cases hρ hne with ⟨k, hk, _, href⟩ | ⟨e, h, he, hcase⟩
  · omega
  · have hpiece := piece_of hcase
    have hspan := first_le he
    omega

theorem inUse_iff {b : Nat} : m.InUse b ↔ b < endBlock files := by
  have hend := hm.fits.blocks
  constructor
  · rintro ⟨hb, hbit⟩
    rw [hm.total] at hb
    rw [hm.bit b hb] at hbit
    exact Nat.not_le.mp (of_decide_eq_false hbit)
  · intro hb
    have hlt : b < nblocks := by omega
    refine ⟨by rwa [hm.total], ?_⟩
    rw [hm.bit b hlt]
    exact decide_eq_false (Nat.not_le.mpr hb)

theorem reserved_iff {b : Nat} : m.Reserved b ↔ b < 3 := by
  have hBB : BLKBITSIZE = 32768 := rfl
  have hsmall := hm.small
  have hend := hm.fits.blocks
  rw [Reserved, hm.total, hBB]
  omega

theorem sound : m.Sound := by
  have hsmall := hm.small
  have hfirst : 3 ≤ endBlock files :=
    Nat.le_trans (Nat.le_add_right 3 _) (Nat.le_add_right _ _)
  refine ⟨⟨?_, fun b hb => hm.inUse_iff.mpr ?_⟩, hm.rootType, fun r hr => ?_,
    fun ρ hρ hne => ?_, fun ρ ρ' hρ hρ' hne href => ?_⟩
  · rw [hm.total]
    exact Nat.le_trans hsmall (by decide)
  · have hb := hm.reserved_iff.mp hb
    omega
  · rcases hm.rec_cases hr with rfl | ⟨e, he, rfl⟩
    · exact .inr hm.rootType
    · exact .inl (hm.type_slot he)
  · obtain ⟨hlo, hhi⟩ := hm.ref_range hρ hne
    exact ⟨hm.inUse_iff.mpr hhi,
      fun hres => by have := hm.reserved_iff.mp hres; omega⟩
  · have hne' : m.ref ρ' ≠ 0 := href ▸ hne
    rcases hm.valid_cases hρ hne with ⟨k, hk, rfl, hval⟩ | ⟨e, h, he, hcase⟩
    · rcases hm.valid_cases hρ' hne' with
        ⟨k', hk', rfl, hval'⟩ | ⟨e', h', he', hcase'⟩
      · congr 1
        omega
      · have hpiece := piece_of hcase'
        have hspan := first_le he'
        omega
    · have hpiece := piece_of hcase
      have hspan := first_le he
      rcases hm.valid_cases hρ' hne' with
        ⟨k', hk', rfl, hval'⟩ | ⟨e', h', he', hcase'⟩
      · omega
      · have hpiece' := piece_of hcase'
        obtain rfl : e = e' := by
          refine offset_unique (w := widths files)
            (x := m.ref ρ - 3) ?_ ?_ ?_ ?_ <;>
            simp only [widths_of_get he, widths_of_get he',
              firstBlock] at hpiece hpiece' ⊢ <;> omega
        obtain rfl := Option.some.inj (he.symm.trans he')
        rcases hcase with ⟨k, hk, rfl, hval⟩ | ⟨hk, rfl, hval⟩
        · rcases hcase' with ⟨k', hk', rfl, hval'⟩ | ⟨hk', rfl, hval'⟩
          · congr 1
            omega
          · omega
        · rcases hcase' with ⟨k', hk', rfl, hval'⟩ | ⟨hk', rfl, hval'⟩
          · omega
          · rfl

/-! ### Files -/

theorem size_listed (he : files[e]? = some h) :
    (m.fSize (slotAt (firstBlock files files.length) e)).toNat = h.size := by
  have hmax : MAXFILESIZE = 4235264 := rfl
  have hsize := (hm.fits.regular h (List.mem_of_getElem? he)).2
  obtain ⟨ents, hl, hword, _⟩ := hm.word_listed he
  rw [fSize, hword 32 (by decide), show 256 * e + 4 * 32 = 256 * e + 128 from
    rfl, hl.size, BitVec.toNat_ofNat]
  omega

theorem round_listed (he : files[e]? = some h) :
    (roundBlocks (m.fSize (slotAt (firstBlock files files.length) e))).toNat =
      blocksOf h.size := by
  have hB : BLKSIZE = 4096 := rfl
  have hmax : MAXFILESIZE = 4235264 := rfl
  have hsize := (hm.fits.regular h (List.mem_of_getElem? he)).2
  rw [roundBlocks_toNat (by rw [hm.size_listed he]; omega), hm.size_listed he,
    blocksOf, hB]

theorem named_listed (hnames : ∀ h ∈ files, h.Ok) (he : files[e]? = some h) :
    m.Named (slotAt (firstBlock files files.length) e) (baseName h.path) := by
  have hshort := (hnames h (List.mem_of_getElem? he)).name.short
  obtain ⟨ents, hl, _, hname⟩ := hm.word_listed he
  intro y hy
  rw [hname y (by omega)]
  exact hl.name y hy

theorem empty_blank (hlo : files.length ≤ e)
    (hhi : e < BLKFILES * blocksOf (256 * files.length)) :
    m.Empty (slotAt (firstBlock files files.length) e) :=
  ⟨hm.word_blank hlo hhi (i := 32) (by decide), fun _ hfile hok =>
    hm.ref_blank hlo hhi hfile hok⟩

theorem name_blank (hlo : files.length ≤ e)
    (hhi : e < BLKFILES * blocksOf (256 * files.length)) :
    m.fName (slotAt (firstBlock files files.length) e) 0 = 0 :=
  hm.blank e hlo hhi 0 (by decide)

theorem name_listed (hnames : ∀ h ∈ files, h.Ok) (he : files[e]? = some h) :
    m.fName (slotAt (firstBlock files files.length) e) 0 ≠ 0 :=
  (hm.named_listed hnames he).fName_ne (hnames h (List.mem_of_getElem? he)).name

theorem tail_listed (he : files[e]? = some h) :
    m.TailZero (slotAt (firstBlock files files.length) e) := by
  intro k hk hlt
  rw [hm.round_listed he] at hk
  rw [hm.ref_data he hlt, if_neg (Nat.not_lt.mpr hk)]

theorem tail_root : m.TailZero ROOT := by
  have hB : BLKSIZE = 4096 := rfl
  have hle := hm.dirBlocks_le
  have hsize : (m.fSize ROOT).toNat =
      BLKSIZE * blocksOf (256 * files.length) := by
    rw [hm.rootSize, BitVec.toNat_ofNat, hB]
    omega
  intro k hk _
  rw [roundBlocks_toNat (by rw [hsize, hB]; omega), hsize, hB] at hk
  rw [hm.ref_root, if_neg (by omega)]

theorem fileOk (hnames : ∀ h ∈ files, h.Ok) (hr : m.Rec r) : m.FileOk r := by
  have hB : BLKSIZE = 4096 := rfl
  have hmax : MAXFILESIZE = 4235264 := rfl
  have hle := hm.dirBlocks_le
  rcases hm.rec_cases hr with rfl | ⟨e, he, rfl⟩
  · have hsize : (m.fSize ROOT).toNat = blocksOf (256 * files.length) *
        BLKSIZE := by
      rw [hm.rootSize, BitVec.toNat_ofNat, hB]
      omega
    refine ⟨by rw [hsize, hB]; omega, hm.tail_root, fun _ =>
      ⟨_, hsize, fun k _ => ?_⟩, fun h => absurd rfl h, fun h => absurd rfl h⟩
    have hfirst : 3 ≤ firstBlock files files.length := Nat.le_add_right _ _
    rw [hm.ref_root]
    split <;> omega
  · have htype : m.fType (slotAt (firstBlock files files.length) e) ≠
        FTYPE_DIR := by
      rw [hm.type_slot he]
      decide
    by_cases hlt : e < files.length
    · have hget := List.getElem?_eq_getElem hlt
      have hsize := (hm.fits.regular _ (List.mem_of_getElem? hget)).2
      refine ⟨?_, hm.tail_listed hget, fun hd => absurd hd htype,
        fun _ h0 => absurd h0 (hm.name_listed hnames hget), fun _ _ =>
        ⟨_, (hnames _ (List.mem_of_getElem? hget)).name,
          hm.named_listed hnames hget⟩⟩
      rw [hm.size_listed hget]
      exact Nat.le_of_lt hsize
    · have hempty := hm.empty_blank (Nat.not_lt.mp hlt) he
      refine ⟨?_, hempty.tailZero, fun hd => absurd hd htype, fun _ _ => hempty,
        fun _ h0 =>
        absurd (hm.name_blank (Nat.not_lt.mp hlt) he) h0⟩
      rw [hempty.size]
      exact Nat.zero_le _

/-- The children of the root are the files. -/
theorem child_cases (hnames : ∀ h ∈ files, h.Ok) (hc : m.Child d name f) :
    d = ROOT ∧ ∃ e h, files[e]? = some h ∧
    f = slotAt (firstBlock files files.length) e ∧ baseName h.path = name := by
  obtain rfl := hm.isDir_root hc.isDir
  refine ⟨rfl, ?_⟩
  obtain ⟨e, he, rfl⟩ := (hm.rec_cases hc.record).resolve_left
    (hm.sound.slotOf_ne_root hc.isDir hc.slot)
  by_cases hlt : e < files.length
  · have hget := List.getElem?_eq_getElem hlt
    refine ⟨e, _, hget, rfl, ?_⟩
    exact (hm.named_listed hnames hget).unique hc.named
      (hnames _ (List.mem_of_getElem? hget)).name.noZero hc.isName.noZero
  · exact absurd (hm.name_blank (Nat.not_lt.mp hlt) he)
      (hc.named.fName_ne hc.isName)

theorem child_listed (hnames : ∀ h ∈ files, h.Ok) (he : files[e]? = some h) :
    m.Child ROOT (baseName h.path)
      (slotAt (firstBlock files files.length) e) := by
  have hle := hm.dirBlocks_le
  have hlt := (List.getElem?_eq_some_iff.mp he).1
  exact ⟨.root m, (hnames h (List.mem_of_getElem? he)).name,
    hm.slotOf_root (by omega), hm.named_listed hnames he⟩

end

/-- Two files with one name are one. -/
theorem get_unique {i j : Nat}
    {h' : HostFile} (hdistinct : (files.map fun h => baseName h.path).Nodup)
    (hi : files[i]? = some h)
    (hj : files[j]? = some h') (hname : baseName h.path = baseName h'.path) :
    i = j := by
  have hmap : ∀ {k : Nat} {g : HostFile}, files[k]? = some g →
      (files.map fun h => baseName h.path)[k]? = some (baseName g.path) := by
    intro k g hk
    rw [List.getElem?_map, hk]
    rfl
  have hlen : i < (files.map fun h => baseName h.path).length := by
    rw [List.length_map]
    exact (List.getElem?_eq_some_iff.mp hi).1
  exact (List.getElem?_inj hlen hdistinct).mp (by rw [hmap hi, hmap hj, hname])

theorem imageMap_listed (hdistinct : (files.map fun h => baseName h.path).Nodup)
    (he : files[e]? = some h) :
    imageMap files [baseName h.path] =
      some (.file ⟨h.size, fun o => if o < h.size then h.data o else 0⟩) := by
  have hsome :
      (files.find? fun g => baseName g.path = baseName h.path).isSome := by
    rw [List.find?_isSome]
    exact ⟨h, List.mem_of_getElem? he, decide_eq_true rfl⟩
  obtain ⟨g, hg⟩ := Option.isSome_iff_exists.mp hsome
  have hname : baseName g.path = baseName h.path :=
    of_decide_eq_true (List.find?_eq_some_iff_append.mp hg).1
  obtain ⟨j, hj⟩ := List.mem_iff_getElem?.mp (List.mem_of_find?_eq_some hg)
  obtain rfl := get_unique hdistinct hj he hname
  obtain rfl := Option.some.inj (hj.symm.trans he)
  rw [imageMap, hg]
  rfl

/-! ### The volume -/

section

variable (hm : Laid nblocks files m) (hnames : ∀ h ∈ files, h.Ok)
  (hdistinct : (files.map fun h => baseName h.path).Nodup)
include hm hnames

include hdistinct in
theorem tree : m.Tree := by
  refine ⟨hm.sound, fun r hr => hm.fileOk hnames hr, fun d name f g hf hg => ?_⟩
  obtain ⟨_, e, h, he, rfl, hname⟩ := hm.child_cases hnames hf
  obtain ⟨_, e', h', he', rfl, hname'⟩ := hm.child_cases hnames hg
  rw [get_unique hdistinct he he' (hname.trans hname'.symm)]

omit hnames in
theorem valid_listed (he : files[e]? = some h) {ρ : Role}
    (hfile : ρ.file = slotAt (firstBlock files files.length) e) (hok : ρ.Ok) :
    m.Valid ρ := by
  have hle := hm.dirBlocks_le
  have hlt := (List.getElem?_eq_some_iff.mp he).1
  refine ⟨?_, hok⟩
  rw [hfile]
  exact (hm.slotOf_root (by omega)).record (.root m)

omit hnames in
/-- Every block below the end is a reserved one, one of a file, or one of the
root directory. -/
theorem spent : m.Spent := by
  have hB : BLKSIZE = 4096 := rfl
  have hN : NDIRECT + NINDIRECT = 1034 := rfl
  have hmax : MAXFILESIZE = 4235264 := rfl
  intro b hb
  have hlt := hm.inUse_iff.mp hb
  rw [endBlock] at hlt
  by_cases hres : b < 3
  · exact .inl (hm.reserved_iff.mpr hres)
  by_cases hdir : firstBlock files files.length ≤ b
  · have hle := hm.dirBlocks_le
    refine .inr ⟨.data ROOT (b - firstBlock files files.length),
      .data (.inl rfl) (by omega), ?_⟩
    rw [hm.ref_root, if_pos (by omega)]
    omega
  obtain ⟨e, hen, hlo, hhi⟩ := exists_piece (w := widths files) (x := b - 3)
    (n := files.length) (by rw [firstBlock] at hdir; omega)
  have he := List.getElem?_eq_getElem hen
  rw [widths_of_get he, HostFile.span] at hhi
  have hfirst : firstBlock files e = 3 + offset (widths files) e := rfl
  have hsize := (hm.fits.regular _ (List.mem_of_getElem? he)).2
  have hblocks : blocksOf files[e].size ≤ 1034 := by
    rw [blocksOf, hB]
    omega
  by_cases hdata : b < firstBlock files e + blocksOf files[e].size
  · refine .inr ⟨.data (slotAt (firstBlock files files.length) e)
      (b - firstBlock files e),
      hm.valid_listed he rfl (show _ < _ by omega), ?_⟩
    rw [hm.ref_data he (by omega), if_pos (by omega)]
    omega
  · have hlarge : NDIRECT ≤ blocksOf files[e].size := by
      by_contra hno
      rw [if_neg hno] at hhi
      omega
    rw [if_pos hlarge] at hhi
    refine .inr ⟨.ind (slotAt (firstBlock files files.length) e),
      hm.valid_listed he rfl trivial, ?_⟩
    rw [hm.ref_ind he, if_pos hlarge]
    omega

theorem recordOk (hr : m.Rec r) : m.RecordOk r := by
  have hB : BLKSIZE = 4096 := rfl
  have hN : NDIRECT + NINDIRECT = 1034 := rfl
  have hle := hm.dirBlocks_le
  have hok := hm.fileOk hnames hr
  refine ⟨hok.tail, fun _ => hok.size, fun ht => ?_, fun hno => ?_⟩
  · rcases hm.rec_cases hr with rfl | ⟨e, he, rfl⟩
    · refine ⟨blocksOf (256 * files.length), by omega, ?_⟩
      rw [hm.rootSize, BitVec.toNat_ofNat, hB]
      omega
    · rw [hm.type_slot he] at ht
      exact absurd ht (by decide)
  · have hroot : r ≠ ROOT := fun h => hno (.inl h)
    exact hok.free hroot (by_contra fun h0 => hno (.inr h0))

include hdistinct in
theorem volume : m.Volume := by
  refine ⟨hm.tree hnames hdistinct,
    ⟨hm.sound, fun r hr => hm.recordOk hnames hr, hm.spent⟩, fun r hr hno => ?_⟩
  rcases hm.rec_cases hr with rfl | ⟨e, he, rfl⟩
  · exact absurd (.inl rfl) hno
  · rw [hm.type_slot he]
    decide

/-! ### The files -/

theorem resolves_cases {p : Names} (hp : m.Resolves p f) : p = [] ∧ f = ROOT ∨
    ∃ e h, files[e]? = some h ∧ p = [baseName h.path] ∧
    f = slotAt (firstBlock files files.length) e := by
  cases hp with
  | root => exact .inl ⟨rfl, rfl⟩
  | child hd hc =>
      obtain ⟨rfl, e, h, he, rfl, rfl⟩ := hm.child_cases hnames hc
      cases hd with
      | root => exact .inr ⟨e, h, he, rfl, rfl⟩
      | child _ hd =>
          exact absurd rfl (hm.sound.slotOf_ne_root hd.isDir hd.slot)

omit hnames in
theorem byte_listed (he : files[e]? = some h) {o : Nat} (ho : o < MAXFILESIZE) :
    m.byte (slotAt (firstBlock files files.length) e) o = if o < h.size then
    h.data o else 0 := by
  have hB : BLKSIZE = 4096 := rfl
  have hk := div_lt_blocks ho
  obtain ⟨hfirst, _⟩ := first_le he
  have href := hm.ref_data he hk
  by_cases hlt : o / BLKSIZE < blocksOf h.size
  · rw [if_pos hlt] at href
    obtain ⟨disk, hp, hbytes⟩ := hm.placed e h he
    have hspan : blocksOf h.size ≤ h.span := Nat.le_add_right _ _
    have hin : o < BLKSIZE * blocksOf h.size :=
      (Nat.div_lt_iff_lt_mul (by decide)).mp hlt |>.trans_eq (Nat.mul_comm _ _)
    have haddr : BLKSIZE * (firstBlock files e + o / BLKSIZE) + o % BLKSIZE =
        BLKSIZE * firstBlock files e + o := by
      rw [Nat.mul_add, Nat.add_assoc, Nat.div_add_mod]
    have hne : firstBlock files e + o / BLKSIZE ≠ 0 :=
      Nat.ne_zero_of_lt (Nat.lt_of_lt_of_le hfirst (Nat.le_add_right _ _))
    rw [byte, href, if_neg hne, hbytes _ _ (Nat.le_add_right _ _)
      (Nat.add_lt_add_left (Nat.lt_of_lt_of_le hlt hspan) _)
      (Nat.mod_lt _ (by decide)), haddr, hp.data o hin]
  · rw [if_neg hlt] at href
    rw [byte, href, if_pos rfl, if_neg]
    rw [blocksOf, hB] at hlt
    omega

omit hnames in
theorem node_listed (he : files[e]? = some h) :
    m.node (slotAt (firstBlock files files.length) e) =
    .file ⟨h.size, fun o => if o < h.size then h.data o else 0⟩ := by
  have hle := hm.dirBlocks_le
  have hlt := (List.getElem?_eq_some_iff.mp he).1
  have hsize := (hm.fits.regular h (List.mem_of_getElem? he)).2
  have htype : m.fType (slotAt (firstBlock files files.length) e) ≠
      FTYPE_DIR := by
    rw [hm.type_slot (by omega)]
    decide
  rw [node_of_file htype, hm.size_listed he]
  congr 2
  funext o
  rw [bytes]
  by_cases ho : o < MAXFILESIZE
  · rw [if_pos ho, hm.byte_listed he ho]
  · rw [if_neg ho, if_neg (by omega)]

include hdistinct in
/-- The image has the files in the root directory, and nothing else. -/
theorem mirrors : m.Mirrors (imageMap files) := by
  refine ⟨fun p f hp => ?_, fun p hno => ?_⟩
  · rcases hm.resolves_cases hnames hp with ⟨rfl, rfl⟩ | ⟨e, h, he, rfl, rfl⟩
    · exact (congrArg some (node_of_dir hm.sound (.root m))).symm
    · rw [imageMap_listed hdistinct he, hm.node_listed he]
  · match p with
    | [] => exact absurd .root (hno ROOT)
    | [c] =>
        rw [imageMap, Option.map_eq_none_iff, List.find?_eq_none]
        intro h hmem hname
        obtain ⟨e, he⟩ := List.mem_iff_getElem?.mp hmem
        obtain rfl := of_decide_eq_true hname
        exact hno _ (.child .root (hm.child_listed hnames he))
    | _ :: _ :: _ => rfl

end

end Laid

/-! ## Files without holes -/

section Whole

variable {d m : PhysMem} {s : Fs} {q : Bytes} {f : FilePtr}
  {count offset : Word} {A : Fs → Prop} {E : Stop → Fs → Prop}

/-- A read of a file that has all its blocks changes nothing but the request
page. -/
theorem wp_fileRead_whole (hm : m.Sound) (hf : m.Rec f) (hs : s.Shows d m q)
    {r : Nat} (hsize : (m.fSize f).toNat ≤ MAXFILESIZE)
    (hwhole : ∀ k, k < blocksOf (m.fSize f).toNat → m.ref (.data f k) ≠ 0)
    (hoff : offset.toNat < 2 ^ 31)
    (hr : r + min count.toNat ((m.fSize f).toNat - offset.toNat) ≤ BLKSIZE)
    {Q : Except Word Word → Fs → Prop}
    (hQ : ∀ t, t.Shows d m (q.copy r (m.byte f) offset.toNat
      (min count.toNat ((m.fSize f).toNat - offset.toNat))) →
      Q (.ok (BitVec.ofNat 32
        (min count.toNat ((m.fSize f).toNat - offset.toNat)))) t) :
    Prog.wp (fileRead f (-BLKSIZE + r) count offset) Q A E s := by
  have hB : BLKSIZE = 4096 := rfl
  have hmax : MAXFILESIZE = 4235264 := rfl
  apply Prog.wp_bind_intro
  refine wp_readWord hm.toMapOk hs (hm.blk_inUse hf) fun t ht => ?_
  have hent : m.entry f.blk (f.off + 32) = m.fSize f := rfl
  rw [hent]
  have hsle : (m.fSize f).sle offset = true ↔
      (m.fSize f).toNat ≤ offset.toNat := by
    rw [BitVec.sle_iff_toInt_le, toInt_of_nonneg (by omega),
      toInt_of_nonneg hoff]
    omega
  refine Prog.wp_ite _ (fun hle => Prog.wp_pure_intro ?_) fun hgt => ?_
  · rw [hsle] at hle
    rw [Nat.sub_eq_zero_of_le hle, Nat.min_zero] at hQ
    refine hQ t ⟨ht.mem, fun j hj => ?_, ht.ok, ht.bits, ht.late⟩
    rw [Bytes.copy_of_ne (by omega)]
    exact ht.req j hj
  rw [hsle, Nat.not_le] at hgt
  have hn : (minWord count (m.fSize f - offset)).toNat =
      min count.toNat ((m.fSize f).toNat - offset.toNat) := by
    rw [minWord_toNat, BitVec.toNat_sub_of_le (by rw [BitVec.le_def]; omega)]
  generalize hcount :
    min count.toNat ((m.fSize f).toNat - offset.toNat) = n at *
  have hstop : (offset + minWord count (m.fSize f - offset)).toNat =
      offset.toNat + n := by
    rw [BitVec.toNat_add, hn]
    omega
  have hval : minWord count (m.fSize f - offset) = BitVec.ofNat 32 n := by
    rw [← hn, BitVec.ofNat_toNat, BitVec.setWidth_eq]
  apply Prog.wp_bind_intro
  refine wp_moveLoop (-BLKSIZE + r - offset.toNat) hstop
    (fun p t => offset.toNat ≤ p ∧ t.Shows d m (q.copy r (m.byte f) offset.toNat
    (p - offset.toNat))) (fun p _ hlt _ => by omega)
    (fun p v u hlt hv hJ => ?_) (fun u hJ => Prog.wp_pure_intro ?_) rfl
    (by omega) (by omega) (by omega) ⟨le_rfl, ?_⟩
  · obtain ⟨hlo, hu⟩ := hJ
    have hne : m.ref (.data f v.toNat) ≠ 0 := by
      refine hwhole _ ?_
      rw [hv, blocksOf, hB]
      omega
    refine wp_fileGetBlock hm hf hu (fun m₁ w hk hg hw =>
      ⟨(fun _ h => by cases h), ?_⟩) fun x m₁ w _ _ _ _ h0 _ => ?_
    · obtain rfl := hg.same hne
      rintro _ ⟨⟩
      rw [hv] at hk hg ⊢
      obtain ⟨hc1, hc2⟩ := chunk_le p (offset.toNat + n)
      have hbase : (-BLKSIZE + r - offset.toNat + p : Int) =
          -BLKSIZE + (r + (p - offset.toNat) : Nat) := by
        omega
      rw [hbase]
      refine wp_loadData hm.toMapOk hw (hm.named _ (.data hf hk) hg.ne).1 hc1
        (by omega) fun x hx => ⟨by omega, ?_⟩
      rwa [copy_chunk hlo hk (.refl f m₁) hg.ne hc1] at hx
    · exact absurd (h0 (by rw [hv]; exact div_lt_blocks (by omega))) hne
  · obtain ⟨_, hu⟩ := hJ
    rw [Nat.add_sub_cancel_left] at hu
    rw [hval]
    exact hQ u hu
  · refine ⟨ht.mem, fun j hj => ?_, ht.ok, ht.bits, ht.late⟩
    rw [Nat.sub_self, Bytes.copy_of_ne (by omega)]
    exact ht.req j hj

end Whole

/-! ## Opening and reading -/

/-- The operations that leave the files as they are. -/
def VolumeOp.Looks : VolumeOp → Prop
  | .open _ | .read _ _ _ _ => True
  | _ => False

/-- The file server has `files`, and nothing else: `file_open` finds each by its
name, and `file_read` reads its bytes. -/
structure Fs.Offers (files : List HostFile) (s : Fs) : Prop where
  file : ∀ h ∈ files, ∀ path, 0 ∉ path → components path = [baseName h.path] →
    ∃ f t, fileOpen path s = .ret (.ok f) t ∧
    ∀ (buf : Nat) (count offset : Word), buf + count.toNat ≤ BLKSIZE →
    offset.toNat < 2 ^ 31 →
      ∃ u, fileRead f (-BLKSIZE + buf) count offset t = .ret
        (.ok (BitVec.ofNat 32 (min count.toNat (h.size - offset.toNat)))) u ∧
        ∀ j, j < min count.toNat (h.size - offset.toNat) →
        u.req (buf + j) = h.data (offset.toNat + j)
  nothing : ∀ path, 0 ∉ path → imageMap files (components path) = none →
    ∃ r t, fileOpen path s = .ret (.error r) t

namespace Laid

variable {nblocks e : Nat} {files : List HostFile} {m d : PhysMem} {s t : Fs}
  {q : Bytes} {f : FilePtr} {h : HostFile}
  {count offset : Word} {A : Fs → Prop} {E : Stop → Fs → Prop}
  (hm : Laid nblocks files m)
include hm

/-- A file of the host is read, and the disk stays as it is. -/
theorem wp_fileRead_listed (he : files[e]? = some h) (hs : s.Shows d m q)
    {buf : Nat} (hbuf : buf + count.toNat ≤ BLKSIZE)
    (hoff : offset.toNat < 2 ^ 31) : Prog.wp (fileRead
      (slotAt (firstBlock files files.length) e) (-BLKSIZE + buf) count offset)
      (fun a t => a = .ok (BitVec.ofNat 32
        (min count.toNat (h.size - offset.toNat))) ∧ t.Shows d m
        (q.copy buf (m.byte (slotAt (firstBlock files files.length) e))
          offset.toNat (min count.toNat (h.size - offset.toNat))))
      A E s := by
  have hB : BLKSIZE = 4096 := rfl
  have hN : NDIRECT + NINDIRECT = 1034 := rfl
  have hmax : MAXFILESIZE = 4235264 := rfl
  have hle := hm.dirBlocks_le
  have hlt := (List.getElem?_eq_some_iff.mp he).1
  obtain ⟨hfirst, _⟩ := first_le he
  have hsize := hm.size_listed he
  have hsmall := (hm.fits.regular h (List.mem_of_getElem? he)).2
  refine wp_fileRead_whole hm.sound ((hm.slotOf_root (by omega)).record
    (.root m)) hs (by omega) (fun k hk => ?_) hoff (by omega)
    fun t ht => ?_
  · rw [hsize] at hk
    have hblocks : blocksOf h.size ≤ 1034 := by
      rw [blocksOf, hB]
      omega
    rw [hm.ref_data he (by omega), if_pos hk]
    omega
  · rw [hsize] at ht ⊢
    exact ⟨rfl, ht⟩

/-- A file that can be read is one of the host. -/
theorem regular_cases (hf : m.Regular f (m.fSize f)) :
    ∃ e h, files[e]? = some h ∧
    f = slotAt (firstBlock files files.length) e := by
  rcases hm.rec_cases hf.record with rfl | ⟨e, he, rfl⟩
  · exact absurd hm.rootType hf.type
  · by_cases hlt : e < files.length
    · exact ⟨e, _, List.getElem?_eq_getElem hlt, rfl⟩
    · rcases hf.inDir with hroot | hname
      · exact absurd hroot (hm.sound.slotOf_ne_root (.root m)
          (hm.slotOf_root he))
      · exact absurd (hm.name_blank (Nat.not_lt.mp hlt) he) hname

variable (hnames : ∀ h ∈ files, h.Ok)
  (hdistinct : (files.map fun h => baseName h.path).Nodup)
include hnames hdistinct

theorem step_shows {op : VolumeOp} {r : Except Word Word} (hs : s.Shows d m q)
    (hop : op.Looks) (ha : op.Allowed s)
    (hstep : VolumeOp.Step s (op, r) t) : ∃ q', t.Shows d m q' := by
  have hmax : MAXFILESIZE = 4235264 := rfl
  have hwp : Prog.wp op.run (fun _ t => ∃ q', t.Shows d m q') (fun _ => False)
      (fun _ _ => False) s := by
    cases op with
    | «open» path =>
        apply Prog.wp_bind_intro
        exact wp_fileOpen_volume (hm.volume hnames hdistinct)
          (hm.mirrors hnames hdistinct) ha hs fun a t ht _ _ =>
          Prog.wp_pure_intro ⟨q, ht⟩
    | read f buf count offset =>
        obtain ⟨hf, hbuf, hend⟩ := ha
        rw [hs.mem] at hf
        obtain ⟨e, h, he, rfl⟩ := hm.regular_cases hf
        exact Prog.wp_imp (hm.wp_fileRead_listed he hs hbuf (by omega))
          (fun _ _ h => ⟨_, h.2⟩) (fun _ h => h) fun _ _ h => h
    | create _ | write _ _ _ _ _ | setSize _ _ | remove _ => exact absurd hop id
  exact hwp.ret hstep

theorem offers (hs : s.Shows d m q) : s.Offers files := by
  have hv := hm.volume hnames hdistinct
  have hM := hm.mirrors hnames hdistinct
  refine ⟨fun h hmem path hz hpath => ?_, fun path hz hnone => ?_⟩
  · obtain ⟨e, he⟩ := List.mem_iff_getElem?.mp hmem
    have hf : m.Resolves (components path)
        (slotAt (firstBlock files files.length) e) := by
      rw [hpath]
      exact .child .root (hm.child_listed hnames he)
    obtain ⟨_, t, hret, rfl, ht⟩ := (wp_fileOpen_finds hv hz hs hf).exists_ret
    refine ⟨_, t, hret, fun buf count offset hbuf hoff => ?_⟩
    obtain ⟨_, u, hread, rfl, hu⟩ :=
      (hm.wp_fileRead_listed he ht hbuf hoff).exists_ret
    refine ⟨u, hread, fun j hj => ?_⟩
    have hsmall := (hm.fits.regular h hmem).2
    rw [hu.req _ (by omega), Bytes.copy_of_mem (by omega),
      Nat.add_sub_cancel_left, hm.byte_listed he (by omega), if_pos (by omega)]
  · have hwp : Prog.wp (fileOpen path) (fun a _ => ∃ r, a = .error r)
        (fun _ => False) (fun _ _ => False) s := by
      refine wp_fileOpen_volume hv hM hz hs fun a t _ hf _ => ?_
      cases a with
      | error r => exact ⟨r, rfl⟩
      | ok f =>
          have hsome := hM.leads _ f (hf f rfl)
          rw [hnone] at hsome
          cases hsome
    obtain ⟨_, t, hret, r, rfl⟩ := hwp.exists_ret
    exact ⟨r, t, hret⟩

end Laid

/-- What `fsformat` writes is what the file server reads. `fsformat` returns
when the files are files and there is room for them. The image is a volume
without a block too many that mirrors the files in the root directory, and after
any run of opens and reads the file server has the files of the host, byte for
byte, and nothing else. -/
theorem fsformat_roundtrip {nblocks : Word} {old : Bytes}
    {files : List HostFile} {s : Fmt} (hlarge : 2 ≤ nblocks.toNat)
    (hn : nblocks.toNat ≤ 1024) (hne : files ≠ []) (hnames : ∀ h ∈ files, h.Ok)
    (hdistinct : (files.map fun h => baseName h.path).Nodup)
    (hclean : CleanEnts old files) :
    ((∃ t, fsformat nblocks old files s = .ret () t) ↔
      Formattable nblocks.toNat files) ∧
    ∀ t, fsformat nblocks old files s = .ret () t → t.image.Volume ∧
    t.image.Mirrors (imageMap files) ∧
      (∀ b, t.image.InUse b ↔ b < endBlock files) ∧
      ∀ u v : Fs, u.Fresh → u.mem = t.image → Runs VolumeOp.Step
        (fun s l => l.1.Looks ∧ l.1.Allowed s) u v → v.Offers files := by
  have hwp : Prog.wp (fsformat nblocks old files)
      (fun _ t => Imaged nblocks old files t) (fun _ => False)
      (fun _ _ => ¬Formattable nblocks.toNat files) s :=
    wp_fsformat hn hlarge hnames
  refine ⟨⟨fun ⟨t, hret⟩ => (hwp.ret hret).1, fun hfits => ?_⟩,
    fun t hret => ?_⟩
  · cases hrun : fsformat nblocks old files s with
    | ret _ t => exact ⟨t, rfl⟩
    | away t => exact absurd (hwp.away hrun) id
    | stop x t => exact absurd hfits (hwp.stop hrun)
  · have hm := (hwp.ret hret).laid hn hne hclean
    refine ⟨hm.volume hnames hdistinct, hm.mirrors hnames hdistinct,
      fun b => hm.inUse_iff, fun u v hu hmem hrun => ?_⟩
    have hstart : ∃ q, u.Shows u.disk t.image q :=
      ⟨u.req, hmem, fun _ _ => rfl, hu.ok,
        fun b _ _ hb => by rwa [← hmem, hu.mem], fun _ _ _ => rfl⟩
    have hend : ∃ q, v.Shows u.disk t.image q := by
      refine hrun.invariant (I := fun s => ∃ q,
        s.Shows u.disk t.image q) ?_ hstart
      rintro s ⟨op, r⟩ w ⟨q, hq⟩ ⟨hop, ha⟩ hs
      exact hm.step_shows hnames hdistinct hq hop ha hs
    obtain ⟨q, hq⟩ := hend
    exact hm.offers hnames hdistinct hq

/-- A file of three bytes. -/
def tinyFile : HostFile :=
  ⟨[SLASH, 0x61], true, 3, fun x => BitVec.ofNat 8 (x + 1), fun _ n => n⟩

/-- The file is read from the image. -/
theorem fsformat_roundtrip_tiny : ∃ t, fsformat 8 (fun _ => 0) [tinyFile]
      ⟨0, fun _ => 0, 0, fun _ => 0, 0⟩ = .ret () t ∧
    ∀ u : Fs, u.Fresh → u.mem = t.image → ∃ f v w, fileOpen [SLASH, 0x61] u =
      .ret (.ok f) v ∧
      fileRead f (-BLKSIZE + (0 : Nat)) 3 0 v = .ret (.ok 3) w ∧ w.req (0 + 0) =
        1 ∧ w.req (0 + 1) = 2 ∧ w.req (0 + 2) = 3 := by
  have hname : IsName (baseName tinyFile.path) :=
    ⟨by decide, by decide, by decide⟩
  have hok : ∀ h ∈ [tinyFile], h.Ok := by
    intro h hmem
    obtain rfl := List.mem_singleton.mp hmem
    exact ⟨hname, fun p hp => ⟨Nat.sub_pos_of_lt hp, Nat.le_refl _⟩⟩
  have hfits : Formattable (8 : Word).toNat [tinyFile] := by
    refine ⟨fun h hmem => ?_, by decide, by decide⟩
    obtain rfl := List.mem_singleton.mp hmem
    exact ⟨rfl, by decide⟩
  have hclean : CleanEnts (fun _ => 0) [tinyFile] := fun i h _ =>
    ⟨fun _ _ _ => load32_of_zero fun _ _ => rfl, fun _ =>
      load32_of_zero fun _ _ => rfl⟩
  obtain ⟨hiff, hall⟩ := @fsformat_roundtrip 8 _ _
    ⟨0, fun _ => 0, 0, fun _ => 0, 0⟩ (by decide) (by decide)
    (List.cons_ne_nil _ _) hok (List.nodup_singleton _) hclean
  obtain ⟨t, hret⟩ := hiff.mpr hfits
  obtain ⟨_, _, _, hruns⟩ := hall t hret
  refine ⟨t, hret, fun u hu hmem => ?_⟩
  obtain ⟨f, v, hopen, hread⟩ := (hruns u u hu hmem (.refl u)).file tinyFile
    (List.mem_singleton.mpr rfl) [SLASH, 0x61] (by decide)
    (by decide)
  obtain ⟨w, hret, hbytes⟩ := hread 0 3 0 (by decide) (by decide)
  exact ⟨f, v, w, hopen, hret, hbytes 0 (by decide), hbytes 1 (by decide),
    hbytes 2 (by decide)⟩

end Jos
