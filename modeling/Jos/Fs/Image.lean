import Jos.Fs.Formatted
import Jos.Fs.Io

/-!
# The image of a disk

What a run of `fsformat` leaves: the super block, the bitmap, the files, and the
root directory. The size of the root is `ROUNDUP` of an `int`, which is a block
when there are no files, and the root has one then that was not allocated.
-/

namespace Jos

open PhysMem

/-- The blocks that `finishdir` gives to a directory of `n` files. -/
def dirBlocksOf (n : Nat) : Nat := max 1 (blocksOf (256 * n))

theorem roundUpInt_toNat {n : Nat} (hn : n ≤ MAX_DIR_ENTS) :
    (roundUpInt (BitVec.ofNat 32 (n * 256))).toNat =
      BLKSIZE * dirBlocksOf n := by
  have hB : BLKSIZE = 4096 := rfl
  have hmax : MAX_DIR_ENTS = 128 := rfl
  by_cases h0 : n = 0
  · subst h0
    decide
  · have hval : (BitVec.ofNat 32 (n * 256)).toNat = n * 256 := by
      rw [BitVec.toNat_ofNat]
      omega
    have hpred : (BitVec.ofNat 32 (n * 256) - 1).toNat = n * 256 - 1 := by
      have hone : (1 : Word).toNat = 1 := rfl
      rw [BitVec.toNat_sub_of_le
        (by rw [BitVec.le_def, hval, hone]; omega), hval]
      rfl
    have hrem : ((BitVec.ofNat 32 (n * 256) - 1).srem 4096#32).toNat =
        (n * 256 - 1) % 4096 := by
      rw [srem_of_nonneg (by rw [hpred]; omega) (by decide), hpred]
      rfl
    rw [roundUpInt, BitVec.toNat_sub, BitVec.toNat_add, hrem, hpred,
      BitVec.toNat_ofNat, dirBlocksOf, blocksOf, hB]
    omega

theorem dirBlocksOf_le {n : Nat} (hn : n ≤ MAX_DIR_ENTS) :
    dirBlocksOf n ≤ 8 := by
  have hB : BLKSIZE = 4096 := rfl
  have hmax : MAX_DIR_ENTS = 128 := rfl
  rw [dirBlocksOf, blocksOf, hB]
  omega

/-- The super block and the bitmap before anything is allocated. -/
def headOf (nblocks : Word) : Bytes :=
  ((((Bytes.store32 (fun _ => 0) (BLKSIZE * 1) FS_MAGIC).store32
    (BLKSIZE * 1 + 4) nblocks).store32 (BLKSIZE + 8 + 4 * 33) FTYPE_DIR).copy
    (BLKSIZE + 8 + 0) ([SLASH].getD · 0) 0 ([SLASH].length + 1)).fill (BLKSIZE *
    2) (1 * BLKSIZE) 0xFF

/-- Block `b` has its bit set in the bitmap. -/
def mapBit (disk : Bytes) (b : Nat) : Bool :=
  (disk.load32 (2 * BLKSIZE + 4 * (b / 32))).getLsbD (b % 32)

namespace Fmt

section

variable {s : Fmt} {A : Fmt → Prop} {E : FmtStop → Fmt → Prop} {nblocks : Word}
  {old head disk : Bytes}
  {files rest : List HostFile} {i p : Nat}

theorem wp_setRoot {k : Nat} {v : Word} {Q : Unit → Fmt → Prop}
    (hin : BLKSIZE + 8 + 4 * k + 4 ≤ s.nblocks.toNat * BLKSIZE)
    (hQ :
      Q () { s with diskmap := s.diskmap.store32 (BLKSIZE + 8 + 4 * k) v }) :
      Prog.wp (setWord .root k v) Q A E s :=
  wp_inMap (g := fun b => b.store32 (BLKSIZE + 8 + 4 * k) v) hin hQ

theorem wp_nameRoot {name : List (BitVec 8)} {Q : Unit → Fmt → Prop}
    (hin : BLKSIZE + 8 + 0 + (name.length + 1) ≤ s.nblocks.toNat * BLKSIZE)
    (hQ : Q () { s with diskmap := s.diskmap.copy (BLKSIZE + 8 + 0) (name.getD · 0) 0 (name.length + 1) }) :
    Prog.wp (copyFileName .root name) Q A E s :=
  wp_inMap (g := fun b => b.copy (BLKSIZE + 8 + 0) (name.getD · 0) 0
    (name.length + 1)) hin hQ

theorem wp_rootWords {n k : Nat} {v : Nat → Word} {Q : Unit → Fmt → Prop}
    (hin : BLKSIZE + 8 + 4 * k + 4 * n ≤ s.nblocks.toNat * BLKSIZE)
    (hQ :
      Q () { s with diskmap := s.diskmap.words (BLKSIZE + 8 + 4 * k) v n }) :
    Prog.wp (Prog.forUp n fun i => setWord .root (k + i) (v i)) Q A E s := by
  have hbody : (fun i => setWord .root (k + i) (v i)) = fun i =>
      inMap (BLKSIZE + 8 + 4 * k + 4 * i) 4 fun b =>
        b.store32 (BLKSIZE + 8 + 4 * k + 4 * i) (v i) := by
    funext i
    rw [setWord, inFile, Nat.mul_add, ← Nat.add_assoc]
  rw [hbody]
  exact wp_mapWords hin hQ

theorem wp_opendisk (hn : nblocks.toNat ≤ 1024) (hlarge : 2 ≤ nblocks.toNat)
    {Q : Unit → Fmt → Prop}
    (hQ : ∀ t, 3 < nblocks.toNat →
      Written nblocks old (headOf nblocks) files 0 t → Q () t) (hno :
      nblocks.toNat ≤ 3 → ∀ x t, E x t) :
    Prog.wp (opendisk nblocks old) Q A E s := by
  have hB : BLKSIZE = 4096 := rfl
  have hblock : (4096 : Word).toNat ≤ MAXFILESIZE := by decide
  have hone : blocksOf (4096 : Word).toNat = 1 := by decide
  have hbits : (nblocks.toNat + BLKBITSIZE - 1) / BLKBITSIZE = 1 := by
    have hBB : BLKBITSIZE = 32768 := rfl
    rw [hBB]
    omega
  have hbit1 : (BitVec.ofNat 32 1).toNat ≤ MAXFILESIZE := by decide
  have hbit : blocksOf (BitVec.ofNat 32 1).toNat = 1 := by decide
  apply Prog.wp_update_bind
  apply Prog.wp_bind_intro
  refine wp_alloc (p := 0) hblock
    (by rfl) (by decide) (fun _ => ?_) fun hfull =>
    hno (by rw [hone] at hfull; exact Nat.le_trans hfull (by decide))
  rw [hone]
  apply Prog.wp_bind_intro
  refine wp_alloc (p := 1) hblock (by rfl) (by decide) (fun _ => ?_) fun hfull => hno (by rw [hone] at hfull; exact Nat.le_trans hfull (by decide))
  rw [hone]
  have hspace : 2 * 4096 ≤ nblocks.toNat * BLKSIZE := by
    rw [hB]
    omega
  have hname : ([SLASH] : List (BitVec 8)).length = 1 := rfl
  apply Prog.wp_bind_intro
  refine wp_inMap (by dsimp only; omega) ?_
  apply Prog.wp_bind_intro
  refine wp_inMap (by dsimp only; omega) ?_
  apply Prog.wp_bind_intro
  refine wp_setRoot (by dsimp only; omega) ?_
  apply Prog.wp_bind_intro
  refine wp_nameRoot (by dsimp only; omega) ?_
  rw [hbits]
  apply Prog.wp_bind_intro
  refine wp_alloc (p := 2) hbit1 (by rfl) (by decide) (fun hroom => ?_)
    fun hfull => hno (by rw [hbit] at hfull; exact hfull)
  have hroom : 3 < nblocks.toNat := hroom
  have hspace : 4 * 4096 ≤ nblocks.toNat * BLKSIZE := by
    rw [hB]
    omega
  refine wp_inMap (by dsimp only; omega) (hQ _ hroom ?_)
  have hzero : ∀ x, BLKSIZE * 3 ≤ x → headOf nblocks x = 0 := by
    intro x hx
    rw [hB] at hx
    rw [headOf, Bytes.fill_of_ne (by rw [hB]; omega), Bytes.copy_of_ne
      (by rw [hB]; simp only [List.length_cons, List.length_nil]; omega),
      Bytes.store32_of_ne (by rw [hB]; omega), Bytes.store32_of_ne
      (by rw [hB]; omega), Bytes.store32_of_ne (by rw [hB]; omega)]
  exact ⟨rfl, rfl, hroom, rfl, Nat.zero_le _, fun _ _ => rfl, hzero,
    fun _ _ h => absurd h (Nat.not_lt_zero _), fun _ _ => rfl⟩

/-- The files are written one after another. -/
theorem wp_writefiles (hn : nblocks.toNat ≤ 1024) (hnames : ∀ h ∈ files, h.Ok)
    (hs : Written nblocks old head files i s)
    (hi : i ≤ files.length) (hrest : files.drop i = rest)
    {Q : Unit → Fmt → Prop}
    (hQ : ∀ t, Written nblocks old head files files.length t → Q () t) :
    Prog.wp (writefiles rest) Q A
      (fun _ _ => ¬Formattable nblocks.toNat files) s := by
  induction rest generalizing i s with
  | nil =>
      obtain rfl : i = files.length :=
        Nat.le_antisymm hi (List.drop_eq_nil_iff.mp hrest)
      exact Prog.wp_pure_intro (hQ s hs)
  | cons h rest ih =>
      have hget : files[i]? = some h := by
        rw [← List.head?_drop, hrest]
        rfl
      apply Prog.wp_bind_intro
      refine wp_writefile hs hget hnames
        (fun t ht => ih ht (List.getElem?_eq_some_iff.mp hget).1 ?_) hn
      rw [← List.tail_drop, hrest]
      rfl

/-- The disk with the root directory, whose files are in `ents`, from block `p`
on. -/
def withRoot (disk ents : Bytes) (n p : Nat) : Bytes :=
  ((disk.copy (BLKSIZE * p) ents 0 (256 * n)).store32 (BLKSIZE + 8 + 4 * 32)
    (BitVec.ofNat 32 (BLKSIZE * dirBlocksOf n))).words
    (BLKSIZE + 8 + 4 * 34) (fun i => BitVec.ofNat 32 p + BitVec.ofNat 32 i)
    (dirBlocksOf n)

theorem wp_finishdir (hn : nblocks.toNat ≤ 1024)
    (hs : Written nblocks old head files files.length s) {Q : Unit → Fmt → Prop}
    (hQ : endBlock files < nblocks.toNat → Q () { s with
      diskpos := BLKSIZE * endBlock files
      diskmap := withRoot s.diskmap s.ents files.length
        (firstBlock files files.length) }) :
    Prog.wp finishdir Q A (fun _ _ => ¬Formattable nblocks.toNat files) s := by
  have hB : BLKSIZE = 4096 := rfl
  have hmax : MAX_DIR_ENTS = 128 := rfl
  have hM : MAXFILESIZE = 4235264 := rfl
  have hentries := hs.entries
  have hroom := hs.room
  have hval : (BitVec.ofNat 32 (files.length * 256)).toNat =
      256 * files.length := by
    rw [BitVec.toNat_ofNat]
    omega
  have hround := roundUpInt_toNat hentries
  have hle := dirBlocksOf_le hentries
  obtain rfl := hs.total
  apply Prog.wp_ask_bind
  rw [hs.n]
  apply Prog.wp_bind_intro
  refine wp_alloc (p := firstBlock files files.length) (by rw [hval]; omega)
    hs.pos (by omega) (fun hlt => ?_) fun hfull x t hfits => ?_
  swap
  · have hblocks := hfits.blocks
    rw [endBlock] at hblocks
    rw [hval] at hfull
    omega
  rw [hval] at hlt ⊢
  have hpos : ∀ {x}, x ≤ firstBlock files files.length +
      blocksOf (256 * files.length) → x < s.nblocks.toNat := by
    intro x hx
    have hlt : firstBlock files files.length + blocksOf (256 * files.length) <
        s.nblocks.toNat := hlt
    omega
  have hcover : 256 * files.length ≤
      BLKSIZE * blocksOf (256 * files.length) := by
    rw [blocksOf, hB]
    omega
  have hfirst : 3 ≤ firstBlock files files.length := Nat.le_add_right _ _
  have hend := hpos (Nat.le_refl _)
  rw [hB] at hcover
  apply Prog.wp_bind_intro
  refine wp_inMap (by dsimp only; rw [hB]; omega) ?_
  have hsize : roundUpInt (BitVec.ofNat 32 (files.length * 256)) =
      BitVec.ofNat 32 (BLKSIZE * dirBlocksOf files.length) := by
    apply BitVec.eq_of_toNat_eq
    rw [hround, BitVec.toNat_ofNat, hB]
    omega
  have hdiv :
      (roundUp (BitVec.ofNat 32 (BLKSIZE * dirBlocksOf files.length))).toNat /
        BLKSIZE = dirBlocksOf files.length := by
    rw [← hsize, roundUp_div (by rw [hround, hB]; omega), hround, blocksOf, hB]
    omega
  rw [blockof_mul, hsize]
  apply Prog.wp_bind_intro
  refine wp_setRoot (by dsimp only; rw [hB]; omega) ?_
  rw [hdiv]
  dsimp only
  rw [Nat.min_eq_left (show dirBlocksOf files.length ≤ NDIRECT from
    Nat.le_trans hle (by decide))]
  apply Prog.wp_bind_intro
  refine wp_rootWords (by dsimp only; rw [hB]; omega) ?_
  exact Prog.wp_ite _ (fun hge => absurd (Nat.le_trans hge hle) (by decide))
    fun _ => Prog.wp_pure_intro (hQ hend)

theorem mapBit_store {k b : Nat} :
    mapBit (disk.store32 (2 * BLKSIZE + 4 * (k / 32))
      (disk.load32 (2 * BLKSIZE + 4 * (k / 32)) &&& ~~~(1#32 <<< (k % 32)))) b =
      (mapBit disk b && decide (b ≠ k)) := by
  have hc : b % 32 < 32 := Nat.mod_lt b (by decide)
  by_cases hword : b / 32 = k / 32
  · rw [mapBit, hword, Bytes.load32_store32, mapBit, hword, BitVec.getLsbD_and,
      BitVec.getLsbD_not, one_shift_getLsbD _ _ hc]
    have hiff : b % 32 = k % 32 ↔ b = k := by omega
    simp [hc, hiff]
  · have hne : b ≠ k := fun h => hword (by rw [h])
    rw [mapBit, Bytes.load32_store32_of_ne (by omega), mapBit]
    simp [hne]

theorem mapBit_headOf {b : Nat} (hb : b < BLKBITSIZE) :
    mapBit (headOf nblocks) b = true := by
  have hB : BLKSIZE = 4096 := rfl
  have hBB : BLKBITSIZE = 32768 := rfl
  have hones : (headOf nblocks).load32 (2 * BLKSIZE + 4 * (b / 32)) =
      BitVec.allOnes 32 := by
    rw [headOf, Bytes.load32, Bytes.fill_of_mem (by omega),
      Bytes.fill_of_mem (by omega), Bytes.fill_of_mem (by omega),
      Bytes.fill_of_mem (by omega)]
    decide
  rw [mapBit, hones, BitVec.getLsbD_allOnes]
  exact decide_eq_true (Nat.mod_lt b (by decide))

/-- The bits below `n` are cleared. -/
theorem wp_finishdisk {n : Nat} (hn : n ≤ 1024)
    (hroom : 3 * BLKSIZE ≤ s.nblocks.toNat * BLKSIZE)
    (hpos : s.diskpos = BLKSIZE * n)
    {Q : Unit → Fmt → Prop}
    (hQ : ∀ disk', (∀ x, x < 2 * BLKSIZE ∨ 3 * BLKSIZE ≤ x →
      disk' x = s.diskmap x) →
      (∀ b, b < BLKBITSIZE → mapBit disk' b =
        (mapBit s.diskmap b && decide (n ≤ b))) → Q () { s with diskmap :=
  disk' }) :
    Prog.wp finishdisk Q A E s := by
  have hB : BLKSIZE = 4096 := rfl
  have hBB : BLKBITSIZE = 32768 := rfl
  rw [hB] at hroom
  apply Prog.wp_ask_bind
  rw [hpos, blockof_mul, BitVec.toNat_ofNat, Nat.mod_eq_of_lt (by omega)]
  refine Prog.wp_imp
    (Prog.wp_forUp (fun i t => ∃ disk', t = { s with diskmap := disk' } ∧
    (∀ x, x < 2 * BLKSIZE ∨ 3 * BLKSIZE ≤ x → disk' x = s.diskmap x) ∧
    ∀ b, b < BLKBITSIZE → mapBit disk' b =
    (mapBit s.diskmap b && decide (i ≤ b))) ⟨s.diskmap, rfl, fun _ _ =>
    rfl, fun b _ => ?_⟩
    fun i t hi ht => ?_) (fun _ t ht => ?_) (fun _ h => h) fun _ _ h => h
  · simp
  · obtain ⟨disk', rfl, hout, hbits⟩ := ht
    refine wp_inMap (by dsimp only; rw [hB]; omega)
      ⟨_, rfl, fun x hx => ?_, fun b hb => ?_⟩
    · rw [hB] at hx
      dsimp only
      rw [Bytes.store32_of_ne (by rw [hB]; omega), hout x (by rw [hB]; omega)]
    · dsimp only
      rw [mapBit_store, hbits b hb, Bool.and_assoc]
      congr 1
      rw [← Bool.decide_and]
      congr 1
      exact propext ⟨fun h => by omega, fun h => by omega⟩
  · obtain ⟨disk', rfl, hout, hbits⟩ := ht
    exact hQ disk' hout hbits

/-- What the image is made of. -/
structure Imaged (nblocks : Word) (old : Bytes) (files : List HostFile)
    (t : Fmt) : Prop where
  fits : Formattable nblocks.toNat files
  image : ∃ s, Written nblocks old (headOf nblocks) files files.length s ∧
    (∀ x, x < 2 * BLKSIZE ∨ 3 * BLKSIZE ≤ x →
      t.diskmap x = withRoot s.diskmap s.ents files.length
        (firstBlock files files.length) x) ∧
    ∀ b, b < BLKBITSIZE → mapBit t.diskmap b = decide (endBlock files ≤ b)

/-- `fsformat` makes the image if there is room for the files, and panics if
there is none. -/
theorem wp_fsformat (hn : nblocks.toNat ≤ 1024) (hlarge : 2 ≤ nblocks.toNat)
    (hnames : ∀ h ∈ files, h.Ok) :
    Prog.wp (fsformat nblocks old files) (fun _ t => Imaged nblocks old files t)
      A (fun _ _ => ¬Formattable nblocks.toNat files) s := by
  have hB : BLKSIZE = 4096 := rfl
  have hBB : BLKBITSIZE = 32768 := rfl
  refine Prog.wp_ite _ (fun h => ?_) fun _ => ?_
  · rw [BitVec.lt_def, BitVec.lt_def] at h
    have htwo : (2 : Word).toNat = 2 := rfl
    have hmany : (1024#32).toNat = 1024 := rfl
    omega
  apply Prog.wp_bind_intro
  refine wp_opendisk hn hlarge
    (fun t hroom (ht : Written nblocks old (headOf nblocks) files 0 t) => ?_)
    fun hfull x t => ?_
  swap
  · intro hfits
    have hblocks := hfits.blocks
    rw [endBlock, firstBlock] at hblocks
    omega
  apply Prog.wp_bind_intro
  refine wp_writefiles hn hnames ht (Nat.zero_le _) rfl fun u hu => ?_
  apply Prog.wp_bind_intro
  refine wp_finishdir hn hu fun hend => ?_
  have htotal := hu.total
  refine wp_finishdisk (n := endBlock files) (by omega) ?_ (by rfl)
    fun disk' hout hbits =>
    ⟨⟨fun h hmem => ?_, hu.entries, hend⟩, u, hu, hout, fun b hb => ?_⟩
  · dsimp only
    rw [htotal, hB]
    omega
  · obtain ⟨i, hget⟩ := List.getElem?_of_mem hmem
    obtain ⟨hreg, hsize, _⟩ :=
      hu.files i h (List.getElem?_eq_some_iff.mp hget).1 hget
    exact ⟨hreg, hsize⟩
  · have hfirst : 3 ≤ firstBlock files files.length := Nat.le_add_right _ _
    have hle := dirBlocksOf_le hu.entries
    have hhead : mapBit (withRoot u.diskmap u.ents files.length
        (firstBlock files files.length)) b = mapBit (headOf nblocks) b := by
      refine congrArg (fun w : Word => w.getLsbD (b % 32))
        (Bytes.load32_congr fun x hx hx' => ?_)
      rw [hB] at hx hx'
      rw [withRoot, Bytes.words_of_ne (by rw [hB]; omega),
        Bytes.store32_of_ne (by rw [hB]; omega),
        Bytes.copy_of_ne (by rw [hB]; omega)]
      exact hu.head x (by rw [hB]; omega)
    have hbit := hbits b hb
    dsimp only at hbit ⊢
    rw [hbit, hhead, mapBit_headOf hb, Bool.true_and]

end

end Fmt

end Jos
