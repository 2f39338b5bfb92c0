import Jos.Fs.Dir
import Jos.Fs.Format
import Jos.Lib.Spans

/-!
# What `fsformat` leaves on the disk

The blocks of the files one after another from block 3 on, each file with its
indirect block after its data, then those of the root directory. A `struct File`
in the memory from `malloc` keeps there the pointers that `finishfile` does not
set.
-/

namespace Jos

open PhysMem

/-! ## Words one after another -/

theorem load32_of_zero {b : Bytes} {i : Nat} (h : ∀ y, y < 4 → b (i + y) = 0) :
    b.load32 i = 0 := by
  have h0 : b i = 0 := h 0 (by decide)
  rw [Bytes.load32, h 3 (by decide), h 2 (by decide), h 1 (by decide), h0]
  rfl

namespace Bytes

/-- Store `v 0`, ..., `v (n - 1)` from `i` on. -/
def words (b : Bytes) (i : Nat) (v : Nat → Word) : Nat → Bytes
  | 0 => b
  | n + 1 => (words b i v n).store32 (i + 4 * n) (v n)

variable {b : Bytes} {i j k n : Nat} {v : Nat → Word}

theorem words_of_ne (h : j < i ∨ i + 4 * n ≤ j) : b.words i v n j = b j := by
  induction n with
  | zero => rfl
  | succ n ih => rw [words, store32_of_ne (by omega), ih (by omega)]

theorem load32_words (h : k < n) :
    (b.words i v n).load32 (i + 4 * k) = v k := by
  induction n with
  | zero => exact absurd h (Nat.not_lt_zero k)
  | succ n ih =>
      rw [words]
      by_cases hk : k = n
      · rw [hk, load32_store32]
      · rw [load32_store32_of_ne (by omega), ih (by omega)]

theorem load32_words_of_ne (h : j + 4 ≤ i ∨ i + 4 * n ≤ j) :
    (b.words i v n).load32 j = b.load32 j :=
  load32_congr fun _ _ _ => words_of_ne (by omega)

end Bytes

/-! ## Rounding -/

/-- The blocks that `n` bytes take. -/
def blocksOf (n : Nat) : Nat := (n + (BLKSIZE - 1)) / BLKSIZE

theorem roundUp_toNat {n : Word} (h : n.toNat ≤ MAXFILESIZE) :
    (roundUp n).toNat = BLKSIZE * blocksOf n.toNat := by
  have hB : BLKSIZE = 4096 := rfl
  have hmax : MAXFILESIZE = 4235264 := rfl
  rw [blocksOf, hB]
  by_cases h0 : n = 0
  · subst h0
    decide
  · have hpos : 0 < n.toNat := by
      by_contra hz
      exact h0 (BitVec.eq_of_toNat_eq (Nat.eq_zero_of_not_pos hz))
    have hpred : (n - 1).toNat = n.toNat - 1 := by
      rw [BitVec.toNat_sub_of_le (by rw [BitVec.le_def]; exact hpos)]
      rfl
    have hmod : ((n - 1) % 4096#32).toNat = (n.toNat - 1) % 4096 := by
      rw [BitVec.toNat_umod, hpred]
      rfl
    rw [roundUp, BitVec.toNat_sub, BitVec.toNat_add, hmod, hpred,
      BitVec.toNat_ofNat]
    omega

theorem roundUp_div {n : Word} (h : n.toNat ≤ MAXFILESIZE) :
    (roundUp n).toNat / BLKSIZE = blocksOf n.toNat := by
  rw [roundUp_toNat h]
  exact Nat.mul_div_cancel_left _ (by decide)

theorem blockof_mul {p : Nat} : blockof (BLKSIZE * p) = BitVec.ofNat 32 p := by
  rw [blockof, Nat.mul_div_cancel_left p (by decide)]

/-! ## The layout -/

/-- The blocks of a file, with its indirect block. -/
def HostFile.span (h : HostFile) : Nat :=
  blocksOf h.size + if NDIRECT ≤ blocksOf h.size then 1 else 0

/-- The blocks of the `i`th file. -/
def widths (files : List HostFile) (i : Nat) : Nat :=
  (files[i]?.map HostFile.span).getD 0

/-- The first block of the `i`th file, or the first one after the files. -/
def firstBlock (files : List HostFile) (i : Nat) : Nat :=
  3 + offset (widths files) i

/-- The first block of what is never allocated. -/
def endBlock (files : List HostFile) : Nat :=
  firstBlock files files.length + blocksOf (256 * files.length)

/-- A file whose name and size `fsformat` can use, which `read` returns piece by
piece. -/
structure HostFile.Ok (h : HostFile) : Prop where
  name : IsName (baseName h.path)
  reads : ∀ p, p < h.size → 0 < h.read p (h.size - p) ∧ h.read p (h.size - p) ≤
    h.size - p

/-- The files are files, and there is room for them. -/
structure Formattable (nblocks : Nat) (files : List HostFile) : Prop where
  regular : ∀ h ∈ files, h.regular = true ∧ h.size < MAXFILESIZE
  entries : files.length ≤ MAX_DIR_ENTS
  blocks : endBlock files < nblocks

/-- The data of `h` and the pointers to them are on the disk from block `p`
on. -/
structure Placed (disk : Bytes) (p : Nat) (h : HostFile) : Prop where
  data : ∀ x, x < BLKSIZE * blocksOf h.size → disk (BLKSIZE * p + x) = if x <
    h.size then h.data x else 0
  ind : NDIRECT ≤ blocksOf h.size → ∀ k, k < NINDIRECT →
    disk.load32 (BLKSIZE * (p + blocksOf h.size) + 4 * k) =
    if NDIRECT + k < blocksOf h.size then
      BitVec.ofNat 32 (p + (NDIRECT + k)) else 0

/-- The `struct File` at `a` is that of `h`, whose data are from block `p` on.
The pointers that are not set are those of `old`. -/
structure Listed (old ents : Bytes) (a p : Nat) (h : HostFile) : Prop where
  name : ∀ x, x ≤ (baseName h.path).length →
    ents (a + x) = (baseName h.path).getD x 0
  size : ents.load32 (a + 128) = BitVec.ofNat 32 h.size
  type : ents.load32 (a + 132) = FTYPE_REG
  direct : ∀ k, k < NDIRECT → ents.load32 (a + 136 + 4 * k) =
    if k < blocksOf h.size then BitVec.ofNat 32 (p + k) else
      old.load32 (a + 136 + 4 * k)
  ind : ents.load32 (a + 176) = if NDIRECT ≤ blocksOf h.size then
    BitVec.ofNat 32 (p + blocksOf h.size) else old.load32 (a + 176)

section

variable {disk disk' old ents ents' : Bytes} {a p i : Nat} {h : HostFile}
  {files : List HostFile}

theorem widths_of_get (hi : files[i]? = some h) : widths files i = h.span := by
  rw [widths, hi]
  rfl

theorem firstBlock_succ (hi : files[i]? = some h) :
    firstBlock files (i + 1) = firstBlock files i + h.span := by
  rw [firstBlock, firstBlock, offset, widths_of_get hi, Nat.add_assoc]

theorem Placed.congr (hp : Placed disk p h) (hd : ∀ x, BLKSIZE * p ≤ x →
      x < BLKSIZE * (p + h.span) → disk' x = disk x) :
    Placed disk' p h := by
  have hB : BLKSIZE = 4096 := rfl
  have hN : NINDIRECT = 1024 := rfl
  have hle : blocksOf h.size ≤ h.span := Nat.le_add_right _ _
  constructor
  · intro x hx
    rw [hB] at hd hx ⊢
    rw [hd _ (by omega) (by omega)]
    exact hp.data x hx
  · intro hind k hk
    have hspan : h.span = blocksOf h.size + 1 := by
      rw [HostFile.span, if_pos hind]
    rw [← hp.ind hind k hk]
    rw [hB] at hd ⊢
    exact Bytes.load32_congr fun x _ _ => hd x (by omega) (by omega)

theorem Listed.congr (hl : Listed old ents a p h)
    (hn : (baseName h.path).length < MAXNAMELEN)
    (he : ∀ x, a ≤ x → x < a + 256 → ents' x = ents x) :
    Listed old ents' a p h := by
  have hM : MAXNAMELEN = 128 := rfl
  have hN : NDIRECT = 10 := rfl
  have hword : ∀ x, a ≤ x → x + 4 ≤ a + 256 → ents'.load32 x = ents.load32 x :=
    fun x _ _ =>
    Bytes.load32_congr fun y _ _ => he y (by omega) (by omega)
  refine ⟨fun x hx => ?_, ?_, ?_, fun k hk => ?_, ?_⟩
  · rw [he _ (by omega) (by omega)]
    exact hl.name x hx
  · rw [hword _ (by omega) (by omega)]
    exact hl.size
  · rw [hword _ (by omega) (by omega)]
    exact hl.type
  · rw [hword _ (by omega) (by omega)]
    exact hl.direct k hk
  · rw [hword _ (by omega) (by omega)]
    exact hl.ind

end

/-! ## The steps -/

namespace Fmt

section

variable {s : Fmt} {A : Fmt → Prop} {E : FmtStop → Fmt → Prop} {p nb : Nat}
  {h : HostFile}

theorem wp_alloc {bytes : Word} (hb : bytes.toNat ≤ MAXFILESIZE)
    (hpos : s.diskpos = BLKSIZE * p) (hp : p < 2 ^ 20)
    {Q : Nat → Fmt → Prop}
    (hok : p + blocksOf bytes.toNat < s.nblocks.toNat →
      Q (BLKSIZE * p)
      { s with diskpos := BLKSIZE * (p + blocksOf bytes.toNat) })
    (hno : s.nblocks.toNat ≤ p + blocksOf bytes.toNat → ∀ e t, E e t) :
    Prog.wp (alloc bytes) Q A E s := by
  have hB : BLKSIZE = 4096 := rfl
  have hmax : MAXFILESIZE = 4235264 := rfl
  have hblocks : blocksOf bytes.toNat ≤ 1034 := by
    rw [blocksOf, hB]
    omega
  have hend : s.diskpos + (roundUp bytes).toNat =
      BLKSIZE * (p + blocksOf bytes.toNat) := by
    rw [hpos, roundUp_toNat hb, Nat.mul_add]
  apply Prog.wp_ask_bind
  apply Prog.wp_update_bind
  rw [hend, blockof_mul]
  refine Prog.wp_ite _ (fun hle => Prog.wp_halt_intro (hno ?_ _ _)) fun hlt =>
    Prog.wp_pure_intro ?_
  · rw [BitVec.le_def, BitVec.toNat_ofNat] at hle
    omega
  · rw [BitVec.le_def, BitVec.toNat_ofNat] at hlt
    rw [hpos]
    exact hok (by omega)

theorem wp_inMap {pos n : Nat} {g : Bytes → Bytes} {Q : Unit → Fmt → Prop}
    (hin : pos + n ≤ s.nblocks.toNat * BLKSIZE)
    (hQ : Q () { s with diskmap := g s.diskmap }) :
    Prog.wp (inMap pos n g) Q A E s := by
  apply Prog.wp_ask_bind
  exact Prog.wp_ite _ (fun h => absurd hin (Nat.not_le.mpr h)) fun _ =>
    Prog.wp_update_intro hQ

/-- Words in the map. -/
theorem wp_mapWords {pos n : Nat} {v : Nat → Word} {Q : Unit → Fmt → Prop}
    (hin : pos + 4 * n ≤ s.nblocks.toNat * BLKSIZE)
    (hQ : Q () { s with diskmap := s.diskmap.words pos v n }) :
    Prog.wp (Prog.forUp n fun i => inMap (pos + 4 * i) 4 fun b =>
    b.store32 (pos + 4 * i) (v i)) Q A E s := by
  refine Prog.wp_imp (Prog.wp_forUp (fun i t =>
    t = { s with diskmap := s.diskmap.words pos v i }) rfl fun i t hi ht => ?_)
    (fun _ t ht => ?_) (fun _ h => h) fun _ _ h => h
  · subst ht
    exact wp_inMap (by dsimp only; omega) rfl
  · subst ht
    exact hQ

/-- Words in a `struct File` in the array. -/
theorem wp_entWords {e n k : Nat} {v : Nat → Word} {Q : Unit → Fmt → Prop}
    (hQ : Q () { s with ents := s.ents.words (256 * e + 4 * k) v n }) :
    Prog.wp (Prog.forUp n fun i => setWord (.ent e) (k + i) (v i)) Q A E s := by
  refine Prog.wp_imp (Prog.wp_forUp
    (fun i t => t = { s with ents := s.ents.words (256 * e + 4 * k) v i }) rfl
    fun i t hi ht => ?_)
    (fun _ t ht => ?_) (fun _ h => h) fun _ _ h => h
  · subst ht
    refine Prog.wp_update_intro ?_
    rw [Bytes.words, Nat.mul_add, Nat.add_assoc]
  · subst ht
    exact hQ

/-- The entries, with the size and the first `n` pointers of entry `e`. -/
def pointed (ents : Bytes) (e : Nat) (start len : Word) (n : Nat) : Bytes :=
  (ents.store32 (256 * e + 4 * 32) len).words (256 * e + 4 * 34)
    (fun i => start + BitVec.ofNat 32 i) n

/-- `finishfile` of an entry, where the next block to allocate is block `p`. -/
theorem wp_finishfile {e : Nat} {start len : Word}
    (hlen : len.toNat ≤ MAXFILESIZE) (hpos : s.diskpos = BLKSIZE * p)
    (hp : p < 2 ^ 20) {Q : Unit → Fmt → Prop}
    (hdirect : blocksOf len.toNat < NDIRECT →
      Q () { s with ents := pointed s.ents e start len (blocksOf len.toNat) })
    (hind : NDIRECT ≤ blocksOf len.toNat → p + 1 < s.nblocks.toNat →
    Q () { s with
      diskpos := BLKSIZE * (p + 1)
      ents := (pointed s.ents e start len NDIRECT).store32 (256 * e + 4 * 44)
        (BitVec.ofNat 32 p)
      diskmap := s.diskmap.words (BLKSIZE * p) (fun i =>
        start + BitVec.ofNat 32 (NDIRECT + i)) (blocksOf len.toNat - NDIRECT) })
    (hno : NDIRECT ≤ blocksOf len.toNat → s.nblocks.toNat ≤ p + 1 →
    ∀ x t, E x t) :
    Prog.wp (finishfile (.ent e) start len) Q A E s := by
  have hB : BLKSIZE = 4096 := rfl
  have hN : NDIRECT = 10 := rfl
  have hmax : MAXFILESIZE = 4235264 := rfl
  have hone : blocksOf (4096 : Word).toNat = 1 := by decide
  have hblock : (4096 : Word).toNat ≤ MAXFILESIZE := by decide
  have hle : blocksOf len.toNat ≤ 1034 := by
    rw [blocksOf, hB]
    omega
  apply Prog.wp_update_bind
  dsimp only
  rw [roundUp_div hlen]
  apply Prog.wp_bind_intro
  refine wp_entWords ?_
  refine Prog.wp_ite _ (fun hge => ?_) fun hlt => Prog.wp_pure_intro ?_
  · rw [Nat.min_eq_right hge]
    apply Prog.wp_bind_intro
    refine wp_alloc (p := p) hblock (by exact hpos) hp (fun hroom => ?_)
      fun hfull x t => hno hge (by rwa [hone] at hfull) x t
    rw [hone] at hroom ⊢
    apply Prog.wp_update_bind
    refine wp_mapWords ?_ ?_
    · dsimp only at hroom ⊢
      rw [hB]
      omega
    · rw [blockof_mul]
      exact hind hge hroom
  · rw [Nat.min_eq_left (by omega)]
    exact hdirect (by omega)

/-- `readn` brings the whole file, in whatever pieces. -/
theorem wp_readnFrom {out : Nat} (hok : h.Ok)
    (hin : out + h.size ≤ s.nblocks.toNat * BLKSIZE) {q fuel : Nat}
    (hfuel : h.size - q ≤ fuel) (hq : q ≤ h.size) {b : Bytes}
    (hb : s.diskmap = b.copy out h.data 0 q)
    {Q : Unit → Fmt → Prop}
    (hQ : Q () { s with diskmap := b.copy out h.data 0 h.size }) :
    Prog.wp (readnFrom h out h.size fuel q) Q A E s := by
  induction fuel generalizing q s with
  | zero =>
      obtain rfl : q = h.size := by omega
      rw [← hb] at hQ
      exact Prog.wp_pure_intro hQ
  | succ fuel ih =>
      refine Prog.wp_ite _ (fun hlt => ?_) fun hge => ?_
      · obtain ⟨hpos, hle⟩ := hok.reads q hlt
        apply Prog.wp_bind_intro
        refine wp_inMap (by omega)
          (Prog.wp_ite _ (fun h0 => absurd h0 (Nat.ne_of_gt hpos)) fun _ => ?_)
        refine ih (q := q + h.read q (h.size - q)) (by exact hin) (by omega)
          (by omega) ?_ hQ
        dsimp only
        rw [hb]
        funext x
        by_cases hx : out + q ≤ x ∧ x < out + q + h.read q (h.size - q)
        · rw [Bytes.copy_of_mem hx, Bytes.copy_of_mem (by omega)]
          congr 1
          omega
        · rw [Bytes.copy_of_ne (by omega)]
          by_cases hx' : out ≤ x ∧ x < out + q
          · rw [Bytes.copy_of_mem hx', Bytes.copy_of_mem (by omega)]
          · rw [Bytes.copy_of_ne (by omega), Bytes.copy_of_ne (by omega)]
      · obtain rfl : q = h.size := by omega
        rw [← hb] at hQ
        exact Prog.wp_pure_intro hQ

end

/-! ## Runs -/

/-- What `opendisk` leaves in the first blocks, and the files that were written,
in the memory from `malloc` too. -/
structure Written (nblocks : Word) (old : Bytes) (head : Bytes)
    (files : List HostFile) (i : Nat) (s : Fmt) : Prop where
  total : s.nblocks = nblocks
  pos : s.diskpos = BLKSIZE * firstBlock files i
  room : firstBlock files i < nblocks.toNat
  n : s.n = i
  entries : i ≤ MAX_DIR_ENTS
  head : ∀ x, x < 3 * BLKSIZE → s.diskmap x = head x
  blank : ∀ x, BLKSIZE * firstBlock files i ≤ x → s.diskmap x = 0
  files : ∀ j h, j < i → files[j]? = some h → h.regular = true ∧
    h.size < MAXFILESIZE ∧ Placed s.diskmap (firstBlock files j) h ∧
    Listed old s.ents (256 * j) (firstBlock files j) h
  rest : ∀ x, 256 * i ≤ x → s.ents x = old x

section

variable {s : Fmt} {A : Fmt → Prop} {nblocks : Word}
  {old head disk ents : Bytes} {files rest : List HostFile} {i p : Nat}
  {h : HostFile}

/-- The entries, with `name` and the type of a regular file in entry `i`. -/
def named (ents : Bytes) (i : Nat) (name : List (BitVec 8)) : Bytes :=
  (ents.copy (256 * i + 0) (name.getD · 0) 0 (name.length + 1)).store32
    (256 * i + 4 * 33) FTYPE_REG

theorem placed_data (hblank : ∀ x, BLKSIZE * p ≤ x → disk x = 0) {x : Nat} :
    disk.copy (BLKSIZE * p) h.data 0 h.size (BLKSIZE * p + x) = if x <
      h.size then h.data x else 0 := by
  split
  · rw [Bytes.copy_of_mem (by omega)]
    congr 1
    omega
  · rw [Bytes.copy_of_ne (by omega), hblank _ (by omega)]

/-- What is on the disk after a file that has an indirect block was written. -/
theorem placed_large (hblank : ∀ x, BLKSIZE * p ≤ x → disk x = 0)
    (hlarge : NDIRECT ≤ blocksOf h.size) :
    Placed ((disk.copy (BLKSIZE * p) h.data 0 h.size).words
      (BLKSIZE * (p + blocksOf h.size))
      (fun k => BitVec.ofNat 32 p + BitVec.ofNat 32 (NDIRECT + k))
        (blocksOf h.size - NDIRECT)) p h := by
  have hB : BLKSIZE = 4096 := rfl
  have hblocks : h.size ≤ BLKSIZE * blocksOf h.size := by
    rw [blocksOf, hB]
    omega
  rw [hB] at hblocks
  constructor
  · intro x hx
    rw [Bytes.words_of_ne (by rw [hB] at hx ⊢; omega)]
    exact placed_data hblank
  · intro _ k _
    split
    · rw [Bytes.load32_words (by omega), ← BitVec.ofNat_add]
    · rw [Bytes.load32_words_of_ne (by omega)]
      have hzero : ∀ y, y < 4 → disk.copy (BLKSIZE * p) h.data 0 h.size
          (BLKSIZE * (p + blocksOf h.size) + 4 * k + y) = 0 := by
        intro y _
        rw [Bytes.copy_of_ne (by rw [hB]; omega), hblank _ (by rw [hB]; omega)]
      exact load32_of_zero hzero

theorem placed_small (hblank : ∀ x, BLKSIZE * p ≤ x → disk x = 0)
    (hsmall : blocksOf h.size < NDIRECT) :
    Placed (disk.copy (BLKSIZE * p) h.data 0 h.size) p h :=
  ⟨fun _ _ => placed_data hblank, fun hlarge =>
    absurd hsmall (Nat.not_lt.mpr hlarge)⟩

section Listed

variable (hname : (baseName h.path).length < MAXNAMELEN)
  (hrest : ∀ x, 256 * i ≤ x → ents x = old x)
include hname hrest

/-- The first pointers of an entry, where `n` of them are set. -/
theorem pointed_facts {n : Nat} (hn : n ≤ NDIRECT) :
    (∀ x, x ≤ (baseName h.path).length →
      pointed (named ents i (baseName h.path)) i (BitVec.ofNat 32 p)
        (BitVec.ofNat 32 h.size) n
      (256 * i + x) = (baseName h.path).getD x 0) ∧
    (pointed (named ents i (baseName h.path)) i (BitVec.ofNat 32 p)
      (BitVec.ofNat 32 h.size) n).load32 (256 * i + 128) =
      BitVec.ofNat 32 h.size ∧
    (pointed (named ents i (baseName h.path)) i (BitVec.ofNat 32 p)
      (BitVec.ofNat 32 h.size) n).load32 (256 * i + 132) = FTYPE_REG ∧
    (∀ k, k < 11 → (pointed (named ents i (baseName h.path)) i
      (BitVec.ofNat 32 p) (BitVec.ofNat 32 h.size) n).load32
      (256 * i + 136 + 4 * k) = if k < n then BitVec.ofNat 32 (p + k) else
      old.load32 (256 * i + 136 + 4 * k)) := by
  have hN : NDIRECT = 10 := rfl
  have hM : MAXNAMELEN = 128 := rfl
  refine ⟨fun x hx => ?_, ?_, ?_, fun k hk => ?_⟩
  · rw [pointed, Bytes.words_of_ne (by omega), Bytes.store32_of_ne (by omega),
      named, Bytes.store32_of_ne (by omega),
      Bytes.copy_of_mem (by omega)]
    congr 1
    omega
  · rw [pointed, Bytes.load32_words_of_ne (by omega), show 256 * i + 128 =
      256 * i + 4 * 32 from rfl, Bytes.load32_store32]
  · rw [pointed, Bytes.load32_words_of_ne (by omega),
      Bytes.load32_store32_of_ne (by omega), named,
      show 256 * i + 132 = 256 * i + 4 * 33 from rfl, Bytes.load32_store32]
  · split
    · rename_i hlt
      rw [pointed, show 256 * i + 136 = 256 * i + 4 * 34 from rfl,
        Bytes.load32_words hlt, BitVec.ofNat_add]
    · rw [pointed, Bytes.load32_words_of_ne (by omega),
        Bytes.load32_store32_of_ne (by omega), named,
        Bytes.load32_store32_of_ne (by omega)]
      exact Bytes.load32_congr fun y _ _ => by
        rw [Bytes.copy_of_ne (by omega), hrest y (by omega)]

theorem listed_small (hsmall : blocksOf h.size < NDIRECT) : Listed old
    (pointed (named ents i (baseName h.path)) i (BitVec.ofNat 32 p)
      (BitVec.ofNat 32 h.size) (blocksOf h.size)) (256 * i) p h := by
  have hN : NDIRECT = 10 := rfl
  obtain ⟨hname, hsize, htype, hptr⟩ :=
    pointed_facts (p := p) hname hrest (Nat.le_of_lt hsmall)
  refine ⟨hname, hsize, htype, fun k hk => hptr k (by omega), ?_⟩
  rw [if_neg (by omega), show 256 * i + 176 = 256 * i + 136 + 4 * 10 from rfl,
    hptr 10 (by decide), if_neg (by omega)]

theorem listed_large (hlarge : NDIRECT ≤ blocksOf h.size) : Listed old
    ((pointed (named ents i (baseName h.path)) i (BitVec.ofNat 32 p)
      (BitVec.ofNat 32 h.size) NDIRECT).store32 (256 * i + 4 * 44)
      (BitVec.ofNat 32 (p + blocksOf h.size))) (256 * i) p h := by
  have hN : NDIRECT = 10 := rfl
  have hM : MAXNAMELEN = 128 := rfl
  obtain ⟨hn, hsize, htype, hptr⟩ :=
    pointed_facts (p := p) hname hrest (Nat.le_refl NDIRECT)
  refine ⟨fun x hx => ?_, ?_, ?_, fun k hk => ?_, ?_⟩
  · rw [Bytes.store32_of_ne (by omega), hn x hx]
  · rw [Bytes.load32_store32_of_ne (by omega), hsize]
  · rw [Bytes.load32_store32_of_ne (by omega), htype]
  · rw [Bytes.load32_store32_of_ne (by omega), hptr k (by omega), if_pos hk,
      if_pos (by omega)]
  · rw [if_pos hlarge]
    exact Bytes.load32_store32 _ _ _

end Listed

/-- Only entry `i` is another. -/
theorem pointed_of_ne {name : List (BitVec 8)}
    (hname : name.length < MAXNAMELEN) {start len : Word} {n x : Nat}
    (hn : n ≤ NDIRECT)
    (hx : x < 256 * i ∨ 256 * i + 256 ≤ x) :
    pointed (named ents i name) i start len n x = ents x := by
  have hN : NDIRECT = 10 := rfl
  have hM : MAXNAMELEN = 128 := rfl
  rw [pointed, Bytes.words_of_ne (by omega), Bytes.store32_of_ne (by omega),
    named, Bytes.store32_of_ne (by omega),
    Bytes.copy_of_ne (by omega)]

/-- One more file. -/
theorem Written.next (hs : Written nblocks old head files i s)
    (hget : files[i]? = some h)
    (hreg : h.regular = true ∧ h.size < MAXFILESIZE)
    (hroom : firstBlock files i + h.span < nblocks.toNat)
    (hmany : i < MAX_DIR_ENTS)
    (hlow : ∀ x, x < BLKSIZE * firstBlock files i → disk x = s.diskmap x)
    (hhigh : ∀ x, BLKSIZE * (firstBlock files i + h.span) ≤ x → disk x = 0)
    (hp : Placed disk (firstBlock files i) h)
    (hl : Listed old ents (256 * i) (firstBlock files i) h)
    (hents : ∀ x, x < 256 * i ∨ 256 * i + 256 ≤ x → ents x = s.ents x)
    (hnames : ∀ h ∈ files, h.Ok) :
    Written nblocks old head files (i + 1) ⟨nblocks, disk,
      BLKSIZE * (firstBlock files i + h.span), ents, i + 1⟩ := by
  have hB : BLKSIZE = 4096 := rfl
  have hnext := firstBlock_succ hget
  have h3 : 3 ≤ firstBlock files i := Nat.le_add_right _ _
  rw [hB] at hlow hhigh
  refine ⟨rfl, by rw [hnext], by rwa [hnext], rfl, hmany, fun x hx => ?_,
    fun x hx => ?_, fun j g hj hg => ?_, fun x hx => ?_⟩
  · rw [hB] at hx
    dsimp only
    rw [hlow x (by omega)]
    exact hs.head x (by rwa [hB])
  · rw [hB, hnext] at hx
    exact hhigh x hx
  · rcases Nat.lt_succ_iff_lt_or_eq.mp hj with hj | rfl
    · obtain ⟨hreg', hsize', hp', hl'⟩ := hs.files j g hj hg
      have hapart : firstBlock files j + g.span ≤ firstBlock files i := by
        have := offset_apart (w := widths files) hj
        rw [widths_of_get hg] at this
        rw [firstBlock, firstBlock]
        omega
      refine ⟨hreg', hsize', hp'.congr fun x _ hx => ?_, hl'.congr
        (hnames g (List.mem_of_getElem? hg)).name.short fun x _ hx => ?_⟩
      · rw [hB] at hx
        exact hlow x (by omega)
      · exact hents x (by omega)
    · obtain rfl := Option.some.inj (hget.symm.trans hg)
      exact ⟨hreg.1, hreg.2, hp, hl⟩
  · dsimp only
    rw [hents x (by omega)]
    exact hs.rest x (by omega)

theorem wp_writefile (hs : Written nblocks old head files i s)
    (hget : files[i]? = some h) (hnames : ∀ h ∈ files, h.Ok)
    {Q : Unit → Fmt → Prop}
    (hQ : ∀ t, Written nblocks old head files (i + 1) t → Q () t)
    (hn : nblocks.toNat ≤ 1024) :
    Prog.wp (writefile h) Q A
      (fun _ _ => ¬Formattable nblocks.toNat files) s := by
  obtain rfl := hs.total
  have hB : BLKSIZE = 4096 := rfl
  have hM : MAXNAMELEN = 128 := rfl
  have hmax : MAXFILESIZE = 4235264 := rfl
  have hmem : h ∈ files := List.mem_of_getElem? hget
  have hi : i < files.length := (List.getElem?_eq_some_iff.mp hget).1
  have hok := hnames h hmem
  have hshort := hok.name.short
  have hroom := hs.room
  have hlast : firstBlock files (i + 1) ≤ endBlock files := by
    have hmono : offset (widths files) (i + 1) ≤
        offset (widths files) files.length := offset_mono _ hi
    rw [endBlock, firstBlock, firstBlock]
    omega
  have hnext := firstBlock_succ hget
  refine Prog.wp_ite _ (fun hreg => Prog.wp_halt_intro fun hfits => ?_)
    fun hreg => ?_
  · rw [(hfits.regular h hmem).1] at hreg
    cases hreg
  refine Prog.wp_ite _ (fun hbig => Prog.wp_halt_intro fun hfits => ?_)
    fun hsize => ?_
  · exact absurd (hfits.regular h hmem).2 (Nat.not_lt.mpr hbig)
  have hlen : (BitVec.ofNat 32 h.size).toNat = h.size := by
    rw [BitVec.toNat_ofNat]
    omega
  -- the entry
  apply Prog.wp_bind_intro
  apply Prog.wp_ask_bind
  apply Prog.wp_update_bind
  rw [hs.n]
  refine Prog.wp_ite _ (fun hmany => Prog.wp_halt_intro fun hfits => ?_)
    fun hmany => ?_
  · have := hfits.entries
    omega
  apply Prog.wp_update_bind
  apply Prog.wp_update_bind
  apply Prog.wp_pure_intro
  -- its data
  apply Prog.wp_bind_intro
  refine wp_alloc (p := firstBlock files i) (by rw [hlen]; omega)
    (by exact hs.pos) (by omega) (fun hdata => ?_) fun hfull x t => ?_
  swap
  · intro hfits
    have hblocks := hfits.blocks
    have hfull : s.nblocks.toNat ≤ firstBlock files i + blocksOf h.size := by
      rw [← hlen]
      exact hfull
    have hle : blocksOf h.size ≤ h.span := Nat.le_add_right _ _
    omega
  have hdata : firstBlock files i + blocksOf h.size < s.nblocks.toNat := by
    rw [← hlen]
    exact hdata
  have hblocks : h.size ≤ BLKSIZE * blocksOf h.size := by
    rw [blocksOf, hB]
    omega
  have hblank : ∀ x, BLKSIZE * firstBlock files i ≤ x →
      s.diskmap x = 0 := hs.blank
  have hstart : s.diskmap =
      s.diskmap.copy (BLKSIZE * firstBlock files i) h.data 0 0 := by
    funext x
    rw [Bytes.copy_of_ne (by omega)]
  have hreg : h.regular = true ∧ h.size < MAXFILESIZE :=
    ⟨by simpa using hreg, Nat.not_le.mp hsize⟩
  have hlow : ∀ x, x < BLKSIZE * firstBlock files i →
      s.diskmap.copy (BLKSIZE * firstBlock files i) h.data 0 h.size x =
        s.diskmap x := fun x hx => Bytes.copy_of_ne (.inl hx)
  rw [hB] at hblocks
  apply Prog.wp_bind_intro
  refine wp_readnFrom hok ?_ (by omega) (Nat.zero_le _) (b := s.diskmap)
    (by exact hstart) ?_
  · dsimp only
    rw [hB]
    omega
  rw [blockof_mul, hlen]
  refine wp_finishfile (p := firstBlock files i + blocksOf h.size)
    (by rw [hlen]; omega) (by rfl) (by omega) (fun hsmall => ?_)
    (fun hlarge hind => ?_) fun hlarge hfull x t hfits => ?_
  · rw [hlen] at hsmall ⊢
    have hspan : h.span = blocksOf h.size := by
      rw [HostFile.span, if_neg (by omega), Nat.add_zero]
    have hwritten := hs.next hget hreg (by omega) (by omega) hlow
      (fun x hx => ?_) (placed_small hblank hsmall)
      (listed_small hshort hs.rest hsmall)
      (fun x hx => pointed_of_ne hshort (Nat.le_of_lt hsmall) hx) hnames
    · rw [hspan] at hwritten
      exact hQ _ hwritten
    · rw [hspan, hB] at hx
      rw [hB, Bytes.copy_of_ne (by omega)]
      exact hblank x (by rw [hB]; omega)
  · rw [hlen] at hlarge ⊢
    have hspan : h.span = blocksOf h.size + 1 := by
      rw [HostFile.span, if_pos hlarge]
    have hle : blocksOf h.size ≤ 1034 := by
      rw [blocksOf, hB]
      omega
    have hroom : firstBlock files i + h.span < s.nblocks.toNat := by
      rw [hspan]
      exact hind
    have hN : NDIRECT = 10 := rfl
    have hwritten := hs.next hget hreg hroom (by omega) (fun x hx => ?_)
      (fun x hx => ?_)
      (placed_large hblank hlarge) (listed_large hshort hs.rest hlarge)
      (fun x hx => ?_) hnames
    · rw [hspan] at hwritten
      exact hQ _ hwritten
    · rw [Bytes.words_of_ne (by rw [hB] at hx ⊢; omega)]
      exact hlow x hx
    · rw [hspan, hB] at hx
      rw [Bytes.words_of_ne (by rw [hB]; omega), hB,
        Bytes.copy_of_ne (by omega)]
      exact hblank x (by rw [hB]; omega)
    · rw [Bytes.store32_of_ne (by omega)]
      exact pointed_of_ne hshort (Nat.le_refl _) hx
  · have hspan : h.span = blocksOf h.size + 1 := by
      rw [hlen] at hlarge
      rw [HostFile.span, if_pos hlarge]
    have hbound := hfits.blocks
    have hfull : s.nblocks.toNat ≤
        firstBlock files i + blocksOf h.size + 1 := by
      exact hfull
    omega


end

end Fmt

end Jos
