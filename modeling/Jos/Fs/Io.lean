import Jos.Fs.Trunc

/-!
# Reading and writing a file

The rule of the loop of fs/fs.c that `file_read` and `file_write` share, and
what the two do to the data of a file.
-/

namespace Jos

open PhysMem

section

variable {d : PhysMem} {s : Fs} {m : PhysMem} {q : Bytes} {b n : Nat} {v : Word}
  {A : Fs → Prop}
  {E : Stop → Fs → Prop}

/-! ## Moving bytes -/

theorem wp_touchPage (hm : m.MapOk) (hs : s.Shows d m q) {p : Int}
    (hp : p = -1 ∨ 0 ≤ p ∧ m.InUse p.toNat) {Q : Unit → Fs → Prop}
    (hQ : ∀ t, t.Shows d m q → Q () t) : Prog.wp (touchPage p) Q A E s := by
  refine Prog.wp_ite _ (fun _ => Prog.wp_pure_intro (hQ s hs)) fun h1 => ?_
  have hp := hp.resolve_left h1
  exact Prog.wp_ite _ (fun hneg => absurd hneg (by omega)) fun _ =>
    wp_touch hm hs hp.2 hQ

/-- An access to bytes that are in one page. -/
theorem wp_touchRange (hm : m.MapOk) (hs : s.Shows d m q) {a p : Int}
    (ha : BLKSIZE * p ≤ a ∧ a + n ≤ BLKSIZE * (p + 1))
    (hp : p = -1 ∨ 0 ≤ p ∧ m.InUse p.toNat)
    {Q : Unit → Fs → Prop} (hQ : ∀ t, t.Shows d m q → Q () t) :
    Prog.wp (touchRange a n) Q A E s := by
  refine Prog.wp_ite _ (fun _ => Prog.wp_pure_intro (hQ s hs)) fun hn => ?_
  have hB : (BLKSIZE : Int) = 4096 := rfl
  rw [hB] at ha ⊢
  have hdiv : a / 4096 = p := by omega
  have hone : ((a + n - 1) / 4096 - p + 1).toNat = 1 := by omega
  rw [hdiv, hone]
  refine Prog.wp_imp (Prog.wp_forUp (fun _ t => t.Shows d m q) hs
    fun i t hi ht => ?_)
    (fun _ t ht => hQ t ht) (fun _ h => h) fun _ _ h => h
  obtain rfl : i = 0 := by omega
  refine wp_touchPage hm ht ?_ fun u hu => hu
  simpa using hp

/-- A store to bytes of block `b`. -/
theorem mem_poke_block {u : Fs} {o : Nat} {data : Nat → BitVec 8}
    (ho : o + n ≤ BLKSIZE) :
    (u.poke (BLKSIZE * b + o) n data).mem
      = Function.update u.mem b ((u.mem b).copy o data 0 n) := by
  have hB : (BLKSIZE : Int) = 4096 := rfl
  have hbn : BLKSIZE = 4096 := rfl
  funext c j
  by_cases hc : c = b
  · subst hc
    rw [Function.update_self]
    by_cases hj : o ≤ j ∧ j < o + n
    · rw [Bytes.copy_of_mem hj, Fs.mem_poke (by omega), hB, if_pos (by omega)]
      congr 1
      omega
    · have hout : ¬(BLKSIZE * (c : Int) + o ≤ BLKSIZE * (c : Int) + j ∧
          BLKSIZE * (c : Int) + j < BLKSIZE * (c : Int) + o + n) := by omega
      rw [Bytes.copy_of_ne (by omega)]
      simp only [Fs.mem, Fs.poke]
      split
      · exact if_neg hout
      · rfl
  · have hout : ¬(BLKSIZE * (b : Int) + o < BLKSIZE * ((c : Int) + 1) ∧
        BLKSIZE * (c : Int) < BLKSIZE * (b : Int) + o + n) := by
      rw [hB]
      omega
    rw [Function.update_of_ne hc]
    simp only [Fs.mem, Fs.poke, if_neg hout]

/-- A move between bytes `o` and on of block `b` and bytes `r` and on of the
request page touches pages that are there. -/
theorem wp_touchBoth (hm : m.MapOk) (hs : s.Shows d m q) (hb : m.InUse b)
    {o r : Nat}
    (ho : o + n ≤ BLKSIZE) (hr : r + n ≤ BLKSIZE) {Q : Unit → Fs → Prop}
    (hQ : ∀ t, t.Shows d m q → Q () t) :
    Prog.wp (touchRange (BLKSIZE * b + o) n) Q A E s ∧
      Prog.wp (touchRange (-BLKSIZE + r) n) Q A E s := by
  have hB : (BLKSIZE : Int) = 4096 := rfl
  have hbn : BLKSIZE = 4096 := rfl
  refine ⟨wp_touchRange (p := b) hm hs ?_ (.inr ⟨by omega, hb⟩) hQ,
    wp_touchRange (p := -1) hm hs ?_ (.inl rfl) hQ⟩ <;>
    rw [hB] <;> omega

/-- Storing bytes of the request page in block `b`. -/
theorem wp_storeData (hm : m.MapOk) (hs : s.Shows d m q) (hb : m.InUse b)
    (hr : ¬m.Reserved b)
    {o r : Nat} (ho : o + n ≤ BLKSIZE) (hrn : r + n ≤ BLKSIZE)
    {Q : Unit → Fs → Prop}
    (hQ : ∀ t, t.Shows d (Function.update m b ((m b).copy o q r n)) q →
      Q () t) :
    Prog.wp (memmove (BLKSIZE * b + o) (-BLKSIZE + r) n) Q A E s := by
  have hB : (BLKSIZE : Int) = 4096 := rfl
  have hbn : BLKSIZE = 4096 := rfl
  apply Prog.wp_bind_intro
  refine (wp_touchBoth hm hs hb ho hrn fun t ht => ?_).2
  apply Prog.wp_bind_intro
  refine (wp_touchBoth hm ht hb ho hrn fun u hu => ?_).1
  apply Prog.wp_update_intro
  have hcopy : (m b).copy o (fun i => u.byteAt (-BLKSIZE + r + i)) 0 n =
      (m b).copy o q r n := by
    funext j
    by_cases hj : o ≤ j ∧ j < o + n
    · have hlt : r + (j - o) < BLKSIZE := by omega
      have hneg : -4096 + (r : Int) + (0 + (j - o) : Nat) < 0 := by omega
      rw [Bytes.copy_of_mem hj, Bytes.copy_of_mem hj, ← hu.req _ hlt, Fs.byteAt,
        hB, if_pos hneg]
      congr 1
      omega
    · rw [Bytes.copy_of_ne (by omega), Bytes.copy_of_ne (by omega)]
  have hmap : SameMap m (Function.update m b ((m b).copy o q r n)) := .update hr
  refine hQ _ ⟨?_, fun j hj => ?_, hu.ok.poke, fun c hlt hc hd => ?_,
    fun c hc hres => ?_⟩
  · rw [mem_poke_block ho, hu.mem, hcopy]
  · rw [← hu.req j hj]
    refine if_neg ?_
    rw [hB]
    omega
  · rw [hmap.nblocks] at hlt
    rw [hmap.bit c hlt]
    rw [Fs.disk_poke] at hd
    exact hu.bits c hlt hc hd
  · exact hu.late c hc ((reserved_congr hmap.nblocks).mp hres)

/-- Loading bytes of block `b` to the request page. -/
theorem wp_loadData (hm : m.MapOk) (hs : s.Shows d m q) (hb : m.InUse b)
    {o r : Nat} (ho : o + n ≤ BLKSIZE) (hrn : r + n ≤ BLKSIZE)
    {Q : Unit → Fs → Prop}
    (hQ : ∀ t, t.Shows d m (q.copy r (m b) o n) → Q () t) :
    Prog.wp (memmove (-BLKSIZE + r) (BLKSIZE * b + o) n) Q A E s := by
  have hB : (BLKSIZE : Int) = 4096 := rfl
  have hbn : BLKSIZE = 4096 := rfl
  apply Prog.wp_bind_intro
  refine (wp_touchBoth hm hs hb ho hrn fun t ht => ?_).1
  apply Prog.wp_bind_intro
  refine (wp_touchBoth hm ht hb ho hrn fun u hu => ?_).2
  apply Prog.wp_update_intro
  refine hQ _ ⟨?_, fun j hj => ?_, hu.ok.poke, hu.bits, hu.late⟩
  · rw [← hu.mem]
    funext c
    have hout : ¬(-BLKSIZE + (r : Int) < BLKSIZE * ((c : Int) + 1) ∧
        BLKSIZE * (c : Int) < -BLKSIZE + (r : Int) + n) := by
      rw [hB]
      omega
    simp only [Fs.mem, Fs.poke, if_neg hout]
  · by_cases hjr : r ≤ j ∧ j < r + n
    · have hin : -BLKSIZE + (r : Int) ≤ j - BLKSIZE ∧ (j : Int) - BLKSIZE <
          -BLKSIZE + r + n := by
        rw [hB]
        omega
      rw [Bytes.copy_of_mem hjr]
      refine (if_pos hin).trans ?_
      rw [Fs.byteAt, hu.mem, hB, if_neg (by omega)]
      congr 1
      · omega
      · omega
    · rw [Bytes.copy_of_ne (by omega), ← hu.req j hj]
      refine if_neg ?_
      rw [hB]
      omega

/-! ## Reading and writing -/

namespace PhysMem

variable {m' m'' : PhysMem} {f : FilePtr} {k o r : Nat} {src : Bytes}

/-- Bytes `lo` and on, below `hi`, of the data of `f` are those of `src`; the
rest is as it was. -/
structure Put (f : FilePtr) (lo hi : Nat) (src : Bytes) (m m' : PhysMem) :
    Prop where
  edits : Edits (fun k => k = .attach ∨ k = .fill) f m m'
  field : ∀ i, i < 34 → m'.entry f.blk (f.off + i) = m.entry f.blk (f.off + i)
  byte : ∀ o, o < MAXFILESIZE →
    m'.byte f o = if lo ≤ o ∧ o < hi then src (o - lo) else m.byte f o
  kept : ∀ ρ : Role, ρ.file = f → ρ.Ok → m.ref ρ ≠ 0 → m'.ref ρ = m.ref ρ

theorem Put.sound {lo hi : Nat} (h : Put f lo hi src m m') (hm : m.Sound)
    (hf : m.Rec f) :
    m'.Sound ∧ m'.Rec f := Edits.sound hm hf h.edits

theorem Put.fType {lo hi : Nat} (h : Put f lo hi src m m') :
    m'.fType f = m.fType f :=
  h.field 33 (by decide)

theorem Put.refl (f : FilePtr) (lo : Nat) (src : Bytes) (m : PhysMem) :
    Put f lo lo src m m :=
  ⟨.refl _ f m, fun _ _ => rfl, fun o _ => by rw [if_neg (by omega)],
    fun _ _ _ _ => rfl⟩

/-- The bytes that a store to the `k`th block of a regular file changes. -/
theorem Sound.byte_fill (hm : m.Sound) (hf : m.Rec f)
    (ht : m.fType f ≠ FTYPE_DIR)
    (hk : k < NDIRECT + NINDIRECT) (h0 : m.ref (.data f k) ≠ 0)
    (ho : o + n ≤ BLKSIZE) {x : Nat}
    (hx : x < MAXFILESIZE) :
    byte (Function.update m (m.ref (.data f k))
      ((m (m.ref (.data f k))).copy o src r n)) f x =
      if BLKSIZE * k + o ≤ x ∧ x < BLKSIZE * k + o + n then
        src (r + (x - (BLKSIZE * k + o)))
      else m.byte f x := by
  have hj : x / BLKSIZE < NDIRECT + NINDIRECT :=
    Nat.div_lt_of_lt_mul (by rwa [Nat.mul_comm])
  have hdiv : BLKSIZE * (x / BLKSIZE) + x % BLKSIZE = x :=
    Nat.div_add_mod x BLKSIZE
  have hlt : x % BLKSIZE < BLKSIZE := Nat.mod_lt _ (by decide)
  have hsame : Same m (Function.update m (m.ref (.data f k))
      ((m (m.ref (.data f k))).copy o src r n)) f :=
    hm.same_fill hf ht hk h0
      (fun c j _ hc => by rw [Function.update_of_ne hc]) hf
  have href := hsame.ref (ρ := .data f (x / BLKSIZE)) hj
  rw [byte, href, byte]
  by_cases hxk : x / BLKSIZE = k
  · rw [hxk] at hdiv ⊢
    rw [if_neg h0, if_neg h0, Function.update_self]
    by_cases hin : o ≤ x % BLKSIZE ∧ x % BLKSIZE < o + n
    · rw [Bytes.copy_of_mem hin, if_pos (by omega)]
      congr 1
      omega
    · rw [Bytes.copy_of_ne (by omega), if_neg (by omega)]
  · have hout : ¬(BLKSIZE * k + o ≤ x ∧ x < BLKSIZE * k + o + n) := by
      rintro ⟨h1, h2⟩
      refine hxk (Nat.div_eq_of_lt_le ?_ ?_)
      · rw [Nat.mul_comm]
        omega
      · rw [Nat.mul_comm, Nat.mul_succ]
        omega
    rw [if_neg hout]
    by_cases hc : m.ref (.data f (x / BLKSIZE)) = 0
    · rw [if_pos hc, if_pos hc]
    · rw [if_neg hc, if_neg hc, Function.update_of_ne]
      intro he
      exact hxk (Role.data.inj (hm.inj _ _ (.data hf hj) (.data hf hk) hc he)).2

/-- A turn of the loop of `file_write`. -/
theorem Put.chunk {lo p : Nat} {m₁ : PhysMem} (hm : m.Sound) (hf : m.Rec f)
    (ht : m.fType f ≠ FTYPE_DIR) (h : Put f lo p src m m') (hlo : lo ≤ p)
    (hk : p / BLKSIZE < NDIRECT + NINDIRECT) (hg : Got f (p / BLKSIZE) m' m₁)
    (hn : p % BLKSIZE + n ≤ BLKSIZE) :
    Put f lo (p + n) src m (Function.update m₁ (m₁.ref (.data f (p / BLKSIZE)))
      ((m₁ (m₁.ref (.data f (p / BLKSIZE)))).copy (p % BLKSIZE) src
        (p - lo) n)) := by
  obtain ⟨hm', hf'⟩ := h.sound hm hf
  obtain ⟨hm₁, hf₁⟩ := hg.grows.sound hm' hf'
  have ht₁ : m₁.fType f ≠ FTYPE_DIR := by
    rw [hg.grows.fType, h.fType]
    exact ht
  have hfill : ∀ c j, j < BLKSIZE → c ≠ m₁.ref (.data f (p / BLKSIZE)) →
      Function.update m₁ (m₁.ref (.data f (p / BLKSIZE)))
        ((m₁ (m₁.ref (.data f (p / BLKSIZE)))).copy (p % BLKSIZE) src
          (p - lo) n) c j = m₁ c j :=
    fun c j _ hc => by rw [Function.update_of_ne hc]
  have hsame := hm₁.same_fill hf₁ ht₁ hk hg.ne hfill hf₁
  constructor
  · exact h.edits.trans ((hg.grows.edits.mono fun _ h => .inl h).trans
      (.one (.fill (.inr rfl) ht₁ hk hg.ne hfill)))
  · intro i hi
    rw [hsame.entry (by omega), hg.grows.field i hi, h.field i hi]
  · intro x hx
    have hdiv : BLKSIZE * (p / BLKSIZE) + p % BLKSIZE = p :=
      Nat.div_add_mod p BLKSIZE
    rw [hm₁.byte_fill hf₁ ht₁ hk hg.ne hn hx, hdiv, hg.grows.byte x hx,
      h.byte x hx]
    by_cases hin : p ≤ x ∧ x < p + n
    · rw [if_pos hin, if_pos (by omega)]
      congr 1
      omega
    · rw [if_neg hin]
      by_cases hbelow : lo ≤ x ∧ x < p
      · rw [if_pos hbelow, if_pos (by omega)]
      · rw [if_neg hbelow, if_neg (by omega)]
  · intro ρ hρf hok hne
    have h1 := h.kept ρ hρf hok hne
    have h2 := hg.grows.kept ρ hρf hok (by rwa [h1])
    subst hρf
    rw [hsame.ref hok, h2, h1]

end PhysMem

/-! ## Positions in a file -/

theorem msb_of_nonneg {v : Word} (hv : v.toNat < 2 ^ 31) : v.msb = false := by
  rw [BitVec.msb_eq_decide, decide_eq_false_iff_not]
  omega

theorem sdiv_of_nonneg {v w : Word} (hv : v.toNat < 2 ^ 31)
    (hw : w.toNat < 2 ^ 31) :
    (v.sdiv w).toNat = v.toNat / w.toNat := by
  rw [BitVec.sdiv_eq, msb_of_nonneg hv, msb_of_nonneg hw]
  exact BitVec.toNat_udiv

theorem srem_of_nonneg {v w : Word} (hv : v.toNat < 2 ^ 31)
    (hw : w.toNat < 2 ^ 31) :
    (v.srem w).toNat = v.toNat % w.toNat := by
  rw [BitVec.srem_eq, msb_of_nonneg hv, msb_of_nonneg hw]
  exact BitVec.toNat_umod

theorem toInt_of_nonneg {v : Word} (hv : v.toNat < 2 ^ 31) :
    v.toInt = v.toNat := by
  rw [BitVec.toInt_eq_toNat_of_msb (msb_of_nonneg hv)]

theorem minWord_toNat (v w : Word) :
    (minWord v w).toNat = min v.toNat w.toNat := by
  unfold minWord
  split
  · rename_i h
    exact (min_eq_left (BitVec.le_def.mp h)).symm
  · rename_i h
    exact (min_eq_right (by rw [BitVec.le_def] at h; omega)).symm

/-- How far a turn of the loop at position `p` gets, towards position `e`. -/
def chunk (p e : Nat) : Nat := min (BLKSIZE - p % BLKSIZE) (e - p)

theorem chunk_pos {p e : Nat} (h : p < e) : 0 < chunk p e := by
  have hmod : p % BLKSIZE < BLKSIZE := Nat.mod_lt _ (by decide)
  simp only [chunk]
  omega

theorem chunk_le (p e : Nat) :
    p % BLKSIZE + chunk p e ≤ BLKSIZE ∧ chunk p e ≤ e - p := by
  have hmod : p % BLKSIZE < BLKSIZE := Nat.mod_lt _ (by decide)
  simp only [chunk]
  omega

theorem chunk_toNat {p e : Nat} {pos stop : Word} (hp : pos.toNat = p)
    (he : stop.toNat = e)
    (hlt : p < e) (hsmall : p < 2 ^ 31) :
    (minWord (4096#32 - pos.srem 4096#32) (stop - pos)).toNat = chunk p e := by
  have hsrem : (pos.srem 4096#32).toNat = p % 4096 := by
    rw [srem_of_nonneg (by omega) (by decide), hp]
    rfl
  have h1 : (4096#32 - pos.srem 4096#32).toNat = 4096 - p % 4096 := by
    rw [BitVec.toNat_sub_of_le
      (by rw [BitVec.le_def, hsrem, BitVec.toNat_ofNat]; omega), hsrem]
    rfl
  have h2 : (stop - pos).toNat = e - p := by
    rw [BitVec.toNat_sub_of_le (by rw [BitVec.le_def]; omega), he, hp]
  rw [minWord_toNat, h1, h2]
  rfl

section MoveLoop

variable {σ : Type} {B : σ → Prop} {F : Stop → σ → Prop}

/-- The rule of the loop: what is true at a position is true at the next after
the bytes in between have been moved. -/
theorem wp_moveLoop {get : Word → Prog σ Stop (Except Word Nat)}
    {move : Int → Int → Nat → Prog σ Stop Unit} (base : Int) {e : Nat}
    {stop : Word}
    (hstop : stop.toNat = e) (J : Nat → σ → Prop)
    {Q : Except Word Unit → σ → Prop}
    (hsmall : ∀ p t, p < e → J p t → p < 2 ^ 31)
    (hturn : ∀ p v t, p < e → v.toNat = p / BLKSIZE → J p t →
      Prog.wp (get v) (fun r u => (∀ x, r = .error x → Q (.error x) u) ∧ ∀ blk,
        r = .ok blk →
          Prog.wp
          (move (BLKSIZE * blk + (p % BLKSIZE : Nat)) (base + p) (chunk p e))
            (fun _ => J (p + chunk p e)) B F u) B F t)
    (hok : ∀ t, J e t → Q (.ok ()) t) {fuel p : Nat} {pos : Word} {buf : Int}
    (hpos : pos.toNat = p)
    (hbuf : buf = base + p) (hpe : p ≤ e) (hfuel : e ≤ p + fuel) {t : σ}
    (hJ : J p t) :
    Prog.wp (moveLoop get move stop fuel pos buf) Q B F t := by
  induction fuel generalizing p pos buf t with
  | zero =>
      obtain rfl : p = e := by omega
      exact Prog.wp_pure_intro (hok t hJ)
  | succ fuel ih =>
      refine Prog.wp_ite _ (fun hlt => ?_) fun hge => ?_
      · have hlt : p < e := by
          have := BitVec.lt_def.mp hlt
          omega
        have hp31 := hsmall p t hlt hJ
        have hk : (pos.sdiv 4096#32).toNat = p / BLKSIZE := by
          rw [sdiv_of_nonneg (by omega) (by decide), hpos]
          rfl
        have hoff : (pos.srem 4096#32).toInt = ((p % BLKSIZE : Nat) : Int) := by
          have hsrem : (pos.srem 4096#32).toNat = p % BLKSIZE := by
            rw [srem_of_nonneg (by omega) (by decide), hpos]
            rfl
          have hmod : p % BLKSIZE < BLKSIZE := Nat.mod_lt _ (by decide)
          have hB : BLKSIZE = 4096 := rfl
          rw [toInt_of_nonneg (by omega), hsrem]
        have hchunk := chunk_toNat hpos hstop hlt hp31
        obtain ⟨hcblk, hcle⟩ := chunk_le p e
        have hB : BLKSIZE = 4096 := rfl
        have hpos1 := chunk_pos hlt
        have hpos' :
            (pos + minWord (4096#32 - pos.srem 4096#32) (stop - pos)).toNat
            = p + chunk p e := by
          rw [BitVec.toNat_add, hpos, hchunk]
          omega
        have hint : (minWord (4096#32 - pos.srem 4096#32) (stop - pos)).toInt =
            chunk p e := by
          rw [toInt_of_nonneg (by omega), hchunk]
        apply Prog.wp_bind_intro
        refine Prog.wp_imp (hturn p _ t hlt hk hJ) (fun r u hr => ?_)
          (fun _ h => h) fun _ _ h => h
        obtain ⟨herr, hmove⟩ := hr
        cases r with
        | error x => exact Prog.wp_pure_intro (herr x rfl)
        | ok blk =>
            apply Prog.wp_bind_intro
            rw [hoff, hbuf, hchunk]
            refine Prog.wp_imp (hmove blk rfl) (fun _ w hw => ?_) (fun _ h => h)
              fun _ _ h => h
            refine ih hpos' ?_ (by omega) (by omega) hw
            rw [hint]
            push_cast
            ring
      · have hge : e ≤ p := by
          rw [BitVec.lt_def] at hge
          omega
        obtain rfl : p = e := by omega
        exact Prog.wp_pure_intro (hok t hJ)

end MoveLoop

/-- The rule of the loop of `file_read` and `file_write`: what is true at a
position is true at the next after the bytes in between have been moved. -/
theorem wp_fileLoop {f : FilePtr} {move : Int → Int → Nat → FsM Unit}
    (base : Int) {e : Nat}
    {stop : Word} (hstop : stop.toNat = e) (hsmall : e < 2 ^ 31)
    (J : Nat → PhysMem → Bytes → Prop) {Q : Except Word Unit → Fs → Prop}
    (hrec : ∀ p m q, J p m q → m.Sound ∧ m.Rec f)
    (hmove : ∀ p m q m₁ t, p < e → p / BLKSIZE < NDIRECT + NINDIRECT → J p m q →
      Got f (p / BLKSIZE) m m₁ → t.Shows d m₁ q →
      Prog.wp (move (BLKSIZE * m₁.ref (.data f (p / BLKSIZE)) +
        (p % BLKSIZE : Nat)) (base + p)
        (chunk p e)) (fun _ u => ∃ m₂ q₂, u.Shows d m₂ q₂ ∧ J
        (p + chunk p e) m₂ q₂) A E t)
    (hok : ∀ m q t, J e m q → t.Shows d m q → Q (.ok ()) t)
    (herr : ∀ p m q r m₁ t, p < e → J p m q →
      (p / BLKSIZE < NDIRECT + NINDIRECT → r = -E_NO_DISK ∧ ∀ b, ¬m₁.isFree b) →
      Grows f m m₁ → t.Shows d m₁ q → Q (.error r) t)
    {fuel p : Nat} {pos : Word} {buf : Int} (hpos : pos.toNat = p)
    (hbuf : buf = base + p)
    (hpe : p ≤ e) (hfuel : e ≤ p + fuel) (hJ : J p m q) (hs : s.Shows d m q) :
    Prog.wp (fileLoop f move stop fuel pos buf) Q A E s := by
  refine wp_moveLoop base hstop (fun p t => ∃ m q, J p m q ∧ t.Shows d m q)
    (fun p _ hlt _ => by omega)
    (fun p v t hlt hv hJ => ?_) (fun t ⟨m, q, hJ, ht⟩ => hok m q t hJ ht) hpos
    hbuf hpe hfuel ⟨m, q, hJ, hs⟩
  obtain ⟨m, q, hJ, ht⟩ := hJ
  obtain ⟨hm, hf⟩ := hrec p m q hJ
  refine wp_fileGetBlock hm hf ht (fun m₁ u hk hg hu => ⟨nofun, ?_⟩)
    fun r m₁ u hr _ hg _ _ hu => ⟨?_, nofun⟩
  · rintro _ ⟨⟩
    rw [hv] at hk hg ⊢
    refine Prog.wp_imp (hmove p m q m₁ u hlt hk hJ hg hu) (fun _ w hw => ?_)
      (fun _ h => h)
      fun _ _ h => h
    obtain ⟨m₂, q₂, hw, hJ'⟩ := hw
    exact ⟨m₂, q₂, hJ', hw⟩
  · rintro _ ⟨⟩
    rw [hv] at hr
    exact herr p m q r m₁ u hlt hJ hr hg hu

namespace PhysMem

variable {m' m'' : PhysMem} {f : FilePtr}

theorem Put.grows {lo hi : Nat} {src : Bytes} (h : Put f lo hi src m m')
    (hg : Grows f m' m'') :
    Put f lo hi src m m'' where
  edits := h.edits.trans (hg.edits.mono fun _ h => .inl h)
  field i hi := (hg.field i hi).trans (h.field i hi)
  byte o ho := (hg.byte o ho).trans (h.byte o ho)
  kept ρ hρ hok hne := by
    have hk := h.kept ρ hρ hok hne
    rw [hg.kept ρ hρ hok (by rwa [hk]), hk]

/-- What `file_read` has moved at position `p`. -/
theorem copy_chunk {r lo p n : Nat} {m₁ : PhysMem} (hlo : lo ≤ p)
    (hk : p / BLKSIZE < NDIRECT + NINDIRECT) (hg : Grows f m m₁)
    (hne : m₁.ref (.data f (p / BLKSIZE)) ≠ 0)
    (hn : p % BLKSIZE + n ≤ BLKSIZE) :
    (q.copy r (m.byte f) lo (p - lo)).copy (r + (p - lo))
      (m₁ (m₁.ref (.data f (p / BLKSIZE))))
        (p % BLKSIZE) n
      = q.copy r (m.byte f) lo (p + n - lo) := by
  funext j
  by_cases hj : r + (p - lo) ≤ j ∧ j < r + (p - lo) + n
  · have hmod : p % BLKSIZE + (j - (r + (p - lo))) < BLKSIZE := by omega
    have hx : lo + (j - r) = BLKSIZE * (p / BLKSIZE) +
        (p % BLKSIZE + (j - (r + (p - lo)))) := by
      have hdiv : BLKSIZE * (p / BLKSIZE) + p % BLKSIZE = p :=
        Nat.div_add_mod p BLKSIZE
      omega
    have hblk : (lo + (j - r)) / BLKSIZE = p / BLKSIZE := by
      rw [hx, Nat.mul_add_div (by decide), Nat.div_eq_of_lt hmod, Nat.add_zero]
    have hoff : (lo + (j - r)) % BLKSIZE =
        p % BLKSIZE + (j - (r + (p - lo))) := by
      rw [hx, Nat.mul_add_mod, Nat.mod_eq_of_lt hmod]
    have hlt : lo + (j - r) < MAXFILESIZE := by
      have h1 : BLKSIZE * (p / BLKSIZE + 1) ≤ BLKSIZE * (NDIRECT + NINDIRECT) :=
        Nat.mul_le_mul_left _ hk
      rw [Nat.mul_succ] at h1
      rw [MAXFILESIZE, Nat.mul_comm]
      omega
    rw [Bytes.copy_of_mem hj, Bytes.copy_of_mem (by omega), ← hg.byte _ hlt,
      byte, hblk, hoff, if_neg hne]
  · rw [Bytes.copy_of_ne (by omega)]
    by_cases hj' : r ≤ j ∧ j < r + (p - lo)
    · rw [Bytes.copy_of_mem hj', Bytes.copy_of_mem (by omega)]
    · rw [Bytes.copy_of_ne (by omega), Bytes.copy_of_ne (by omega)]

/-- `file_write` extends a file that is too short. -/
def extend (m : PhysMem) (f : FilePtr) (v : Word) : PhysMem :=
  if m.fSize f < v then m.setSize f v else m

end PhysMem

/-- `file_read` into the request page. -/
theorem wp_fileRead (hm : m.Sound) {f : FilePtr} (hf : m.Rec f)
    (hs : s.Shows d m q)
    {count offset : Word} {r : Nat} (hsize : (m.fSize f).toNat < 2 ^ 31)
    (hoff : offset.toNat < 2 ^ 31)
    (hr : r + min count.toNat ((m.fSize f).toNat - offset.toNat) ≤ BLKSIZE)
    {Q : Except Word Word → Fs → Prop}
    (hok : ∀ m' t, Grows f m m' →
      t.Shows d m' (q.copy r (m.byte f) offset.toNat
        (min count.toNat ((m.fSize f).toNat - offset.toNat))) →
      Q (.ok (BitVec.ofNat 32
        (min count.toNat ((m.fSize f).toNat - offset.toNat)))) t)
    (herr : ∀ p e m' q' t, p < (m.fSize f).toNat →
      (p / BLKSIZE < NDIRECT + NINDIRECT → e = -E_NO_DISK ∧ ∀ b, ¬m'.isFree b) →
      Grows f m m' → t.Shows d m' q' → Q (.error e) t) :
    Prog.wp (fileRead f (-BLKSIZE + r) count offset) Q A E s := by
  apply Prog.wp_bind_intro
  refine wp_readWord hm.toMapOk hs (hm.blk_inUse hf) fun t ht => ?_
  have hent : m.entry f.blk (f.off + 32) = m.fSize f := rfl
  rw [hent]
  have hsle : (m.fSize f).sle offset = true ↔
      (m.fSize f).toNat ≤ offset.toNat := by
    rw [BitVec.sle_iff_toInt_le, toInt_of_nonneg hsize, toInt_of_nonneg hoff]
    omega
  refine Prog.wp_ite _ (fun hle => Prog.wp_pure_intro ?_) fun hgt => ?_
  · rw [hsle] at hle
    have h := hok m t (.refl f m)
    rw [Nat.sub_eq_zero_of_le hle, Nat.min_zero] at h
    refine h ⟨ht.mem, fun j hj => ?_, ht.ok, ht.bits, ht.late⟩
    rw [Bytes.copy_of_ne (by omega)]
    exact ht.req j hj
  rw [hsle, Nat.not_le] at hgt
  have hsub : (m.fSize f - offset).toNat =
      (m.fSize f).toNat - offset.toNat := by
    rw [BitVec.toNat_sub_of_le (by rw [BitVec.le_def]; omega)]
  have hn : (minWord count (m.fSize f - offset)).toNat
      = min count.toNat ((m.fSize f).toNat - offset.toNat) := by
    rw [minWord_toNat, hsub]
  generalize hcount :
    min count.toNat ((m.fSize f).toNat - offset.toNat) = n at *
  have hstop : (offset + minWord count (m.fSize f - offset)).toNat =
      offset.toNat + n := by
    rw [BitVec.toNat_add, hn]
    omega
  have hval : minWord count (m.fSize f - offset) = BitVec.ofNat 32 n := by
    rw [← hn, BitVec.ofNat_toNat, BitVec.setWidth_eq]
  apply Prog.wp_bind_intro
  refine wp_fileLoop (-BLKSIZE + r - offset.toNat) hstop (by omega)
    (fun p m' q' => offset.toNat ≤ p ∧ Grows f m m' ∧
      q' = q.copy r (m.byte f) offset.toNat (p - offset.toNat))
    (fun p m' q' hJ => hJ.2.1.sound hm hf)
    (fun p m' q' m₁ u hlt hk hJ hg hu => ?_)
    (fun m' q' u hJ hu => Prog.wp_pure_intro ?_)
    (fun p m' q' x m₁ u hlt hJ hx hg hu => Prog.wp_pure_intro ?_) rfl (by omega)
    (by omega)
    (by omega) ⟨le_rfl, .refl f m, ?_⟩ ht
  · obtain ⟨hlo, hgr, rfl⟩ := hJ
    obtain ⟨hm', hf'⟩ := hgr.sound hm hf
    obtain ⟨hm₁, hf₁⟩ := hg.grows.sound hm' hf'
    obtain ⟨hc1, hc2⟩ := chunk_le p (offset.toNat + n)
    have hbase : (-BLKSIZE + r - offset.toNat + p : Int) =
        -BLKSIZE + (r + (p - offset.toNat) : Nat) := by
      omega
    rw [hbase]
    refine wp_loadData hm₁.toMapOk hu (hm₁.named _ (.data hf₁ hk) hg.ne).1 hc1
      (by omega)
      fun w hw => ⟨m₁, _, hw, by omega, hgr.trans hg.grows, ?_⟩
    exact copy_chunk hlo hk (hgr.trans hg.grows) hg.ne hc1
  · obtain ⟨_, hgr, rfl⟩ := hJ
    rw [Nat.add_sub_cancel_left] at hu
    rw [hval]
    exact hok m' u hgr hu
  · obtain ⟨_, hgr, rfl⟩ := hJ
    exact herr p x m₁ _ u (by omega) hx (hgr.trans hg) hu
  · funext j
    rw [Nat.sub_self, Bytes.copy_of_ne (by omega)]

theorem Bytes.copy_shift {b src : Bytes} {i k l n : Nat} :
    b.copy i (fun x => src (k + x)) l n = b.copy i src (k + l) n := by
  funext j
  simp only [Bytes.copy, Nat.add_assoc]

namespace PhysMem

variable {f : FilePtr}

theorem Sound.sound_extend (hm : m.Sound) (hf : m.Rec f) :
    (m.extend f v).Sound ∧ (m.extend f v).Rec f ∧ (m.extend f v).fType f =
      m.fType f := by
  unfold extend
  split
  · exact ⟨(hm.sound_setSize hf).1, (hm.sound_setSize hf).2, fType_setSize⟩
  · exact ⟨hm, hf, rfl⟩

/-- A size is no data. -/
theorem Sound.byte_setSize (hm : m.Sound) (hf : m.Rec f) {o : Nat}
    (ho : o < MAXFILESIZE) :
    (m.setSize f v).byte f o = m.byte f o := by
  have hk : o / BLKSIZE < NDIRECT + NINDIRECT :=
    Nat.div_lt_of_lt_mul (by rwa [Nat.mul_comm])
  rw [byte, hm.ref_setSize hf (.data hf hk), byte]
  by_cases h0 : m.ref (.data f (o / BLKSIZE)) = 0
  · rw [if_pos h0, if_pos h0]
  · rw [if_neg h0, if_neg h0, setSize, setEntry_of_ne (hm.data_ne_blk hf hk h0)]

/-- A file that gets longer gets no data. -/
theorem Sound.byte_extend (hm : m.Sound) (hf : m.Rec f) {o : Nat}
    (ho : o < MAXFILESIZE) :
    (m.extend f v).byte f o = m.byte f o := by
  unfold extend
  split
  · exact hm.byte_setSize hf ho
  · rfl

theorem fSize_extend : ((m.extend f v).fSize f).toNat =
      max (m.fSize f).toNat v.toNat := by
  unfold extend
  split
  · rename_i h
    rw [BitVec.lt_def] at h
    rw [fSize_setSize, max_eq_right (by omega)]
  · rename_i h
    rw [BitVec.lt_def] at h
    rw [max_eq_left (by omega)]

end PhysMem

/-- `file_write` from the request page to a regular file. -/
theorem wp_fileWrite (hm : m.Sound) {f : FilePtr} (hf : m.Rec f)
    (ht : m.fType f ≠ FTYPE_DIR)
    (hs : s.Shows d m q) {count offset : Word} {r : Nat}
    (hend : offset.toNat + count.toNat < 2 ^ 31)
    (hr : r + count.toNat ≤ BLKSIZE)
    {Q : Except Word Word → Fs → Prop}
    (hok : ∀ m' t, Put f offset.toNat (offset.toNat + count.toNat)
      (fun i => q (r + i))
      (m.extend f (offset + count)) m' → t.Shows d m' q → Q (.ok count) t)
    (herr : ∀ p e m' t, p < offset.toNat + count.toNat →
      (p / BLKSIZE < NDIRECT + NINDIRECT → e = -E_NO_DISK ∧ ∀ b, ¬m'.isFree b) →
      Put f offset.toNat p (fun i => q (r + i))
      (m.extend f (offset + count)) m' →
      t.Shows d m' q → Q (.error e) t) :
    Prog.wp (fileWrite f (-BLKSIZE + r) count offset) Q A E s := by
  have hstop : (offset + count).toNat = offset.toNat + count.toNat := by
    rw [BitVec.toNat_add]
    omega
  obtain ⟨hm₀, hf₀, ht₀⟩ := hm.sound_extend hf (v := offset + count)
  rw [← ht₀] at ht
  -- what is left when the file is long enough
  have hloop : ∀ (t : Fs) (k : Except Word Unit → FsM (Except Word Word)),
      t.Shows d (m.extend f (offset + count)) q →
      (∀ r, k (.error r) = pure (.error r)) → k (.ok ()) = pure (.ok count) →
      Prog.wp (fileLoop f (fun a p n => memmove a p n)
        (offset + count) count.toNat offset (-BLKSIZE + r) >>= k)
        Q A E t := by
    intro t k hts hkerr hkok
    apply Prog.wp_bind_intro
    refine wp_fileLoop (-BLKSIZE + r - offset.toNat) hstop hend
      (fun p m' q' => offset.toNat ≤ p ∧
        Put f offset.toNat p (fun i => q (r + i)) (m.extend f (offset + count))
        m' ∧ q' = q)
      (fun p m' q' hJ => hJ.2.1.sound hm₀ hf₀)
      (fun p m' q' m₁ u hlt hk hJ hg hu => ?_) (fun m' q' u hJ hu => ?_)
      (fun p m' q' x m₁ u hlt hJ hx hg hu => ?_) rfl (by omega) (by omega)
      (by omega) ⟨le_rfl, .refl f _ _ _, rfl⟩ hts
    · obtain ⟨hlo, hput, rfl⟩ := hJ
      obtain ⟨hm', hf'⟩ := hput.sound hm₀ hf₀
      obtain ⟨hm₁, hf₁⟩ := hg.grows.sound hm' hf'
      obtain ⟨hc1, hc2⟩ := chunk_le p (offset.toNat + count.toNat)
      have hbase : (-BLKSIZE + r - offset.toNat + p : Int)
          = -BLKSIZE + (r + (p - offset.toNat) : Nat) := by
        omega
      obtain ⟨huse, hres⟩ := hm₁.named _ (.data hf₁ hk) hg.ne
      rw [hbase]
      refine wp_storeData hm₁.toMapOk hu huse hres hc1 (by omega) fun w hw =>
        ⟨_, _, hw, by omega, ?_, rfl⟩
      have hchunk := hput.chunk hm₀ hf₀ ht hlo hk hg hc1
      rwa [Bytes.copy_shift] at hchunk
    · obtain ⟨_, hput, rfl⟩ := hJ
      rw [hkok]
      exact Prog.wp_pure_intro (hok m' u hput hu)
    · obtain ⟨_, hput, rfl⟩ := hJ
      rw [hkerr]
      exact Prog.wp_pure_intro (herr p x m₁ u hlt hx (hput.grows hg) hu)
  apply Prog.wp_bind_intro
  refine wp_readWord hm.toMapOk hs (hm.blk_inUse hf) fun t hts => ?_
  have hent : m.entry f.blk (f.off + 32) = m.fSize f := rfl
  rw [hent]
  refine Prog.wp_ite _ (fun hlt => Prog.wp_bind_intro ?_) fun hge =>
    Prog.wp_bind_intro (Prog.wp_pure_intro ?_)
  · rw [PhysMem.extend, if_pos hlt] at hloop
    refine wp_fileSetSize hm hf hts (fun _ _ hslt => ?_) fun u _ hu =>
      hloop u _ hu (fun _ => rfl) rfl
    rw [BitVec.lt_def] at hlt
    rw [BitVec.slt_iff_toInt_lt, toInt_of_nonneg (by omega),
      toInt_of_nonneg (by omega)] at hslt
    omega
  · rw [PhysMem.extend, if_neg hge] at hloop
    exact hloop t _ hts (fun _ => rfl) rfl

end

end Jos
