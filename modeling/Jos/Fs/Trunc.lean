import Jos.Fs.Spec

/-!
# Truncating a file

What the functions of fs/fs.c that free blocks do on a sound disk.
`file_truncate_blocks` detaches the data blocks of a file from the first that
the new size does not need to the last of the old size, and then the indirect
block, if all that is left is direct.
-/

namespace Jos

open PhysMem

section

variable {d : PhysMem} {s : Fs} {m : PhysMem} {q : Bytes} {b n : Nat} {v : Word}
  {A : Fs → Prop}
  {E : Stop → Fs → Prop}

/-! ## One block -/

/-- A block that is marked free in memory may still be in use on the disk. -/
theorem Fs.Shows.markFree (hs : s.Shows d m q) :
    (s.store (bitmapAt b).1 ((m (bitmapAt b).1).store32 (4 * (bitmapAt b).2)
      (m.entry (bitmapAt b).1 (bitmapAt b).2 ||| 1#32 <<< (b % 32)))).Shows d
        (m.markFree b) q where
  mem := by
    rw [Fs.mem_store, hs.mem]
    rfl
  req := hs.req
  ok := hs.ok.store
  bits c hlt hc hd := by
    rw [nblocks_markFree] at hlt
    rw [bit_markFree, hs.bits c hlt hc hd, Bool.true_or]
  late c hc hr := hs.late c hc ((reserved_congr nblocks_markFree).mp hr)

theorem wp_freeBlock (hm : m.MapOk) (hs : s.Shows d m q) (h0 : v ≠ 0)
    (hlt : v.toNat < m.nblocks)
    {Q : Unit → Fs → Prop}
    (hQ : ∀ t, t.Shows d (m.markFree v.toNat) q → Q () t) :
    Prog.wp (freeBlock v) Q A E s := by
  have huse := hm.inUse _ (reserved_bitmapAt hlt)
  refine Prog.wp_ite _ (fun h => absurd h h0) fun _ => ?_
  apply Prog.wp_bind_intro
  refine wp_readWord hm hs huse fun t ht => ?_
  apply Prog.wp_bind_intro
  refine wp_touch hm ht huse fun u hu => ?_
  apply Prog.wp_update_intro
  rw [hu.mem]
  exact hQ _ hu.markFree

/-- The block of a pointer does not hold the pointer. -/
theorem PhysMem.Sound.place_ne_ref {ρ : Role} (hm : m.Sound) (hρ : m.Valid ρ)
    (h0 : m.ref ρ ≠ 0) :
    (m.place ρ).1 ≠ m.ref ρ := by
  cases ρ with
  | data f k => exact (hm.data_ne_place (ρ := .data f k) hρ
      (placed_of_ref h0) hρ.2 h0).symm
  | ind f => exact hm.blk_ne_ind hρ.1 hρ.1 h0

/-- Freeing the block of a pointer, and clearing the pointer. -/
theorem wp_freeRef (hm : m.Sound) {ρ : Role} (hρ : m.Valid ρ)
    (hv : v.toNat = m.ref ρ) (h0 : v ≠ 0)
    (hs : s.Shows d m q) {Q : Unit → Fs → Prop}
    (hQ : ∀ t, t.Shows d (m.detach ρ) q → Q () t) :
    Prog.wp (do
      freeBlock v
      writeWord (m.place ρ).1 (m.place ρ).2 0) Q A E s := by
  have hne : m.ref ρ ≠ 0 := fun h => h0 (BitVec.eq_of_toNat_eq (hv.trans h))
  obtain ⟨huse, hres⟩ := hm.named ρ hρ hne
  apply Prog.wp_bind_intro
  refine wp_freeBlock hm.toMapOk hs h0 (hv ▸ huse.1) fun t ht => ?_
  rw [hv] at ht
  have hplace : (m.markFree (m.ref ρ)).InUse (m.place ρ).1 := by
    obtain ⟨h1, h2⟩ := hm.place_inUse hρ (placed_of_ref hne)
    refine ⟨by rwa [nblocks_markFree], ?_⟩
    rw [bit_markFree, h2, Bool.false_or,
      decide_eq_false (hm.place_ne_ref hρ hne)]
  exact wp_writeWord (hm.toMapOk.markFree hres) ht hplace
    (hm.detach_sameMap hρ hne) hQ

/-- `file_free_block`. -/
theorem wp_fileFreeBlock (hm : m.Sound) {f : FilePtr} (hf : m.Rec f)
    (hs : s.Shows d m q)
    {Q : Except Word Unit → Fs → Prop}
    (hnone : ∀ r t, (v.toNat < NDIRECT + NINDIRECT → m.ref (.data f v.toNat) =
      0) → t.Shows d m q →
      Q r t)
    (hfree : ∀ t, v.toNat < NDIRECT + NINDIRECT → m.ref (.data f v.toNat) ≠ 0 →
      t.Shows d (m.detach (.data f v.toNat)) q → Q (.ok ()) t) :
    Prog.wp (fileFreeBlock f v) Q A E s := by
  apply Prog.wp_bind_intro
  refine wp_fileBlockWalk hm hf hs (fun t hbig ht => Prog.wp_pure_intro ?_)
    (fun t _ hp ht => Prog.wp_pure_intro ?_) (fun t h => nomatch h)
    fun m' t hlt hw hm' ht => ?_
  · exact hnone _ t (fun hlt => absurd hlt (Nat.not_lt.mpr hbig)) ht
  · exact hnone _ t (fun _ => ref_of_not_placed hp) ht
  obtain rfl := hm' rfl
  have hp := hw.placed hm hf
  have hρ : m'.Valid (.data f v.toNat) := .data hf hlt
  have hent := ref_eq_entry hp
  apply Prog.wp_bind_intro
  refine wp_readWord hm.toMapOk ht (hm.place_inUse hρ hp) fun u hu => ?_
  apply Prog.wp_ite
  · intro h0
    have hne : m'.ref (.data f v.toNat) ≠ 0 := by
      rw [hent]
      exact fun h => h0 (BitVec.eq_of_toNat_eq h)
    have hdet := wp_freeRef (A := A) (E := E) (Q := fun _ t => Q (.ok ()) t) hm
      hρ hent.symm h0 hu
      fun w hw => hfree w hlt hne hw
    simp only [Prog.wp_bind, Prog.wp_pure] at hdet ⊢
    exact hdet
  · intro h0
    refine Prog.wp_pure_intro (hnone _ u (fun _ => ?_) hu)
    rw [hent, not_not.mp h0]
    rfl

/-! ## The blocks from one index on -/

namespace PhysMem

variable {m' : PhysMem} {f : FilePtr} {lo hi k : Nat}

/-- The data blocks of `f` from `lo` on, below `hi`, are gone. -/
structure Freed (f : FilePtr) (lo hi : Nat) (m m' : PhysMem) : Prop where
  edits : Edits (· = .detach) f m m'
  field : ∀ i, i < 34 → m'.entry f.blk (f.off + i) = m.entry f.blk (f.off + i)
  ind : m'.ref (.ind f) = m.ref (.ind f)
  data : ∀ k, k < NDIRECT + NINDIRECT →
    m'.ref (.data f k) = if lo ≤ k ∧ k < hi then 0 else m.ref (.data f k)

theorem Freed.refl (f : FilePtr) (lo : Nat) (m : PhysMem) :
    Freed f lo lo m m where
  edits := .refl _ f m
  field _ _ := rfl
  ind := rfl
  data k _ := by rw [if_neg (by omega)]

/-- A turn of the loop that finds no block. -/
theorem Freed.skip (h : Freed f lo hi m m')
    (h0 : hi < NDIRECT + NINDIRECT → m'.ref (.data f hi) = 0) :
    Freed f lo (hi + 1) m m' where
  edits := h.edits
  field := h.field
  ind := h.ind
  data k hk := by
    by_cases hkh : k = hi
    · subst hkh
      have hd := h.data k hk
      rw [if_neg (by omega), h0 hk] at hd
      rw [h0 hk, ← hd, ite_self]
    · rw [h.data k hk]
      congr 1
      rw [eq_iff_iff]
      omega

/-- A turn of the loop that frees a block. -/
theorem Freed.detach (h : Freed f lo hi m m') (hm : m.Sound) (hf : m.Rec f)
    (hlo : lo ≤ hi)
    (hk : hi < NDIRECT + NINDIRECT) (hne : m'.ref (.data f hi) ≠ 0) :
    Freed f lo (hi + 1) m (m'.detach (.data f hi)) := by
  obtain ⟨hm', hf'⟩ := Edits.sound hm hf h.edits
  have hρ : m'.Valid (.data f hi) := .data hf' hk
  constructor
  · exact h.edits.trans (.one (.detach rfl rfl hk hne nofun))
  · intro i hi
    rw [← h.field i hi]
    exact hm'.field_detach hρ hne hi
  · rw [← h.ind]
    exact congrArg BitVec.toNat (hm'.fIndirect_detach hρ hne nofun)
  · intro k hkn
    by_cases hkh : k = hi
    · subst hkh
      rw [hm'.ref_detach_self hρ hne, if_pos (by omega)]
    · have hother :=
        hm'.ref_detach_of_ne hρ hne (show (Role.data f k).file = f from rfl) hkn
        fun he => hkh (Role.data.inj he).2
      rw [hother.resolve_right (fun hind => nomatch hind.2.1), h.data k hkn]
      congr 1
      rw [eq_iff_iff]
      omega

/-- What a truncation from `old` to `new` blocks leaves of `f`. -/
structure Cut (f : FilePtr) (new old : Nat) (m m' : PhysMem) : Prop where
  edits : Edits (· = .detach) f m m'
  field : ∀ i, i < 34 → m'.entry f.blk (f.off + i) = m.entry f.blk (f.off + i)
  ind : m'.ref (.ind f) = if new ≤ NDIRECT then 0 else m.ref (.ind f)
  data : ∀ k, k < NDIRECT + NINDIRECT → m'.ref (.data f k) =
    if new ≤ k ∧ k < old ∨ new ≤ NDIRECT ∧ NDIRECT ≤ k then 0 else
      m.ref (.data f k)

theorem Cut.sound (h : Cut f lo hi m m') (hm : m.Sound) (hf : m.Rec f) :
    m'.Sound ∧ m'.Rec f :=
  Edits.sound hm hf h.edits

theorem Cut.fSize (h : Cut f lo hi m m') : m'.fSize f = m.fSize f :=
  h.field 32 (by decide)

theorem ref_ind_zero (h0 : m.ref (.ind f) = 0) (hk : ¬k < NDIRECT) :
    m.ref (.data f k) = 0 := by
  have hz : m.fIndirect f = 0 := BitVec.eq_of_toNat_eq h0
  simp only [ref, if_neg hk, if_pos hz]

/-- Without an indirect block to free, the loop is all. -/
theorem Freed.cut (h : Freed f lo hi m m')
    (h0 : lo ≤ NDIRECT → m.ref (.ind f) = 0) :
    Cut f lo hi m m' where
  edits := h.edits
  field := h.field
  ind := by
    rw [h.ind]
    by_cases hlo : lo ≤ NDIRECT
    · rw [if_pos hlo, h0 hlo]
    · rw [if_neg hlo]
  data k hk := by
    rw [h.data k hk]
    by_cases hin : lo ≤ k ∧ k < hi
    · rw [if_pos hin, if_pos (.inl hin)]
    · rw [if_neg hin]
      by_cases hind : lo ≤ NDIRECT ∧ NDIRECT ≤ k
      · rw [if_pos (.inr hind), ref_ind_zero (h0 hind.1) (by omega)]
      · rw [if_neg (not_or.mpr ⟨hin, hind⟩)]

/-- The indirect block is freed last. -/
theorem Freed.cut_ind (h : Freed f lo hi m m') (hm : m.Sound) (hf : m.Rec f)
    (hlo : lo ≤ NDIRECT)
    (hhi : hi = max lo (roundBlocks (m.fSize f)).toNat)
    (hne : m.ref (.ind f) ≠ 0) :
    Cut f lo hi m (m'.detach (.ind f)) := by
  obtain ⟨hm', hf'⟩ := Edits.sound hm hf h.edits
  have hρ : m'.Valid (.ind f) := .ind hf'
  have hne' : m'.ref (.ind f) ≠ 0 := by rwa [h.ind]
  have hsize : m'.fSize f = m.fSize f := h.field 32 (by decide)
  constructor
  · refine h.edits.trans
      (.one (.detach rfl rfl trivial hne' fun _ htail k hk hkn => ?_))
    by_cases hin : k < hi
    · rw [h.data k hkn, if_pos ⟨by omega, hin⟩]
    · refine htail k ?_ hkn
      rw [hsize]
      omega
  · intro i hi
    rw [← h.field i hi]
    exact hm'.field_detach hρ hne' hi
  · rw [if_pos hlo, hm'.ref_detach_self hρ hne']
  · intro k hkn
    have hnd : Role.data f k ≠ .ind f := nofun
    by_cases hk : k < NDIRECT
    · have hkeep : (m'.detach (.ind f)).ref (.data f k) =
          m'.ref (.data f k) := by
        refine (hm'.ref_detach_of_ne hρ hne'
          (show (Role.data f k).file = f from rfl) hkn
          hnd).resolve_right ?_
        rintro ⟨_, _, j, hj, hd⟩
        obtain rfl := (Role.data.inj hd).2
        omega
      rw [hkeep, h.data k hkn]
      congr 1
      rw [eq_iff_iff]
      omega
    · have hz : (m'.detach (.ind f)).ref (.ind f) = 0 :=
        hm'.ref_detach_self hρ hne'
      rw [ref_ind_zero hz hk, if_pos (.inr ⟨hlo, by omega⟩)]

end PhysMem

/-- `file_truncate_blocks`. -/
theorem wp_fileTruncateBlocks (hm : m.Sound) {f : FilePtr} (hf : m.Rec f)
    (hs : s.Shows d m q)
    {Q : Unit → Fs → Prop}
    (hQ : ∀ m' t, Cut f (roundBlocks v).toNat
        (max (roundBlocks v).toNat (roundBlocks (m.fSize f)).toNat) m m' →
        t.Shows d m' q → Q () t) :
    Prog.wp (fileTruncateBlocks f v) Q A E s := by
  have huse := hm.blk_inUse hf
  apply Prog.wp_bind_intro
  refine wp_readWord hm.toMapOk hs huse fun t ht => ?_
  have hent : m.entry f.blk (f.off + 32) = m.fSize f := rfl
  rw [hent]
  generalize hold : roundBlocks (m.fSize f) = old at *
  generalize roundBlocks v = new at *
  apply Prog.wp_bind_intro
  refine Prog.wp_imp (Prog.wp_forUp (fun i t => ∃ m', t.Shows d m' q ∧
      Freed f new.toNat (new.toNat + i) m m') ⟨m, ht,
      .refl f _ m⟩ fun i t hi ht => ?_)
    (fun _ t ht => ?_) (fun _ h => h) fun _ _ h => h
  · obtain ⟨m', ht, hfreed⟩ := ht
    obtain ⟨hm', hf'⟩ := Edits.sound hm hf hfreed.edits
    have hk : (new + BitVec.ofNat 32 i).toNat = new.toNat + i := by
      have := old.isLt
      rw [BitVec.toNat_add, BitVec.toNat_ofNat]
      omega
    apply Prog.wp_bind_intro
    refine wp_fileFreeBlock hm' hf' ht (fun r u h0 hu => Prog.wp_pure_intro ?_)
      fun u hlt hne hu => Prog.wp_pure_intro ?_
    · rw [hk] at h0
      exact ⟨m', hu, hfreed.skip h0⟩
    · rw [hk] at hlt hne hu
      exact ⟨_, hu, hfreed.detach hm hf (Nat.le_add_right ..) hlt hne⟩
  · obtain ⟨m', ht, hfreed⟩ := ht
    obtain ⟨hm', hf'⟩ := Edits.sound hm hf hfreed.edits
    have hhi : new.toNat + (old.toNat - new.toNat) =
        max new.toNat old.toNat := by omega
    rw [hhi] at hfreed
    apply Prog.wp_bind_intro
    refine wp_readWord hm'.toMapOk ht (hm'.blk_inUse hf') fun u hu => ?_
    have hind : (m'.entry f.blk (f.off + 44)).toNat = m.ref (.ind f) :=
      hfreed.ind
    apply Prog.wp_ite
    · rintro ⟨hnew, h0⟩
      have hne : m.ref (.ind f) ≠ 0 := by
        rw [← hind]
        exact fun h => h0 (BitVec.eq_of_toNat_eq h)
      have hcut := hfreed.cut_ind hm hf hnew (by rw [hold]) hne
      exact wp_freeRef hm' (.ind hf') rfl h0 hu fun w hw => hQ _ w hcut hw
    · intro hno
      refine Prog.wp_pure_intro (hQ m' u (hfreed.cut fun hnew => ?_) hu)
      rw [← hind, not_not.mp fun h => hno ⟨hnew, h⟩]
      rfl

/-- `file_set_size`. -/
theorem wp_fileSetSize (hm : m.Sound) {f : FilePtr} (hf : m.Rec f)
    (hs : s.Shows d m q)
    {Q : Except Word Unit → Fs → Prop}
    (hcut : ∀ m' t, v.slt (m.fSize f) → Cut f (roundBlocks v).toNat
      (max (roundBlocks v).toNat (roundBlocks (m.fSize f)).toNat) m m' →
      t.Shows d (m'.setSize f v) q → Q (.ok ()) t)
    (hgrow : ∀ t, ¬v.slt (m.fSize f) → t.Shows d (m.setSize f v) q →
      Q (.ok ()) t) :
    Prog.wp (fileSetSize f v) Q A E s := by
  have hset : ∀ {m' : PhysMem} {t : Fs}, m'.Sound → m'.Rec f → t.Shows d m' q →
      (∀ u : Fs, u.Shows d (m'.setSize f v) q → Q (.ok ()) u) →
      Prog.wp (do
        writeWord f.blk (f.off + 32) v
        flushBlock f.blk
        pure (.ok ())) Q A E t := by
    intro m' t hm' hf' ht hQ
    have huse := hm'.blk_inUse hf'
    have hmap := hm'.setSize_sameMap (v := v) hf'
    apply Prog.wp_bind_intro
    refine wp_writeWord hm'.toMapOk ht huse hmap fun u hu => ?_
    apply Prog.wp_bind_intro
    refine wp_flushBlock (hmap.mapOk hm'.toMapOk) hu ?_ (fun h => ?_)
      fun w hw _ =>
      Prog.wp_pure_intro (hQ w hw)
    · rw [hmap.nblocks]
      exact huse.1
    · exact hm'.blk_not_bitmap hf'
        ⟨by omega, (reserved_congr hmap.nblocks).mp h.2⟩
  apply Prog.wp_bind_intro
  refine wp_readWord hm.toMapOk hs (hm.blk_inUse hf) fun t ht => ?_
  have hent : m.entry f.blk (f.off + 32) = m.fSize f := rfl
  rw [hent]
  refine Prog.wp_ite _ (fun hlt => Prog.wp_bind_intro ?_) fun hge => ?_
  · refine wp_fileTruncateBlocks hm hf ht fun m' u hc hu => ?_
    obtain ⟨hm', hf'⟩ := hc.sound hm hf
    exact hset hm' hf' hu fun w hw => hcut m' w hlt hc hw
  · exact hset hm hf ht fun w hw => hgrow w hge hw

end

end Jos
