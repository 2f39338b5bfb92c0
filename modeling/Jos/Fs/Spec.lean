import Jos.Fs.Edit

/-!
# What the operations on blocks of a file do

One rule for each function of fs/fs.c up to `file_set_size`, on a sound disk
`m`: what it returns, and the edits of the file that lead to the memory it
leaves.
-/

namespace Jos

open PhysMem

section

variable {d : PhysMem} {s : Fs} {m : PhysMem} {q : Bytes} {b n : Nat} {v : Word}
  {A : Fs → Prop}
  {E : Stop → Fs → Prop}

/-! ## The bitmap -/

theorem wp_blockIsFree (hm : m.MapOk) (hs : s.Shows d m q)
    {Q : Bool → Fs → Prop}
    (hQ : ∀ t, t.Shows d m q → Q (m.isFree b) t) :
    Prog.wp (blockIsFree b) Q A E s := by
  apply Prog.wp_ask_bind
  refine Prog.wp_ite _ (fun hno => Prog.wp_pure_intro ?_) fun hlt => ?_
  · have h := hQ s hs
    rw [hs.mem] at hno
    rwa [isFree, decide_eq_false (by omega), Bool.false_and] at h
  · rw [hs.mem, Nat.not_le] at hlt
    apply Prog.wp_bind_intro
    refine wp_readWord hm hs (hm.inUse _ (reserved_bitmapAt hlt)) fun t ht => ?_
    have h := hQ t ht
    rw [isFree, decide_eq_true hlt, Bool.true_and] at h
    exact Prog.wp_pure_intro h

/-- Marking block `b` used, and writing out the first block of the bitmap. -/
theorem wp_takeBlock (hm : m.MapOk) (hs : s.Shows d m q) (hb : b < m.nblocks)
    {Q : Unit → Fs → Prop}
    (hQ : ∀ t, t.Shows d (m.markUsed b) q → Q () t) :
    Prog.wp (do
      let a := bitmapAt b
      let w ← readWord a.1 a.2
      writeWord a.1 a.2 (w &&& ~~~(1#32 <<< (b % 32)))
      flushBlock 2) Q A E s := by
  have huse := hm.inUse _ (reserved_bitmapAt hb)
  apply Prog.wp_bind_intro
  refine wp_readWord hm hs huse fun t ht => ?_
  apply Prog.wp_bind_intro
  apply Prog.wp_bind_intro
  refine wp_touch hm ht huse fun u hu => ?_
  apply Prog.wp_update_intro
  rw [hu.mem]
  refine wp_writeOut (F := fun c => c = 2) (fun h2 => absurd h2 (by decide)) rfl
    fun w hw hsync => ?_
  have hmem : w.mem = m.markUsed b := by
    rw [hw.mem, Fs.mem_store, hu.mem]
    rfl
  refine hQ w ⟨hmem, fun j hj => hw.req ▸ hu.req j hj, hw.ok hu.ok.store,
    fun c _ hc hd => ?_,
    fun c hc hr => ?_⟩
  · have h2 := hsync hu.ok.store
    rw [hmem] at h2
    rwa [bit_congr h2 hc] at hd
  · rcases hw.disk c with h | ⟨h2, _⟩
    · exact h.trans (hu.late c hc ((reserved_congr nblocks_markUsed).mp hr))
    · omega

/-- The first free block is allocated. -/
theorem wp_allocBlock (hm : m.MapOk) (hs : s.Shows d m q)
    {Q : Except Word Word → Fs → Prop}
    (hfree : ∀ b t, m.isFree b → (∀ c, c < b → ¬m.isFree c) →
      t.Shows d (m.markUsed b) q →
      Q (.ok (BitVec.ofNat 32 b)) t)
    (hfull : ∀ t, (∀ b, ¬m.isFree b) → t.Shows d m q →
      Q (.error (-E_NO_DISK)) t) :
    Prog.wp allocBlock Q A E s := by
  have key : ∀ n b s, s.Shows d m q → b + n = m.nblocks →
      (∀ c, c < b → ¬m.isFree c) →
      Prog.wp (allocBlockFrom n b) Q A E s := by
    intro n
    induction n with
    | zero =>
        intro b s hs hn hbelow
        exact Prog.wp_pure_intro (hfull s (fun c hc => hbelow c (by
          have := isFree_lt hc
          omega) hc) hs)
    | succ n ih =>
        intro b s hs hn hbelow
        apply Prog.wp_bind_intro
        refine wp_blockIsFree hm hs fun t ht => ?_
        refine Prog.wp_ite _ (fun hb => ?_) fun hb => ?_
        · have htake : Prog.wp (do
              let a := bitmapAt b
              let w ← readWord a.1 a.2
              writeWord a.1 a.2 (w &&& ~~~(1#32 <<< (b % 32)))
              flushBlock 2) (fun _ t => Q (.ok (BitVec.ofNat 32 b)) t) A E t :=
            wp_takeBlock hm ht (by omega) fun u hu => hfree b u hb hbelow hu
          simp only [Prog.wp_bind, Prog.wp_pure] at htake ⊢
          exact htake
        · refine ih (b + 1) t ht (by omega) fun c hc => ?_
          by_cases hcb : c = b
          · rwa [hcb]
          · exact hbelow c (by omega)
  apply Prog.wp_ask_bind
  rw [hs.mem]
  exact key m.nblocks 0 s hs (by omega) fun c hc => by omega

/-! ## Block pointers -/

/-- The block that `alloc_block` takes. -/
def PhysMem.FirstFree (m : PhysMem) (b : Nat) : Prop :=
  m.isFree b ∧ ∀ c, c < b → ¬m.isFree c

/-- A block is allocated for the pointer `ρ`, which is clear. -/
theorem wp_allocInto (hm : m.Sound) {ρ : Role} (hρ : m.Valid ρ)
    (hp : m.Placed ρ)
    (hs : s.Shows d m q) {Q : Except Word Unit → Fs → Prop}
    (hok : ∀ b t, m.FirstFree b → t.Shows d (m.attach ρ b) q → Q (.ok ()) t)
    (hfull : ∀ t, (∀ b, ¬m.isFree b) → t.Shows d m q →
      Q (.error (-E_NO_DISK)) t) :
    Prog.wp (allocInto (m.place ρ)) Q A E s := by
  apply Prog.wp_bind_intro
  refine wp_allocBlock hm.toMapOk hs (fun b t hb hleast ht => ?_)
    fun t hno ht =>
    Prog.wp_pure_intro (hfull t hno ht)
  have hm1 : (m.markUsed b).MapOk := hm.toMapOk.markUsed
  have hplace := hm.place_inUse hρ hp
  have huse : ∀ c, (m.markUsed b).InUse c ↔ m.InUse c ∨ c = b := by
    intro c
    by_cases hc : c = b
    · subst hc
      simp [InUse, bit_markUsed, isFree_lt hb]
    · simp [InUse, bit_markUsed, hc]
  have hbn : (BitVec.ofNat 32 b).toNat = b := hm.ofNat_free hb
  have hb0 : BitVec.ofNat 32 b ≠ 0 := by
    intro h0
    have h := congrArg BitVec.toNat h0
    rw [hbn] at h
    exact hm.free_not_reserved hb (.inl (by rw [h]; decide))
  have hres : ¬(m.markUsed b).Reserved b := by
    rw [reserved_congr nblocks_markUsed]
    exact hm.free_not_reserved hb
  have hmap := hm.attach_sameMap hρ hp hb
  have hmap1 : SameMap (m.markUsed b)
      ((m.markUsed b).setEntry (m.place ρ).1 (m.place ρ).2
        (BitVec.ofNat 32 b)) := by
    refine .setEntry ?_ (hm.place_ne_super hρ hp)
    rw [reserved_congr nblocks_markUsed]
    exact hm.place_not_bitmap hρ hp
  have hlt : b < m.nblocks := isFree_lt hb
  apply Prog.wp_bind_intro
  refine wp_writeWord hm1 ht ((huse _).mpr (.inl hplace)) hmap1 fun u hu => ?_
  -- the pointer is stored, and the block is cleared through it
  apply Prog.wp_bind_intro
  refine wp_readWord (hmap1.mapOk hm1) hu
    (hmap1.inUse.mpr ((huse _).mpr (.inl hplace))) fun w hw => ?_
  rw [entry_setEntry_self]
  apply Prog.wp_bind_intro
  refine wp_diskaddr hw hb0
    (by rw [hmap1.nblocks, nblocks_markUsed, hbn]; exact hlt) ?_
  rw [hbn]
  apply Prog.wp_bind_intro
  refine wp_clearBlock (hmap1.mapOk hm1) hw
    (hmap1.inUse.mpr ((huse b).mpr (.inr rfl)))
    (.update ?_) fun x hx => ?_
  · rwa [reserved_congr hmap1.nblocks]
  have hx : x.Shows d (m.attach ρ b) q := hx
  have hne : (m.place ρ).1 ≠ b := fun h => hplace.not_free (h ▸ hb)
  apply Prog.wp_bind_intro
  refine wp_readWord (hmap.mapOk hm1) hx
    (hmap.inUse.mpr ((huse _).mpr (.inl hplace)))
    fun y hy => ?_
  rw [entry_attach (hm.place_not_bitmap hρ hp) hb hne, if_pos ⟨rfl, rfl⟩]
  apply Prog.wp_bind_intro
  refine wp_diskaddr hy hb0
    (by rw [hmap.nblocks, nblocks_markUsed, hbn]; exact hlt) ?_
  rw [hbn]
  apply Prog.wp_bind_intro
  refine wp_flushBlock (hmap.mapOk hm1) hy
    (by rw [hmap.nblocks, nblocks_markUsed]; exact hlt)
    (fun h => ?_) fun z hz _ => ?_
  · rw [reserved_congr hmap.nblocks] at h
    exact hres h.2
  exact Prog.wp_pure_intro (hok b z ⟨hb, hleast⟩ hz)

/-- Memory in which the `k`th pointer of `f` has a place: `m`, or `m` with a new
indirect block. -/
inductive PhysMem.Walked (m : PhysMem) (f : FilePtr) (k : Nat) :
    PhysMem → Prop where
  | here (h : m.Placed (.data f k)) : Walked m f k m
  | ind {b : Nat} (h : ¬m.Placed (.data f k)) (hb : m.FirstFree b) :
      Walked m f k (m.attach (.ind f) b)

theorem PhysMem.ind_of_not_placed {f : FilePtr} {k : Nat}
    (h : ¬m.Placed (.data f k)) :
    ¬k < NDIRECT ∧ m.fIndirect f = 0 := by
  refine ⟨fun hk => h (.inl hk), ?_⟩
  by_contra h0
  exact h (.inr h0)

theorem PhysMem.Sound.placed_attach_ind (hm : m.Sound) {f : FilePtr}
    (hf : m.Rec f) (hb : m.isFree b)
    {k : Nat} : (m.attach (.ind f) b).Placed (.data f k) := by
  right
  intro h0
  have hself := hm.ref_attach_self (ρ := .ind f) (.ind hf) trivial hb
  have hz : (m.attach (.ind f) b).ref (.ind f) = 0 := congrArg BitVec.toNat h0
  rw [hz] at hself
  exact hm.free_not_reserved hb (.inl (by rw [← hself]; decide))

/-- `file_block_walk`. -/
theorem wp_fileBlockWalk (hm : m.Sound) {f : FilePtr} (hf : m.Rec f)
    {alloc : Bool}
    (hs : s.Shows d m q) {Q : Except Word (Nat × Nat) → Fs → Prop}
    (hinval : ∀ t, NDIRECT + NINDIRECT ≤ v.toNat → t.Shows d m q →
      Q (.error (-E_INVAL)) t)
    (hmiss : ∀ t, alloc = false → ¬m.Placed (.data f v.toNat) → t.Shows d m q →
      Q (.error (-E_NOT_FOUND)) t)
    (hfull : ∀ t, alloc = true → v.toNat < NDIRECT + NINDIRECT →
      ¬m.Placed (.data f v.toNat) →
      (∀ b, ¬m.isFree b) → t.Shows d m q → Q (.error (-E_NO_DISK)) t)
    (hok : ∀ m' t, v.toNat < NDIRECT + NINDIRECT → m.Walked f v.toNat m' →
      (alloc = false → m' = m) → t.Shows d m' q → Q
      (.ok (m'.place (.data f v.toNat))) t) :
    Prog.wp (fileBlockWalk f v alloc) Q A E s := by
  refine Prog.wp_ite _ (fun hbig => Prog.wp_pure_intro (hinval s hbig hs))
    fun hbig => ?_
  rw [Nat.not_le] at hbig
  refine Prog.wp_ite _ (fun hd => Prog.wp_pure_intro ?_) fun hd => ?_
  · have h := hok m s hbig (.here (.inl hd)) (fun _ => rfl) hs
    rwa [place_data_direct hd] at h
  apply Prog.wp_bind_intro
  refine wp_readWord hm.toMapOk hs (hm.blk_inUse hf) fun t ht => ?_
  have hind : ∀ m' : PhysMem, m'.Sound → m'.Rec f → m'.fIndirect f ≠ 0 →
      ∀ u : Fs, u.Shows d m' q →
      (∀ w : Fs, w.Shows d m' q → Q (.ok (m'.place (.data f v.toNat))) w) →
      Prog.wp (do
        let b ← diskaddr (← readWord f.blk (f.off + 44))
        pure (.ok (b, v.toNat - NDIRECT))) Q A E u := by
    intro m' hm' hf' h0 u hu hQ
    apply Prog.wp_bind_intro
    refine wp_readWord hm'.toMapOk hu (hm'.blk_inUse hf') fun w hw => ?_
    have hne : m'.ref (.ind f) ≠ 0 := fun h => h0 (BitVec.eq_of_toNat_eq h)
    apply Prog.wp_bind_intro
    refine wp_diskaddr hw h0 (hm'.named _ (.ind hf') hne).1.1
      (Prog.wp_pure_intro ?_)
    have h := hQ w hw
    rwa [place_data_indirect hd] at h
  refine Prog.wp_ite _ (fun h0 => ?_) fun h0 => ?_
  · have hno : ¬m.Placed (.data f v.toNat) := fun hp => hp.elim hd (· h0)
    refine Prog.wp_ite _ (fun ha => Prog.wp_pure_intro ?_) fun ha => ?_
    · exact hmiss t (by simpa using ha) hno ht
    have ha : alloc = true := by simpa using ha
    apply Prog.wp_bind_intro
    refine wp_allocInto (ρ := .ind f) hm (.ind hf) trivial ht
      (fun b u hb hu => ?_)
      fun u hfree hu => Prog.wp_pure_intro (hfull u ha hbig hno hfree hu)
    have hi0 : m.ref (.ind f) = 0 := congrArg BitVec.toNat h0
    have he : Edit (· = .attach) f m (m.attach (.ind f) b) :=
      .attach rfl rfl trivial trivial hi0 hb.1 hb.2
    have hp := hm.placed_attach_ind hf hb.1 (k := v.toNat)
    refine hind _ (he.sound hm hf) (he.record_self hm hf) (hp.resolve_left hd) u
      hu fun w hw => ?_
    exact hok _ w hbig (.ind hno hb)
      (fun h => absurd (ha.symm.trans h) nofun) hw
  · exact hind m hm hf h0 t ht fun w hw =>
      hok m w hbig (.here (.inr h0)) (fun _ => rfl) hw

/-! ## Growing a file -/

/-- Byte `o` of the data of `f`. What has no block reads as zero. -/
def PhysMem.byte (m : PhysMem) (f : FilePtr) (o : Nat) : BitVec 8 :=
  if m.ref (.data f (o / BLKSIZE)) = 0 then 0 else
    m (m.ref (.data f (o / BLKSIZE))) (o % BLKSIZE)

/-- The record of `r`, its indirect block and, unless it is a directory, its
data are the same in `m'`. -/
structure PhysMem.Kept (m m' : PhysMem) (r : FilePtr) :
    Prop extends Same m m' r where
  byte : m.fType r ≠ FTYPE_DIR → ∀ o, o < MAXFILESIZE → m'.byte r o = m.byte r o

/-- The frame rule, with data. -/
theorem PhysMem.Sound.kept_of_foot {m' : PhysMem} {f r : FilePtr} (hm : m.Sound)
    (hf : m.Rec f)
    (h : ∀ c j, j < BLKSIZE → ¬m.Foot f c j → m' c j = m c j) (hr : m.Rec r)
    (hne : r ≠ f) :
    Kept m m' r where
  toSame := hm.same_of_foot hf h hr hne
  byte ht o ho := by
    have hk : o / BLKSIZE < NDIRECT + NINDIRECT :=
      Nat.div_lt_of_lt_mul (by rwa [Nat.mul_comm])
    have href :=
      (hm.same_of_foot hf h hr hne).ref (ρ := .data r (o / BLKSIZE)) hk
    rw [PhysMem.byte, href, PhysMem.byte]
    by_cases h0 : m.ref (.data r (o / BLKSIZE)) = 0
    · rw [if_pos h0, if_pos h0]
    · rw [if_neg h0, if_neg h0]
      exact h _ _ (Nat.mod_lt _ (by decide))
        (hm.data_not_foot hf hr hne ht hk h0)

theorem PhysMem.Kept.refl (m : PhysMem) (r : FilePtr) : Kept m m r :=
  ⟨⟨fun _ _ _ => rfl, fun _ _ _ => rfl⟩, fun _ _ _ => rfl⟩

theorem PhysMem.Kept.trans {m' m'' : PhysMem} {r : FilePtr} (h : Kept m m' r)
    (h' : Kept m' m'' r) :
    Kept m m'' r where
  record j hj hj' := (h'.record j hj hj').trans (h.record j hj hj')
  indirect h0 j hj := by
    have hi := h'.indirect (by rwa [h.fIndirect]) j hj
    rw [h.fIndirect] at hi
    exact hi.trans (h.indirect h0 j hj)
  byte ht o ho := by
    rw [h'.byte (by rwa [h.fType]) o ho, h.byte ht o ho]

namespace PhysMem

variable {m' : PhysMem} {f r : FilePtr} {K : Kind → Prop}

/-- An edit of a regular file leaves all records where they are. -/
theorem Edit.record (hm : m.Sound) (hf : m.Rec f) (ht : m.fType f ≠ FTYPE_DIR)
    (h : Edit K f m m')
    (hr : m.Rec r) : m'.Rec r := by
  refine record_mono (fun p k hp hk _ => ?_) (fun r hr => h.fType hm hf hr) hr
  have hne : p ≠ f := by
    rintro rfl
    exact ht (hm.isDir_type hp)
  exact (h.same hm hf hp.record hne).ref (ρ := .data p k) hk

/-- Edits of a regular file leave the other files as they are. -/
theorem Edits.keeps (hm : m.Sound) (hf : m.Rec f) (ht : m.fType f ≠ FTYPE_DIR)
    (h : Edits K f m m')
    (hr : m.Rec r) (hne : r ≠ f) : m'.Rec r ∧ Kept m m' r := by
  induction h with
  | refl => exact ⟨hr, .refl m r⟩
  | tail h h' ih =>
      obtain ⟨hm', hf'⟩ := Edits.sound hm hf h
      have ht' := ht
      rw [← Edits.fType hm hf h] at ht'
      exact ⟨h'.record hm' hf' ht' ih.1, ih.2.trans
        (hm'.kept_of_foot hf' (fun _ _ hj hno => h'.foot hm' hf' hj hno)
        ih.1 hne)⟩

end PhysMem

/-- `f` has got more blocks, which hold zeros. -/
structure PhysMem.Grows (f : FilePtr) (m m' : PhysMem) : Prop where
  edits : Edits (· = .attach) f m m'
  field : ∀ i, i < 34 → m'.entry f.blk (f.off + i) = m.entry f.blk (f.off + i)
  byte : ∀ o, o < MAXFILESIZE → m'.byte f o = m.byte f o
  kept : ∀ ρ : Role, ρ.file = f → ρ.Ok → m.ref ρ ≠ 0 → m'.ref ρ = m.ref ρ

namespace PhysMem

variable {m' m'' : PhysMem} {f g : FilePtr} {ρ : Role} {k : Nat}

theorem Grows.refl (f : FilePtr) (m : PhysMem) : Grows f m m :=
  ⟨.refl _ f m, fun _ _ => rfl, fun _ _ => rfl, fun _ _ _ _ => rfl⟩

theorem Grows.trans (h : Grows f m m') (h' : Grows f m' m'') :
    Grows f m m'' where
  edits := h.edits.trans h'.edits
  field i hi := (h'.field i hi).trans (h.field i hi)
  byte o ho := (h'.byte o ho).trans (h.byte o ho)
  kept ρ hf hok hne := by
    have hk := h.kept ρ hf hok hne
    rw [h'.kept ρ hf hok (by rwa [hk]), hk]

theorem Grows.sound (h : Grows f m m') (hm : m.Sound) (hf : m.Rec f) :
    m'.Sound ∧ m'.Rec f :=
  Edits.sound hm hf h.edits

theorem Grows.fSize (h : Grows f m m') : m'.fSize f = m.fSize f :=
  h.field 32 (by decide)

theorem Grows.fType (h : Grows f m m') : m'.fType f = m.fType f :=
  h.field 33 (by decide)

/-- A data block of a file does not hold its own record or its pointers. -/
theorem Sound.data_ne_blk (hm : m.Sound) (hf : m.Rec f)
    (hk : k < NDIRECT + NINDIRECT)
    (h0 : m.ref (.data f k) ≠ 0) : m.ref (.data f k) ≠ f.blk := by
  intro he
  obtain ⟨p, i, j, ⟨n, hn⟩, hpk, hj, hfj⟩ :=
    hm.blk_eq_ref hf (.data hf hk) h0 he.symm
  obtain ⟨rfl, rfl⟩ := Role.data.inj hpk
  have hsucc : m.DirAt (n + 1) f :=
    ⟨f, k, j, hn, hk, hj, h0, hfj, hm.isDir_type ⟨n, hn⟩⟩
  have hnn := hm.dirAt_unique hn hsucc
  omega

theorem Sound.data_ne_place (hm : m.Sound) (hρ : m.Valid ρ) (hp : m.Placed ρ)
    (hk : k < NDIRECT + NINDIRECT) (h0 : m.ref (.data ρ.file k) ≠ 0) :
    m.ref (.data ρ.file k) ≠ (m.place ρ).1 := by
  rcases place_cases hρ.2 hp with ⟨h, _⟩ | ⟨h, hi, _⟩
  · rw [h]
    exact hm.data_ne_blk hρ.1 hk h0
  · intro he
    rw [h] at he
    exact nomatch hm.inj _ _ (.data hρ.1 hk) (.ind hρ.1) h0 he

/-- Attaching a block changes no other block but in the bitmap and at the
pointer. -/
theorem attach_of_ne {c : Nat} (hb : m.isFree b) (hc : ¬(2 ≤ c ∧ m.Reserved c))
    (hcb : c ≠ b)
    (hcp : c ≠ (m.place ρ).1) : m.attach ρ b c = m c := by
  have hbit : c ≠ (bitmapAt b).1 := fun h =>
    hc (h ▸ ⟨two_le_bitmapAt, reserved_bitmapAt (isFree_lt hb)⟩)
  rw [attach, zeroPage_of_ne hcb, setEntry_of_ne hcp, markUsed,
    setEntry_of_ne hbit]

/-- Attaching a block changes no data. -/
theorem Sound.byte_attach (hm : m.Sound) (hρ : m.Valid ρ) (hp : m.Placed ρ)
    (h0 : m.ref ρ = 0)
    (hb : m.isFree b) {o : Nat} (ho : o < MAXFILESIZE) :
    (m.attach ρ b).byte ρ.file o = m.byte ρ.file o := by
  have hk : o / BLKSIZE < NDIRECT + NINDIRECT :=
    Nat.div_lt_of_lt_mul (by rwa [Nat.mul_comm])
  have hmod : o % BLKSIZE < BLKSIZE := Nat.mod_lt _ (by decide)
  by_cases hself : ρ = .data ρ.file (o / BLKSIZE)
  · have hr := hm.ref_attach_self hρ hp hb
    rw [hself] at h0
    rw [hself] at hr
    have hbyte : m.byte ρ.file o = 0 := if_pos h0
    rw [hbyte, PhysMem.byte]
    split
    · rfl
    · rw [← hself] at hr ⊢
      rw [hr]
      exact attach_zero hmod
  · have hr : (m.attach ρ b).ref (.data ρ.file (o / BLKSIZE)) =
        m.ref (.data ρ.file (o / BLKSIZE)) :=
      hm.ref_attach_of_ne hρ hp hb h0 rfl hk (Ne.symm hself)
    rw [PhysMem.byte, hr, PhysMem.byte]
    by_cases hc : m.ref (.data ρ.file (o / BLKSIZE)) = 0
    · rw [if_pos hc, if_pos hc]
    · rw [if_neg hc, if_neg hc]
      have hn := hm.named _ (.data hρ.1 hk) hc
      rw [attach_of_ne hb (fun h => hn.2 h.2) (fun h => hn.1.not_free (h ▸ hb))
        (hm.data_ne_place hρ hp hk hc)]

/-- A block is attached to a clear pointer. -/
theorem Sound.grows_attach (hm : m.Sound) (hρ : m.Valid ρ) (hp : m.Placed ρ)
    (h0 : m.ref ρ = 0)
    (hb : m.FirstFree b) : Grows ρ.file m (m.attach ρ b) where
  edits := .one (.attach rfl rfl hρ.2 hp h0 hb.1 hb.2)
  field _ hi := hm.field_attach hρ hp hb.1 hi
  byte _ ho := hm.byte_attach hρ hp h0 hb.1 ho
  kept _ hf hok hne := hm.ref_attach_of_ne hρ hp hb.1 h0 hf hok fun he =>
    hne (he ▸ h0)

theorem Walked.grows (hm : m.Sound) (hf : m.Rec f) (h : m.Walked f k m') :
    Grows f m m' := by
  cases h with
  | here => exact .refl f m
  | ind hno hb =>
      have h0 : m.ref (.ind f) = 0 :=
        congrArg BitVec.toNat (ind_of_not_placed hno).2
      exact hm.grows_attach (.ind hf) trivial h0 hb

/-- A new indirect block names nothing. -/
theorem Walked.data (hm : m.Sound) (hf : m.Rec f)
    (h : m.Walked f k m') {j : Nat}
    (hj : j < NDIRECT + NINDIRECT) :
    m'.ref (.data f j) = m.ref (.data f j) := by
  cases h with
  | here => rfl
  | ind hno hb =>
      have h0 : m.ref (.ind f) = 0 :=
        congrArg BitVec.toNat (ind_of_not_placed hno).2
      exact hm.ref_attach_of_ne (.ind hf) trivial hb.1 h0 rfl hj nofun

theorem Walked.eq_of_placed (h : m.Walked f k m') (hp : m.Placed (.data f k)) :
    m' = m := by
  cases h with
  | here => rfl
  | ind hno => exact absurd hp hno

theorem Walked.placed (hm : m.Sound) (hf : m.Rec f) (h : m.Walked f k m') :
    m'.Placed (.data f k) := by
  cases h with
  | here h => exact h
  | ind _ hb => exact hm.placed_attach_ind hf hb.1

theorem Sound.isFree_attach (hm : m.Sound) (hρ : m.Valid ρ) (hp : m.Placed ρ)
    (hb : m.isFree b)
    {c : Nat} : (m.attach ρ b).isFree c ↔ m.isFree c ∧ c ≠ b := by
  rw [(hm.attach_sameMap hρ hp hb).isFree, isFree_iff, nblocks_markUsed,
    bit_markUsed, Bool.and_eq_true,
    decide_eq_true_eq, isFree_iff, and_assoc]

theorem Walked.isFree (hm : m.Sound) (hf : m.Rec f)
    (h : m.Walked f k m') {c : Nat}
    (hc : m'.isFree c) : m.isFree c := by
  cases h with
  | here => exact hc
  | ind _ hb => exact ((hm.isFree_attach (.ind hf) trivial hb.1).mp hc).1

/-- The `k`th block of `f` has been found, or a free one allocated. -/
structure Got (f : FilePtr) (k : Nat) (m m' : PhysMem) : Prop where
  grows : Grows f m m'
  ne : m'.ref (.data f k) ≠ 0
  free : m.ref (.data f k) = 0 → m.isFree (m'.ref (.data f k))
  same : m.ref (.data f k) ≠ 0 → m' = m
  other : ∀ j, j < NDIRECT + NINDIRECT → j ≠ k →
    m'.ref (.data f j) = m.ref (.data f j)

theorem Sound.got_attach (hm : m.Sound) (hρ : m.Valid (.data f k))
    (hp : m.Placed (.data f k))
    (h0 : m.ref (.data f k) = 0) (hb : m.FirstFree b) :
    Got f k m (m.attach (.data f k) b) := by
  have hself := hm.ref_attach_self hρ hp hb.1
  refine ⟨hm.grows_attach hρ hp h0 hb, ?_, fun _ => ?_,
    fun hne => absurd h0 hne, fun j hj hjk => ?_⟩
  · rw [hself]
    exact fun h => hm.free_not_reserved hb.1 (.inl (by rw [h]; decide))
  · rw [hself]
    exact hb.1
  · exact hm.ref_attach_of_ne hρ hp hb.1 h0 rfl hj fun he =>
      hjk (Role.data.inj he).2

/-- The indirect block comes first. -/
theorem Walked.got {m₁ : PhysMem} (h : m.Walked f k m₁) (hm : m.Sound)
    (hf : m.Rec f) (hk : k < NDIRECT + NINDIRECT)
    (hgot : Got f k m₁ m') : Got f k m m' where
  grows := (h.grows hm hf).trans hgot.grows
  ne := hgot.ne
  free h0 := h.isFree hm hf (hgot.free ((h.data hm hf hk).trans h0))
  same hne := by
    have hs := hgot.same (by rwa [h.data hm hf hk])
    rw [hs, h.eq_of_placed (placed_of_ref hne)]
  other j hj hjk := (hgot.other j hj hjk).trans (h.data hm hf hj)

end PhysMem

/-- `file_get_block`. -/
theorem wp_fileGetBlock (hm : m.Sound) {f : FilePtr} (hf : m.Rec f)
    (hs : s.Shows d m q)
    {Q : Except Word Nat → Fs → Prop}
    (hok : ∀ m' t, v.toNat < NDIRECT + NINDIRECT → Got f v.toNat m m' →
      t.Shows d m' q →
      Q (.ok (m'.ref (.data f v.toNat))) t)
    (herr : ∀ r m' t, (v.toNat < NDIRECT + NINDIRECT → r = -E_NO_DISK ∧ ∀ b,
      ¬m'.isFree b) →
      (NDIRECT + NINDIRECT ≤ v.toNat → r = -E_INVAL) → Grows f m m' →
      m' = m ∨ m.Walked f v.toNat m' →
      (v.toNat < NDIRECT + NINDIRECT → m.ref (.data f v.toNat) = 0) →
      t.Shows d m' q →
      Q (.error r) t) :
    Prog.wp (fileGetBlock f v) Q A E s := by
  apply Prog.wp_bind_intro
  refine wp_fileBlockWalk hm hf hs (fun t hbig ht => Prog.wp_pure_intro ?_)
    (fun t h => nomatch h)
    (fun t _ hlt hp hno ht => Prog.wp_pure_intro ?_) fun m₁ t hlt hw _ ht => ?_
  · exact herr _ m t (fun hlt => absurd hlt (Nat.not_lt.mpr hbig))
      (fun _ => rfl) (.refl f m)
      (.inl rfl) (fun hlt => absurd hlt (Nat.not_lt.mpr hbig)) ht
  · exact herr _ m t (fun _ => ⟨rfl, hno⟩)
      (fun hbig => absurd hlt (Nat.not_lt.mpr hbig)) (.refl f m)
      (.inl rfl) (fun _ => ref_of_not_placed hp) ht
  have hg := hw.grows hm hf
  obtain ⟨hm₁, hf₁⟩ := hg.sound hm hf
  have hp := hw.placed hm hf
  have hρ : m₁.Valid (.data f v.toNat) := .data hf₁ hlt
  have hent := ref_eq_entry hp
  apply Prog.wp_bind_intro
  refine wp_readWord hm₁.toMapOk ht (hm₁.place_inUse hρ hp) fun u hu => ?_
  refine Prog.wp_ite _ (fun h0 => ?_) fun h0 => ?_
  · have hr0 : m₁.ref (.data f v.toNat) = 0 := by
      rw [hent, h0]
      rfl
    apply Prog.wp_bind_intro
    refine wp_allocInto (ρ := .data f v.toNat) hm₁ hρ hp hu
      (fun b w hb hw' => ?_)
      fun w hno hw' => Prog.wp_pure_intro ?_
    · have hgot₁ := hm₁.got_attach hρ hp hr0 hb
      obtain ⟨hm₂, hf₂⟩ := hgot₁.grows.sound hm₁ hf₁
      have hgot := hw.got hm hf hlt hgot₁
      have hne := hgot.ne
      have hp₂ := placed_of_ref hne
      have hent₂ := ref_eq_entry hp₂
      have hplace : (m₁.attach (.data f v.toNat) b).place (.data f v.toNat)
          = m₁.place (.data f v.toNat) :=
        place_congr (hm₁.fIndirect_attach hρ hp hb.1 nofun)
      rw [hplace] at hent₂
      apply Prog.wp_bind_intro
      refine wp_readWord hm₂.toMapOk hw' ?_ fun x hx => ?_
      · rw [← hplace]
        exact hm₂.place_inUse (.data hf₂ hlt) hp₂
      · apply Prog.wp_bind_intro
        refine wp_diskaddr hx (fun hz => hne ?_) ?_ (Prog.wp_pure_intro ?_)
        · rw [hent₂, hz]
          rfl
        · rw [← hent₂]
          exact (hm₂.named _ (.data hf₂ hlt) hne).1.1
        · rw [← hent₂]
          exact hok _ x hlt hgot hx
    · exact herr _ m₁ w (fun _ => ⟨rfl, hno⟩)
        (fun hbig => absurd hlt (Nat.not_lt.mpr hbig)) hg
        (.inr hw)
        (fun _ => (hw.data hm hf hlt).symm.trans hr0) hw'
  · have hne : m₁.ref (.data f v.toNat) ≠ 0 := by
      rw [hent]
      exact fun hz => h0 (BitVec.eq_of_toNat_eq hz)
    apply Prog.wp_bind_intro
    refine wp_readWord hm₁.toMapOk hu (hm₁.place_inUse hρ hp) fun w hw' => ?_
    apply Prog.wp_bind_intro
    refine wp_diskaddr hw' h0 ?_ (Prog.wp_pure_intro ?_)
    · rw [← hent]
      exact (hm₁.named _ hρ hne).1.1
    · rw [← hent]
      refine hok m₁ w hlt ⟨hg, hne, fun hz => ?_, fun hz => ?_, fun j hj _ =>
        hw.data hm hf hj⟩ hw'
      · exact absurd ((hw.data hm hf hlt).trans hz) hne
      · exact hw.eq_of_placed (placed_of_ref hz)

end

end Jos
