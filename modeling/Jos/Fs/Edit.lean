import Jos.Fs.Layout

/-!
# Edits

The five things that operations on files do to the disk: attach a fresh block to
a pointer, detach one, set a size, store data, and write a name. Each stays in
the footprint of its file, and `Sound` survives all of them.
-/

namespace Jos

namespace PhysMem

/-! ## The bitmap -/

/-- `free_block`. -/
def markFree (m : PhysMem) (b : Nat) : PhysMem :=
  m.setEntry (bitmapAt b).1 (bitmapAt b).2
    (m.entry (bitmapAt b).1 (bitmapAt b).2 ||| 1#32 <<< (b % 32))

/-- What `alloc_block` does to the bitmap. -/
def markUsed (m : PhysMem) (b : Nat) : PhysMem :=
  m.setEntry (bitmapAt b).1 (bitmapAt b).2
    (m.entry (bitmapAt b).1 (bitmapAt b).2 &&& ~~~(1#32 <<< (b % 32)))

variable {m m' : PhysMem} {r f d : FilePtr} {ρ ρ' : Role} {b c n : Nat}

theorem bitmapAt_inj (h : bitmapAt b = bitmapAt c) (hm : b % 32 = c % 32) :
    b = c := by
  simp only [bitmapAt, Prod.mk.injEq] at h
  omega

theorem one_shift_getLsbD (i j : Nat) (hj : j < 32) :
    (1#32 <<< i).getLsbD j = decide (j = i) := by
  rw [BitVec.getLsbD_shiftLeft, BitVec.getLsbD_one]
  by_cases h : j = i
  · simp [h]
    omega
  · simp [h]
    omega

theorem bit_markFree : (m.markFree b).bit c = (m.bit c || decide (c = b)) := by
  have hc : c % 32 < 32 := Nat.mod_lt _ (by decide)
  by_cases hcb : bitmapAt c = bitmapAt b
  · simp only [bit, hcb, markFree, entry_setEntry_self, BitVec.getLsbD_or,
      one_shift_getLsbD _ _ hc]
    congr 1
    rw [decide_eq_decide]
    exact ⟨bitmapAt_inj hcb, fun h => by rw [h]⟩
  · have hne : c ≠ b := fun h => hcb (by rw [h])
    have hd : (bitmapAt c).1 ≠ (bitmapAt b).1 ∨ (bitmapAt c).2 ≠
        (bitmapAt b).2 := by
      by_contra h
      exact hcb (Prod.ext (by_contra fun h1 => h (.inl h1))
        (by_contra fun h2 => h (.inr h2)))
    simp [bit, markFree, entry_setEntry_ne hd, hne]

theorem bit_markUsed : (m.markUsed b).bit c = (m.bit c && decide (c ≠ b)) := by
  have hc : c % 32 < 32 := Nat.mod_lt _ (by decide)
  by_cases hcb : bitmapAt c = bitmapAt b
  · simp only [bit, hcb, markUsed, entry_setEntry_self, BitVec.getLsbD_and,
      BitVec.getLsbD_not, one_shift_getLsbD _ _ hc, hc, decide_true,
      Bool.true_and]
    congr 1
    rw [decide_not]
    congr 1
    rw [decide_eq_decide]
    exact ⟨bitmapAt_inj hcb, fun h => by rw [h]⟩
  · have hne : c ≠ b := fun h => hcb (by rw [h])
    have hd : (bitmapAt c).1 ≠ (bitmapAt b).1 ∨ (bitmapAt c).2 ≠
        (bitmapAt b).2 := by
      by_contra h
      exact hcb (Prod.ext (by_contra fun h1 => h (.inl h1))
        (by_contra fun h2 => h (.inr h2)))
    simp [bit, markUsed, entry_setEntry_ne hd, hne]

theorem two_le_bitmapAt : 2 ≤ (bitmapAt b).1 := by
  rw [bitmapAt_fst]
  exact Nat.le_add_right 2 _

theorem bitmapAt_ne_one : (bitmapAt b).1 ≠ 1 := by
  have := two_le_bitmapAt (b := b)
  omega

@[simp] theorem nblocks_markFree : (m.markFree b).nblocks = m.nblocks := by
  rw [nblocks, markFree, entry_setEntry_ne (.inl bitmapAt_ne_one.symm), nblocks]

@[simp] theorem nblocks_markUsed : (m.markUsed b).nblocks = m.nblocks := by
  rw [nblocks, markUsed, entry_setEntry_ne (.inl bitmapAt_ne_one.symm), nblocks]

theorem SameMap.inUse (h : SameMap m m') : m'.InUse b ↔ m.InUse b := by
  simp only [InUse, h.nblocks]
  exact and_congr_right fun hb => by rw [h.bit b hb]

theorem SameMap.isFree (h : SameMap m m') : m'.isFree b = m.isFree b := by
  rw [Bool.eq_iff_iff, isFree_iff, isFree_iff, h.nblocks]
  exact and_congr_right fun hb => by rw [h.bit b hb]

theorem SameMap.mapOk (h : SameMap m m') (hm : m.MapOk) : m'.MapOk where
  nblocks_le := h.nblocks ▸ hm.nblocks_le
  inUse b hb := h.inUse.mpr (hm.inUse b ((reserved_congr h.nblocks).mp hb))

/-- A store outside the bitmap and the size of the disk. -/
theorem SameMap.setEntry {a : Nat × Nat} {v : Word}
    (h : ¬(2 ≤ a.1 ∧ m.Reserved a.1))
    (h1 : a.1 ≠ 1 ∨ a.2 ≠ 1) : SameMap m (m.setEntry a.1 a.2 v) where
  nblocks := by
    rw [PhysMem.nblocks, entry_setEntry_ne (by omega), PhysMem.nblocks]
  bit b hb := by
    have hne : (bitmapAt b).1 ≠ a.1 := by
      intro he
      exact h (he ▸ ⟨two_le_bitmapAt, reserved_bitmapAt hb⟩)
    rw [PhysMem.bit, entry_setEntry_ne (.inl hne), PhysMem.bit]

/-- A change of one block that is not reserved. -/
theorem SameMap.update {p : Bytes} (h : ¬m.Reserved c) :
    SameMap m (Function.update m c p) where
  nblocks := by
    have h1 : 1 ≠ c := fun he => h (he ▸ reserved_one m)
    rw [PhysMem.nblocks, entry_congr (Function.update_of_ne h1 ..),
      PhysMem.nblocks]
  bit b hb := by
    have hne : (bitmapAt b).1 ≠ c := fun he => h (he ▸ reserved_bitmapAt hb)
    rw [PhysMem.bit, entry_congr (Function.update_of_ne hne ..), PhysMem.bit]

theorem MapOk.markUsed (hm : m.MapOk) : (m.markUsed b).MapOk where
  nblocks_le := by
    rw [nblocks_markUsed]
    exact hm.nblocks_le
  inUse c hc := by
    have h := hm.inUse c ((reserved_congr nblocks_markUsed).mp hc)
    exact ⟨by rw [nblocks_markUsed]; exact h.1, by rw [bit_markUsed, h.2]; rfl⟩

theorem MapOk.markFree (hm : m.MapOk) (hb : ¬m.Reserved b) :
    (m.markFree b).MapOk where
  nblocks_le := by
    rw [nblocks_markFree]
    exact hm.nblocks_le
  inUse c hc := by
    have hc' := (reserved_congr nblocks_markFree).mp hc
    have h := hm.inUse c hc'
    have hcb : c ≠ b := fun he => hb (he ▸ hc')
    exact ⟨by rw [nblocks_markFree]; exact h.1,
      by rw [bit_markFree, h.2]; simp [hcb]⟩

/-! ## Where pointers are -/

/-- A pointer can be stored: an entry of an indirect block needs the block. -/
def Placed (m : PhysMem) : Role → Prop
  | .data f k => k < NDIRECT ∨ m.fIndirect f ≠ 0
  | .ind _ => True

theorem place_data_direct {k : Nat} (h : k < NDIRECT) :
    m.place (.data f k) = (f.blk, f.off + 34 + k) := if_pos h

theorem place_data_indirect {k : Nat} (h : ¬k < NDIRECT) :
    m.place (.data f k) = (m.ref (.ind f), k - NDIRECT) := if_neg h

theorem ref_eq_entry (h : m.Placed ρ) :
    m.ref ρ = (m.entry (m.place ρ).1 (m.place ρ).2).toNat := by
  cases ρ with
  | ind f => rfl
  | data f k =>
      by_cases hk : k < NDIRECT
      · simp only [ref, place, if_pos hk, fDirect]
      · have h0 : m.fIndirect f ≠ 0 := h.resolve_left hk
        simp only [ref, place, if_neg hk, if_neg h0]

theorem placed_of_ref (h : m.ref ρ ≠ 0) : m.Placed ρ := by
  cases ρ with
  | ind f => trivial
  | data f k =>
      by_cases hk : k < NDIRECT
      · exact .inl hk
      · refine .inr fun h0 => h ?_
        simp only [ref, if_neg hk, if_pos h0]

/-- A pointer is in the record of its file or in its indirect block. -/
theorem place_cases (hρ : ρ.Ok) (hp : m.Placed ρ) :
    (m.place ρ).1 = ρ.file.blk ∧ ρ.file.off + 34 ≤ (m.place ρ).2 ∧
      (m.place ρ).2 < ρ.file.off + 45 ∨
    (m.place ρ).1 = m.ref (.ind ρ.file) ∧ m.ref (.ind ρ.file) ≠ 0 ∧
    (m.place ρ).2 < 1024 := by
  have hd : NDIRECT = 10 := rfl
  have hn : NINDIRECT = 1024 := rfl
  cases ρ with
  | ind f => simp [place, FilePtr.indirectAt, Role.file]
  | data f k =>
      by_cases hk : k < NDIRECT
      · left
        rw [place_data_direct hk]
        exact ⟨rfl, by simp only [Role.file]; omega,
          by simp only [Role.file]; omega⟩
      · right
        have hk' : k < NDIRECT + NINDIRECT := hρ
        rw [place_data_indirect hk]
        exact ⟨rfl, fun h => (hp.resolve_left hk) (BitVec.eq_of_toNat_eq h),
          by omega⟩

theorem Sound.place_not_bitmap (hs : m.Sound) (hρ : m.Valid ρ)
    (hp : m.Placed ρ) :
    ¬(2 ≤ (m.place ρ).1 ∧ m.Reserved (m.place ρ).1) := by
  rcases place_cases hρ.2 hp with ⟨h, _⟩ | ⟨h, h0, _⟩
  · rw [h]
    exact hs.blk_not_bitmap hρ.1
  · rw [h]
    exact fun hr => (hs.named _ (.ind hρ.1) h0).2 hr.2

theorem Sound.place_ne_super (hs : m.Sound) (hρ : m.Valid ρ) (hp : m.Placed ρ) :
    (m.place ρ).1 ≠ 1 ∨ (m.place ρ).2 ≠ 1 := by
  rcases place_cases hρ.2 hp with ⟨_, h, _⟩ | ⟨h, h0, _⟩
  · right
    omega
  · left
    rw [h]
    exact hs.ref_ne_one (.ind hρ.1)

theorem Sound.place_inUse (hs : m.Sound) (hρ : m.Valid ρ) (hp : m.Placed ρ) :
    m.InUse (m.place ρ).1 := by
  rcases place_cases hρ.2 hp with ⟨h, _⟩ | ⟨h, h0, _⟩
  · rw [h]
    exact hs.blk_inUse hρ.1
  · rw [h]
    exact (hs.named _ (.ind hρ.1) h0).1

/-- A pointer is in the footprint of its file. -/
theorem foot_place (hρ : ρ.Ok) (hp : m.Placed ρ) {j : Nat}
    (hj : 4 * (m.place ρ).2 ≤ j ∧ j < 4 * (m.place ρ).2 + 4) :
    m.Foot ρ.file (m.place ρ).1 j := by
  rcases place_cases hρ hp with ⟨h, h1, h2⟩ | ⟨h, h0, _⟩
  · rw [h]
    exact .inr (.inl ⟨rfl, by omega, by omega⟩)
  · rw [h]
    exact .inr (.inr (.inr (.inl ⟨h0, rfl⟩)))

/-- Two pointers of a file are in different places. -/
theorem Sound.place_ne (hs : m.Sound) (hρ : m.Valid ρ) (hp : m.Placed ρ)
    (hp' : m.Placed ρ') (hf : ρ'.file = ρ.file) (hne : ρ' ≠ ρ) :
    (m.place ρ').1 ≠ (m.place ρ).1 ∨ (m.place ρ').2 ≠ (m.place ρ).2 := by
  have hd : NDIRECT = 10 := rfl
  have hblk : ∀ h0 : m.ref (.ind ρ.file) ≠ 0,
      ρ.file.blk ≠ m.ref (.ind ρ.file) :=
    hs.blk_ne_ind hρ.1 hρ.1
  have hind : m.fIndirect ρ.file ≠ 0 → m.ref (.ind ρ.file) ≠ 0 :=
    fun h h' => h (BitVec.eq_of_toNat_eq h')
  cases ρ with
  | ind f =>
      cases ρ' with
      | ind g => exact absurd (congrArg Role.ind hf) hne
      | data g k =>
          obtain rfl : g = f := hf
          by_cases hk : k < NDIRECT
          · right
            rw [place_data_direct hk]
            simp only [place, FilePtr.indirectAt]
            omega
          · left
            rw [place_data_indirect hk]
            exact (hblk (hind (hp'.resolve_left hk))).symm
  | data f i =>
      cases ρ' with
      | ind g =>
          obtain rfl : g = f := hf
          by_cases hi : i < NDIRECT
          · right
            rw [place_data_direct hi]
            simp only [place, FilePtr.indirectAt]
            omega
          · left
            rw [place_data_indirect hi]
            exact hblk (hind (hp.resolve_left hi))
      | data g k =>
          obtain rfl : g = f := hf
          have hik : k ≠ i := fun h => hne (by rw [h])
          by_cases hk : k < NDIRECT <;> by_cases hi : i < NDIRECT
          · right
            rw [place_data_direct hk, place_data_direct hi]
            simp only
            omega
          · left
            rw [place_data_direct hk, place_data_indirect hi]
            exact hblk (hind (hp.resolve_left hi))
          · left
            rw [place_data_indirect hk, place_data_direct hi]
            exact (hblk (hind (hp'.resolve_left hk))).symm
          · right
            rw [place_data_indirect hk, place_data_indirect hi]
            simp only
            omega

/-! ## Storing a pointer -/

/-- Store block number `v` in a pointer. -/
def setRef (m : PhysMem) (ρ : Role) (v : Word) : PhysMem :=
  m.setEntry (m.place ρ).1 (m.place ρ).2 v

/-- Attach the free block `b` to a pointer: mark it used, store it, clear it. -/
def attach (m : PhysMem) (ρ : Role) (b : Nat) : PhysMem :=
  ((m.markUsed b).setEntry (m.place ρ).1 (m.place ρ).2
    (BitVec.ofNat 32 b)).zeroPage b

/-- Free the block that a pointer names, and clear the pointer. -/
def detach (m : PhysMem) (ρ : Role) : PhysMem :=
  (m.markFree (m.ref ρ)).setEntry (m.place ρ).1 (m.place ρ).2 0

theorem isFree_lt (h : m.isFree b) : b < m.nblocks := (isFree_iff.mp h).1

theorem MapOk.free_not_reserved (hm : m.MapOk) (h : m.isFree b) :
    ¬m.Reserved b :=
  fun hr => (hm.inUse b hr).not_free h

/-- The word a load sees after a pointer was attached. -/
theorem entry_attach {i : Nat} (hc : ¬(2 ≤ c ∧ m.Reserved c)) (hb : m.isFree b)
    (hcb : c ≠ b) :
    (m.attach ρ b).entry c i =
      if c = (m.place ρ).1 ∧ i = (m.place ρ).2 then BitVec.ofNat 32 b else
        m.entry c i := by
  have hbit : c ≠ (bitmapAt b).1 := fun h =>
    hc (h ▸ ⟨two_le_bitmapAt, reserved_bitmapAt (isFree_lt hb)⟩)
  rw [attach, entry_zeroPage_ne hcb]
  by_cases h : c = (m.place ρ).1 ∧ i = (m.place ρ).2
  · rw [if_pos h, h.1, h.2, entry_setEntry_self]
  · rw [if_neg h, entry_setEntry_ne (by tauto), markUsed,
      entry_setEntry_ne (.inl hbit)]

theorem entry_detach {i : Nat} (hc : ¬(2 ≤ c ∧ m.Reserved c))
    (hlt : m.ref ρ < m.nblocks) :
    (m.detach ρ).entry c i =
      if c = (m.place ρ).1 ∧ i = (m.place ρ).2 then 0 else m.entry c i := by
  have hbit : c ≠ (bitmapAt (m.ref ρ)).1 := fun h =>
    hc (h ▸ ⟨two_le_bitmapAt, reserved_bitmapAt hlt⟩)
  rw [detach]
  by_cases h : c = (m.place ρ).1 ∧ i = (m.place ρ).2
  · rw [if_pos h, h.1, h.2, entry_setEntry_self]
  · rw [if_neg h, entry_setEntry_ne (by tauto), markFree,
      entry_setEntry_ne (.inl hbit)]

/-- A store to a word changes no other byte. -/
theorem setEntry_byte {i j : Nat} {v : Word}
    (h : c ≠ b ∨ j < 4 * i ∨ 4 * i + 4 ≤ j) :
    m.setEntry b i v c j = m c j := by
  by_cases hc : c = b
  · subst hc
    rw [setEntry, Function.update_self, Bytes.store32_of_ne (by omega)]
  · rw [setEntry_of_ne hc]

/-- The footprint of an edit of a pointer, apart from the block that is
attached. -/
theorem setEntry_foot {a : Nat × Nat} {v : Word} {j : Nat}
    (h : ∀ i, 4 * a.2 ≤ i ∧ i < 4 * a.2 + 4 → m.Foot f a.1 i)
    (hj : ¬m.Foot f c j) :
    m'.setEntry a.1 a.2 v c j = m' c j := by
  apply setEntry_byte
  by_contra hc
  push Not at hc
  obtain ⟨rfl, h1, h2⟩ := hc
  exact hj (h j (by omega))

theorem foot_bitmapAt (hb : b < m.nblocks) {j : Nat} :
    m.Foot f (bitmapAt b).1 j :=
  .inl ⟨two_le_bitmapAt, reserved_bitmapAt hb⟩

theorem foot_attach (hρ : ρ.Ok) (hp : m.Placed ρ) (hb : m.isFree b) {j : Nat}
    (hj : ¬m.Foot ρ.file c j) : m.attach ρ b c j = m c j := by
  have hcb : c ≠ b := fun h => hj (.inr (.inr (.inl (h ▸ hb))))
  rw [attach, zeroPage_of_ne hcb,
    setEntry_foot (fun i hi => foot_place hρ hp hi) hj, markUsed,
    setEntry_foot (fun i _ => foot_bitmapAt (isFree_lt hb)) hj]

theorem foot_detach (hρ : ρ.Ok) (hp : m.Placed ρ)
    (hlt : m.ref ρ < m.nblocks) {j : Nat}
    (hj : ¬m.Foot ρ.file c j) : m.detach ρ c j = m c j := by
  rw [detach, setEntry_foot (fun i hi => foot_place hρ hp hi) hj, markFree,
    setEntry_foot (fun i _ => foot_bitmapAt hlt) hj]

/-! ## What keeps a disk sound -/

/-- Nothing changes from `m` to `m'` but that pointers are cleared and that,
with `new = some (ρ, b)`, the free block `b` is cleared and attached to `ρ`. -/
structure Evolves (m m' : PhysMem) (new : Option (Role × Nat)) : Prop where
  nblocks : m'.nblocks = m.nblocks
  reserved : ∀ b, m.Reserved b → m'.InUse b
  fType : ∀ r, m.Rec r → m'.fType r = m.fType r
  ref : ∀ ρ, m.Valid ρ → m'.ref ρ = m.ref ρ ∧
    (m.ref ρ ≠ 0 → m'.InUse (m.ref ρ)) ∨
    m'.ref ρ = 0 ∨ new = some (ρ, m'.ref ρ)
  fresh : ∀ ρ b, new = some (ρ, b) →
    m.isFree b ∧ m'.InUse b ∧ ∀ j, j < BLKSIZE → m' b j = 0

theorem entry_of_zero (h : ∀ j, j < BLKSIZE → m b j = 0) {i : Nat}
    (hi : i < 1024) :
    m.entry b i = 0 := by
  have hb : BLKSIZE = 4096 := rfl
  rw [entry, Bytes.load32, h _ (by omega), h _ (by omega), h _ (by omega),
    h _ (by omega)]
  rfl

section Evolves

variable {new : Option (Role × Nat)}

/-- A record in a cleared block is empty. -/
theorem slot_of_zero (h : ∀ j, j < BLKSIZE → m b j = 0) {j : Nat}
    (hj : j < BLKFILES) :
    m.fType (slot b j) = FTYPE_REG ∧ m.fSize (slot b j) = 0 ∧
    m.fIndirect (slot b j) = 0 ∧
      m.fName (slot b j) 0 = 0 ∧ ∀ ρ, ρ.Ok → ρ.file = slot b j →
      m.ref ρ = 0 := by
  have hj16 : j < 16 := hj
  have hb : BLKSIZE = 4096 := rfl
  have hent : ∀ i, i < 64 → m.entry (slot b j).blk ((slot b j).off + i) = 0 :=
    fun i hi =>
    entry_of_zero h (by simp only [slot]; omega)
  have hind : m.fIndirect (slot b j) = 0 := hent 44 (by decide)
  refine ⟨hent 33 (by decide), hent 32 (by decide), hind,
    h _ (by simp only [slot]; omega), ?_⟩
  rintro (⟨f, k⟩ | f) hok hf <;> obtain rfl : f = slot b j := hf
  · simp only [ref, hind, if_true, ite_eq_right_iff]
    intro hk
    have hk' : k < 10 := hk
    rw [fDirect, Nat.add_assoc, hent _ (by omega)]
    rfl
  · simp only [ref, hind]
    rfl

theorem Evolves.dirAt (h : Evolves m m' new) : m'.DirAt n d → m.DirAt n d := by
  induction n generalizing d with
  | zero => exact id
  | succ n ih =>
      rintro ⟨p, k, j, hp, hk, hj, hne, rfl, ht⟩
      have hp' := ih hp
      have hv : m.Valid (.data p k) := .data (IsDir.record ⟨n, hp'⟩) hk
      rcases h.ref _ hv with ⟨hr, _⟩ | hr | hr
      · rw [hr] at hne ht ⊢
        refine ⟨p, k, j, hp', hk, hj, hne, rfl, ?_⟩
        rw [← ht]
        exact (h.fType _ (.inr ⟨p, k, j, ⟨n, hp'⟩, hk, hj, hne, rfl⟩)).symm
      · exact absurd hr hne
      · have hz := (slot_of_zero (h.fresh _ _ hr).2.2 hj).1
        rw [hz] at ht
        exact absurd ht (by decide)

theorem Evolves.isDir (h : Evolves m m' new) : m'.IsDir d → m.IsDir d :=
  fun ⟨n, hn⟩ => ⟨n, h.dirAt hn⟩

/-- A record was one before, or is in the new block. -/
theorem Evolves.record (h : Evolves m m' new) (hr : m'.Rec r) :
    m.Rec r ∨ ∃ ρ b j, new = some (ρ, b) ∧ j < BLKFILES ∧ r = slot b j := by
  obtain rfl | ⟨p, k, j, hp, hk, hj, hne, rfl⟩ := hr
  · exact .inl (.inl rfl)
  · have hp' := h.isDir hp
    rcases h.ref _ (.data hp'.record hk) with ⟨he, _⟩ | he | he
    · rw [he] at hne ⊢
      exact .inl (.inr ⟨p, k, j, hp', hk, hj, hne, rfl⟩)
    · exact absurd he hne
    · exact .inr ⟨_, _, j, he, hj, rfl⟩

/-- A pointer that names a block belonged to a record before. -/
theorem Evolves.valid (h : Evolves m m' new) (hv : m'.Valid ρ)
    (hne : m'.ref ρ ≠ 0) :
    m.Valid ρ := by
  rcases h.record hv.1 with hr | ⟨ρ', b, j, hnew, hj, hf⟩
  · exact ⟨hr, hv.2⟩
  · exact absurd ((slot_of_zero (h.fresh _ _ hnew).2.2 hj).2.2.2.2 ρ
      hv.2 hf) hne

theorem Evolves.sound (h : Evolves m m' new) (hs : m.Sound) : m'.Sound where
  nblocks_le := by
    rw [h.nblocks]
    exact hs.nblocks_le
  inUse b hb := h.reserved b ((reserved_congr h.nblocks).mp hb)
  rootDir := by
    rw [h.fType ROOT (.inl rfl)]
    exact hs.rootDir
  typeOk r hr := by
    rcases h.record hr with hr | ⟨_, b, j, hnew, hj, rfl⟩
    · rw [h.fType r hr]
      exact hs.typeOk r hr
    · exact .inl (slot_of_zero (h.fresh _ _ hnew).2.2 hj).1
  named ρ hv hne := by
    have hv' := h.valid hv hne
    rw [reserved_congr h.nblocks]
    rcases h.ref ρ hv' with ⟨he, hu⟩ | he | he
    · rw [he] at hne ⊢
      exact ⟨hu hne, (hs.named ρ hv' hne).2⟩
    · exact absurd he hne
    · have hf := h.fresh _ _ he
      exact ⟨hf.2.1, hs.free_not_reserved hf.1⟩
  inj ρ ρ' hv hv' hne he := by
    have hw := h.valid hv hne
    have hw' := h.valid hv' (he ▸ hne)
    rcases h.ref ρ hw with ⟨hr, _⟩ | hr | hr
    · rw [hr] at hne he
      rcases h.ref ρ' hw' with ⟨hr', _⟩ | hr' | hr'
      · exact hs.inj ρ ρ' hw hw' hne (he.trans hr')
      · exact absurd (he.trans hr') hne
      · rw [← he] at hr'
        exact absurd (h.fresh _ _ hr').1 (hs.named ρ hw hne).1.not_free
    · exact absurd hr hne
    · rcases h.ref ρ' hw' with ⟨hr', _⟩ | hr' | hr'
      · rw [he, hr'] at hr
        exact absurd (h.fresh _ _ hr).1
          (hs.named ρ' hw' (by rw [← hr', ← he]; exact hne)).1.not_free
      · exact absurd (he.trans hr') hne
      · rw [hr, Option.some.injEq, Prod.mk.injEq] at hr'
        exact hr'.1

end Evolves

/-! ## Attaching a block -/

theorem SameMap.trans {m'' : PhysMem} (h : SameMap m m') (h' : SameMap m' m'') :
    SameMap m m'' where
  nblocks := h'.nblocks.trans h.nblocks
  bit b hb := (h'.bit b (h.nblocks ▸ hb)).trans (h.bit b hb)

/-- Pointers of a file whose indirect block stays are where they were. -/
theorem place_congr (h : m'.fIndirect ρ.file = m.fIndirect ρ.file) :
    m'.place ρ = m.place ρ := by
  cases ρ with
  | ind f => rfl
  | data f k =>
      have h : m'.fIndirect f = m.fIndirect f := h
      simp only [place, h]

theorem placed_congr (h : m'.fIndirect ρ.file = m.fIndirect ρ.file) :
    m'.Placed ρ ↔ m.Placed ρ := by
  cases ρ with
  | ind f => exact Iff.rfl
  | data f k =>
      have h : m'.fIndirect f = m.fIndirect f := h
      simp only [Placed, h]

theorem ref_of_not_placed (h : ¬m.Placed ρ) : m.ref ρ = 0 :=
  by_contra fun hne => h (placed_of_ref hne)

/-- Where the indirect block stays, a pointer changes with its word. -/
theorem ref_congr (h : m'.fIndirect ρ.file = m.fIndirect ρ.file)
    (he : m.Placed ρ →
      m'.entry (m.place ρ).1 (m.place ρ).2 = m.entry (m.place ρ).1
      (m.place ρ).2) :
    m'.ref ρ = m.ref ρ := by
  by_cases hp : m.Placed ρ
  · rw [ref_eq_entry ((placed_congr h).mpr hp), place_congr h, he hp,
      ref_eq_entry hp]
  · rw [ref_of_not_placed hp, ref_of_not_placed fun hp' =>
      hp ((placed_congr h).mp hp')]

theorem Sound.entry_attach_of_rec (hs : m.Sound) (hb : m.isFree b)
    (hr : m.Rec r) {i : Nat} :
    (m.attach ρ b).entry r.blk i =
      if r.blk = (m.place ρ).1 ∧ i = (m.place ρ).2 then BitVec.ofNat 32 b
      else m.entry r.blk i :=
  entry_attach (hs.blk_not_bitmap hr) hb fun h =>
    (hs.blk_inUse hr).not_free (h ▸ hb)

theorem MapOk.ofNat_free (hm : m.MapOk) (hb : m.isFree b) :
    (BitVec.ofNat 32 b).toNat = b := by
  have h := hm.lt_disksize (isFree_lt hb)
  have hd : DISKSIZE / BLKSIZE = 786432 := rfl
  rw [BitVec.toNat_ofNat, Nat.mod_eq_of_lt (by omega)]

theorem attach_zero {j : Nat} (hj : j < BLKSIZE) : (m.attach ρ b) b j = 0 := by
  have hj : j < PGSIZE := hj
  rw [attach, zeroPage, Function.update_self, Bytes.fill_of_mem (by omega)]

section Attach

variable (hs : m.Sound) (hρ : m.Valid ρ) (hp : m.Placed ρ) (hb : m.isFree b)
include hs hρ hp hb

theorem Sound.attach_sameMap : SameMap (m.markUsed b) (m.attach ρ b) := by
  have hres : ∀ c, (m.markUsed b).Reserved c ↔ m.Reserved c := fun c =>
    reserved_congr nblocks_markUsed
  have h1 : SameMap (m.markUsed b)
      ((m.markUsed b).setEntry (m.place ρ).1 (m.place ρ).2
        (BitVec.ofNat 32 b)) := by
    refine .setEntry ?_ (hs.place_ne_super hρ hp)
    rw [hres]
    exact hs.place_not_bitmap hρ hp
  refine h1.trans (.update ?_)
  rw [reserved_congr h1.nblocks, hres]
  exact hs.free_not_reserved hb

theorem Sound.nblocks_attach : (m.attach ρ b).nblocks = m.nblocks :=
  (hs.attach_sameMap hρ hp hb).nblocks.trans nblocks_markUsed

/-- Exactly the new block is in use that was not. -/
theorem Sound.inUse_attach : (m.attach ρ b).InUse c ↔ m.InUse c ∨ c = b := by
  rw [(hs.attach_sameMap hρ hp hb).inUse, InUse, nblocks_markUsed,
    bit_markUsed, InUse]
  by_cases hc : c = b
  · subst hc
    simp [isFree_lt hb]
  · simp [hc]

/-- An attached block changes no field of its file but the pointer. -/
theorem Sound.field_attach {i : Nat} (hi : i < 34) :
    (m.attach ρ b).entry ρ.file.blk (ρ.file.off + i) =
      m.entry ρ.file.blk (ρ.file.off + i) := by
  rw [hs.entry_attach_of_rec hb hρ.1, if_neg]
  rintro ⟨h1, h2⟩
  rcases place_cases hρ.2 hp with ⟨_, h, _⟩ | ⟨h, h0, _⟩
  · omega
  · exact hs.blk_ne_ind hρ.1 hρ.1 h0 (h1.trans h)

theorem Sound.fIndirect_attach (hi : ρ ≠ .ind ρ.file) :
    (m.attach ρ b).fIndirect ρ.file = m.fIndirect ρ.file := by
  refine (hs.entry_attach_of_rec hb hρ.1).trans (if_neg ?_)
  rintro ⟨h1, h2⟩
  rcases hs.place_ne hρ hp (show m.Placed (.ind ρ.file) from trivial) rfl
    (Ne.symm hi) with h | h
  · exact h h1
  · exact h h2

theorem Sound.ref_attach_self : (m.attach ρ b).ref ρ = b := by
  by_cases hi : ρ = .ind ρ.file
  · have he : (m.attach ρ b).ref (.ind ρ.file) =
        ((m.attach ρ b).entry ρ.file.blk (ρ.file.off + 44)).toNat := rfl
    rw [← hi] at he
    rw [he, hs.entry_attach_of_rec hb hρ.1, if_pos, hs.ofNat_free hb]
    rw [hi]
    exact ⟨rfl, rfl⟩
  · have hf := hs.fIndirect_attach hρ hp hb hi
    rw [ref_eq_entry ((placed_congr hf).mpr hp), place_congr hf,
      entry_attach (hs.place_not_bitmap hρ hp) hb fun h =>
        (hs.place_inUse hρ hp).not_free (h ▸ hb),
      if_pos ⟨rfl, rfl⟩, hs.ofNat_free hb]

/-- The other pointers of the file stay. -/
theorem Sound.ref_attach_of_ne (h0 : m.ref ρ = 0) (hf : ρ'.file = ρ.file)
    (hok : ρ'.Ok)
    (hne : ρ' ≠ ρ) : (m.attach ρ b).ref ρ' = m.ref ρ' := by
  have hent : m.Placed ρ' → (m.attach ρ b).entry (m.place ρ').1 (m.place ρ').2 =
      m.entry (m.place ρ').1 (m.place ρ').2 := by
    intro hp'
    have hv' : m.Valid ρ' := ⟨hf ▸ hρ.1, hok⟩
    rw [entry_attach (hs.place_not_bitmap hv' hp') hb fun h =>
      (hs.place_inUse hv' hp').not_free (h ▸ hb), if_neg]
    rintro ⟨h1, h2⟩
    exact (hs.place_ne hρ hp hp' hf hne).elim (· h1) (· h2)
  by_cases hi : ρ = .ind ρ.file
  · rcases ρ' with ⟨f, k⟩ | f
    · obtain rfl : f = ρ.file := hf
      have hind : m.fIndirect ρ.file = 0 := by
        rw [hi] at h0
        exact BitVec.eq_of_toNat_eq h0
      by_cases hk : k < NDIRECT
      · have hent' := hent (.inl hk)
        rw [place_data_direct hk] at hent'
        simp only [ref, if_pos hk]
        exact congrArg BitVec.toNat hent'
      · -- the new indirect block is clear
        have hself : (m.attach ρ b).ref (.ind ρ.file) = b := by
          rw [← hi]
          exact hs.ref_attach_self hρ hp hb
        have hk' : k < NDIRECT + 1024 := hok
        have hz : (m.attach ρ b).entry b (k - NDIRECT) = 0 :=
          entry_of_zero (fun j hj => attach_zero hj) (by omega)
        have hself' : ((m.attach ρ b).fIndirect ρ.file).toNat = b := hself
        simp only [ref, if_neg hk, hind, if_true, hself', hz]
        split <;> rfl
    · obtain rfl : f = ρ.file := hf
      exact absurd hi.symm hne
  · exact ref_congr (hf ▸ hs.fIndirect_attach hρ hp hb hi) hent

theorem Sound.same_attach (hr : m.Rec r) (hne : r ≠ ρ.file) :
    Same m (m.attach ρ b) r :=
  hs.same_of_foot hρ.1 (fun _ _ _ hj => foot_attach hρ.2 hp hb hj) hr hne

theorem Sound.attach_evolves (h0 : m.ref ρ = 0) :
    Evolves m (m.attach ρ b) (some (ρ, b)) where
  nblocks := hs.nblocks_attach hρ hp hb
  reserved c hc := (hs.inUse_attach hρ hp hb).mpr (.inl (hs.inUse c hc))
  fType r hr := by
    by_cases hrf : r = ρ.file
    · rw [hrf]
      exact hs.field_attach hρ hp hb (by decide)
    · exact (hs.same_attach hρ hp hb hr hrf).fType
  ref ρ' hv := by
    by_cases hρ' : ρ' = ρ
    · subst hρ'
      rw [hs.ref_attach_self hρ hp hb]
      exact .inr (.inr rfl)
    · left
      refine ⟨?_, fun hne => (hs.inUse_attach hρ hp hb).mpr
        (.inl (hs.named ρ' hv hne).1)⟩
      by_cases hf : ρ'.file = ρ.file
      · exact hs.ref_attach_of_ne hρ hp hb h0 hf hv.2 hρ'
      · exact (hs.same_attach hρ hp hb hv.1 hf).ref hv.2
  fresh ρ' b' h := by
    simp only [Option.some.injEq, Prod.mk.injEq] at h
    obtain ⟨rfl, rfl⟩ := h
    exact ⟨hb, (hs.inUse_attach hρ hp hb).mpr (.inr rfl), fun j hj =>
      attach_zero hj⟩

end Attach

/-! ## Detaching a block -/

section Detach

variable (hs : m.Sound) (hρ : m.Valid ρ) (h0 : m.ref ρ ≠ 0)
include hs hρ h0

theorem Sound.detach_sameMap : SameMap (m.markFree (m.ref ρ)) (m.detach ρ) := by
  refine .setEntry ?_ (hs.place_ne_super hρ (placed_of_ref h0))
  rw [reserved_congr nblocks_markFree]
  exact hs.place_not_bitmap hρ (placed_of_ref h0)

theorem Sound.nblocks_detach : (m.detach ρ).nblocks = m.nblocks :=
  (hs.detach_sameMap hρ h0).nblocks.trans nblocks_markFree

/-- Exactly the block that was named is no longer in use. -/
theorem Sound.inUse_detach :
    (m.detach ρ).InUse c ↔ m.InUse c ∧ c ≠ m.ref ρ := by
  rw [(hs.detach_sameMap hρ h0).inUse, InUse, nblocks_markFree,
    bit_markFree, InUse]
  by_cases hc : c = m.ref ρ <;> simp [hc]

theorem Sound.entry_detach_of_rec (hr : m.Rec r) {i : Nat} :
    (m.detach ρ).entry r.blk i =
      if r.blk = (m.place ρ).1 ∧ i = (m.place ρ).2 then 0 else
        m.entry r.blk i :=
  entry_detach (hs.blk_not_bitmap hr) (hs.named ρ hρ h0).1.1

theorem Sound.field_detach {i : Nat} (hi : i < 34) :
    (m.detach ρ).entry ρ.file.blk (ρ.file.off + i) =
      m.entry ρ.file.blk (ρ.file.off + i) := by
  rw [hs.entry_detach_of_rec hρ h0 hρ.1, if_neg]
  rintro ⟨h1, h2⟩
  rcases place_cases hρ.2 (placed_of_ref h0) with ⟨_, h, _⟩ | ⟨h, hne, _⟩
  · omega
  · exact hs.blk_ne_ind hρ.1 hρ.1 hne (h1.trans h)

theorem Sound.fIndirect_detach (hi : ρ ≠ .ind ρ.file) :
    (m.detach ρ).fIndirect ρ.file = m.fIndirect ρ.file := by
  refine (hs.entry_detach_of_rec hρ h0 hρ.1).trans (if_neg ?_)
  rintro ⟨h1, h2⟩
  rcases hs.place_ne hρ (placed_of_ref h0)
    (show m.Placed (.ind ρ.file) from trivial) rfl
    (Ne.symm hi)
    with h | h
  · exact h h1
  · exact h h2

theorem Sound.fIndirect_detach_ind (hi : ρ = .ind ρ.file) :
    (m.detach ρ).fIndirect ρ.file = 0 := by
  refine (hs.entry_detach_of_rec hρ h0 hρ.1).trans (if_pos ?_)
  rw [hi]
  exact ⟨rfl, rfl⟩

theorem Sound.ref_detach_self : (m.detach ρ).ref ρ = 0 := by
  cases ρ with
  | ind f => exact congrArg BitVec.toNat (hs.fIndirect_detach_ind hρ h0 rfl)
  | data f k =>
      have hp := placed_of_ref h0
      have hf := hs.fIndirect_detach hρ h0 nofun
      rw [ref_eq_entry ((placed_congr hf).mpr hp), place_congr hf,
        entry_detach (hs.place_not_bitmap hρ hp) (hs.named _ hρ h0).1.1,
        if_pos ⟨rfl, rfl⟩]
      rfl

/-- The other pointers of the file stay, but the entries of an indirect block go
with it. -/
theorem Sound.ref_detach_of_ne (hf : ρ'.file = ρ.file) (hok : ρ'.Ok)
    (hne : ρ' ≠ ρ) :
    (m.detach ρ).ref ρ' = m.ref ρ' ∨ (m.detach ρ).ref ρ' = 0 ∧ ρ = .ind ρ.file ∧
      ∃ k, NDIRECT ≤ k ∧ ρ' = .data ρ.file k := by
  have hent : m.Placed ρ' → (m.detach ρ).entry (m.place ρ').1 (m.place ρ').2 =
      m.entry (m.place ρ').1 (m.place ρ').2 := by
    intro hp'
    have hv' : m.Valid ρ' := ⟨hf ▸ hρ.1, hok⟩
    rw [entry_detach (hs.place_not_bitmap hv' hp')
      (hs.named ρ hρ h0).1.1, if_neg]
    rintro ⟨h1, h2⟩
    exact (hs.place_ne hρ (placed_of_ref h0) hp' hf hne).elim (· h1) (· h2)
  by_cases hi : ρ = .ind ρ.file
  · rcases ρ' with ⟨f, k⟩ | f
    · obtain rfl : f = ρ.file := hf
      by_cases hk : k < NDIRECT
      · have hent' := hent (.inl hk)
        rw [place_data_direct hk] at hent'
        left
        simp only [ref, if_pos hk]
        exact congrArg BitVec.toNat hent'
      · right
        refine ⟨?_, hi, k, Nat.not_lt.mp hk, rfl⟩
        simp only [ref, if_neg hk, hs.fIndirect_detach_ind hρ h0 hi, if_true]
    · obtain rfl : f = ρ.file := hf
      exact absurd hi.symm hne
  · exact .inl (ref_congr (hf ▸ hs.fIndirect_detach hρ h0 hi) hent)

theorem Sound.same_detach (hr : m.Rec r) (hne : r ≠ ρ.file) :
    Same m (m.detach ρ) r :=
  hs.same_of_foot hρ.1
    (fun _ _ _ hj => foot_detach hρ.2 (placed_of_ref h0) (hs.named ρ hρ h0).1.1
    hj) hr hne

theorem Sound.detach_evolves : Evolves m (m.detach ρ) none where
  nblocks := hs.nblocks_detach hρ h0
  reserved c hc := (hs.inUse_detach hρ h0).mpr
    ⟨hs.inUse c hc, fun h => (hs.named ρ hρ h0).2 (h ▸ hc)⟩
  fType r hr := by
    by_cases hrf : r = ρ.file
    · rw [hrf]
      exact hs.field_detach hρ h0 (by decide)
    · exact (hs.same_detach hρ h0 hr hrf).fType
  ref ρ' hv := by
    by_cases hρ' : ρ' = ρ
    · rw [hρ']
      exact .inr (.inl (hs.ref_detach_self hρ h0))
    · have huse : m.ref ρ' ≠ 0 → (m.detach ρ).InUse (m.ref ρ') := fun hne =>
        (hs.inUse_detach hρ h0).mpr
          ⟨(hs.named ρ' hv hne).1, fun he => hρ' (hs.inj ρ' ρ hv hρ hne he)⟩
      by_cases hf : ρ'.file = ρ.file
      · rcases hs.ref_detach_of_ne hρ h0 hf hv.2 hρ' with h | ⟨h, _⟩
        · exact .inl ⟨h, huse⟩
        · exact .inr (.inl h)
      · exact .inl ⟨(hs.same_detach hρ h0 hv.1 hf).ref hv.2, huse⟩
  fresh _ _ h := nomatch h

end Detach

/-! ## Sizes, names and data -/

/-- A change that leaves the bitmap, the types and the pointers alone. -/
theorem Sound.evolves_of_same (hs : m.Sound) (hmap : SameMap m m')
    (ht : ∀ r, m.Rec r → m'.fType r = m.fType r)
    (href : ∀ ρ, m.Valid ρ → m'.ref ρ = m.ref ρ) : Evolves m m' none where
  nblocks := hmap.nblocks
  reserved b hb := hmap.inUse.mpr (hs.inUse b hb)
  fType := ht
  ref ρ hv := .inl ⟨href ρ hv, fun hne => hmap.inUse.mpr (hs.named ρ hv hne).1⟩
  fresh _ _ h := nomatch h

/-- `f->f_size = v`. -/
def setSize (m : PhysMem) (f : FilePtr) (v : Word) : PhysMem :=
  m.setEntry f.blk (f.off + 32) v

@[simp] theorem fSize_setSize {v : Word} : (m.setSize f v).fSize f = v :=
  entry_setEntry_self

theorem entry_setSize {v : Word} {i : Nat} (h : c ≠ f.blk ∨ i ≠ f.off + 32) :
    (m.setSize f v).entry c i = m.entry c i := entry_setEntry_ne h

theorem fType_setSize {v : Word} : (m.setSize f v).fType f = m.fType f :=
  entry_setSize (.inr (by omega))

theorem foot_setSize {v : Word} {j : Nat} (hj : ¬m.Foot f c j) :
    m.setSize f v c j = m c j :=
  setEntry_foot (a := (f.blk, f.off + 32))
    (fun i hi =>
    .inr (.inl ⟨rfl, by simp only at hi; omega, by simp only at hi; omega⟩)) hj

theorem Sound.same_setSize {v : Word} (hs : m.Sound) (hf : m.Rec f)
    (hr : m.Rec r)
    (hne : r ≠ f) : Same m (m.setSize f v) r :=
  hs.same_of_foot hf (fun _ _ _ hj => foot_setSize hj) hr hne

theorem Sound.ref_setSize {v : Word} (hs : m.Sound) (hf : m.Rec f)
    (hρ : m.Valid ρ) :
    (m.setSize f v).ref ρ = m.ref ρ := by
  by_cases hρf : ρ.file = f
  · subst hρf
    refine ref_congr (entry_setSize (.inr (by omega))) fun hp =>
      entry_setSize ?_
    rcases place_cases hρ.2 hp with ⟨_, h, _⟩ | ⟨h, h0, _⟩
    · right
      omega
    · left
      rw [h]
      exact (hs.blk_ne_ind hf hf h0).symm
  · exact (hs.same_setSize hf hρ.1 hρf).ref hρ.2

theorem Sound.setSize_sameMap {v : Word} (hs : m.Sound) (hf : m.Rec f) :
    SameMap m (m.setSize f v) :=
  .setEntry (a := (f.blk, f.off + 32)) (hs.blk_not_bitmap hf)
    (.inr (by simp only; omega))

theorem Sound.setSize_evolves {v : Word} (hs : m.Sound) (hf : m.Rec f) :
    Evolves m (m.setSize f v) none := by
  refine hs.evolves_of_same (hs.setSize_sameMap hf) (fun r hr => ?_) fun ρ hρ =>
    hs.ref_setSize hf hρ
  by_cases hrf : r = f
  · rw [hrf]
    exact fType_setSize
  · exact (hs.same_setSize hf hr hrf).fType

/-- `f->f_name` becomes the characters of `name`. -/
def putName (m : PhysMem) (f : FilePtr) (name : List (BitVec 8)) : PhysMem :=
  Function.update m f.blk ((m f.blk).copy (4 * f.off) (name.getD · 0) 0
    (name.length + 1))

theorem putName_byte {name : List (BitVec 8)} {j : Nat}
    (h : c ≠ f.blk ∨ j < 4 * f.off ∨ 4 * f.off + name.length + 1 ≤ j) :
    m.putName f name c j = m c j := by
  by_cases hc : c = f.blk
  · subst hc
    rw [putName, Function.update_self, Bytes.copy_of_ne (by omega)]
  · rw [putName, Function.update_of_ne hc]

theorem entry_putName {name : List (BitVec 8)}
    (hn : name.length < MAXNAMELEN) {i : Nat}
    (h : c ≠ f.blk ∨ i < f.off ∨ f.off + 32 ≤ i) :
    (m.putName f name).entry c i = m.entry c i := by
  have hm : MAXNAMELEN = 128 := rfl
  exact Bytes.load32_congr fun j hj hj' => putName_byte (by omega)

theorem foot_putName {name : List (BitVec 8)}
    (hn : name.length < MAXNAMELEN) {j : Nat}
    (hj : ¬m.Foot f c j) : m.putName f name c j = m c j := by
  have hm : MAXNAMELEN = 128 := rfl
  apply putName_byte
  by_contra hc
  push Not at hc
  exact hj (.inr (.inl ⟨hc.1, by omega, by omega⟩))

theorem Sound.same_putName {name : List (BitVec 8)}
    (hn : name.length < MAXNAMELEN)
    (hs : m.Sound) (hf : m.Rec f) (hr : m.Rec r) (hne : r ≠ f) :
    Same m (m.putName f name) r :=
  hs.same_of_foot hf (fun _ _ _ hj => foot_putName hn hj) hr hne

theorem Sound.ref_putName {name : List (BitVec 8)}
    (hn : name.length < MAXNAMELEN)
    (hs : m.Sound) (hf : m.Rec f) (hρ : m.Valid ρ) :
    (m.putName f name).ref ρ = m.ref ρ := by
  by_cases hρf : ρ.file = f
  · subst hρf
    refine ref_congr (entry_putName hn (.inr (.inr (by omega)))) fun hp =>
      entry_putName hn ?_
    rcases place_cases hρ.2 hp with ⟨_, h, _⟩ | ⟨h, h0, _⟩
    · right
      right
      omega
    · left
      rw [h]
      exact (hs.blk_ne_ind hf hf h0).symm
  · exact (hs.same_putName hn hf hρ.1 hρf).ref hρ.2

theorem Sound.putName_sameMap {name : List (BitVec 8)}
    (hn : name.length < MAXNAMELEN)
    (hs : m.Sound) (hf : m.Rec f) : SameMap m (m.putName f name) where
  nblocks := by
    rw [PhysMem.nblocks, entry_putName hn, PhysMem.nblocks]
    obtain rfl | ⟨p, k, j, _, hv, _, _, rfl⟩ := hf.cases
    · exact .inr (.inl (by decide))
    · exact .inl (hs.ref_ne_one hv).symm
  bit b hb := by
    have hne : (bitmapAt b).1 ≠ f.blk := fun h =>
      hs.blk_not_bitmap hf (h ▸ ⟨two_le_bitmapAt, reserved_bitmapAt hb⟩)
    rw [PhysMem.bit, entry_putName hn (.inl hne), PhysMem.bit]

theorem Sound.putName_evolves {name : List (BitVec 8)}
    (hn : name.length < MAXNAMELEN)
    (hs : m.Sound) (hf : m.Rec f) : Evolves m (m.putName f name) none := by
  refine hs.evolves_of_same (hs.putName_sameMap hn hf) (fun r hr => ?_)
    fun ρ hρ => hs.ref_putName hn hf hρ
  by_cases hrf : r = f
  · rw [hrf]
    exact entry_putName hn (.inr (.inr (by omega)))
  · exact (hs.same_putName hn hf hr hrf).fType

/-- Data is stored in a block of a file that is not a directory. -/
theorem Sound.same_fill (hs : m.Sound) (hf : m.Rec f)
    (ht : m.fType f ≠ FTYPE_DIR) {k : Nat}
    (hk : k < NDIRECT + NINDIRECT) (h0 : m.ref (.data f k) ≠ 0)
    (h : ∀ c j, j < BLKSIZE → c ≠ m.ref (.data f k) → m' c j = m c j)
    (hr : m.Rec r) :
    Same m m' r where
  record j hj hj' := by
    refine h _ j (Nat.lt_of_lt_of_le hj' hr.off_le) fun he => ?_
    obtain ⟨p, _, _, hp, hpk, _⟩ := hs.blk_eq_ref hr (.data hf hk) h0 he
    obtain ⟨rfl, _⟩ := Role.data.inj hpk
    exact ht (hs.isDir_type hp)
  indirect hi j hj := by
    refine h _ j hj fun he => ?_
    have hi' : m.ref (.ind r) ≠ 0 := fun h' => hi (BitVec.eq_of_toNat_eq h')
    exact nomatch hs.inj _ _ (.ind hr) (.data hf hk) hi' he

theorem Sound.fill_evolves (hs : m.Sound) (hf : m.Rec f)
    (ht : m.fType f ≠ FTYPE_DIR) {k : Nat}
    (hk : k < NDIRECT + NINDIRECT) (h0 : m.ref (.data f k) ≠ 0)
    (h : ∀ c j, j < BLKSIZE → c ≠ m.ref (.data f k) → m' c j = m c j) :
    Evolves m m' none := by
  have hn := hs.named _ (.data hf hk) h0
  refine hs.evolves_of_same ?_
    (fun r hr => (hs.same_fill hf ht hk h0 h hr).fType)
    fun ρ hρ => (hs.same_fill hf ht hk h0 h hρ.1).ref hρ.2
  have hb : BLKSIZE = 4096 := rfl
  constructor
  · have h1 : 1 ≠ m.ref (.data f k) := (hs.ref_ne_one (.data hf hk)).symm
    exact congrArg BitVec.toNat (Bytes.load32_congr fun j _ _ =>
      h _ j (by omega) h1)
  · intro b hb'
    have hne : (bitmapAt b).1 ≠ m.ref (.data f k) := fun he =>
      hn.2 (he ▸ reserved_bitmapAt hb')
    have hlt : (bitmapAt b).2 < 1024 := Nat.mod_lt _ (by decide)
    have he : m'.entry (bitmapAt b).1 (bitmapAt b).2 =
        m.entry (bitmapAt b).1 (bitmapAt b).2 :=
      Bytes.load32_congr fun j _ _ => h _ j (by omega) hne
    simp only [PhysMem.bit, he]

/-! ## Records that stay -/

/-- A directory is at one depth only. -/
theorem Sound.dirAt_unique (hs : m.Sound) {i : Nat} (h : m.DirAt n d)
    (h' : m.DirAt i d) :
    n = i := by
  induction n generalizing d i with
  | zero =>
      cases i with
      | zero => rfl
      | succ i =>
          obtain rfl : d = ROOT := h
          obtain ⟨p, k, j, hp, hk, _, _, hd, _⟩ := h'
          exact absurd (congrArg FilePtr.blk hd).symm
            (hs.ref_ne_one (.data (IsDir.record ⟨i, hp⟩) hk))
  | succ n ih =>
      obtain ⟨p, k, j, hp, hk, _, hne, hd, _⟩ := h
      have hv : m.Valid (.data p k) := .data (IsDir.record ⟨n, hp⟩) hk
      cases i with
      | zero =>
          obtain rfl : d = ROOT := h'
          exact absurd (congrArg FilePtr.blk hd).symm (hs.ref_ne_one hv)
      | succ i =>
          obtain ⟨p', k', j', hp', hk', _, _, hd', _⟩ := h'
          have hblk : m.ref (.data p k) = m.ref (.data p' k') :=
            congrArg FilePtr.blk (hd.symm.trans hd')
          obtain ⟨rfl, _⟩ := Role.data.inj
            (hs.inj _ _ hv (.data (IsDir.record ⟨i, hp'⟩) hk') hne hblk)
          rw [ih hp hp']

/-- A change of the pointers of `f` alone leaves `f` a record: the directories
above it are others. -/
theorem Sound.record_self (hs : m.Sound) (hf : m.Rec f)
    (href : ∀ ρ, m.Valid ρ → ρ.file ≠ f → m'.ref ρ = m.ref ρ)
    (ht : ∀ r, m.Rec r → m'.fType r = m.fType r) : m'.Rec f := by
  obtain rfl | ⟨p, k, j, ⟨n, hp⟩, hk, hj, hne, hfe⟩ := hf
  · exact .inl rfl
  · have hself : ∀ i, i ≤ n → ¬m.DirAt i f := by
      intro i hi hd
      have htf : m.fType f = FTYPE_DIR := hs.isDir_type ⟨i, hd⟩
      have hd' : m.DirAt (n + 1) f := ⟨p, k, j, hp, hk, hj, hne, hfe, htf⟩
      have := hs.dirAt_unique hd hd'
      omega
    have hup : ∀ i, i ≤ n → ∀ d, m.DirAt i d → m'.DirAt i d := by
      intro i
      induction i with
      | zero => exact fun _ _ h => h
      | succ i ih =>
          rintro hi d ⟨p', k', j', hp', hk', hj', hne', rfl, ht'⟩
          have hpf : p' ≠ f := fun h => hself i (by omega) (h ▸ hp')
          have hr := href (.data p' k') (.data (IsDir.record ⟨i, hp'⟩) hk') hpf
          refine ⟨p', k', j', ih (by omega) p' hp', hk', hj', ?_, ?_, ?_⟩
          · rwa [hr]
          · rw [hr]
          · rw [ht _ (.inr ⟨p', k', j', ⟨i, hp'⟩, hk', hj', hne', rfl⟩)]
            exact ht'
    have hpf : p ≠ f := fun h => hself n le_rfl (h ▸ hp)
    have hr := href (.data p k) (.data (IsDir.record ⟨n, hp⟩) hk) hpf
    exact .inr ⟨p, k, j, ⟨n, hup n le_rfl p hp⟩, hk, hj, by rwa [hr],
      by rw [hr, hfe]⟩

theorem Sound.sound_setSize {v : Word} (hs : m.Sound) (hf : m.Rec f) :
    (m.setSize f v).Sound ∧ (m.setSize f v).Rec f :=
  ⟨(hs.setSize_evolves hf).sound hs,
    hs.record_self hf (fun _ hρ _ => hs.ref_setSize hf hρ)
    fun r hr => (hs.setSize_evolves hf).fType r hr⟩

/-- Where directories keep their blocks, they keep their records. -/
theorem record_mono
    (href : ∀ p k, m.IsDir p → k < NDIRECT + NINDIRECT → m.ref (.data p k) ≠ 0 →
      m'.ref (.data p k) = m.ref (.data p k))
    (ht : ∀ r, m.Rec r → m'.fType r = m.fType r) (hr : m.Rec r) : m'.Rec r := by
  have hdir : ∀ n d, m.DirAt n d → m'.DirAt n d := by
    intro n
    induction n with
    | zero => exact fun _ h => h
    | succ n ih =>
        rintro d ⟨p, k, j, hp, hk, hj, hne, rfl, ht'⟩
        have hrp := href p k ⟨n, hp⟩ hk hne
        refine ⟨p, k, j, ih p hp, hk, hj, by rwa [hrp], by rw [hrp], ?_⟩
        rw [ht _ (.inr ⟨p, k, j, ⟨n, hp⟩, hk, hj, hne, rfl⟩)]
        exact ht'
  obtain rfl | ⟨p, k, j, ⟨n, hp⟩, hk, hj, hne, rfl⟩ := hr
  · exact .inl rfl
  · have hrp := href p k ⟨n, hp⟩ hk hne
    exact .inr ⟨p, k, j, ⟨n, hdir n p hp⟩, hk, hj, by rwa [hrp], by rw [hrp]⟩

/-! ## Edits of a file -/

/-- How a file can be edited. -/
inductive Kind where
  | attach
  | detach
  | size (v : Word)
  | name
  | fill

/-- Every data pointer at or beyond the size of `f` is 0. -/
def TailZero (m : PhysMem) (f : FilePtr) : Prop :=
  ∀ k, (roundBlocks (m.fSize f)).toNat ≤ k → k < NDIRECT + NINDIRECT →
    m.ref (.data f k) = 0

/-- An edit of `f` of a kind in `K`. A block that is attached is the first free
one; an indirect block is not detached while it names blocks, unless the file
had blocks beyond its size. -/
inductive Edit (K : Kind → Prop) (f : FilePtr) (m : PhysMem) :
    PhysMem → Prop where
  | attach {ρ : Role} {b : Nat} : K .attach → ρ.file = f → ρ.Ok → m.Placed ρ →
      m.ref ρ = 0 → m.isFree b →
      (∀ c, c < b → ¬m.isFree c) → Edit K f m (m.attach ρ b)
  | detach {ρ : Role} : K .detach → ρ.file = f → ρ.Ok → m.ref ρ ≠ 0 →
      (ρ = .ind f → m.TailZero f →
        ∀ k, NDIRECT ≤ k → k < NDIRECT + NINDIRECT → m.ref (.data f k) = 0) →
      Edit K f m (m.detach ρ)
  | setSize {v : Word} : K (.size v) →
      (m.TailZero f → (m.fSize f).toNat < 2 ^ 31 → (m.setSize f v).TailZero f) →
      Edit K f m (m.setSize f v)
  | putName {name : List (BitVec 8)} :
      K .name → name.length < MAXNAMELEN → Edit K f m (m.putName f name)
  | fill {k : Nat} {t : PhysMem} :
      K .fill → m.fType f ≠ FTYPE_DIR → k < NDIRECT + NINDIRECT →
      m.ref (.data f k) ≠ 0 →
      (∀ c j, j < BLKSIZE → c ≠ m.ref (.data f k) → t c j = m c j) →
      Edit K f m t

/-- A run of edits of `f`. -/
def Edits (K : Kind → Prop) (f : FilePtr) : PhysMem → PhysMem → Prop :=
  Relation.ReflTransGen (Edit K f)

section Edit

variable {K K' : Kind → Prop}

theorem Edit.mono (hK : ∀ k, K k → K' k) (h : Edit K f m m') :
    Edit K' f m m' := by
  cases h with
  | attach k h1 h2 h3 h4 h5 h6 => exact .attach (hK _ k) h1 h2 h3 h4 h5 h6
  | detach k h1 h2 h3 h4 => exact .detach (hK _ k) h1 h2 h3 h4
  | setSize k h1 => exact .setSize (hK _ k) h1
  | putName k h1 => exact .putName (hK _ k) h1
  | fill k h1 h2 h3 h4 => exact .fill (hK _ k) h1 h2 h3 h4

theorem Edits.mono (hK : ∀ k, K k → K' k) (h : Edits K f m m') :
    Edits K' f m m' :=
  Relation.ReflTransGen.mono (fun _ _ => Edit.mono hK) _ _ h

theorem Edits.refl (K : Kind → Prop) (f : FilePtr) (m : PhysMem) :
    Edits K f m m :=
  Relation.ReflTransGen.refl

theorem Edits.trans {m'' : PhysMem} (h : Edits K f m m')
    (h' : Edits K f m' m'') :
    Edits K f m m'' := Relation.ReflTransGen.trans h h'

theorem Edits.one (h : Edit K f m m') : Edits K f m m' :=
  Relation.ReflTransGen.single h

theorem Edit.evolves (hs : m.Sound) (hf : m.Rec f) (h : Edit K f m m') :
    ∃ new, Evolves m m' new ∧ ∀ ρ b, new = some (ρ, b) → ρ.file = f := by
  cases h with
  | attach _ hfile hok hp h0 hb _ =>
      subst hfile
      refine ⟨_, hs.attach_evolves ⟨hf, hok⟩ hp hb h0, ?_⟩
      rintro ρ b ⟨⟩
      rfl
  | detach _ hfile hok h0 _ =>
      subst hfile
      exact ⟨_, hs.detach_evolves ⟨hf, hok⟩ h0, nofun⟩
  | setSize _ _ => exact ⟨_, hs.setSize_evolves hf, nofun⟩
  | putName _ hn => exact ⟨_, hs.putName_evolves hn hf, nofun⟩
  | fill _ ht hk h0 h => exact ⟨_, hs.fill_evolves hf ht hk h0 h, nofun⟩

/-- An edit of `f` stays in its footprint. -/
theorem Edit.foot (hs : m.Sound) (hf : m.Rec f) (h : Edit K f m m') {j : Nat}
    (hj : j < BLKSIZE)
    (hno : ¬m.Foot f c j) : m' c j = m c j := by
  cases h with
  | attach _ hfile hok hp _ hb _ =>
      subst hfile
      exact foot_attach hok hp hb hno
  | detach _ hfile hok h0 _ =>
      subst hfile
      exact foot_detach hok (placed_of_ref h0) (hs.named _ ⟨hf, hok⟩ h0).1.1 hno
  | setSize _ _ => exact foot_setSize hno
  | putName _ hn => exact foot_putName hn hno
  | fill _ ht hk h0 h =>
      refine h _ _ hj fun hc =>
        hno (.inr (.inr (.inr (.inr ⟨ht, _, hk, ?_, hc⟩))))
      rwa [hc]

/-- The records of other files stay as they are. -/
theorem Edit.same (hs : m.Sound) (hf : m.Rec f) (h : Edit K f m m')
    (hr : m.Rec r)
    (hne : r ≠ f) : Same m m' r :=
  hs.same_of_foot hf (fun _ _ hj hno => h.foot hs hf hj hno) hr hne

theorem Edit.fType (hs : m.Sound) (hf : m.Rec f) (h : Edit K f m m')
    (hr : m.Rec r) :
    m'.fType r = m.fType r := by
  obtain ⟨_, he, _⟩ := h.evolves hs hf
  exact he.fType r hr

theorem Edit.sound (hs : m.Sound) (hf : m.Rec f) (h : Edit K f m m') :
    m'.Sound := by
  obtain ⟨_, he, _⟩ := h.evolves hs hf
  exact he.sound hs

theorem Edit.record_self (hs : m.Sound) (hf : m.Rec f) (h : Edit K f m m') :
    m'.Rec f :=
  hs.record_self hf (fun _ hρ hne => (h.same hs hf hρ.1 hne).ref hρ.2)
    fun _ hr => h.fType hs hf hr

theorem Edits.sound (hs : m.Sound) (hf : m.Rec f) (h : Edits K f m m') :
    m'.Sound ∧ m'.Rec f := by
  induction h with
  | refl => exact ⟨hs, hf⟩
  | tail _ h ih => exact ⟨h.sound ih.1 ih.2, h.record_self ih.1 ih.2⟩

theorem Edits.fType (hs : m.Sound) (hf : m.Rec f) (h : Edits K f m m') :
    m'.fType f = m.fType f := by
  induction h with
  | refl => rfl
  | tail h h' ih =>
      obtain ⟨hs', hf'⟩ := Edits.sound hs hf h
      exact (h'.fType hs' hf' hf').trans ih

end Edit

end PhysMem

end Jos
