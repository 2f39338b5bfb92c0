import Jos.Fs.File

/-!
# What is on a well-formed disk

The pointers of a file system and the blocks they name. A record is the root or
a `struct File` in a data block of a directory, live or not; `DirAt n` are the
directories `n` levels below the root. `Sound` says that no block is named
twice and that what is named is in use and not reserved. All else that
keeps two files apart follows from it: `Sound.same_of_foot` is the frame rule.
-/

namespace Jos

/-! ## Pointers -/

/-- A block pointer of a file: to its `k`th data block, or to its indirect
block. -/
inductive Role where
  | data (f : FilePtr) (k : Nat)
  | ind (f : FilePtr)
deriving DecidableEq

namespace Role

/-- The file a pointer belongs to. -/
def file : Role → FilePtr
  | .data f _ => f
  | .ind f => f

/-- A file has `NDIRECT + NINDIRECT` data blocks. -/
def Ok : Role → Prop
  | .data _ k => k < NDIRECT + NINDIRECT
  | .ind _ => True

end Role

namespace PhysMem

/-- The block and the word in it that hold a pointer. -/
def place (m : PhysMem) : Role → Nat × Nat
  | .data f k =>
      if k < NDIRECT then (f.blk, f.off + 34 + k) else
        ((m.fIndirect f).toNat, k - NDIRECT)
  | .ind f => f.indirectAt

/-- The block number a pointer holds. -/
def ref (m : PhysMem) : Role → Nat
  | .data f k =>
      if k < NDIRECT then (m.fDirect f k).toNat
      else if m.fIndirect f = 0 then 0
      else (m.entry (m.fIndirect f).toNat (k - NDIRECT)).toNat
  | .ind f => (m.fIndirect f).toNat

/-- `d` is a directory `n` levels below the root. -/
def DirAt (m : PhysMem) : Nat → FilePtr → Prop
  | 0, d => d = ROOT
  | n + 1, d => ∃ p k j, DirAt m n p ∧ k < NDIRECT + NINDIRECT ∧ j < BLKFILES ∧
      m.ref (.data p k) ≠ 0 ∧ d = slot (m.ref (.data p k)) j ∧
      m.fType d = FTYPE_DIR

def IsDir (m : PhysMem) (d : FilePtr) : Prop := ∃ n, m.DirAt n d

/-- `r` is the root, or a `struct File` in a directory. -/
def Rec (m : PhysMem) (r : FilePtr) : Prop :=
  r = ROOT ∨ ∃ p k j, m.IsDir p ∧ k < NDIRECT + NINDIRECT ∧ j < BLKFILES ∧
    m.ref (.data p k) ≠ 0 ∧ r = slot (m.ref (.data p k)) j

/-- A pointer of a record. -/
def Valid (m : PhysMem) (ρ : Role) : Prop := m.Rec ρ.file ∧ ρ.Ok

/-- No block is named twice, and what is named is in use and not reserved. -/
structure Sound (m : PhysMem) : Prop extends MapOk m where
  rootDir : m.fType ROOT = FTYPE_DIR
  typeOk : ∀ r, m.Rec r → m.fType r = FTYPE_REG ∨ m.fType r = FTYPE_DIR
  named : ∀ ρ, m.Valid ρ → m.ref ρ ≠ 0 → m.InUse (m.ref ρ) ∧
    ¬m.Reserved (m.ref ρ)
  inj : ∀ ρ ρ', m.Valid ρ → m.Valid ρ' → m.ref ρ ≠ 0 →
    m.ref ρ = m.ref ρ' → ρ = ρ'

/-- The record of `r` and its indirect block are the same in `m'`. -/
structure Same (m m' : PhysMem) (r : FilePtr) : Prop where
  record : ∀ j, 4 * r.off ≤ j → j < 4 * r.off + 256 → m' r.blk j = m r.blk j
  indirect : m.fIndirect r ≠ 0 →
    ∀ j, j < BLKSIZE → m' (m.fIndirect r).toNat j = m (m.fIndirect r).toNat j

/-- The bytes that an operation on `f` may change: the bitmap, the record, the
indirect block, free blocks and, unless `f` is a directory, its data. -/
def Foot (m : PhysMem) (f : FilePtr) (c j : Nat) : Prop :=
  2 ≤ c ∧ m.Reserved c ∨ c = f.blk ∧ 4 * f.off ≤ j ∧ j < 4 * f.off + 256 ∨
    m.isFree c ∨
    c ≠ 0 ∧ c = m.ref (.ind f) ∨
    m.fType f ≠ FTYPE_DIR ∧ ∃ k, k < NDIRECT + NINDIRECT ∧ c ≠ 0 ∧
    c = m.ref (.data f k)

variable {m m' : PhysMem} {r f d : FilePtr} {ρ ρ' : Role} {b n : Nat}

/-! ## Directories and records -/

theorem IsDir.root (m : PhysMem) : m.IsDir ROOT := ⟨0, rfl⟩

theorem IsDir.record (h : m.IsDir d) : m.Rec d := by
  obtain ⟨n, hn⟩ := h
  cases n with
  | zero => exact .inl hn
  | succ n =>
      obtain ⟨p, k, j, hp, hk, hj, hne, hd, _⟩ := hn
      exact .inr ⟨p, k, j, ⟨n, hp⟩, hk, hj, hne, hd⟩

theorem Rec.isDir (h : m.Rec d) (ht : m.fType d = FTYPE_DIR) : m.IsDir d := by
  obtain rfl | ⟨p, k, j, ⟨n, hn⟩, hk, hj, hne, hd⟩ := h
  · exact IsDir.root m
  · exact ⟨n + 1, p, k, j, hn, hk, hj, hne, hd, ht⟩

theorem Sound.isDir_type (hs : m.Sound) (h : m.IsDir d) :
    m.fType d = FTYPE_DIR := by
  obtain ⟨n, hn⟩ := h
  cases n with
  | zero => rw [show d = ROOT from hn]; exact hs.rootDir
  | succ n => exact hn.choose_spec.choose_spec.choose_spec.2.2.2.2.2

theorem Valid.data (h : m.Rec r) {k : Nat} (hk : k < NDIRECT + NINDIRECT) :
    m.Valid (.data r k) := ⟨h, hk⟩

theorem Valid.ind (h : m.Rec r) : m.Valid (.ind r) := ⟨h, trivial⟩

/-- A record is the root, or in a block that a directory names. -/
theorem Rec.cases (h : m.Rec r) :
    r = ROOT ∨ ∃ p k j, m.IsDir p ∧ m.Valid (.data p k) ∧
    j < BLKFILES ∧ m.ref (.data p k) ≠ 0 ∧ r = slot (m.ref (.data p k)) j := by
  obtain rfl | ⟨p, k, j, hp, hk, hj, hne, hr⟩ := h
  · exact .inl rfl
  · exact .inr ⟨p, k, j, hp, .data hp.record hk, hj, hne, hr⟩

theorem Rec.off_le (h : m.Rec r) : 4 * r.off + 256 ≤ BLKSIZE := by
  obtain rfl | ⟨p, k, j, _, _, hj, _, rfl⟩ := h
  · decide
  · simp only [slot, BLKSIZE, PGSIZE]
    have : BLKFILES = 16 := rfl
    omega

/-! ## What is apart -/

theorem reserved_one (m : PhysMem) : m.Reserved 1 := .inl (by decide)

theorem Sound.ref_ne_one (hs : m.Sound) (hρ : m.Valid ρ) : m.ref ρ ≠ 1 := by
  intro h
  exact (hs.named ρ hρ (by omega)).2 (by rw [h]; exact reserved_one m)

theorem Sound.blk_inUse (hs : m.Sound) (h : m.Rec r) : m.InUse r.blk := by
  obtain rfl | ⟨p, k, j, _, hv, _, hne, rfl⟩ := h.cases
  · exact hs.inUse 1 (reserved_one m)
  · exact (hs.named _ hv hne).1

/-- A record is not in the bitmap. -/
theorem Sound.blk_not_bitmap (hs : m.Sound) (h : m.Rec r) :
    ¬(2 ≤ r.blk ∧ m.Reserved r.blk) := by
  obtain rfl | ⟨p, k, j, _, hv, _, hne, rfl⟩ := h.cases
  · exact fun hr => absurd hr.1 (by decide)
  · exact fun hr => (hs.named _ hv hne).2 hr.2

/-- The block of a record is named by a directory only, for its data. -/
theorem Sound.blk_eq_ref (hs : m.Sound) (h : m.Rec r) (hρ : m.Valid ρ)
    (hne : m.ref ρ ≠ 0)
    (he : r.blk = m.ref ρ) : ∃ p k j, m.IsDir p ∧ ρ = .data p k ∧ j < BLKFILES ∧
      r = slot (m.ref ρ) j := by
  obtain rfl | ⟨p, k, j, hp, hv, hj, hne', rfl⟩ := h.cases
  · exact absurd he.symm (hs.ref_ne_one hρ)
  · have hρp : Role.data p k = ρ := hs.inj _ _ hv hρ hne' he
    subst hρp
    exact ⟨p, k, j, hp, rfl, hj, rfl⟩

theorem Sound.blk_ne_ind (hs : m.Sound) (h : m.Rec r) (hf : m.Rec f)
    (hne : m.ref (.ind f) ≠ 0) : r.blk ≠ m.ref (.ind f) := by
  intro he
  obtain ⟨p, k, j, _, hρ, _⟩ := hs.blk_eq_ref h (.ind hf) hne he
  exact nomatch hρ

/-- Two records do not overlap. -/
theorem Sound.apart (hs : m.Sound) (hr : m.Rec r) (hf : m.Rec f) (hne : r ≠ f) :
    r.blk ≠ f.blk ∨ r.off + 64 ≤ f.off ∨ f.off + 64 ≤ r.off := by
  by_cases hblk : r.blk = f.blk
  · right
    obtain rfl | ⟨p, k, j, _, hv, _, hne', rfl⟩ := hf.cases
    · obtain rfl | ⟨p, k, j, _, hv, _, _, rfl⟩ := hr.cases
      · exact absurd rfl hne
      · exact absurd hblk (hs.ref_ne_one hv)
    · obtain ⟨_, _, i, _, hpk, _, rfl⟩ := hs.blk_eq_ref hr hv hne' hblk
      have hij : i ≠ j := fun h => hne (by rw [h])
      simp only [slot]
      omega
  · exact .inl hblk

/-- The record of another file is not changed by an operation on `f`. -/
theorem Sound.record_not_foot (hs : m.Sound) (hf : m.Rec f) (hr : m.Rec r)
    (hne : r ≠ f)
    {j : Nat} (hj : 4 * r.off ≤ j ∧ j < 4 * r.off + 256) :
    ¬m.Foot f r.blk j := by
  rintro (h | ⟨hb, h⟩ | h | ⟨h0, h⟩ | ⟨ht, k, hk, h0, h⟩)
  · exact hs.blk_not_bitmap hr h
  · have := hs.apart hr hf hne
    omega
  · exact (hs.blk_inUse hr).not_free h
  · exact hs.blk_ne_ind hr hf (h ▸ h0) h
  · obtain ⟨p, _, _, hp, hpk, _⟩ := hs.blk_eq_ref hr (.data hf hk) (h ▸ h0) h
    obtain ⟨rfl, _⟩ := Role.data.inj hpk
    exact ht (hs.isDir_type hp)

/-- The indirect block of another file is not changed by an operation on `f`. -/
theorem Sound.indirect_not_foot (hs : m.Sound) (hf : m.Rec f) (hr : m.Rec r)
    (hne : r ≠ f)
    (h0 : m.ref (.ind r) ≠ 0) {j : Nat} : ¬m.Foot f (m.ref (.ind r)) j := by
  have hn := hs.named _ (.ind hr) h0
  rintro (h | ⟨hb, _⟩ | h | ⟨_, h⟩ | ⟨_, k, hk, _, h⟩)
  · exact hn.2 h.2
  · exact hs.blk_ne_ind hf hr h0 hb.symm
  · exact hn.1.not_free h
  · exact hne (Role.ind.inj (hs.inj _ _ (.ind hr) (.ind hf) h0 h))
  · exact nomatch hs.inj _ _ (.ind hr) (.data hf hk) h0 h

/-- The data of another file is not changed by an operation on `f`, unless the
other is a directory, whose data are records. -/
theorem Sound.data_not_foot (hs : m.Sound) (hf : m.Rec f) (hr : m.Rec r)
    (hne : r ≠ f)
    (ht : m.fType r ≠ FTYPE_DIR) {k : Nat} (hk : k < NDIRECT + NINDIRECT)
    (h0 : m.ref (.data r k) ≠ 0) {j : Nat} :
    ¬m.Foot f (m.ref (.data r k)) j := by
  have hn := hs.named _ (.data hr hk) h0
  rintro (h | ⟨hb, _⟩ | h | ⟨_, h⟩ | ⟨_, i, hi, _, h⟩)
  · exact hn.2 h.2
  · obtain ⟨p, _, _, hp, hpk, _⟩ := hs.blk_eq_ref hf (.data hr hk) h0 hb.symm
    obtain ⟨rfl, _⟩ := Role.data.inj hpk
    exact ht (hs.isDir_type hp)
  · exact hn.1.not_free h
  · exact nomatch hs.inj _ _ (.data hr hk) (.ind hf) h0 h
  · exact hne (Role.data.inj (hs.inj _ _ (.data hr hk) (.data hf hi) h0 h)).1

/-- The frame rule: an operation that stays in the footprint of `f` leaves the
other records as they are. -/
theorem Sound.same_of_foot (hs : m.Sound) (hf : m.Rec f)
    (h : ∀ c j, j < BLKSIZE → ¬m.Foot f c j → m' c j = m c j) (hr : m.Rec r)
    (hne : r ≠ f) :
    Same m m' r where
  record j hj hj' := h _ j (Nat.lt_of_lt_of_le hj' hr.off_le)
    (hs.record_not_foot hf hr hne ⟨hj, hj'⟩)
  indirect h0 j hj := h _ j hj (hs.indirect_not_foot hf hr hne fun he =>
    h0 (BitVec.eq_of_toNat_eq he))

section Empty

variable (hd : ∀ i, i < NDIRECT → m.fDirect ROOT i = 0)
  (hi : m.fIndirect ROOT = 0)
include hd hi

theorem ref_of_empty (hf : ρ.file = ROOT) : m.ref ρ = 0 := by
  cases ρ with
  | data f k =>
      obtain rfl : f = ROOT := hf
      simp only [ref, hi, if_true, ite_eq_right_iff]
      intro hk
      rw [hd k hk]
      rfl
  | ind f =>
      obtain rfl : f = ROOT := hf
      simp only [ref, hi]
      rfl

/-- The only record is the root. -/
theorem rec_of_empty (hr : m.Rec r) : r = ROOT := by
  have hroot : ∀ n d, m.DirAt n d → d = ROOT := by
    intro n
    induction n with
    | zero => exact fun _ h => h
    | succ n ih =>
        rintro d ⟨p, k, j, hp, _, _, hne, _⟩
        exact absurd (ref_of_empty hd hi (ρ := .data p k) (ih p hp)) hne
  rcases hr with rfl | ⟨p, k, j, ⟨n, hp⟩, _, _, hne, _⟩
  · rfl
  · exact absurd (ref_of_empty hd hi (ρ := .data p k) (hroot n p hp)) hne

/-- A disk with an empty root directory. -/
theorem MapOk.sound_of_empty (hm : m.MapOk) (hdir : m.fType ROOT = FTYPE_DIR) :
    m.Sound := by
  have hzero : ∀ ρ, m.Valid ρ → m.ref ρ = 0 :=
    fun ρ hρ => ref_of_empty hd hi (rec_of_empty hd hi hρ.1)
  refine ⟨hm, hdir, fun r hr => ?_, fun ρ hρ hne => ?_,
    fun ρ _ hρ _ hne _ => ?_⟩
  · rw [rec_of_empty hd hi hr]
    exact .inr hdir
  · exact absurd (hzero ρ hρ) hne
  · exact absurd (hzero ρ hρ) hne

end Empty

/-! ## What a record says -/

theorem Same.entry (h : Same m m' r) {i : Nat} (hi : i < 64) :
    m'.entry r.blk (r.off + i) = m.entry r.blk (r.off + i) :=
  Bytes.load32_congr fun j hj hj' => h.record j (by omega) (by omega)

theorem Same.fSize (h : Same m m' r) : m'.fSize r = m.fSize r :=
  h.entry (by decide)

theorem Same.fType (h : Same m m' r) : m'.fType r = m.fType r :=
  h.entry (by decide)

theorem Same.fIndirect (h : Same m m' r) : m'.fIndirect r = m.fIndirect r :=
  h.entry (by decide)

theorem Same.fName (h : Same m m' r) {i : Nat} (hi : i < MAXNAMELEN) :
    m'.fName r i = m.fName r i := by
  have : MAXNAMELEN = 128 := rfl
  exact h.record _ (by omega) (by omega)

theorem Same.ref (h : Same m m' ρ.file) (hρ : ρ.Ok) : m'.ref ρ = m.ref ρ := by
  cases ρ with
  | ind f => exact congrArg BitVec.toNat h.fIndirect
  | data f k =>
      have hk : k < 10 + 1024 := hρ
      have h : Same m m' f := h
      simp only [PhysMem.ref]
      by_cases hd : k < NDIRECT
      · have hd' : k < 10 := hd
        rw [if_pos hd, if_pos hd, fDirect, fDirect, Nat.add_assoc,
          h.entry (show 34 + k < 64 by omega)]
      · rw [if_neg hd, if_neg hd, h.fIndirect]
        by_cases h0 : m.fIndirect f = 0
        · rw [if_pos h0, if_pos h0]
        · rw [if_neg h0, if_neg h0]
          have hd' : ¬k < 10 := hd
          have hn : NDIRECT = 10 := rfl
          have hb : BLKSIZE = 4096 := rfl
          exact congrArg BitVec.toNat
            (Bytes.load32_congr fun j _ _ => h.indirect h0 j (by omega))

end PhysMem

end Jos
