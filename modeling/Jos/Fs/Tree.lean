import Jos.Fs.Dir
import Jos.Fs.Trunc
import Jos.Fs.Flush

/-!
# The tree of files

In a well-formed tree the blocks of a directory are those below its size, the
names in it are distinct, and a free `struct File` has no blocks. `Tree` says
so, and is kept by the three things that `file_create` and `file_remove` do to a
disk: a directory grows by a block, a free record gets a name, and a record
loses its blocks, its name and its size. A path leads to one file, and a file
has one path.
-/

namespace Jos

namespace PhysMem

variable {m m' : PhysMem} {r f g d : FilePtr} {name : List (BitVec 8)}
  {path path' : List (List (BitVec 8))} {k n : Nat}

/-! ## Well-formed trees -/

/-- A record without data. -/
structure Empty (m : PhysMem) (r : FilePtr) : Prop where
  size : m.fSize r = 0
  ref : ∀ ρ : Role, ρ.file = r → ρ.Ok → m.ref ρ = 0

/-- What a record is like in a well-formed tree. -/
structure FileOk (m : PhysMem) (r : FilePtr) : Prop where
  size : (m.fSize r).toNat ≤ MAXFILESIZE
  tail : m.TailZero r
  dir : m.fType r = FTYPE_DIR → ∃ n, (m.fSize r).toNat = n * BLKSIZE ∧
    ∀ k, k < NDIRECT + NINDIRECT → (m.ref (.data r k) ≠ 0 ↔ k < n)
  free : r ≠ ROOT → m.fName r 0 = 0 → m.Empty r
  live : r ≠ ROOT → m.fName r 0 ≠ 0 → ∃ name, IsName name ∧ m.Named r name

/-- A well-formed tree of files. -/
structure Tree (m : PhysMem) : Prop extends Sound m where
  fileOk : ∀ r, m.Rec r → m.FileOk r
  unique : ∀ d name f g, m.Child d name f → m.Child d name g → f = g

/-- Directories that have their blocks, with distinct names. -/
structure Dirs (m : PhysMem) : Prop extends Sound m where
  aligned : m.AllAligned
  whole : m.AllWhole
  unique : ∀ d name f g, m.Child d name f → m.Child d name g → f = g

theorem Same.empty (h : Same m m' r) (he : m.Empty r) : m'.Empty r where
  size := by rw [h.fSize, he.size]
  ref := by
    rintro ρ rfl hok
    rw [h.ref hok, he.ref ρ rfl hok]

theorem Same.named (h : Same m m' r) (hn : name.length < MAXNAMELEN) :
    m'.Named r name ↔ m.Named r name := by
  have heq : ∀ i, i ≤ name.length → m'.fName r i = m.fName r i :=
    fun i hi => h.fName (by omega)
  exact forall₂_congr fun i hi => by rw [heq i hi]

theorem Same.tailZero (h : Same m m' r) (ht : m.TailZero r) :
    m'.TailZero r := by
  intro k hk hlt
  rw [h.fSize] at hk
  rw [h.ref (ρ := .data r k) hlt]
  exact ht k hk hlt

theorem Same.fileOk (h : Same m m' r) (hok : m.FileOk r) : m'.FileOk r where
  size := by
    rw [h.fSize]
    exact hok.size
  tail := h.tailZero hok.tail
  dir ht := by
    rw [h.fType] at ht
    obtain ⟨n, hn, hall⟩ := hok.dir ht
    refine ⟨n, by rw [h.fSize, hn], fun k hk => ?_⟩
    rw [h.ref (ρ := .data r k) hk]
    exact hall k hk
  free hr h0 := by
    rw [h.fName (by decide)] at h0
    exact h.empty (hok.free hr h0)
  live hr h0 := by
    rw [h.fName (by decide)] at h0
    obtain ⟨name, hn, hnamed⟩ := hok.live hr h0
    exact ⟨name, hn, (h.named hn.short).mpr hnamed⟩

theorem Same.slotOf (h : Same m m' d) : m'.SlotOf d f ↔ m.SlotOf d f := by
  have hblocks : m'.dirBlocks d = m.dirBlocks d := by
    rw [dirBlocks, h.fSize, dirBlocks]
  constructor
  · rintro ⟨k, j, hkn, hk, hj, h0, rfl⟩
    have href := h.ref (ρ := .data d k) hk
    rw [hblocks] at hkn
    rw [href] at h0 ⊢
    exact ⟨k, j, hkn, hk, hj, h0, rfl⟩
  · rintro ⟨k, j, hkn, hk, hj, h0, rfl⟩
    have href := h.ref (ρ := .data d k) hk
    exact ⟨k, j, by rwa [hblocks], hk, hj, by rwa [href], by rw [href]⟩

/-! ## Directories of a tree -/

theorem dirBlocks_eq (hn : (m.fSize d).toNat = n * BLKSIZE)
    (hsize : (m.fSize d).toNat < 2 ^ 31) :
    m.dirBlocks d = n := by
  rw [dirBlocks, sdiv_of_nonneg hsize (by decide), hn]
  exact Nat.mul_div_cancel n (by decide)

theorem FileOk.lt_int (h : m.FileOk r) : (m.fSize r).toNat < 2 ^ 31 :=
  Nat.lt_of_le_of_lt h.size (by decide)

theorem Tree.dir (h : m.Tree) (hd : m.IsDir d) :
    (m.fSize d).toNat = m.dirBlocks d * BLKSIZE ∧
    ∀ k, k < NDIRECT + NINDIRECT →
    (m.ref (.data d k) ≠ 0 ↔ k < m.dirBlocks d) := by
  have hok := h.fileOk d hd.record
  obtain ⟨n, hn, hall⟩ := hok.dir (h.isDir_type hd)
  rw [dirBlocks_eq hn hok.lt_int]
  exact ⟨hn, hall⟩

theorem Tree.dirBlocks_le (h : m.Tree) (hd : m.IsDir d) :
    m.dirBlocks d ≤ NDIRECT + NINDIRECT := by
  have hsize := (h.fileOk d hd.record).size
  rw [(h.dir hd).1, MAXFILESIZE] at hsize
  exact Nat.le_of_mul_le_mul_right hsize (by decide)

theorem Tree.allWhole (h : m.Tree) : m.AllWhole := by
  intro d hd k hk
  have hkb : k < NDIRECT + NINDIRECT :=
    Nat.lt_of_lt_of_le hk (h.dirBlocks_le hd)
  exact ⟨hkb, ((h.dir hd).2 k hkb).mpr hk⟩

theorem Tree.allAligned (h : m.Tree) : m.AllAligned := by
  intro d hd
  apply BitVec.eq_of_toNat_eq
  rw [srem_of_nonneg (h.fileOk d hd.record).lt_int (by decide), (h.dir hd).1]
  exact Nat.mul_mod_left _ _

theorem Tree.dirs (h : m.Tree) : m.Dirs :=
  ⟨h.toSound, h.allAligned, h.allWhole, h.unique⟩

/-- A record is the root, or is in a directory. -/
theorem Tree.record_cases (h : m.Tree) (hr : m.Rec r) :
    r = ROOT ∨ ∃ d, m.IsDir d ∧ m.SlotOf d r := by
  obtain rfl | ⟨d, k, j, hd, hk, hj, h0, rfl⟩ := hr
  · exact .inl rfl
  · exact .inr ⟨d, hd, k, j, ((h.dir hd).2 k hk).mp h0, hk, hj, h0, rfl⟩

/-! ## One parent, one path -/

theorem Sound.slotOf_ne_root (hm : m.Sound) (hd : m.IsDir d)
    (hf : m.SlotOf d f) : f ≠ ROOT := by
  obtain ⟨k, j, _, hk, _, _, rfl⟩ := hf
  exact fun h => hm.ref_ne_one (.data hd.record hk) (congrArg FilePtr.blk h)

/-- A file is in one directory. -/
theorem Sound.parent_unique {d' : FilePtr} (hm : m.Sound) (hd : m.IsDir d)
    (hd' : m.IsDir d')
    (hf : m.SlotOf d f) (hf' : m.SlotOf d' f) : d = d' := by
  obtain ⟨k, j, _, hk, _, h0, rfl⟩ := hf
  obtain ⟨k', j', _, hk', _, _, he⟩ := hf'
  exact (Role.data.inj (hm.inj _ _ (.data hd.record hk)
    (.data hd'.record hk') h0
    (congrArg FilePtr.blk he))).1

/-- Where a path that has a last name leads. -/
theorem resolves_snoc : m.Resolves (path ++ [name]) f ↔ ∃ d, m.Resolves path d ∧
      m.Child d name f := by
  constructor
  · intro h
    generalize hp : path ++ [name] = p at h
    cases h with
    | root => exact absurd hp (by simp)
    | child h hc =>
        obtain ⟨rfl, hname⟩ := List.append_inj' hp rfl
        obtain rfl := List.singleton_inj.mp hname
        exact ⟨_, h, hc⟩
  · rintro ⟨d, h, hc⟩
    exact .child h hc

/-- A path leads to one file. -/
theorem Dirs.resolves_unique (h : m.Dirs) (hf : m.Resolves path f)
    (hg : m.Resolves path g) :
    f = g := by
  induction hf generalizing g with
  | root =>
      generalize hp : ([] : List (List (BitVec 8))) = p at hg
      cases hg with
      | root => rfl
      | child => exact absurd hp (by simp)
  | child _ hc ih =>
      obtain ⟨d', hd', hc'⟩ := resolves_snoc.mp hg
      obtain rfl := ih hd'
      exact h.unique _ _ _ _ hc hc'

/-- A file has one path. -/
theorem Sound.path_unique (hm : m.Sound) (hp : m.Resolves path f)
    (hp' : m.Resolves path' f) :
    path = path' := by
  induction hp generalizing path' with
  | root =>
      cases hp' with
      | root => rfl
      | child _ hc => exact absurd rfl (hm.slotOf_ne_root hc.isDir hc.slot)
  | child _ hc ih =>
      cases hp' with
      | root => exact absurd rfl (hm.slotOf_ne_root hc.isDir hc.slot)
      | child h hc' =>
          obtain rfl := hm.parent_unique hc.isDir hc'.isDir hc.slot hc'.slot
          rw [ih h, hc.named.unique hc'.named hc.isName.noZero
            hc'.isName.noZero]

/-- A path that leads somewhere leads through its beginning. -/
theorem Resolves.through {pre rest : List (List (BitVec 8))}
    (h : m.Resolves (pre ++ name :: rest) f) :
    ∃ d g, m.Resolves pre d ∧ m.Child d name g := by
  induction rest using List.reverseRecOn generalizing f with
  | nil =>
      obtain ⟨d, hd, hc⟩ := resolves_snoc.mp h
      exact ⟨d, f, hd, hc⟩
  | append_singleton rest last ih =>
      rw [← List.cons_append, ← List.append_assoc] at h
      obtain ⟨d, hd, _⟩ := resolves_snoc.mp h
      exact ih hd

theorem Resolves.of_prefix {pre : List (List (BitVec 8))}
    (h : m.Resolves path f)
    (hp : pre <+: path) : ∃ g, m.Resolves pre g := by
  obtain ⟨rest, rfl⟩ := hp
  cases rest with
  | nil =>
      rw [List.append_nil] at h
      exact ⟨f, h⟩
  | cons name rest =>
      obtain ⟨d, _, hd, _⟩ := h.through
      exact ⟨d, hd⟩

/-- A path that gets stuck at a name leads nowhere from there. -/
theorem Dirs.not_resolves (h : m.Dirs) {pre rest rest' : List (List (BitVec 8))}
    {r : Word}
    (hst : Stuck m m pre name rest r) :
    ¬m.Resolves (pre ++ name :: rest') f := by
  intro hf
  obtain ⟨d, g, hd, hc⟩ := hf.through
  cases hst with
  | long _ hlong => exact absurd hc.isName.short (Nat.not_lt.mpr hlong)
  | file hd' _ ht =>
      rw [h.resolves_unique hd' hd] at ht
      exact ht (h.isDir_type hc.isDir)
  | absent hd' _ _ hno =>
      rw [h.resolves_unique hd' hd] at hno
      exact hno g hc
  | hole hd' hno => exact hno.1 (h.whole _ hd')

/-! ## Changes of one record -/

/-- A record of a cleared block. -/
structure Blank (m : PhysMem) (r : FilePtr) : Prop extends Empty m r where
  type : m.fType r = FTYPE_REG
  name : m.fName r 0 = 0

/-- Only `f` is another record in `m'`; new ones are blank. -/
structure Changes (f : FilePtr) (m m' : PhysMem) : Prop where
  sound : m'.Sound
  isDir : ∀ d, m'.IsDir d → m.IsDir d
  record : ∀ r, m'.Rec r → m.Rec r ∨ m'.Blank r
  kept : ∀ r, m.Rec r → r ≠ f → Kept m m' r
  slots : m'.IsDir f → ∀ g, m'.SlotOf f g → m.SlotOf f g ∨ m'.Blank g

theorem Empty.tailZero (h : m.Empty r) : m.TailZero r :=
  fun k _ hk => h.ref (.data r k) rfl hk

theorem Blank.fileOk (h : m.Blank r) : m.FileOk r where
  size := by
    rw [h.size]
    exact Nat.zero_le _
  tail := h.tailZero
  dir ht := absurd (h.type.symm.trans ht) (by decide)
  free _ _ := h.toEmpty
  live _ h0 := absurd h.name h0

theorem IsName.getD_ne (hn : IsName name) : name.getD 0 0 ≠ 0 := by
  cases name with
  | nil => exact absurd rfl hn.ne_nil
  | cons c cs => exact fun h => hn.noZero (h ▸ List.mem_cons_self)

/-- A free record has no name. -/
theorem Named.fName_ne (h : m.Named r name) (hn : IsName name) :
    m.fName r 0 ≠ 0 := by
  rw [h 0 (Nat.zero_le _)]
  exact hn.getD_ne

section Changes

variable (h : Changes f m m')
include h

theorem Changes.slot_back (hd : m'.IsDir d) (hg : m'.SlotOf d g) :
    m.SlotOf d g ∨ m'.Blank g := by
  by_cases hdf : d = f
  · subst hdf
    exact h.slots hd g hg
  · exact .inl ((h.kept d (h.isDir d hd).record hdf).slotOf.mp hg)

/-- What is a child was one, if it had the name. -/
theorem Changes.child_back (hc : m'.Child d name g)
    (hg : g = f → m.Named f name) :
    m.Child d name g := by
  have hd := h.isDir d hc.isDir
  have hslot := (h.slot_back hc.isDir hc.slot).resolve_right fun hb =>
    hc.named.fName_ne hc.isName hb.name
  refine ⟨hd, hc.isName, hslot, ?_⟩
  by_cases hgf : g = f
  · rw [hgf]
    exact hg hgf
  · exact ((h.kept g (hslot.record hd) hgf).named hc.isName.short).mp hc.named

/-- What was a child of another directory still is. -/
theorem Changes.child (hc : m.Child d name g) (hd : m'.IsDir d) (hdf : d ≠ f)
    (hgf : g ≠ f) :
    m'.Child d name g where
  isDir := hd
  isName := hc.isName
  slot := (h.kept d hc.isDir.record hdf).slotOf.mpr hc.slot
  named := ((h.kept g hc.record hgf).named hc.isName.short).mpr hc.named

theorem Tree.of_changes (hm : m.Tree) (hok : m'.Rec f → m'.FileOk f)
    (hname : ∀ d name, m'.Child d name f → m.Named f name ∨ ∀ g,
      ¬m.Child d name g) : m'.Tree where
  toSound := h.sound
  fileOk r hr := by
    by_cases hrf : r = f
    · subst hrf
      exact hok hr
    · rcases h.record r hr with hr' | hb
      · exact (h.kept r hr' hrf).fileOk (hm.fileOk r hr')
      · exact hb.fileOk
  unique d name a b ha hb := by
    have hback : ∀ a b, m'.Child d name a → m'.Child d name b → a = f → b ≠ f →
        a = b := by
      rintro a b ha hb rfl hbf
      have hb' := h.child_back hb fun he => absurd he hbf
      rcases hname d name ha with hn | hno
      · exact hm.unique d name a b (h.child_back ha fun _ => hn) hb'
      · exact absurd hb' (hno b)
    by_cases haf : a = f
    · by_cases hbf : b = f
      · rw [haf, hbf]
      · exact hback a b ha hb haf hbf
    · by_cases hbf : b = f
      · exact (hback b a hb ha hbf haf).symm
      · exact hm.unique d name a b (h.child_back ha fun he => absurd he haf)
          (h.child_back hb fun he => absurd he hbf)

end Changes

theorem resolves_mono (h : ∀ d name g, m.Child d name g → m'.Child d name g)
    (hp : m.Resolves path f) : m'.Resolves path f := by
  induction hp with
  | root => exact .root
  | child _ hc ih => exact .child ih (h _ _ _ hc)

/-! ## A tree without files -/

theorem Sound.tree_of_empty (hm : m.Sound)
    (hd : ∀ i, i < NDIRECT → m.fDirect ROOT i = 0)
    (hi : m.fIndirect ROOT = 0) (hsize : m.fSize ROOT = 0) : m.Tree where
  toSound := hm
  fileOk r hr := by
    obtain rfl := rec_of_empty hd hi hr
    have href : ∀ k, k < NDIRECT + NINDIRECT → m.ref (.data ROOT k) = 0 :=
      fun k _ => ref_of_empty hd hi rfl
    refine ⟨by rw [hsize]; exact Nat.zero_le _, fun k _ hk => href k hk,
      fun _ => ⟨0, by rw [hsize]; rfl, ?_⟩,
      fun h => absurd rfl h, fun h => absurd rfl h⟩
    intro k hk
    rw [href k hk]
    simp
  unique d name f g hf _ := by
    obtain ⟨k, j, _, hk, _, hne, _⟩ := hf.slot
    exact absurd (ref_of_empty hd hi (ρ := .data d k)
      (rec_of_empty hd hi hf.isDir.record)) hne

end PhysMem

theorem smallDisk_tree : smallDisk.Tree :=
  smallDisk_sound.tree_of_empty (by decide) (by decide) (by decide)

end Jos
