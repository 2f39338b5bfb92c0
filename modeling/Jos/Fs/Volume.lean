import Jos.Fs.Mirror

/-!
# Volumes

A volume is a tree whose ledger balances. It stays one when a regular file is
edited or goes, when a directory gets a block, and when a free record gets a
name, and each of these changes what it mirrors at one path at most.
-/

namespace Jos

open PhysMem

namespace PhysMem

variable {m m' : PhysMem} {f g d dir : FilePtr} {r : FilePtr}
  {name : List (BitVec 8)} {path : Names} {M : FileMap}
  {K : Kind → Prop} {v w : Word}

/-- A tree whose ledger balances, where no `struct File` that is free was a
directory. -/
structure Volume (m : PhysMem) : Prop extends Tree m where
  ledger : m.Ledger
  plain : ∀ r, m.Rec r → ¬m.InDir r → m.fType r ≠ FTYPE_DIR

/-! ## Edits of a regular file -/

section Edits

variable (hm : m.Sound) (hf : m.Rec f) (ht : m.fType f ≠ FTYPE_DIR)
  (h : Edits K f m m')
include hm hf ht h

/-- An edit of a regular file brings no records. -/
theorem Edits.record_back (hr : m'.Rec r) :
    (m'.IsDir r → m.IsDir r) ∧ m.Rec r := by
  induction h generalizing r with
  | refl => exact ⟨id, hr⟩
  | tail h h' ih =>
      obtain ⟨hm₁, hf₁⟩ := Edits.sound hm hf h
      obtain ⟨_, hev, _⟩ := h'.evolves hm₁ hf₁
      have hdir : ∀ {d}, _ → PhysMem.IsDir m d :=
        fun {d} hd => (ih (hev.isDir hd).record).1 (hev.isDir hd)
      refine ⟨hdir, ?_⟩
      obtain rfl | ⟨p, k, j, hp, hk, hj, hne, rfl⟩ := hr
      · exact .inl rfl
      · have hp₁ := hev.isDir hp
        have hpf : p ≠ f := by
          rintro rfl
          have htype := hm₁.isDir_type hp₁
          rw [Edits.fType hm hf h] at htype
          exact ht htype
        have href := (h'.same hm₁ hf₁ hp₁.record hpf).ref (ρ := .data p k) hk
        rw [href] at hne ⊢
        exact (ih (hp₁.slot_rec hk hj hne)).2

theorem Edits.changes : Changes f m m' where
  sound := (Edits.sound hm hf h).1
  isDir d hd := (Edits.record_back hm hf ht h hd.record).1 hd
  record r hr := .inl (Edits.record_back hm hf ht h hr).2
  kept r hr hne := (Edits.keeps hm hf ht h hr hne).2
  slots hd := by
    have htype := (Edits.sound hm hf h).1.isDir_type hd
    rw [Edits.fType hm hf h] at htype
    exact absurd htype ht

/-- An edit of a regular file that keeps its name keeps all directories. -/
theorem Edits.child_iff (hname : ∀ i, i < MAXNAMELEN →
      m'.fName f i = m.fName f i) :
    m'.Child d name g ↔ m.Child d name g := by
  have hc := Edits.changes hm hf ht h
  have hnamed : ∀ {n : List (BitVec 8)}, n.length < MAXNAMELEN →
      (m'.Named f n ↔ m.Named f n) := fun {n} hn =>
    forall₂_congr fun i hi => by rw [hname i (by omega)]
  constructor
  · intro hch
    refine hc.child_back hch ?_
    rintro rfl
    exact (hnamed hch.isName.short).mp hch.named
  · intro hch
    have hdf : d ≠ f := by
      rintro rfl
      exact ht (hm.isDir_type hch.isDir)
    obtain ⟨hd', hkept⟩ := Edits.keeps hm hf ht h hch.isDir.record hdf
    have hdir : m'.IsDir d :=
      hd'.isDir (hkept.fType.trans (hm.isDir_type hch.isDir))
    by_cases hgf : g = f
    · subst hgf
      exact ⟨hdir, hch.isName, hkept.slotOf.mpr hch.slot,
        (hnamed hch.isName.short).mpr hch.named⟩
    · exact hc.child hch hdir hdf hgf

end Edits

/-- Where the children are the same, the paths are. -/
theorem resolves_iff (h : ∀ d name g, m'.Child d name g ↔ m.Child d name g) :
    m'.Resolves path f ↔ m.Resolves path f :=
  ⟨resolves_mono fun d n g hc => (h d n g).mp hc, resolves_mono fun d n g hc =>
    (h d n g).mpr hc⟩

theorem Changes.plain (h : Changes f m m')
    (hplain : ∀ r, m.Rec r → ¬m.InDir r → m.fType r ≠ FTYPE_DIR)
    (hf : ¬m'.InDir f → m'.fType f ≠ FTYPE_DIR) (hr : m'.Rec r)
    (hno : ¬m'.InDir r) : m'.fType r ≠ FTYPE_DIR := by
  by_cases hrf : r = f
  · subst hrf
    exact hf hno
  · rcases h.record r hr with hr | hb
    · have hk := h.kept r hr hrf
      rw [hk.fType]
      exact hplain r hr fun hin => hno (hk.inDir.mpr hin)
    · rw [hb.type]
      decide

section Volume

variable (hv : m.Volume) (hf : m.Regular f v) (h : Edits K f m m')
  (hname : ∀ i, i < MAXNAMELEN → m'.fName f i = m.fName f i)
include hv hf h hname

theorem Volume.edited (hled : m'.Ledger) : m'.Volume := by
  have hc := Edits.changes hv.toSound hf.record hf.type h
  have hrec := (Edits.sound hv.toSound hf.record h).2
  have htype : m'.fType f ≠ FTYPE_DIR := by
    rw [Edits.fType hv.toSound hf.record h]
    exact hf.type
  have hok := hled.recordOk f hrec
  have hnamed : ∀ {n : List (BitVec 8)}, n.length < MAXNAMELEN →
      (m'.Named f n ↔ m.Named f n) := fun {n} hn =>
    forall₂_congr fun i hi => by rw [hname i (by omega)]
  refine ⟨Tree.of_changes hc hv.toTree (fun _ =>
    ⟨hok.reg htype, hok.tail, fun hd => absurd hd htype, fun hroot h0 => ?_,
    fun hroot h0 => ?_⟩) fun d n hch => .inl ?_, hled, fun r hr hno => ?_⟩
  · exact hled.empty_of_free hrec hroot h0
  · rw [hname 0 (by decide)] at h0
    obtain ⟨n, hn, hold⟩ := (hv.fileOk f hf.record).live hroot h0
    exact ⟨n, hn, (hnamed hn.short).mpr hold⟩
  · exact (hnamed hch.isName.short).mp hch.named
  · exact hc.plain hv.plain (fun _ => htype) hr hno

/-- What an edit of a regular file changes of the map. -/
theorem Volume.mirrors_edit (hM : m.Mirrors M) (hp : m.Resolves path f) :
    m'.Mirrors (Function.update M path (some (m'.node f))) := by
  have hres : ∀ p g, m'.Resolves p g ↔ m.Resolves p g := fun p g =>
    resolves_iff fun d n g =>
      Edits.child_iff hv.toSound hf.record hf.type h hname
  refine hM.update (fun p g _ => hres p g) (fun p g hne hg => ?_)
    (fun g hg => ?_) fun hno => ?_
  · have hgf : g ≠ f := by
      rintro rfl
      exact hne (hv.path_unique hg hp)
    exact (Edits.keeps hv.toSound hf.record hf.type h hg.record hgf).2.node
  · rw [hv.dirs.resolves_unique ((hres path g).mp hg) hp]
  · exact absurd ((hres path f).mpr hp) (hno f)

end Volume

/-! ## What the operations on a file leave -/

theorem bytes_congr (h : ∀ o, o < MAXFILESIZE → m'.byte f o = m.byte f o) :
    m'.bytes f = m.bytes f := by
  funext o
  rw [bytes, bytes]
  split
  · rename_i ho
    exact h o ho
  · rfl

theorem fName_setSize {i : Nat} (hi : i < MAXNAMELEN) :
    (m.setSize f w).fName f i = m.fName f i := by
  have hM : MAXNAMELEN = 128 := rfl
  exact setEntry_byte (.inr (.inl (by omega)))

/-- Setting the size of a regular file, where nothing is left beyond it. -/
theorem Ledger.setSize_edit (h : (m.setSize f w).Ledger)
    (hf : (m.setSize f w).Rec f) :
    Edits (fun _ => True) f m (m.setSize f w) :=
  .one (.setSize trivial fun _ _ => (h.recordOk f hf).tail)

theorem Grows.node (h : Grows f m m') (ht : m.fType f ≠ FTYPE_DIR) :
    m'.node f = m.node f := by
  have ht' : m'.fType f ≠ FTYPE_DIR := by
    rw [h.fType]
    exact ht
  rw [node_of_file ht', node_of_file ht, h.fSize,
    bytes_congr fun o ho => h.byte o ho]

theorem node_extend (hm : m.Sound) (hf : m.Regular f v) {offset count : Word}
    (hend : offset.toNat + count.toNat ≤ MAXFILESIZE) {buf : Nat} {page : Bytes}
    (h : Put f offset.toNat (offset.toNat + count.toNat)
      (fun i => page (buf + i)) (m.extend f (offset + count)) m') :
    m'.node f = .file (Doc.write ⟨(m.fSize f).toNat, m.bytes f⟩ page buf
      count.toNat offset.toNat) := by
  have hmax : MAXFILESIZE = 4235264 := rfl
  have hsum : (offset + count).toNat = offset.toNat + count.toNat := by
    rw [BitVec.toNat_add]
    omega
  obtain ⟨_, _, htype⟩ := hm.sound_extend hf.record (v := offset + count)
  have ht' : m'.fType f ≠ FTYPE_DIR := by
    rw [h.fType, htype]
    exact hf.type
  have hsize : m'.fSize f = (m.extend f (offset + count)).fSize f :=
    h.field 32 (by decide)
  rw [node_of_file ht', hsize, fSize_extend, hsum, Doc.write]
  congr 2
  funext o
  dsimp only
  rw [bytes, bytes]
  split
  · rename_i ho
    rw [h.byte o ho, hm.byte_extend hf.record ho]
  · rename_i ho
    rw [if_neg (by omega)]

theorem node_grown (hm : m.Sound) (hf : m.Regular f v)
    (hle : v.toNat ≤ w.toNat) :
    (m.setSize f w).node f =
      .file (Doc.resize ⟨(m.fSize f).toNat, m.bytes f⟩ w.toNat) := by
  have ht' : (m.setSize f w).fType f ≠ FTYPE_DIR := by
    rw [fType_setSize]
    exact hf.type
  rw [node_of_file ht', fSize_setSize, Doc.resize]
  congr 2
  funext o
  dsimp only
  rw [hf.size, if_neg (by omega), bytes_congr fun o ho =>
    hm.byte_setSize hf.record ho]

theorem Ledger.node_cut (hm : m.Ledger) (hf : m.Regular f v)
    (hlt : w.toNat < v.toNat)
    (hcut : Cut f (roundBlocks w).toNat
      (max (roundBlocks w).toNat (roundBlocks (m.fSize f)).toNat) m m') :
    (m'.setSize f w).node f =
      .file (Doc.resize ⟨(m.fSize f).toNat, m.bytes f⟩ w.toNat) := by
  have hmax : MAXFILESIZE = 4235264 := rfl
  have hB : BLKSIZE = 4096 := rfl
  have hok := hm.recordOk f hf.record
  have hvmax := hf.size ▸ hok.reg hf.type
  obtain ⟨hm', hf'⟩ := hcut.sound hm.toSound hf.record
  have ht' : (m'.setSize f w).fType f ≠ FTYPE_DIR := by
    rw [fType_setSize, Edits.fType hm.toSound hf.record hcut.edits]
    exact hf.type
  have hnew : (roundBlocks w).toNat = (w.toNat + (BLKSIZE - 1)) / BLKSIZE :=
    roundBlocks_toNat (by omega)
  rw [node_of_file ht', fSize_setSize, Doc.resize]
  congr 2
  funext o
  dsimp only
  rw [bytes, bytes, hf.size]
  by_cases ho : o < MAXFILESIZE
  · have hk : o / BLKSIZE < NDIRECT + NINDIRECT := div_lt_blocks ho
    rw [if_pos ho, if_pos ho, hm'.byte_setSize hf' ho,
      hcut.byte hm.toSound hf.record ho, ← hnew]
    by_cases hin : (roundBlocks w).toNat ≤ o / BLKSIZE
    · rw [if_pos (show w.toNat < v.toNat ∧ _ from ⟨hlt, hin⟩)]
      split
      · rfl
      · exact if_pos (hok.tail _ (by omega) hk)
    · rw [if_neg (by omega), if_neg fun h => hin h.2]
  · rw [if_neg ho, if_neg ho, ite_self]

/-! ## A file that goes -/

section Remove

variable {m₁ : PhysMem} (hv : m.Volume) (hf : m.Regular f v)
  (hcut : Cut f 0 (max 0 (roundBlocks (m.fSize f)).toNat) m m₁)
include hv hf hcut

theorem Volume.remove : (m₁.cleared f).Volume := by
  obtain ⟨_, _, _, _, _, _, htype⟩ :=
    Sound.cleared_map hf.record hcut hv.toSound
  refine ⟨hv.tree_remove hf.record hcut, hv.ledger.remove hf hcut,
    fun r hr hno =>
    (hv.changes_remove hf.record hcut).plain hv.plain (fun _ => ?_) hr hno⟩
  rw [htype, Edits.fType hv.toSound hf.record hcut.edits]
  exact hf.type

/-- Only the path of a regular file that is removed leads nowhere. -/
theorem Volume.mirrors_remove (hM : m.Mirrors M) (hp : m.Resolves path f) :
    (m₁.cleared f).Mirrors (Function.update M path none) := by
  have hc := hv.changes_remove hf.record hcut
  have hname : (m₁.cleared f).fName f 0 = 0 := by
    rw [cleared, fName, setSize, setEntry_byte (.inr (.inl (by omega)))]
    exact putName_fName (Nat.zero_le ([] : List (BitVec 8)).length)
  have hchild : ∀ {d name g}, (m₁.cleared f).Child d name g → m.Child d name g ∧
      g ≠ f := by
    intro d name g hch
    have hgf : g ≠ f := by
      rintro rfl
      exact hch.named.fName_ne hch.isName hname
    exact ⟨hc.child_back hch fun he => absurd he hgf, hgf⟩
  have hback : ∀ {p g}, (m₁.cleared f).Resolves p g → m.Resolves p g :=
    resolves_mono fun _ _ _ hch => (hchild hch).1
  have hout : ∀ {p g}, p ≠ path → m.Resolves p g → ¬path <+: p := by
    rintro p g hne hg ⟨rest, rfl⟩
    cases rest with
    | nil => exact hne (List.append_nil path)
    | cons name rest =>
        obtain ⟨d, _, hd, hch⟩ := hg.through
        obtain rfl := hv.dirs.resolves_unique hd hp
        exact hf.type (hv.isDir_type hch.isDir)
  refine hM.update (fun p g hne =>
    ⟨hback, fun hg => hv.resolves_remove hp hcut hg (hout hne hg)⟩)
    (fun p g hne hg => ?_) (fun g hg => ?_) fun _ => rfl
  · have hgf : g ≠ f := by
      rintro rfl
      exact hne (hv.path_unique hg hp)
    exact (hc.kept g hg.record hgf).node
  · have hgf := hv.dirs.resolves_unique (hback hg) hp
    cases hg with
    | root =>
        rw [← hgf] at hf
        exact absurd (hv.isDir_type (.root m)) hf.type
    | child _ hch => exact absurd hgf (hchild hch).2

end Remove

/-! ## A file that comes -/

section Grow

variable (hv : m.Tree) (hd : m.IsDir dir)
  (hk : m.dirBlocks dir < NDIRECT + NINDIRECT)
  (hgot : Got dir (m.dirBlocks dir) (m.setSize dir (m.fSize dir + 4096#32)) m')
include hv hd hk hgot

omit hgot in
theorem Tree.next_ref : m.ref (.data dir (m.dirBlocks dir)) = 0 := by
  by_contra hne
  exact absurd (((hv.dir hd).2 _ hk).mp hne) (Nat.lt_irrefl _)

theorem Tree.grown_changes : Changes dir m m' :=
  hv.grow_changes hd.record hk hgot (hv.next_ref hd hk)

theorem Tree.grown_blocks :
    (m.fSize dir + 4096#32).toNat = (m.dirBlocks dir + 1) * BLKSIZE ∧
    m'.dirBlocks dir = m.dirBlocks dir + 1 := by
  have hB : BLKSIZE = 4096 := rfl
  have hN : NDIRECT + NINDIRECT = 1034 := rfl
  have hsize := (hv.dir hd).1
  have hval : (m.fSize dir + 4096#32).toNat =
      (m.dirBlocks dir + 1) * BLKSIZE := by
    rw [BitVec.toNat_add, hsize, BitVec.toNat_ofNat, hB]
    omega
  have hnew : (m'.fSize dir).toNat = (m.dirBlocks dir + 1) * BLKSIZE := by
    rw [hgot.grows.fSize, fSize_setSize, hval]
  refine ⟨hval, dirBlocks_eq hnew ?_⟩
  rw [hnew, hB]
  omega

theorem Tree.grown_tree (hin : m.InDir dir) : m'.Tree := by
  have hB : BLKSIZE = 4096 := rfl
  have hN : NDIRECT + NINDIRECT = 1034 := rfl
  have hmax : MAXFILESIZE = 1034 * 4096 := rfl
  obtain ⟨hval, _⟩ := hv.grown_blocks hd hk hgot
  have hsize := (hv.dir hd).1
  refine hv.tree_grow hd.record hk hgot (hv.next_ref hd hk) hin ?_ ?_ ?_
    fun _ => ⟨rfl, hval⟩
  · rw [hval, hB]
    omega
  · rw [roundBlocks_toNat (by rw [hval, hB]; omega), hval, hB]
    omega
  · rw [roundBlocks_toNat (by rw [hsize, hB]; omega),
      roundBlocks_toNat (by rw [hval, hB]; omega), hval, hsize, hB]
    omega

omit hk in
theorem Tree.grown_isDir : m'.IsDir dir := by
  obtain ⟨hm₂, hd₂⟩ := hv.sound_setSize hd.record (v := m.fSize dir + 4096#32)
  refine (hgot.grows.sound hm₂ hd₂).2.isDir ?_
  rw [hgot.grows.fType, fType_setSize]
  exact hv.isDir_type hd

/-- The new block brings no children. -/
theorem Tree.grown_child : m'.Child d name g ↔ m.Child d name g := by
  have hc := hv.grown_changes hd hk hgot
  obtain ⟨hm₂, hd₂⟩ := hv.sound_setSize hd.record (v := m.fSize dir + 4096#32)
  have hnamed : ∀ {n : List (BitVec 8)}, n.length < MAXNAMELEN →
      (m'.Named dir n ↔ m.Named dir n) := fun {n} hn =>
    forall₂_congr fun i hi => by
      rw [hv.grow_fName hd.record hgot (i := i) (by omega)]
  constructor
  · intro hch
    refine hc.child_back hch ?_
    rintro rfl
    exact (hnamed hch.isName.short).mp hch.named
  · intro hch
    have hname : m'.Named g name := by
      by_cases hg : g = dir
      · subst hg
        exact (hnamed hch.isName.short).mpr hch.named
      · exact ((hc.kept g hch.record hg).named hch.isName.short).mpr hch.named
    by_cases hdd : d = dir
    · subst hdd
      obtain ⟨k, j, hkn, hkb, hj, h0, rfl⟩ := hch.slot
      have href := hv.grow_ref hd.record hgot hkb (by omega)
      refine ⟨hv.grown_isDir hd hgot, hch.isName,
        ⟨k, j, ?_, hkb, hj, by rwa [href], by rw [href]⟩, hname⟩
      rw [(hv.grown_blocks hd hk hgot).2]
      omega
    · have hkept := hc.kept d hch.isDir.record hdd
      have hold : (m.setSize dir (m.fSize dir + 4096#32)).Rec d := record_mono
        (fun p k hp hk _ => hv.ref_setSize hd.record (.data hp.record hk))
        (fun r hr => (hv.setSize_evolves hd.record).fType r hr) hch.isDir.record
      have hdir : m'.IsDir d :=
        ((hgot.grows.edits.extends hm₂ hd₂).record d hold).isDir
        (hkept.fType.trans (hv.isDir_type hch.isDir))
      exact ⟨hdir, hch.isName, hkept.slotOf.mpr hch.slot, hname⟩

theorem Tree.grown_mirrors (hM : m.Mirrors M) : m'.Mirrors M := by
  have hc := hv.grown_changes hd hk hgot
  have hres : ∀ p g, m'.Resolves p g ↔ m.Resolves p g := fun p g =>
    resolves_iff fun d n g => hv.grown_child hd hk hgot
  refine ⟨fun p g hg => ?_, fun p hno => hM.nowhere p fun g hg =>
    hno g ((hres p g).mpr hg)⟩
  have hold := (hres p g).mp hg
  rw [hM.leads p g hold]
  by_cases hgd : g = dir
  · subst hgd
    rw [node_of_dir hv.toSound hd,
      node_of_dir hc.sound (hv.grown_isDir hd hgot)]
  · rw [(hc.kept g hold.record hgd).node]

/-- The first record of the new block. -/
theorem Tree.grown_blank :
    m'.SlotOf dir (slot (m'.ref (.data dir (m.dirBlocks dir))) 0) ∧
    m'.Blank (slot (m'.ref (.data dir (m.dirBlocks dir))) 0) := by
  have hslot :
      m'.SlotOf dir (slot (m'.ref (.data dir (m.dirBlocks dir))) 0) := by
    refine ⟨m.dirBlocks dir, 0, ?_, hk, by decide, hgot.ne, rfl⟩
    rw [(hv.grown_blocks hd hk hgot).2]
    exact Nat.lt_succ_self _
  have hrec := hslot.record (hv.grown_isDir hd hgot)
  refine ⟨hslot,
    ((hv.grow_record hd.record hgot hrec).resolve_left fun hold => ?_)⟩
  have hfree := hgot.free (by rw [hv.ref_setSize hd.record (.data hd.record hk),
    hv.next_ref hd hk])
  rw [(hv.setSize_sameMap hd.record).isFree] at hfree
  exact (hv.blk_inUse hold).not_free hfree

omit hv in
theorem Volume.grown (hw : m.Volume) (hin : m.InDir dir) : m'.Volume := by
  obtain ⟨hled, hround⟩ := hw.ledger.lengthen hd hin (hw.allWhole dir hd)
  obtain ⟨_, hd₂⟩ := hw.sound_setSize hd.record (v := m.fSize dir + 4096#32)
  have hdir := hw.grown_isDir hd hgot
  have hin' : m'.InDir dir := by
    rcases hin with hroot | hname
    · exact .inl hroot
    · right
      rwa [hw.grow_fName hd.record hgot (by decide)]
  refine ⟨hw.grown_tree hd hk hgot hin,
    hled.got hd₂ (inDir_setSize.mpr hin) ?_ hgot, fun r hr hno =>
    (hw.grown_changes hd hk hgot).plain hw.plain
      (fun h => absurd hin' h) hr hno⟩
  rw [fSize_setSize, hround]
  exact Nat.lt_succ_self _

end Grow

/-! ## A file that gets a name -/

section Name

variable {par : Names} (hv : m.Volume) (hd : m.IsDir dir) (hf : m.SlotOf dir f)
  (h0 : m.fName f 0 = 0) (hn : IsName name)
include hv hd hf h0 hn

omit hn in
theorem Volume.free_plain : m.fType f ≠ FTYPE_DIR := by
  refine hv.plain f (hf.record hd) ?_
  rintro (hroot | hname)
  · exact hv.slotOf_ne_root hd hf hroot
  · exact hname h0

theorem Volume.putName (hno : ∀ g, ¬m.Child dir name g) :
    (m.putName f name).Volume := by
  have hrec := hf.record hd
  refine ⟨hv.tree_putName hd hf h0 hn hno,
    hv.ledger.give hrec (hv.empty_of_free hd hf h0) hn, fun r hr hin =>
    (hv.changes_putName hd hf h0 hn).plain hv.plain (fun _ => ?_) hr hin⟩
  rw [(hv.putName_evolves hn.short hrec).fType f hrec]
  exact hv.free_plain hd hf h0

/-- The new name leads to the new file, and nothing else has changed. -/
theorem Volume.resolves_putName (hpar : m.Resolves par dir) :
    (m.putName f name).Resolves path g ↔ m.Resolves path g ∨
    path = par ++ [name] ∧ g = f := by
  have hc := hv.changes_putName hd hf h0 hn
  have hnew := hv.child_putName hd hf h0 hn
  have hdirs : ∀ {e}, (m.putName f name).IsDir e → e ≠ f := by
    rintro e he rfl
    exact hv.free_plain hd hf h0 (hv.isDir_type (hc.isDir e he))
  have hold : ∀ {p e}, m.Resolves p e → (m.putName f name).Resolves p e :=
    resolves_mono fun e n g hch => by
    have hrec := hf.record hd
    have hef : e ≠ f := by
      rintro rfl
      exact hv.free_plain hd hf h0 (hv.isDir_type hch.isDir)
    refine hc.child hch ?_ hef fun hg => hch.named.fName_ne hch.isName (hg ▸ h0)
    have hr : (m.putName f name).Rec e := record_mono
      (fun p k hp hk _ => hv.ref_putName hn.short hrec (.data hp.record hk))
      (fun r hr => (hv.putName_evolves hn.short hrec).fType r hr)
      hch.isDir.record
    exact hr.isDir (((hv.putName_evolves hn.short hrec).fType e
      hch.isDir.record).trans (hv.isDir_type hch.isDir))
  constructor
  · intro hg
    induction hg with
    | root => exact .inl .root
    | @child p e g n _ hch ih =>
        have he := ih.resolve_right fun h => hdirs hch.isDir h.2
        by_cases hgf : g = f
        · subst hgf
          obtain rfl :=
            hc.sound.parent_unique hch.isDir hnew.isDir hch.slot hnew.slot
          rw [hv.path_unique he hpar,
            hch.named.unique hnew.named hch.isName.noZero hn.noZero]
          exact .inr ⟨rfl, rfl⟩
        · exact .inl (.child he (hc.child_back hch fun h => absurd h hgf))
  · rintro (hg | ⟨rfl, rfl⟩)
    · exact hold hg
    · exact .child (hold hpar) hnew

theorem Volume.mirrors_putName (hM : m.Mirrors M) (hpar : m.Resolves par dir)
    (hno : ∀ g, ¬m.Child dir name g) :
    (m.putName f name).Mirrors
      (Function.update M (par ++ [name]) (some (.file .empty))) := by
  have hrec := hf.record hd
  have hres : ∀ {p g}, (m.putName f name).Resolves p g ↔ _ :=
    hv.resolves_putName hd hf h0 hn hpar
  have hnone : ∀ g, ¬m.Resolves (par ++ [name]) g := by
    intro g hg
    obtain ⟨d', hd', hch⟩ := resolves_snoc.mp hg
    rw [hv.dirs.resolves_unique hd' hpar] at hch
    exact hno g hch
  have hfree : ∀ {p g}, m.Resolves p g → g ≠ f := by
    rintro p g hg rfl
    cases hg with
    | root => exact hv.slotOf_ne_root hd hf rfl
    | child _ hch => exact hch.named.fName_ne hch.isName h0
  refine hM.update (fun p g hp => ⟨fun hg => (hres.mp hg).resolve_right fun h =>
    hp h.1, fun hg => hres.mpr (.inl hg)⟩)
    (fun p g _ hg => ?_) (fun g hg => ?_) fun hnot => ?_
  · exact ((hv.changes_putName hd hf h0 hn).kept g hg.record (hfree hg)).node
  · obtain ⟨_, rfl⟩ := (hres.mp hg).resolve_left (hnone g)
    have he := hv.empty_of_free hd hf h0
    have htype : (m.putName g name).fType g ≠ FTYPE_DIR := by
      rw [(hv.putName_evolves hn.short hrec).fType g hrec]
      exact hv.free_plain hd hf h0
    have hsize : (m.putName g name).fSize g = 0 := by
      rw [← he.size]
      exact entry_putName hn.short (.inr (.inr (by omega)))
    rw [node_of_file htype, hsize, Doc.empty]
    congr 2
    congr 1
    funext o
    rw [bytes]
    split
    · rename_i ho
      have hk : o / BLKSIZE < NDIRECT + NINDIRECT := div_lt_blocks ho
      refine (if_pos ?_).symm
      rw [hv.ref_putName hn.short hrec (.data hrec hk)]
      exact he.ref (.data g _) rfl hk
    · rfl
  · exact absurd (hres.mpr (.inr ⟨rfl, rfl⟩)) (hnot f)

end Name

end PhysMem

end Jos
