import Jos.Fs.Volume

/-!
# The file system is a map from paths to files

A volume in memory, and the map it should be. An operation on the volume returns
what the operation of the map returns and leaves what it leaves, as long as
there are blocks: a read and a write leave a free one, and a directory that has
no `struct File` left for a new file can get a block.
-/

namespace Jos

open PhysMem

/-- What is in memory is a volume that mirrors the files of `C`, and the request
page is that of `C`. -/
def Fs.Holds (d : PhysMem) (s : Fs) (C : Catalog) : Prop :=
  ∃ m, s.Shows d m C.page ∧ m.Volume ∧ m.Mirrors C.files

namespace VolumeOp

/-- The operation of the map. A file that is open stands for its path. -/
def Means (s : Fs) : VolumeOp → CatalogOp → Prop
  | create path, c => c = .create (components path)
  | .open path, c => c = .open (components path)
  | read f buf count offset, c =>
      ∃ p, s.mem.Resolves p f ∧ c = .read p buf count.toNat offset.toNat
  | write f page buf count offset, c =>
      ∃ p, s.mem.Resolves p f ∧ c = .write p page buf count.toNat offset.toNat
  | setSize f newsize, c =>
      ∃ p, s.mem.Resolves p f ∧ c = .setSize p newsize.toNat
  | remove path, c => c = .remove (components path)

/-- There are blocks for the operation that takes `s` to `t`. -/
def Spare (s t : Fs) : VolumeOp → Prop
  | create path => ¬s.mem.Stranded (components path)
  | read _ _ _ _ | write _ _ _ _ _ => ∃ b, t.mem.isFree b
  | .open _ | setSize _ _ | remove _ => True

/-- The operation does what `c` does to `C`. -/
def Sim (d : PhysMem) (s : Fs) (C : Catalog) (op : VolumeOp) (c : CatalogOp)
    (r : Except Word Word) (t : Fs) : Prop :=
  op.Spare s t → r = (C.exec c).1 ∧ t.Holds d (C.exec c).2

end VolumeOp

section

variable {d m : PhysMem} {s : Fs} {q : Bytes} {path : List (BitVec 8)}
  {p : Names} {f dir : FilePtr} {M : FileMap}
  {v count offset : Word} {A : Fs → Prop} {E : Stop → Fs → Prop}

/-! ## Operations on paths -/

/-- What a lookup answers is what the map answers. -/
theorem Volume.look (hv : m.Volume) (hM : m.Mirrors M) (hz : 0 ∉ path)
    {w : Walk} (hw : m.Answers (components path) w) :
    M.walk [] (components path) = lookOf w := by
  obtain ⟨w', hw', hlook⟩ := exists_answers hv.dirs hM .root fun c hc =>
    mem_components hz hc
  rw [List.nil_append] at hw'
  rw [hv.dirs.answers_unique hw hw', hlook]

theorem wp_fileOpen_volume (hv : m.Volume) (hM : m.Mirrors M) (hz : 0 ∉ path)
    (hs : s.Shows d m q)
    {Q : Except Word FilePtr → Fs → Prop}
    (hQ : ∀ a t, t.Shows d m q →
      (∀ f, a = .ok f → m.Resolves (components path) f) →
      Catalog.exec ⟨M, q⟩ (.open (components path)) =
        (a.map fun _ => 0, ⟨M, q⟩) → Q a t) :
    Prog.wp (fileOpen path) Q A E s := by
  apply Prog.wp_bind_intro
  refine wp_walkPath_dirs hv.dirs hz hs fun w t hw ht => ?_
  have hlook := Volume.look hv hM hz hw
  cases w with
  | found pd f =>
      refine Prog.wp_pure_intro
        (hQ _ t ht (fun g hg => by cases hg; exact Arrives.resolves hw) ?_)
      simp only [Catalog.exec, hlook, lookOf]
      rfl
  | missing dir c =>
      refine Prog.wp_pure_intro (hQ _ t ht (fun g hg => by cases hg) ?_)
      simp only [Catalog.exec, hlook, lookOf]
      rfl
  | error r =>
      refine Prog.wp_pure_intro (hQ _ t ht (fun g hg => by cases hg) ?_)
      simp only [Catalog.exec, hlook, lookOf]
      rfl

/-- A directory that has a free record, or can get one, gives it. -/
theorem wp_dirAllocFile_volume (hv : m.Volume) (hd : m.IsDir dir)
    (hin : m.InDir dir) (hM : m.Mirrors M) (hs : s.Shows d m q)
    (hroom : m.NoSlot dir → m.dirBlocks dir < NDIRECT + NINDIRECT ∧
      m.Room dir (m.dirBlocks dir))
    {Q : Except Word FilePtr → Fs → Prop}
    (hQ : ∀ f m' t, m'.Volume → m'.Mirrors M →
      (∀ e n g, m'.Child e n g ↔ m.Child e n g) → m'.IsDir dir →
      m'.SlotOf dir f → m'.fName f 0 = 0 → t.Shows d m' q → Q (.ok f) t) :
      Prog.wp (dirAllocFile dir) Q A E s := by
  have hwhole := hv.allWhole dir hd
  refine wp_dirAllocFile hv.toSound hd (hv.allAligned dir hd) hs
    (fun f m' t _ hsame hf h0 ht => ?_)
    (fun m₁ m' t _ hsame _ _ hk hgot ht => ?_)
    (fun r m' t _ hno _ => absurd hwhole hno.1)
    fun r m₁ m' t _ hsame _ hall _ hno hwalk _ => ?_
  · obtain rfl := hsame hwhole
    exact hQ f m' t hv hM (fun _ _ _ => Iff.rfl) hd hf h0 ht
  · obtain rfl := hsame hwhole
    obtain ⟨hslot, hblank⟩ := hv.grown_blank hd hk hgot
    exact hQ _ m' t (hv.grown hd hk hgot hin) (hv.grown_mirrors hd hk hgot hM)
      (fun _ _ _ => hv.grown_child hd hk hgot) (hv.grown_isDir hd hgot) hslot
      hblank.name ht
  · obtain rfl := hsame hwhole
    exact absurd (hroom hall).2
      (hv.not_room hd.record (hno (hroom hall).1).2 hwalk)

theorem wp_fileCreate_volume (hv : m.Volume) (hM : m.Mirrors M) (hz : 0 ∉ path)
    (hs : s.Shows d m q)
    (hroom : ¬m.Stranded (components path))
    {Q : Except Word FilePtr → Fs → Prop}
    (hQ : ∀ a t C, Catalog.exec ⟨M, q⟩ (.create (components path)) =
      (a.map fun _ => 0, C) → t.Holds d C → Q a t) :
    Prog.wp (fileCreate path) Q A E s := by
  apply Prog.wp_bind_intro
  refine wp_walkPath_dirs hv.dirs hz hs fun w t hw ht => ?_
  have hlook := Volume.look hv hM hz hw
  cases w with
  | found pd f =>
      refine Prog.wp_pure_intro (hQ _ t ⟨M, q⟩ ?_ ⟨m, ht, hv, hM⟩)
      simp only [Catalog.exec, hlook, lookOf]
      rfl
  | error r =>
      refine Prog.wp_pure_intro (hQ _ t ⟨M, q⟩ ?_ ⟨m, ht, hv, hM⟩)
      simp only [Catalog.exec, hlook, lookOf]
      rfl
  | missing dir c =>
      obtain ⟨hc, hl⟩ := hw
      have hstay : m.NoSlot dir → m.dirBlocks dir < NDIRECT + NINDIRECT ∧
          m.Room dir (m.dirBlocks dir) := by
        intro hno
        by_contra hfull
        exact hroom ⟨dir, ⟨⟨c, hc, hl⟩, hno⟩, hfull⟩
      obtain ⟨par, hpath, hpar, hd, hno⟩ := hl
      apply Prog.wp_bind_intro
      refine wp_dirAllocFile_volume hv hd hpar.inDir hM ht hstay
        fun f m' u hv' hM' hchild hd' hf h0 hu => ?_
      have hpar' : m'.Resolves par dir := (resolves_iff hchild).mpr hpar
      have hno' : ∀ g, ¬m'.Child dir c g :=
        fun g hg => hno g ((hchild dir c g).mp hg)
      apply Prog.wp_bind_intro
      refine wp_setName hv'.toSound (hf.record hd') hc.short hu fun w hw => ?_
      have hvol := hv'.putName hd' hf h0 hc hno'
      have hdir : (m'.putName f c).Rec dir :=
        (hv'.child_putName hd' hf h0 hc).isDir.record
      apply Prog.wp_bind_intro
      refine wp_fileFlush hvol.toSound hdir hw fun x hx => Prog.wp_pure_intro
        (hQ _ x ⟨Function.update M (components path) (some (.file .empty)), q⟩
        ?_ ⟨_, hx, hvol, ?_⟩)
      · simp only [Catalog.exec, hlook, lookOf]
        rfl
      · rw [hpath]
        exact hv'.mirrors_putName hd' hf h0 hc hM' hpar' hno'

theorem wp_fileRemove_volume (hv : m.Volume) (hM : m.Mirrors M) (hz : 0 ∉ path)
    (hs : s.Shows d m q)
    (hreg : ∀ f, m.Resolves (components path) f → m.fType f ≠ FTYPE_DIR)
    {Q : Except Word Unit → Fs → Prop}
    (hQ : ∀ a t C, Catalog.exec ⟨M, q⟩ (.remove (components path)) =
      (a.map fun _ => 0, C) → t.Holds d C → Q a t) :
    Prog.wp (fileRemove path) Q (fun _ => False) (fun _ _ => False) s := by
  -- an error is that of the lookup
  have herr : Prog.wp (fileRemove path) (fun a t => ∀ r, a = .error r →
      Catalog.exec ⟨M, q⟩ (.open (components path)) =
        (.error r, ⟨M, q⟩)) (fun _ => True) (fun _ _ => True) s := by
    apply Prog.wp_bind_intro
    refine wp_fileOpen_volume hv hM hz hs fun a t _ _ hexec => ?_
    cases a with
    | error x =>
        refine Prog.wp_pure_intro ?_
        rintro r ⟨⟩
        exact hexec
    | ok f =>
        refine Prog.wp_of_runs (fun a u hret => ?_) (fun _ _ => trivial)
          fun _ _ _ => trivial
        rintro r rfl
        obtain ⟨_, _, _, hret⟩ := Prog.bind_eq_ret.mp hret
        obtain ⟨_, _, _, hret⟩ := Prog.bind_eq_ret.mp hret
        obtain ⟨_, _, _, hret⟩ := Prog.bind_eq_ret.mp hret
        obtain ⟨_, _, _, hret⟩ := Prog.bind_eq_ret.mp hret
        cases hret
  have hrun : Prog.wp (fileRemove path) (fun a t =>
      (a = .ok () ∧ ∃ f m₁, m.Resolves (components path) f ∧
        Cut f 0 (max 0 (roundBlocks (m.fSize f)).toNat) m m₁ ∧
        t.Shows d (m₁.cleared f) q) ∨
      (∃ r, a = .error r) ∧ t.Shows d m q) (fun _ =>
        False) (fun _ _ => False) s :=
    wp_fileRemove hv.toTree hz hs
      (fun f m₁ t hf hcut ht => .inl ⟨rfl, f, m₁, hf, hcut, ht⟩)
      fun r t _ ht => .inr ⟨⟨r, rfl⟩, ht⟩
  refine Prog.wp_imp (hrun.and herr) (fun a t h => ?_) (fun _ h => h.1)
    fun _ _ h => h.1
  obtain ⟨⟨rfl, f, m₁, hf, hcut, ht⟩ | ⟨⟨r, rfl⟩, ht⟩, herr⟩ := h
  · have hregular : m.Regular f (m.fSize f) :=
      ⟨hf.record, hf.inDir, hreg f hf, rfl⟩
    obtain ⟨w, hw⟩ : ∃ w, m.Answers (components path) w := by
      obtain ⟨w, hw, _⟩ := exists_answers hv.dirs hM .root fun c hc =>
        mem_components hz hc
      exact ⟨w, hw⟩
    have hlook := Volume.look hv hM hz hw
    cases w with
    | found pd g =>
        refine hQ _ t ⟨Function.update M (components path) none, q⟩ ?_
          ⟨_, ht, hv.remove hregular hcut,
          hv.mirrors_remove hregular hcut hM hf⟩
        simp only [Catalog.exec, hlook, lookOf]
        rfl
    | missing dir c => exact absurd hf (hv.dirs.not_resolves_of_lacks hw.2)
    | error r =>
        obtain ⟨pre, name, rest, hp, hst⟩ := hw
        rw [hp] at hf
        exact absurd hf (hv.dirs.not_resolves hst)
  · refine hQ _ t ⟨M, q⟩ ?_ ⟨m, ht, hv, hM⟩
    have hexec := herr r rfl
    simp only [Catalog.exec] at hexec ⊢
    split at hexec
    · cases hexec
    · cases (Prod.mk.inj hexec).1
      rfl
    · cases (Prod.mk.inj hexec).1
      rfl

/-! ## Operations on files -/

/-- A file that is read or written is in the map. -/
theorem Mirrors.file (hM : m.Mirrors M) (hp : m.Resolves p f)
    (ht : m.fType f ≠ FTYPE_DIR) :
    M p = some (.file ⟨(m.fSize f).toNat, m.bytes f⟩) := by
  rw [hM.leads p f hp, node_of_file ht]

theorem wp_fileRead_volume (hv : m.Volume) (hM : m.Mirrors M)
    (hp : m.Resolves p f) (hf : m.Regular f (m.fSize f)) {buf : Nat}
    (hbuf : buf + count.toNat ≤ BLKSIZE)
    (hend : offset.toNat + count.toNat ≤ MAXFILESIZE) (hs : s.Shows d m q)
    {Q : Except Word Word → Fs → Prop}
    (hQ : ∀ a t, ((∃ b, t.mem.isFree b) →
      a = (Catalog.exec ⟨M, q⟩ (.read p buf count.toNat offset.toNat)).1 ∧
      t.Holds d
      (Catalog.exec ⟨M, q⟩ (.read p buf count.toNat offset.toNat)).2) → Q a t) :
    Prog.wp (fileRead f (-BLKSIZE + buf) count offset) Q (fun _ => False)
      (fun _ _ => False) s := by
  have hmax : MAXFILESIZE = 4235264 := rfl
  have hsize := (hv.fileOk f hf.record).size
  have hread : Prog.wp (fileRead f (-BLKSIZE + buf) count offset)
      (fun a t => (∃ b, t.mem.isFree b) →
      a = .ok
        (BitVec.ofNat 32 (min count.toNat ((m.fSize f).toNat - offset.toNat))) ∧
        ∃ m', Grows f m m' ∧
        t.Shows d m' (q.copy buf (m.byte f) offset.toNat
          (min count.toNat ((m.fSize f).toNat - offset.toNat))))
      (fun _ => False) (fun _ _ => False) s := by
    refine wp_fileRead hv.toSound hf.record hs (by omega) (by omega) (by omega)
      (fun m' t hg ht _ => ⟨rfl, m', hg, ht⟩)
      fun x e m' q' t hx he _ ht hfree => ?_
    obtain ⟨b, hb⟩ := hfree
    rw [ht.mem] at hb
    exact absurd hb ((he (div_lt_blocks (by omega))).2 b)
  refine Prog.wp_imp (hread.and (wp_fileRead_ledger (A := fun _ => False)
    (E := fun _ _ => False) hv.ledger hf hend hbuf hs))
    (fun a t h => hQ a t fun hfree => ?_) (fun _ h => h.1) fun _ _ h => h.1
  obtain ⟨⟨rfl, m', hg, ht⟩, hserves⟩ := And.imp_left (fun h => h hfree) h
  have hled := hserves.balanced.ledger ht
  have hname : ∀ i, i < MAXNAMELEN → m'.fName f i = m.fName f i := fun i hi =>
    (hg.edits.extends hv.toSound hf.record).fName hf.record hi
  have hexec : Catalog.exec ⟨M, q⟩ (.read p buf count.toNat offset.toNat) =
      (.ok
        (BitVec.ofNat 32 (min count.toNat ((m.fSize f).toNat - offset.toNat))),
        ⟨M, q.copy buf (m.bytes f) offset.toNat
          (min count.toNat ((m.fSize f).toNat - offset.toNat))⟩) := by
    simp only [Catalog.exec, Mirrors.file hM hp hf.type, Doc.available]
  have hcopy : q.copy buf (m.byte f) offset.toNat
      (min count.toNat ((m.fSize f).toNat - offset.toNat)) =
      q.copy buf (m.bytes f) offset.toNat
        (min count.toNat ((m.fSize f).toNat - offset.toNat)) := by
    funext j
    by_cases hj : buf ≤ j ∧ j <
      buf + min count.toNat ((m.fSize f).toNat - offset.toNat)
    · rw [Bytes.copy_of_mem hj, Bytes.copy_of_mem hj, bytes, if_pos (by omega)]
    · rw [Bytes.copy_of_ne (by omega), Bytes.copy_of_ne (by omega)]
  rw [hexec]
  rw [hcopy] at ht
  refine ⟨rfl, m', ht, hv.edited hf hg.edits hname hled, ?_⟩
  have hmir := hv.mirrors_edit hf hg.edits hname hM hp
  rwa [hg.node hf.type, ← hM.leads p f hp, Function.update_eq_self] at hmir

theorem wp_fileWrite_volume (hv : m.Volume) (hM : m.Mirrors M)
    (hp : m.Resolves p f) (hf : m.Regular f (m.fSize f)) {buf : Nat}
    (hbuf : buf + count.toNat ≤ BLKSIZE)
    (hend : offset.toNat + count.toNat ≤ MAXFILESIZE) (hs : s.Shows d m q)
    {page : Bytes}
    {Q : Except Word Word → Fs → Prop}
    (hQ : ∀ a t, ((∃ b, t.mem.isFree b) →
      a = (Catalog.exec ⟨M, page⟩ (.write p q buf count.toNat offset.toNat)).1 ∧
      t.Holds d (Catalog.exec ⟨M, page⟩
        (.write p q buf count.toNat offset.toNat)).2) → Q a t) :
    Prog.wp (fileWrite f (-BLKSIZE + buf) count offset) Q (fun _ => False)
      (fun _ _ => False) s := by
  have hmax : MAXFILESIZE = 4235264 := rfl
  have hwrite : Prog.wp (fileWrite f (-BLKSIZE + buf) count offset)
      (fun a t => (∃ b, t.mem.isFree b) →
      a = .ok count ∧ ∃ m', Put f offset.toNat (offset.toNat + count.toNat)
        (fun i => q (buf + i))
        (m.extend f (offset + count)) m' ∧ t.Shows d m' q) (fun _ =>
          False) (fun _ _ => False) s := by
    refine wp_fileWrite hv.toSound hf.record hf.type hs (by omega) hbuf
      (fun m' t hput ht _ => ⟨rfl, m', hput, ht⟩)
      fun x e m' t hx he _ ht hfree => ?_
    obtain ⟨b, hb⟩ := hfree
    rw [ht.mem] at hb
    exact absurd hb ((he (div_lt_blocks (by omega))).2 b)
  refine Prog.wp_imp (hwrite.and (wp_fileWrite_ledger (A := fun _ => False)
    (E := fun _ _ => False) hv.ledger hf hend hbuf hs))
    (fun a t h => hQ a t fun hfree => ?_) (fun _ h => h.1) fun _ _ h => h.1
  obtain ⟨⟨rfl, m', hput, ht⟩, hbal⟩ := And.imp_left (fun h => h hfree) h
  have hled := hbal.ledger ht
  have hexec :
      Catalog.exec ⟨M, page⟩ (.write p q buf count.toNat offset.toNat) =
      (.ok count, ⟨Function.update M p (some (.file
        (Doc.write ⟨(m.fSize f).toNat, m.bytes f⟩ q buf count.toNat
          offset.toNat))), q⟩) := by
    simp only [Catalog.exec, Mirrors.file hM hp hf.type, BitVec.ofNat_toNat,
      BitVec.setWidth_eq]
  have hsum : (offset + count).toNat = offset.toNat + count.toNat := by
    rw [BitVec.toNat_add]
    omega
  have hext : Edits (fun _ => True) f m (m.extend f (offset + count)) ∧
      ∀ i, i < MAXNAMELEN → (m.extend f (offset + count)).fName f i =
        m.fName f i := by
    unfold PhysMem.extend
    split
    · rename_i hlt
      rw [BitVec.lt_def] at hlt
      obtain ⟨hlong, hreg⟩ := hv.ledger.extend hf (w := offset + count)
        (Nat.le_of_lt hlt) (by omega)
      exact ⟨hlong.setSize_edit hreg.record, fun i hi => fName_setSize hi⟩
    · exact ⟨.refl _ f m, fun _ _ => rfl⟩
  have hedits : Edits (fun _ => True) f m m' :=
    hext.1.trans (Edits.mono (fun _ _ => trivial) hput.edits)
  have hname : ∀ i, i < MAXNAMELEN → m'.fName f i = m.fName f i := fun i hi =>
    (fName_of_field (fun j hj => hput.field j (by omega)) hi).trans
      (hext.2 i hi)
  rw [hexec]
  refine ⟨rfl, m', ht, hv.edited hf hedits hname hled, ?_⟩
  rw [← node_extend hv.toSound hf hend hput]
  exact hv.mirrors_edit hf hedits hname hM hp

theorem wp_fileSetSize_volume (hv : m.Volume) (hM : m.Mirrors M)
    (hp : m.Resolves p f) (hf : m.Regular f (m.fSize f))
    (hw : v.toNat ≤ MAXFILESIZE) (hs : s.Shows d m q)
    {Q : Except Word Unit → Fs → Prop}
    (hQ : ∀ a t C, Catalog.exec ⟨M, q⟩ (.setSize p v.toNat) =
      (a.map fun _ => 0, C) → t.Holds d C → Q a t) :
    Prog.wp (fileSetSize f v) Q A E s := by
  have hmax : MAXFILESIZE = 4235264 := rfl
  have hsize := (hv.fileOk f hf.record).size
  have hexec : Catalog.exec ⟨M, q⟩ (.setSize p v.toNat) =
      (.ok 0, ⟨Function.update M p (some
        (.file (Doc.resize ⟨(m.fSize f).toNat, m.bytes f⟩ v.toNat))), q⟩) := by
    simp only [Catalog.exec, Mirrors.file hM hp hf.type]
  refine wp_fileSetSize hv.toSound hf.record hs (fun m' t hlt hcut ht => ?_)
    fun t hge ht => ?_
  · rw [BitVec.slt_iff_toInt_lt, toInt_of_nonneg (by omega),
      toInt_of_nonneg (by omega)] at hlt
    obtain ⟨hled, hreg⟩ := hv.ledger.cut hf hw hcut
    have hedits : Edits (fun _ => True) f m (m'.setSize f v) :=
      (Edits.mono (fun _ _ => trivial) hcut.edits).trans
        (hled.setSize_edit hreg.record)
    have hname : ∀ i, i < MAXNAMELEN → (m'.setSize f v).fName f i =
        m.fName f i := fun i hi =>
      (fName_setSize hi).trans (hcut.fName hi)
    refine hQ _ t _ hexec ⟨_, ht, hv.edited hf hedits hname hled, ?_⟩
    dsimp only
    rw [← hv.ledger.node_cut hf (by omega) hcut]
    exact hv.mirrors_edit hf hedits hname hM hp
  · rw [BitVec.slt_iff_toInt_lt, toInt_of_nonneg (by omega),
      toInt_of_nonneg (by omega)] at hge
    obtain ⟨hled, hreg⟩ := hv.ledger.extend hf (w := v) (by omega) hw
    have hname : ∀ i, i < MAXNAMELEN → (m.setSize f v).fName f i =
        m.fName f i := fun i hi => fName_setSize hi
    refine hQ _ t _ hexec ⟨_, ht,
      hv.edited hf (hled.setSize_edit hreg.record) hname hled, ?_⟩
    dsimp only
    rw [← node_grown hv.toSound hf (by omega)]
    exact hv.mirrors_edit hf (hled.setSize_edit hreg.record) hname hM hp

/-- A file of a volume has a path. -/
theorem Volume.exists_path (hv : m.Volume) (hr : m.Rec f) (hin : m.InDir f) :
    ∃ p, m.Resolves p f := by
  have hchild : ∀ {e g}, m.IsDir e → m.SlotOf e g → m.InDir g →
      ∃ n, m.Child e n g := by
    intro e g he hg hin
    have hroot := hv.slotOf_ne_root he hg
    obtain ⟨n, hn, hname⟩ :=
      (hv.fileOk g (hg.record he)).live hroot (hin.resolve_left hroot)
    exact ⟨n, he, hn, hg, hname⟩
  have hdir : ∀ n e, m.DirAt n e → ∃ p, m.Resolves p e := by
    intro n
    induction n with
    | zero =>
        rintro e rfl
        exact ⟨[], .root⟩
    | succ n ih =>
        rintro e ⟨u, k, j, hu, hk, hj, hne, rfl, ht⟩
        have hdu : m.IsDir u := ⟨n, hu⟩
        have hslot : m.SlotOf u (slot (m.ref (.data u k)) j) :=
          ⟨k, j, ((hv.dir hdu).2 k hk).mp hne, hk, hj, hne, rfl⟩
        have hin : m.InDir (slot (m.ref (.data u k)) j) := by
          by_contra hno
          exact hv.plain _ (hslot.record hdu) hno ht
        obtain ⟨p, hp⟩ := ih u hu
        obtain ⟨c, hc⟩ := hchild hdu hslot hin
        exact ⟨p ++ [c], .child hp hc⟩
  rcases hv.record_cases hr with rfl | ⟨e, he, hslot⟩
  · exact ⟨[], .root⟩
  · obtain ⟨n, hn⟩ := id he
    obtain ⟨p, hp⟩ := hdir n e hn
    obtain ⟨c, hc⟩ := hchild he hslot hin
    exact ⟨p ++ [c], .child hp hc⟩

/-- `file_open` finds what is at the path. -/
theorem wp_fileOpen_finds (hv : m.Volume) (hz : 0 ∉ path) (hs : s.Shows d m q)
    (hf : m.Resolves (components path) f) :
    Prog.wp (fileOpen path) (fun a t => a = .ok f ∧ t.Shows d m q) A E s := by
  apply Prog.wp_bind_intro
  refine wp_walkPath_dirs hv.dirs hz hs fun w t hw ht => ?_
  cases w with
  | found pd g =>
      have hg : m.Resolves (components path) g := Arrives.resolves hw
      exact Prog.wp_pure_intro ⟨by rw [hv.dirs.resolves_unique hg hf], ht⟩
  | missing dir c => exact absurd hf (hv.dirs.not_resolves_of_lacks hw.2)
  | error r =>
      obtain ⟨pre, name, rest, hp, hst⟩ := hw
      rw [hp] at hf
      exact absurd hf (hv.dirs.not_resolves hst)

end

/-! ## Runs -/

namespace VolumeOp

variable {d : PhysMem} {s : Fs} {C : Catalog} {op : VolumeOp} {c : CatalogOp}

theorem exists_means (h : s.Holds d C) (ha : op.Allowed s) : ∃ c, op.Means s c := by
  obtain ⟨m, hs, hv, _⟩ := h
  have hpath :
      ∀ {f}, s.mem.Regular f (s.mem.fSize f) → ∃ p, s.mem.Resolves p f := by
    intro f hf
    rw [hs.mem] at hf ⊢
    exact Volume.exists_path hv hf.record hf.inDir
  cases op with
  | create _ | «open» _ | remove _ => exact ⟨_, rfl⟩
  | read f buf count offset | write f page buf count offset | setSize f newsize =>
      obtain ⟨p, hp⟩ := hpath ha.1
      exact ⟨_, p, hp, rfl⟩

/-- An operation on a volume does what it does to the map. -/
theorem wp_exec (h : s.Holds d C) (ha : op.Allowed s) (hc : op.Means s c) :
    Prog.wp op.run (op.Sim d s C c) (fun _ => False) (fun _ _ => False) s := by
  obtain ⟨m, hs, hv, hM⟩ := h
  obtain ⟨M, q⟩ := C
  cases op with
  | create path =>
      obtain rfl := hc
      by_cases hroom : m.Stranded (components path)
      · refine Prog.wp_imp (wp_run (.create path) ⟨m, q, hs, hv.ledger⟩ ha)
          (fun r t _ hspare => ?_) (fun _ h => h)
          fun _ _ h => h
        rw [← hs.mem] at hroom
        exact absurd hroom hspare
      · apply Prog.wp_bind_intro
        refine wp_fileCreate_volume hv hM ha hs hroom fun a t C hexec ht =>
          Prog.wp_pure_intro fun _ => ?_
        rw [hexec]
        exact ⟨rfl, ht⟩
  | «open» path =>
      obtain rfl := hc
      apply Prog.wp_bind_intro
      refine wp_fileOpen_volume hv hM ha hs fun a t ht _ hexec =>
        Prog.wp_pure_intro fun _ => ?_
      rw [hexec]
      exact ⟨rfl, m, ht, hv, hM⟩
  | read f buf count offset =>
      obtain ⟨p, hp, rfl⟩ := hc
      obtain ⟨hf, hbuf, hend⟩ := ha
      rw [hs.mem] at hf hp
      exact wp_fileRead_volume hv hM hp hf hbuf hend hs fun _ _ h => h
  | write f page buf count offset =>
      obtain ⟨p, hp, rfl⟩ := hc
      obtain ⟨hf, hbuf, hend⟩ := ha
      rw [hs.mem] at hf hp
      apply Prog.wp_update_bind
      have hs' : Fs.Shows d { s with req := page } m page :=
        ⟨hs.mem, fun _ _ => rfl, hs.ok, hs.bits, hs.late⟩
      exact wp_fileWrite_volume hv hM hp hf hbuf hend hs' fun _ _ h => h
  | setSize f newsize =>
      obtain ⟨p, hp, rfl⟩ := hc
      obtain ⟨hf, hnew⟩ := ha
      rw [hs.mem] at hf hp
      apply Prog.wp_bind_intro
      refine wp_fileSetSize_volume hv hM hp hf hnew hs fun a t C hexec ht =>
        Prog.wp_pure_intro fun _ => ?_
      rw [hexec]
      exact ⟨rfl, ht⟩
  | remove path =>
      obtain rfl := hc
      obtain ⟨hz, hreg⟩ := ha
      have hreg' : ∀ f, m.Resolves (components path) f →
          m.fType f ≠ FTYPE_DIR := by
        intro f hf
        obtain ⟨_, t, hret, rfl, ht⟩ :=
          (wp_fileOpen_finds hv hz hs hf).exists_ret
        rw [← ht.mem]
        exact hreg f t hret
      apply Prog.wp_bind_intro
      refine wp_fileRemove_volume hv hM hz hs hreg' fun a t C hexec ht =>
        Prog.wp_pure_intro fun _ => ?_
      rw [hexec]
      exact ⟨rfl, ht⟩

end VolumeOp

/-- A file system in memory, and the map that it should be. -/
structure Mounted where
  fs : Fs
  ref : Catalog

/-- An operation returns, and there were blocks for it. -/
def Mounted.Step (s : Mounted) (l : VolumeOp × Except Word Word)
    (t : Mounted) : Prop :=
  VolumeOp.Step s.fs l t.fs ∧ l.1.Spare s.fs t.fs ∧ ∃ c, l.1.Means s.fs c ∧
    t.ref = (s.ref.exec c).2

/-- The paths lead to what the map has, and the page is that of the map. -/
structure Fs.Agrees (s : Fs) (C : Catalog) : Prop where
  files : s.mem.Mirrors C.files
  page : ∀ j, j < BLKSIZE → s.req j = C.page j

theorem Fs.Holds.agrees {d : PhysMem} {s : Fs} {C : Catalog} (h : s.Holds d C) :
    s.Agrees C := by
  obtain ⟨m, hs, _, hM⟩ := h
  rw [← hs.mem] at hM
  exact ⟨hM, hs.req⟩

/-- The file system is a map from paths to files. After any run of operations
for which there were blocks the paths lead to what the map has, a file that
`file_open` finds has the path it was opened with, and the next operation
returns, with the value that the map gives and with what the map has then,
unless there are no blocks for it. -/
theorem volume_is_fileMap {s₀ s : Mounted} (hfresh : s₀.fs.Fresh)
    (hv : s₀.fs.mem.Volume) (hC : s₀.fs.Agrees s₀.ref)
    (hrun : Runs Mounted.Step (fun s l => l.1.Allowed s.fs) s₀ s) :
    s.fs.Agrees s.ref ∧
    (∀ path f t, 0 ∉ path → fileOpen path s.fs = .ret (.ok f) t →
      s.fs.mem.Resolves (components path) f) ∧
    ∀ op : VolumeOp, op.Allowed s.fs → ∃ c r t, op.Means s.fs c ∧
    VolumeOp.Step s.fs (op, r) t ∧
      (op.Spare s.fs t → r = (s.ref.exec c).1 ∧ t.Agrees (s.ref.exec c).2) := by
  have hstart : s₀.fs.Holds s₀.fs.disk s₀.ref :=
    ⟨s₀.fs.mem, ⟨rfl, hC.page, hfresh.ok, fun b _ _ hb => by
    rw [hfresh.mem]
    exact hb, fun _ _ _ => rfl⟩, hv, hC.files⟩
  have hend : s.fs.Holds s₀.fs.disk s.ref := by
    refine hrun.invariant (I := fun s => s.fs.Holds s₀.fs.disk s.ref) ?_ hstart
    rintro s ⟨op, r⟩ t hs ha ⟨hret, hspare, c, hc, href⟩
    rw [href]
    exact ((VolumeOp.wp_exec hs ha hc).ret hret hspare).2
  refine ⟨hend.agrees, fun path f t hz hret => ?_, fun op ha => ?_⟩
  · obtain ⟨m, hs, hm, hM⟩ := id hend
    have hwp : Prog.wp (fileOpen path) (fun a _ => ∀ f, a = .ok f →
        m.Resolves (components path) f) (fun _ => False)
        (fun _ _ => False) s.fs :=
      wp_fileOpen_volume hm hM hz hs fun a t _ h _ => h
    rw [hs.mem]
    exact hwp.ret hret f rfl
  · obtain ⟨c, hc⟩ := VolumeOp.exists_means hend ha
    obtain ⟨r, t, hret, hsim⟩ := (VolumeOp.wp_exec hend ha hc).exists_ret
    exact ⟨c, r, t, hc, hret, fun hspare =>
      And.imp_right Fs.Holds.agrees (hsim hspare)⟩

theorem smallDisk_volume : smallDisk.Volume := by
  refine ⟨smallDisk_tree, smallDisk_ledger, fun r hr hno => ?_⟩
  obtain rfl := rec_of_empty (by decide) (by decide) hr
  exact absurd (.inl rfl) hno

/-- The map without files. -/
def emptyCatalog : Catalog :=
  ⟨fun p => if p = [] then some .dir else none, fun _ => 0⟩

theorem smallFs_agrees : smallFs.Agrees emptyCatalog := by
  have hroot : smallDisk.Resolves [] ROOT := .root
  refine ⟨⟨fun p f hf => ?_, fun p hno => if_neg ?_⟩, fun _ _ => rfl⟩
  · obtain rfl := rec_of_empty (m := smallDisk) (by decide)
      (by decide) hf.record
    rw [smallDisk_sound.path_unique hf hroot]
    exact (congrArg some (node_of_dir smallDisk_sound (.root smallDisk))).symm
  · rintro rfl
    exact hno ROOT hroot

theorem smallDisk_roomy {p : Names} : ¬smallDisk.Stranded p := by
  rintro ⟨dir, ⟨⟨c, _, hl⟩, _⟩, hno⟩
  obtain rfl := rec_of_empty (by decide) (by decide) hl.isDir.record
  exact hno ⟨by decide, 3, by decide, .inl (.inl (by decide))⟩

/-- A file is created, and then it is there. -/
theorem volume_is_fileMap_small : ∃ s, Runs Mounted.Step
      (fun s l => l.1.Allowed s.fs) ⟨smallFs, emptyCatalog⟩ s ∧
    (∃ f, s.fs.mem.Resolves [[0x61]] f ∧ s.fs.mem.fType f ≠ FTYPE_DIR ∧
      s.fs.mem.fSize f = 0) ∧
    ∀ op : VolumeOp, op.Allowed s.fs → ∃ c r t, op.Means s.fs c ∧
    VolumeOp.Step s.fs (op, r) t ∧
      (op.Spare s.fs t → r = (s.ref.exec c).1 ∧ t.Agrees (s.ref.exec c).2) := by
  have hpath : (VolumeOp.create [SLASH, 0x61]).Allowed smallFs :=
    show 0 ∉ [SLASH, 0x61] by decide
  obtain ⟨_, _, hop⟩ := @volume_is_fileMap ⟨smallFs, emptyCatalog⟩ _
    smallFs_fresh smallDisk_volume smallFs_agrees (.refl _)
  obtain ⟨c, r, t, hc, hret, _⟩ := hop _ hpath
  have hrun : Runs Mounted.Step (fun s l => l.1.Allowed s.fs)
      ⟨smallFs, emptyCatalog⟩ ⟨t, (emptyCatalog.exec c).2⟩ :=
    .single hpath ⟨hret, smallDisk_roomy, c, hc, rfl⟩
  obtain ⟨hagree, _, hnext⟩ := @volume_is_fileMap ⟨smallFs, emptyCatalog⟩ _
    smallFs_fresh smallDisk_volume smallFs_agrees hrun
  refine ⟨_, hrun, ?_, hnext⟩
  obtain rfl : c = .create [[0x61]] := hc
  have hnew : (emptyCatalog.exec (.create [[0x61]])).2.files [[0x61]] =
      some (.file .empty) := by
    simp [Catalog.exec, emptyCatalog, FileMap.walk, MAXNAMELEN]
  obtain ⟨f, hf, hnode⟩ := hagree.files.some_of hnew
  refine ⟨f, hf, ?_⟩
  by_cases ht : t.mem.fType f = FTYPE_DIR
  · rw [PhysMem.node, if_pos ht] at hnode
    cases hnode
  · rw [node_of_file ht, Node.file.injEq, Doc.mk.injEq] at hnode
    exact ⟨ht, BitVec.eq_of_toNat_eq hnode.1⟩

end Jos
