import Jos.Fs.Ledger
import Jos.Lib.Run

/-!
# Runs that keep the ledger

The lookups allocate the blocks that a directory does not have below its size,
`file_create` takes a free `struct File` or a block for more of them, and
`file_remove` gives back what a file has. So the ledger of blocks balances after
any run, also where an operation stops for want of blocks.
-/

namespace Jos

open PhysMem

/-! ## Directories -/

namespace PhysMem

variable {m m' : PhysMem} {f dir : FilePtr} {k n : Nat} {name : List (BitVec 8)}
  {path : List (List (BitVec 8))}

theorem Ledger.dirSize (h : m.Ledger) (hd : m.IsDir dir) :
    (m.fSize dir).toNat = m.dirBlocks dir * BLKSIZE ∧
    m.dirBlocks dir ≤ NDIRECT + NINDIRECT + 1 ∧
    (roundBlocks (m.fSize dir)).toNat = m.dirBlocks dir := by
  have hok := h.recordOk dir hd.record
  obtain ⟨n, hn, hsize⟩ := hok.dir (h.isDir_type hd)
  have hB : BLKSIZE = 4096 := rfl
  have hN : NDIRECT + NINDIRECT = 1034 := rfl
  have hlt : (m.fSize dir).toNat < 2 ^ 31 := by
    rw [hsize, hB]
    omega
  rw [hok.roundBlocks, dirBlocks_eq hsize hlt]
  refine ⟨hsize, hn, ?_⟩
  rw [hsize, hB]
  omega

theorem Ledger.allAligned (h : m.Ledger) : m.AllAligned := by
  intro d hd
  have hle := (h.recordOk d hd.record).size_le
  have hmax : MAXFILESIZE + BLKSIZE = 4239360 := rfl
  apply BitVec.eq_of_toNat_eq
  rw [srem_of_nonneg (by omega) (by decide), (h.dirSize hd).1]
  exact Nat.mul_mod_left _ _

/-- A directory that has all of its blocks can get another, as far as its size
goes. -/
theorem Ledger.lengthen (h : m.Ledger) (hd : m.IsDir dir) (hin : m.InDir dir)
    (hwhole : m.Whole dir) :
    (m.setSize dir (m.fSize dir + 4096#32)).Ledger ∧
      (roundBlocks (m.fSize dir + 4096#32)).toNat = m.dirBlocks dir + 1 := by
  obtain ⟨hsize, hle, hround⟩ := h.dirSize hd
  have hB : BLKSIZE = 4096 := rfl
  have hN : NDIRECT + NINDIRECT = 1034 := rfl
  have hlt : m.dirBlocks dir ≤ NDIRECT + NINDIRECT := by
    by_contra hgt
    have hfull := (hwhole (m.dirBlocks dir - 1) (by omega)).1
    omega
  have hval : (m.fSize dir + 4096#32).toNat =
      (m.dirBlocks dir + 1) * BLKSIZE := by
    rw [BitVec.toNat_add, hsize, BitVec.toNat_ofNat, hB]
    omega
  have hnew : (roundBlocks (m.fSize dir + 4096#32)).toNat =
      m.dirBlocks dir + 1 := by
    rw [roundBlocks_toNat (by rw [hval, hB]; omega), hval, hB]
    omega
  refine ⟨((h.but dir).setSize hd.record).ledger
    ⟨fun k hk hkn => ?_, fun ht => ?_, fun _ => ?_, fun hno => ?_⟩, hnew⟩
  · rw [fSize_setSize, hnew] at hk
    rw [h.ref_setSize hd.record (.data hd.record hkn)]
    exact (h.recordOk dir hd.record).tail k (by omega) hkn
  · rw [fType_setSize] at ht
    exact absurd (h.isDir_type hd) ht
  · rw [fSize_setSize]
    exact ⟨_, by omega, hval⟩
  · exact absurd (inDir_setSize.mpr hin) hno

/-- What a path leads to is live. -/
theorem Child.inDir (h : m.Child dir name f) : m.InDir f :=
  .inr (h.named.fName_ne h.isName)

theorem Resolves.inDir (h : m.Resolves path f) : m.InDir f := by
  cases h with
  | root => exact .inl rfl
  | child _ hc => exact hc.inDir

end PhysMem

section

variable {d m : PhysMem} {s t : Fs} {q : Bytes} {f dir : FilePtr} {i n : Nat}
  {p : PhysMem → FilePtr → Bool}
  {name : List (BitVec 8)} {path : List (BitVec 8)} {A : Fs → Prop}
  {E : Stop → Fs → Prop}

theorem Fs.Balanced.ledger (h : t.Balanced d) (ht : t.Shows d m q) :
    m.Ledger := by
  obtain ⟨m', q', ht', hm⟩ := h
  rwa [← ht.mem, ht'.mem]

/-- A search allocates blocks of a directory below its size only. -/
theorem wp_dirSearch_ledger (h : m.Ledger) (hd : m.IsDir dir)
    (hin : m.InDir dir) (hn : i + n ≤ m.dirBlocks dir)
    (hs : s.Shows d m q) :
    Prog.wp (dirSearch dir p n i) (fun _ t => t.Balanced d) A E s := by
  induction n generalizing i m s with
  | zero => exact Prog.wp_pure_intro ⟨m, q, hs, h⟩
  | succ n ih =>
      obtain ⟨_, hle, hround⟩ := h.dirSize hd
      have hN : NDIRECT + NINDIRECT = 1034 := rfl
      have hi : (BitVec.ofNat 32 i).toNat = i := by
        rw [BitVec.toNat_ofNat, Nat.mod_eq_of_lt (by omega)]
      apply Prog.wp_bind_intro
      refine wp_fileGetBlock_ledger h hd.record hin (by omega) hs
        (fun m₁ t hk hg hm₁ ht => ?_)
        fun r m₁ t hm₁ _ ht => Prog.wp_pure_intro ⟨m₁, q, ht, hm₁⟩
      rw [hi] at hk hg ⊢
      have hext := hg.grows.edits.extends h.toSound hd.record
      have hd₁ : m₁.IsDir dir := (hext.isDir dir).mp hd
      apply Prog.wp_bind_intro
      refine wp_touch hm₁.toMapOk ht (hm₁.named _ (.data hd₁.record hk) hg.ne).1
        fun u hu => ?_
      apply Prog.wp_ask_bind
      split
      · exact Prog.wp_pure_intro ⟨m₁, q, hu, hm₁⟩
      · refine ih hm₁ hd₁ (hext.inDir hd.record hin) ?_ hu
        rw [hext.dirBlocks hd.record]
        omega

theorem wp_dirLookup_ledger (h : m.Ledger) (hd : m.IsDir dir)
    (hin : m.InDir dir) (hn : IsName name) (hs : s.Shows d m q)
    {Q : Except Word FilePtr → Fs → Prop}
    (hfound : ∀ g m' t, m'.Ledger → m'.Child dir name g → t.Shows d m' q →
      Q (.ok g) t)
    (herr : ∀ r m' t, m'.Ledger → t.Shows d m' q → Q (.error r) t) :
    Prog.wp (dirLookup dir name) Q A E s := by
  have hkeeps :
      Prog.wp (dirLookup dir name) (fun _ t => t.Balanced d) A E s := by
    apply Prog.wp_bind_intro
    refine wp_dirNblock h.toSound hd.record (h.allAligned dir hd) hs
      fun t ht => ?_
    apply Prog.wp_bind_intro
    refine Prog.wp_imp (wp_dirSearch_ledger h hd hin (by omega) ht)
      (fun a u hu => ?_) (fun _ h => h) fun _ _ h => h
    rcases a with r | (_ | g)
    · exact Prog.wp_pure_intro hu
    · exact Prog.wp_pure_intro hu
    · exact Prog.wp_pure_intro hu
  have hfinds : Prog.wp (dirLookup dir name)
      (fun a t => ∃ m', t.Shows d m' q ∧ ∀ g, a = .ok g →
        m'.Child dir name g) A E s :=
    wp_dirLookup h.toSound hd (h.allAligned dir hd) hn hs
      (fun g m' t _ _ hc ht => ⟨m', ht, fun _ hg => by cases hg; exact hc⟩)
      (fun m' t _ _ _ ht => ⟨m', ht, fun _ hg => by cases hg⟩)
      fun r m' t _ _ ht => ⟨m', ht, fun _ hg => by cases hg⟩
  refine Prog.wp_imp (hkeeps.and hfinds) (fun a t hat => ?_) (fun _ h => h.1)
    fun _ _ h => h.1
  obtain ⟨hb, m', ht, hc⟩ := hat
  cases a with
  | error r => exact herr r m' t (hb.ledger ht) ht
  | ok g => exact hfound g m' t (hb.ledger ht) (hc g rfl) ht

theorem wp_walkPathFrom_ledger {pdir : Option FilePtr} (h : m.Ledger)
    (hf : m.Rec f) (hin : m.InDir f) (hz : 0 ∉ path)
    (hb : Bare path) (hs : s.Shows d m q) :
    Prog.wp (walkPathFrom n path pdir f) (fun _ t => t.Balanced d) A E s := by
  induction n generalizing path pdir f m s with
  | zero => exact Prog.wp_pure_intro ⟨m, q, hs, h⟩
  | succ n ih =>
      refine Prog.wp_ite _ (fun _ => Prog.wp_pure_intro ⟨m, q, hs, h⟩)
        fun hne => ?_
      have hname := (components_bare hne hb).2.1
      have hz' : 0 ∉ skipSlash (path.dropWhile (· != SLASH)) := fun h0 =>
        hz ((List.dropWhile_sublist _).subset
          ((List.dropWhile_sublist _).subset h0))
      have hzn : 0 ∉ path.takeWhile (· != SLASH) :=
        fun h0 => hz ((List.takeWhile_sublist _).subset h0)
      refine Prog.wp_ite _ (fun _ => Prog.wp_pure_intro ⟨m, q, hs, h⟩)
        fun hshort => ?_
      apply Prog.wp_bind_intro
      refine wp_readWord h.toMapOk hs (h.blk_inUse hf) fun t ht => ?_
      refine Prog.wp_ite _ (fun _ => Prog.wp_pure_intro ⟨m, q, ht, h⟩)
        fun htype => ?_
      apply Prog.wp_bind_intro
      refine wp_dirLookup_ledger h (hf.isDir (not_not.mp htype)) hin
        ⟨hname, by omega, hzn⟩ ht (fun g m₁ u hm₁ hc hu => ?_)
        fun r m₁ u hm₁ hu => ?_
      · exact ih hm₁ hc.record hc.inDir hz' bare_skipSlash hu
      · exact Prog.wp_ite _ (fun _ => Prog.wp_pure_intro ⟨m₁, q, hu, hm₁⟩)
          fun _ => Prog.wp_pure_intro ⟨m₁, q, hu, hm₁⟩

theorem wp_walkPath_ledger (h : m.Ledger) (hz : 0 ∉ path) (hs : s.Shows d m q) :
    Prog.wp (walkPath path) (fun _ t => t.Balanced d) A E s :=
  wp_walkPathFrom_ledger h (.inl rfl) (.inl rfl)
    (fun h0 => hz ((List.dropWhile_sublist _).subset h0)) bare_skipSlash hs

/-! ## Creating and removing -/

/-- `dir_alloc_file` returns a record without data, or fails with the ledger
balanced. -/
theorem wp_dirAllocFile_ledger (h : m.Ledger) (hd : m.IsDir dir)
    (hin : m.InDir dir) (hs : s.Shows d m q)
    {Q : Except Word FilePtr → Fs → Prop}
    (hok : ∀ f m' t, m'.Ledger → m'.Rec dir → m'.Rec f → m'.Empty f →
      t.Shows d m' q → Q (.ok f) t)
    (herr : ∀ r m' t, m'.Ledger → t.Shows d m' q → Q (.error r) t) :
    Prog.wp (dirAllocFile dir) Q A E s := by
  apply Prog.wp_bind_intro
  refine wp_dirNblock h.toSound hd.record (h.allAligned dir hd) hs
    fun t ht => ?_
  apply Prog.wp_bind_intro
  have hsearch :
      Prog.wp (dirSearch dir (fun m f => m.fName f 0 == 0) (m.dirBlocks dir) 0)
      (fun a u => ∃ m', u.Shows d m' q ∧ Extends m m' ∧
        (∀ f, a = .ok (some f) → m'.SlotOf dir f ∧ m'.fName f 0 = 0) ∧
        (a = .ok none → m'.Whole dir)) A E t :=
    wp_dirSearchAll h.toSound hd nameTest_free ht
      (fun f m' u hg _ hf hp hu =>
      ⟨m', hu, hg.edits.extends h.toSound hd.record,
        fun _ he => (by cases he; exact ⟨hf, by simpa using hp⟩),
        fun he => by cases he⟩)
      (fun m' u hg _ hw _ hu => ⟨m', hu, hg.edits.extends h.toSound hd.record,
      fun _ he => (by cases he), fun _ => hw⟩)
      fun r m' u hg _ hu => ⟨m', hu, hg.edits.extends h.toSound hd.record,
      fun _ he => (by cases he), fun he => by cases he⟩
  refine Prog.wp_imp ((wp_dirSearch_ledger h hd hin (by omega) ht).and hsearch)
    (fun a u hau => ?_) (fun _ h => h.1)
    fun _ _ h => h.1
  obtain ⟨hb, m₁, hu, hext, hfree, hwhole⟩ := hau
  have hm₁ := hb.ledger hu
  have hd₁ : m₁.IsDir dir := (hext.isDir dir).mp hd
  have hin₁ := hext.inDir hd.record hin
  rcases a with r | (_ | f)
  · exact Prog.wp_pure_intro (herr r m₁ u hm₁ hu)
  · -- the directory has all of its blocks, and gets another
    obtain ⟨hm₂, hround⟩ := hm₁.lengthen hd₁ hin₁ (hwhole rfl)
    have hblocks : m₁.dirBlocks dir = m.dirBlocks dir :=
      hext.dirBlocks hd.record
    have hlt := dirBlocks_lt m dir
    have hn : (BitVec.ofNat 32 (m.dirBlocks dir)).toNat = m.dirBlocks dir := by
      rw [BitVec.toNat_ofNat, Nat.mod_eq_of_lt hlt]
    have huse := hm₁.blk_inUse hd₁.record
    obtain ⟨_, hd₂⟩ :=
      hm₁.sound_setSize hd₁.record (v := m₁.fSize dir + 4096#32)
    apply Prog.wp_bind_intro
    refine wp_readWord hm₁.toMapOk hu huse fun w hw => ?_
    apply Prog.wp_bind_intro
    refine wp_writeWord hm₁.toMapOk hw huse (hm₁.setSize_sameMap hd₁.record)
      fun x hx => ?_
    have hx : x.Shows d (m₁.setSize dir (m₁.fSize dir + 4096#32)) q := hx
    apply Prog.wp_bind_intro
    refine wp_fileGetBlock_ledger hm₂ hd₂ (inDir_setSize.mpr hin₁) ?_ hx
      (fun m' y hlt hg hm' hy => ?_)
      fun r m' y hm' _ hy => Prog.wp_pure_intro (herr r m' y hm' hy)
    · rw [fSize_setSize, hround, hn]
      omega
    · rw [hn] at hlt hg ⊢
      refine Prog.wp_pure_intro (hok _ m' y hm'
        ((hg.grows.edits.extends hm₂.toSound hd₂).record dir hd₂) ?_ ?_ hy)
      all_goals
        have hext' := hg.grows.edits.extends hm₂.toSound hd₂
        have hdir₂ : (m₁.setSize dir (m₁.fSize dir + 4096#32)).IsDir dir :=
          hd₂.isDir (fType_setSize.trans (hm₁.isDir_type hd₁))
        have hrec := ((hext'.isDir dir).mp hdir₂).slot_rec (j := 0) hlt
          (by decide) hg.ne
      · exact hrec
      · refine ((Edits.record_attach hm₂.toSound hd₂ hg.grows.edits
          hrec).resolve_left fun hold => ?_).toEmpty
        have hzero : (m₁.setSize dir (m₁.fSize dir + 4096#32)).ref
            (.data dir (m.dirBlocks dir)) = 0 := by
          rw [hm₁.ref_setSize hd₁.record (.data hd₁.record hlt)]
          exact (hm₁.recordOk dir hd₁.record).tail _
            (by rw [(hm₁.dirSize hd₁).2.2]; omega) hlt
        exact (hm₂.blk_inUse hold).not_free (hg.free hzero)
  · obtain ⟨hf, h0⟩ := hfree f rfl
    have hrec := hf.record hd₁
    exact Prog.wp_pure_intro (hok f m₁ u hm₁ hd₁.record hrec
      (hm₁.empty_of_free hrec (hm₁.slotOf_ne_root hd₁ hf) h0) hu)

theorem wp_fileCreate_ledger (h : m.Ledger) (hz : 0 ∉ path)
    (hs : s.Shows d m q) :
    Prog.wp (fileCreate path) (fun _ t => t.Balanced d) A E s := by
  have hwalk : Prog.wp (walkPath path) (fun w t => ∃ m', t.Shows d m' q ∧
      ∀ dir last, w = .missing dir last → m'.IsDir dir ∧ m'.InDir dir ∧
      IsName last) A E s :=
    wp_walkPath h.toSound h.allAligned hz hs
      (fun pd g m' t _ _ _ ht => ⟨m', ht, fun _ _ he => by cases he⟩)
      (fun par last dir m' t _ _ _ hr hdir hl _ ht =>
      ⟨m', ht, fun _ _ he => by cases he; exact ⟨hdir, hr.inDir, hl⟩⟩)
      fun r pre c rest m' t _ _ _ _ ht => ⟨m', ht, fun _ _ he => by cases he⟩
  apply Prog.wp_bind_intro
  refine Prog.wp_imp ((wp_walkPath_ledger h hz hs).and hwalk)
    (fun w t hwt => ?_) (fun _ h => h.1) fun _ _ h => h.1
  obtain ⟨hb, m', ht, hmiss⟩ := hwt
  have hm' := hb.ledger ht
  cases w with
  | found pd g => exact Prog.wp_pure_intro hb
  | error r => exact Prog.wp_pure_intro hb
  | missing dir last =>
      obtain ⟨hd, hin, hn⟩ := hmiss dir last rfl
      apply Prog.wp_bind_intro
      refine wp_dirAllocFile_ledger hm' hd hin ht
        (fun f m₁ u hm₁ hdir hf he hu => ?_)
        fun r m₁ u hm₁ hu => Prog.wp_pure_intro ⟨m₁, q, hu, hm₁⟩
      apply Prog.wp_bind_intro
      refine wp_setName hm₁.toSound hf hn.short hu fun w hw => ?_
      have hm₂ := hm₁.give hf he hn
      have hdir₂ : (m₁.putName f last).Rec dir := record_mono
        (fun p k hp hk _ => hm₁.ref_putName hn.short hf (.data hp.record hk))
        (fun r hr => (hm₁.putName_evolves hn.short hf).fType r hr) hdir
      apply Prog.wp_bind_intro
      exact wp_fileFlush hm₂.toSound hdir₂ hw fun x hx =>
        Prog.wp_pure_intro ⟨_, q, hx, hm₂⟩

theorem wp_fileOpen_ledger (h : m.Ledger) (hz : 0 ∉ path) (hs : s.Shows d m q) :
    Prog.wp (fileOpen path) (fun a t => ∃ m', t.Shows d m' q ∧ m'.Ledger ∧
      ∀ f, a = .ok f → m'.Rec f ∧ m'.InDir f) A E s := by
  have hwalk : Prog.wp (walkPath path) (fun w t => ∃ m', t.Shows d m' q ∧
      ∀ pd g, w = .found pd g → m'.Rec g ∧ m'.InDir g) A E s :=
    wp_walkPath h.toSound h.allAligned hz hs
      (fun pd g m' t _ _ har ht => ⟨m', ht, fun _ _ he => by
      cases he; exact ⟨har.resolves.record, har.resolves.inDir⟩⟩)
      (fun par last dir m' t _ _ _ hr hdir hl _ ht =>
      ⟨m', ht, fun _ _ he => by cases he⟩)
      fun r pre c rest m' t _ _ _ _ ht => ⟨m', ht, fun _ _ he => by cases he⟩
  apply Prog.wp_bind_intro
  refine Prog.wp_imp ((wp_walkPath_ledger h hz hs).and hwalk)
    (fun w t hwt => ?_) (fun _ h => h.1) fun _ _ h => h.1
  obtain ⟨hb, m', ht, hfound⟩ := hwt
  have hm' := hb.ledger ht
  cases w with
  | found pd g => exact Prog.wp_pure_intro ⟨m', ht, hm',
      fun _ he => by cases he; exact hfound pd g rfl⟩
  | missing dir last =>
      exact Prog.wp_pure_intro ⟨m', ht, hm', fun _ he => by cases he⟩
  | error r => exact Prog.wp_pure_intro ⟨m', ht, hm', fun _ he => by cases he⟩

/-- `file_remove` of a regular file. -/
theorem wp_fileRemove_ledger (h : m.Ledger) (hz : 0 ∉ path) (hs : s.Shows d m q)
    (hreg : ∀ f t, fileOpen path s = .ret (.ok f) t →
      t.mem.fType f ≠ FTYPE_DIR) :
    Prog.wp (fileRemove path) (fun _ t => t.Balanced d) (fun _ => False)
      (fun _ _ => False) s := by
  have hopen : Prog.wp (fileOpen path) (fun a t => ∀ f, a = .ok f →
      t.mem.fType f ≠ FTYPE_DIR) (fun _ => True)
      (fun _ _ => True) s :=
    Prog.wp_of_runs (fun a t hret f he => hreg f t (he ▸ hret))
      (fun _ _ => trivial) fun _ _ _ => trivial
  apply Prog.wp_bind_intro
  refine Prog.wp_imp ((wp_fileOpen_ledger (A := fun _ => False)
    (E := fun _ _ => False) h hz hs).and hopen)
    (fun a t hat => ?_) (fun _ h => h.1) fun _ _ h => h.1
  obtain ⟨⟨m', ht, hm', hfound⟩, htype⟩ := hat
  cases a with
  | error r => exact Prog.wp_pure_intro ⟨m', q, ht, hm'⟩
  | ok f =>
      obtain ⟨hf, hin⟩ := hfound f rfl
      have hregular : m'.Regular f (m'.fSize f) :=
        ⟨hf, hin, ht.mem ▸ htype f rfl, rfl⟩
      have hroot : roundBlocks 0 = 0#32 := by decide
      have hn : ([] : List (BitVec 8)).length < MAXNAMELEN := by decide
      apply Prog.wp_bind_intro
      refine wp_fileTruncateBlocks hm'.toSound hf ht fun m₁ u hcut hu => ?_
      rw [hroot] at hcut
      obtain ⟨hm₁, hf₁⟩ := hcut.sound hm'.toSound hf
      have hev := hm₁.putName_evolves hn hf₁
      have hm₂ := hev.sound hm₁
      have hf₂ : (m₁.putName f []).Rec f := record_mono
        (fun p k hp hk _ => hm₁.ref_putName hn hf₁ (.data hp.record hk))
        (fun r hr => hev.fType r hr) hf₁
      have huse := hm₂.blk_inUse hf₂
      have hmap := hm₂.setSize_sameMap (v := 0) hf₂
      apply Prog.wp_bind_intro
      refine wp_setName hm₁ hf₁ hn hu fun v hv => ?_
      apply Prog.wp_bind_intro
      refine wp_writeWord hm₂.toMapOk hv huse hmap fun w hw => ?_
      apply Prog.wp_bind_intro
      refine wp_flushBlock (hmap.mapOk hm₂.toMapOk) hw ?_ (fun h2 => ?_)
        fun x hx _ =>
        Prog.wp_pure_intro ⟨_, q, hx, hm'.remove hregular hcut⟩
      · rw [hmap.nblocks]
        exact huse.1
      · exact hm₂.blk_not_bitmap hf₂
          ⟨by omega, (reserved_congr hmap.nblocks).mp h2.2⟩

end

/-! ## Runs -/

/-- An operation on a path, or on a file that was opened. What is read or
written is in the request page. -/
inductive VolumeOp where
  | create (path : List (BitVec 8))
  | open (path : List (BitVec 8))
  | read (f : FilePtr) (buf : Nat) (count offset : Word)
  | write (f : FilePtr) (page : Bytes) (buf : Nat) (count offset : Word)
  | setSize (f : FilePtr) (newsize : Word)
  | remove (path : List (BitVec 8))

namespace VolumeOp

/-- What the operation returns. A pointer to a file counts as 0. -/
def run : VolumeOp → FsM (Except Word Word)
  | create path => do
      let r ← fileCreate path
      pure (r.map fun _ => 0)
  | .open path => do
      let r ← fileOpen path
      pure (r.map fun _ => 0)
  | read f buf count offset => fileRead f (-BLKSIZE + buf) count offset
  | write f page buf count offset => do
      Prog.update fun s => { s with req := page }
      fileWrite f (-BLKSIZE + buf) count offset
  | setSize f newsize => do
      let r ← fileSetSize f newsize
      pure (r.map fun _ => 0)
  | remove path => do
      let r ← fileRemove path
      pure (r.map fun _ => 0)

/-- The operation returns. -/
def Step (s : Fs) (l : VolumeOp × Except Word Word) (t : Fs) : Prop :=
  l.1.run s = .ret l.2 t

/-- Files are read, written, resized and removed that are live and no
directories, within `MAXFILESIZE`. -/
def Allowed (s : Fs) : VolumeOp → Prop
  | create path => 0 ∉ path
  | .open path => 0 ∉ path
  | read f buf count offset =>
      s.mem.Regular f (s.mem.fSize f) ∧ buf + count.toNat ≤ BLKSIZE ∧
      offset.toNat + count.toNat ≤ MAXFILESIZE
  | write f _ buf count offset =>
      s.mem.Regular f (s.mem.fSize f) ∧ buf + count.toNat ≤ BLKSIZE ∧
      offset.toNat + count.toNat ≤ MAXFILESIZE
  | setSize f newsize =>
      s.mem.Regular f (s.mem.fSize f) ∧ newsize.toNat ≤ MAXFILESIZE
  | remove path => 0 ∉ path ∧ ∀ f t, fileOpen path s = .ret (.ok f) t →
      t.mem.fType f ≠ FTYPE_DIR

/-- An operation returns, and the ledger balances. -/
theorem wp_run {d : PhysMem} {s : Fs} (op : VolumeOp) (h : s.Balanced d)
    (ha : op.Allowed s) :
    Prog.wp op.run (fun _ t => t.Balanced d) (fun _ => False)
      (fun _ _ => False) s := by
  obtain ⟨m, q, hs, hm⟩ := h
  cases op with
  | create path =>
      apply Prog.wp_bind_intro
      exact Prog.wp_imp (wp_fileCreate_ledger hm ha hs)
        (fun _ t ht => Prog.wp_pure_intro ht) (fun _ h => h) fun _ _ h => h
  | «open» path =>
      apply Prog.wp_bind_intro
      refine Prog.wp_imp (wp_fileOpen_ledger hm ha hs) (fun _ t ht => ?_)
        (fun _ h => h) fun _ _ h => h
      obtain ⟨m', ht, hm', _⟩ := ht
      exact Prog.wp_pure_intro ⟨m', q, ht, hm'⟩
  | read f buf count offset =>
      obtain ⟨hf, hbuf, hend⟩ := ha
      rw [hs.mem] at hf
      exact Prog.wp_imp (wp_fileRead_ledger hm hf hend hbuf hs)
        (fun _ t ht => ht.balanced) (fun _ h => h) fun _ _ h => h
  | write f page buf count offset =>
      obtain ⟨hf, hbuf, hend⟩ := ha
      rw [hs.mem] at hf
      apply Prog.wp_update_bind
      have hs' : Fs.Shows d { s with req := page } m page :=
        ⟨hs.mem, fun _ _ => rfl, hs.ok, hs.bits, hs.late⟩
      exact wp_fileWrite_ledger hm hf hend hbuf hs'
  | setSize f newsize =>
      obtain ⟨hf, hnew⟩ := ha
      rw [hs.mem] at hf
      apply Prog.wp_bind_intro
      exact Prog.wp_imp (wp_fileSetSize_ledger hm hf hnew hs)
        (fun _ t ht => Prog.wp_pure_intro ht)
        (fun _ h => h) fun _ _ h => h
  | remove path =>
      apply Prog.wp_bind_intro
      exact Prog.wp_imp (wp_fileRemove_ledger hm ha.1 hs ha.2)
        (fun _ t ht => Prog.wp_pure_intro ht)
        (fun _ h => h) fun _ _ h => h

end VolumeOp

/-- Every block has the owner it should have: the reserved ones none, another
one that is in use one pointer of one live file, a free one none. No file has
blocks beyond its size, and a free `struct File` has none. -/
structure PhysMem.Accounts (m : PhysMem) : Prop where
  reserved : ∀ b, m.Reserved b → m.InUse b ∧ ∀ ρ, m.Valid ρ → m.ref ρ ≠ 0 →
    m.ref ρ ≠ b
  owner : ∀ b, b < m.nblocks → ¬m.Reserved b →
    (m.InUse b ↔ ∃! ρ, m.Valid ρ ∧ m.InDir ρ.file ∧ m.ref ρ = b)
  tail : ∀ f, m.Rec f → m.TailZero f
  free : ∀ f, m.Rec f → ¬m.InDir f → ∀ ρ : Role, ρ.file = f → ρ.Ok → m.ref ρ = 0

theorem PhysMem.Ledger.accounts {m : PhysMem} (h : m.Ledger) : m.Accounts where
  reserved b hb := by
    refine ⟨h.inUse b hb, fun ρ hρ hne he => ?_⟩
    rw [← he] at hb
    exact (h.named ρ hρ hne).2 hb
  owner b _ hres := by
    have h0 : b ≠ 0 := by
      rintro rfl
      exact hres (.inl (by decide))
    constructor
    · intro hb
      obtain ⟨ρ, hρ, hb⟩ := (h.spent b hb).resolve_left hres
      refine ⟨ρ, ⟨hρ, ?_, hb⟩, fun ρ' hρ' =>
        h.inj ρ' ρ hρ'.1 hρ (hρ'.2.2 ▸ h0) (hρ'.2.2.trans hb.symm)⟩
      by_contra hno
      exact h0
        (hb.symm.trans (((h.recordOk ρ.file hρ.1).free hno).ref ρ rfl hρ.2))
    · rintro ⟨ρ, ⟨hρ, _, rfl⟩, _⟩
      exact (h.named ρ hρ h0).1
  tail f hf := (h.recordOk f hf).tail
  free f hf hno := ((h.recordOk f hf).free hno).ref

/-- After any run of creating, opening, reading, writing, resizing and removing
regular files, the accounts are right, and every further operation returns. -/
theorem volume_accounts {s₀ s : Fs} (hfresh : s₀.Fresh) (hm : s₀.mem.Ledger)
    (hrun : Runs VolumeOp.Step (fun s l => l.1.Allowed s) s₀ s) :
    s.mem.Accounts ∧ ∀ op : VolumeOp, op.Allowed s →
    ∃ r t, VolumeOp.Step s (op, r) t := by
  have hstart : s₀.Balanced s₀.disk :=
    ⟨s₀.mem, s₀.req, ⟨rfl, fun _ _ => rfl, hfresh.ok, fun b _ _ hb => by
    rw [hfresh.mem]
    exact hb, fun _ _ _ => rfl⟩, hm⟩
  have hend : s.Balanced s₀.disk := hrun.invariant
    (fun _ l _ h ha hstep => (VolumeOp.wp_run l.1 h ha).ret hstep) hstart
  obtain ⟨m, q, hs, hled⟩ := id hend
  refine ⟨?_, fun op ha => ?_⟩
  · rw [hs.mem]
    exact hled.accounts
  · obtain ⟨r, t, hret, _⟩ := (VolumeOp.wp_run op hend ha).exists_ret
    exact ⟨r, t, hret⟩

theorem smallDisk_ledger : smallDisk.Ledger := by
  have hd : ∀ i, i < NDIRECT → smallDisk.fDirect ROOT i = 0 := by decide
  refine ⟨smallDisk_sound, fun r hr => ?_, ?_⟩
  · obtain rfl := rec_of_empty hd (by decide) hr
    exact Empty.recordOk ⟨by decide, fun ρ hfile _ =>
      ref_of_empty hd (by decide) hfile⟩
  · rintro b ⟨hlt, hbit⟩
    have hn : smallDisk.nblocks = 8 := by decide
    rw [hn] at hlt
    left
    interval_cases b
    · exact .inl (by decide)
    · exact .inl (by decide)
    · exact .inr ⟨le_rfl, by decide⟩
    all_goals exact absurd hbit (by decide)

theorem smallFs_fresh : smallFs.Fresh :=
  fun _ p h => absurd h (Option.some_ne_none p).symm

/-- What the small disk is after a file was created on it. -/
def createdFs : Fs := ((VolumeOp.create [SLASH, 0x61]).run smallFs).state

/-- A file is created and removed. -/
theorem volume_accounts_small : ∃ s,
      Runs VolumeOp.Step (fun s l => l.1.Allowed s) smallFs s ∧ s.mem.Accounts ∧
    ∀ op : VolumeOp, op.Allowed s → ∃ r t, VolumeOp.Step s (op, r) t := by
  have hpath : (VolumeOp.create [SLASH, 0x61]).Allowed smallFs :=
    show 0 ∉ [SLASH, 0x61] by decide
  have hcreate :
      ∃ r, VolumeOp.Step smallFs (.create [SLASH, 0x61], r) createdFs := by
    have hwp := VolumeOp.wp_run (.create [SLASH, 0x61])
      ⟨smallDisk, _, smallFs_shows, smallDisk_ledger⟩ hpath
    obtain ⟨r, t, hret, _⟩ := hwp.exists_ret
    rw [createdFs, hret]
    exact ⟨r, hret⟩
  obtain ⟨r, hcreate⟩ := hcreate
  have hrun : Runs VolumeOp.Step (fun s l => l.1.Allowed s) smallFs createdFs :=
    .single hpath hcreate
  have hfile : ((fileOpen [SLASH, 0x61] createdFs).returned.all fun x =>
      x.1.toOption.all fun f => x.2.mem.fType f != FTYPE_DIR) = true := by
    decide +kernel
  have hreg : (VolumeOp.remove [SLASH, 0x61]).Allowed createdFs := by
    refine ⟨by decide, fun f t hret => ?_⟩
    rw [hret] at hfile
    simpa [Outcome.returned, Except.toOption] using hfile
  obtain ⟨r', t, ht⟩ :=
    (volume_accounts smallFs_fresh smallDisk_ledger hrun).2 _ hreg
  have hboth := hrun.tail hreg ht
  exact ⟨t, hboth, volume_accounts smallFs_fresh smallDisk_ledger hboth⟩

end Jos
