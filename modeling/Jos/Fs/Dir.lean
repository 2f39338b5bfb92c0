import Jos.Fs.Spec
import Mathlib.Data.List.GetD
import Mathlib.Data.List.TakeWhile

/-!
# Directories and paths

What the lookups of fs/fs.c find on a sound disk. They go through the blocks of
directories with `file_get_block`, so a directory that has no block below its
size gets one on the way; a record that was there stays, with its name, its
size, its type and its blocks.
-/

namespace Jos

namespace PhysMem

variable {m m' m'' : PhysMem} {r f d : FilePtr} {name : List (BitVec 8)}

/-! ## Names -/

/-- The characters of a component of a path. -/
structure IsName (name : List (BitVec 8)) : Prop where
  ne_nil : name ≠ []
  short : name.length < MAXNAMELEN
  noZero : 0 ∉ name

/-- The name of `f` is `name`. -/
def Named (m : PhysMem) (f : FilePtr) (name : List (BitVec 8)) : Prop :=
  ∀ i, i ≤ name.length → m.fName f i = name.getD i 0

end PhysMem

open PhysMem

theorem strEq_iff {b : Bytes} {i : Nat} {name : List (BitVec 8)} :
    strEq b i name = true ↔ ∀ j, j ≤ name.length →
    b (i + j) = name.getD j 0 := by
  induction name generalizing i with
  | nil =>
      rw [strEq, beq_iff_eq]
      constructor
      · intro h j hj
        obtain rfl : j = 0 := Nat.le_zero.mp hj
        exact h
      · intro h
        exact h 0 le_rfl
  | cons c cs ih =>
      rw [strEq, Bool.and_eq_true, beq_iff_eq, ih]
      constructor
      · rintro ⟨hc, hcs⟩ j hj
        cases j with
        | zero => exact hc
        | succ j =>
            have h := hcs j (by simpa using hj)
            rwa [Nat.add_right_comm] at h
      · intro h
        refine ⟨h 0 (Nat.zero_le _), fun j hj => ?_⟩
        have hj' := h (j + 1) (by simpa using hj)
        rwa [Nat.add_right_comm i 1 j]

namespace PhysMem

variable {m m' m'' : PhysMem} {r f d : FilePtr} {name : List (BitVec 8)}

theorem strEq_named : strEq (m f.blk) (4 * f.off) name = true ↔
      m.Named f name := strEq_iff

/-- A record has one name. -/
theorem Named.unique {name' : List (BitVec 8)} (h : m.Named f name)
    (h' : m.Named f name')
    (h0 : 0 ∉ name) (h0' : 0 ∉ name') : name = name' := by
  have hlen : ∀ l l' : List (BitVec 8), m.Named f l → m.Named f l' → 0 ∉ l →
      l.length ≤ l'.length := by
    intro l l' hl hl' hz
    by_contra hgt
    have hlt : l'.length < l.length := by omega
    have h1 := hl l'.length hlt.le
    rw [hl' l'.length le_rfl, List.getD_eq_default l' _ le_rfl,
      List.getD_eq_getElem l _ hlt] at h1
    exact hz (h1 ▸ List.getElem_mem hlt)
  have heq : name.length = name'.length :=
    Nat.le_antisymm (hlen _ _ h h' h0) (hlen _ _ h' h h0')
  refine List.ext_getElem heq fun i hi hi' => ?_
  have h1 := h i (by omega)
  rw [h' i (by omega), List.getD_eq_getElem _ _ hi,
    List.getD_eq_getElem _ _ hi'] at h1
  exact h1.symm

/-- A test of a record that looks at its name only. -/
def NameTest (p : PhysMem → FilePtr → Bool) : Prop :=
  ∀ m m' f, (∀ i, i < MAXNAMELEN → m'.fName f i = m.fName f i) → p m' f = p m f

theorem nameTest_strEq (hn : name.length < MAXNAMELEN) :
    NameTest fun m f => strEq (m f.blk) (4 * f.off) name := by
  intro m m' f h
  rw [Bool.eq_iff_iff, strEq_named, strEq_named]
  constructor
  · intro hn i hi
    rw [← h i (by omega)]
    exact hn i hi
  · intro hn i hi
    rw [h i (by omega)]
    exact hn i hi

/-- The number of blocks of a directory, from its size. -/
def dirBlocks (m : PhysMem) (d : FilePtr) : Nat :=
  ((m.fSize d).sdiv 4096#32).toNat

/-- What `dir_lookup` and `dir_alloc_file` assert of a directory. -/
def Aligned (m : PhysMem) (d : FilePtr) : Prop := (m.fSize d).srem 4096#32 = 0

/-- A directory has all of its blocks. -/
def Whole (m : PhysMem) (d : FilePtr) : Prop :=
  ∀ k, k < m.dirBlocks d → k < NDIRECT + NINDIRECT ∧ m.ref (.data d k) ≠ 0

/-- `f` is a `struct File`, live or free, that a search of `d` comes to. -/
def SlotOf (m : PhysMem) (d f : FilePtr) : Prop :=
  ∃ k j, k < m.dirBlocks d ∧ k < NDIRECT + NINDIRECT ∧ j < BLKFILES ∧
    m.ref (.data d k) ≠ 0 ∧
    f = slot (m.ref (.data d k)) j

/-- `f` is the file `name` in directory `d`. -/
structure Child (m : PhysMem) (d : FilePtr) (name : List (BitVec 8))
    (f : FilePtr) : Prop where
  isDir : m.IsDir d
  isName : IsName name
  slot : m.SlotOf d f
  named : m.Named f name

theorem nameTest_free : NameTest fun m f => m.fName f 0 == 0 := by
  intro m m' f h
  simp only [h 0 (by decide)]

/-! ## What stays -/

/-- The records of `m` are there in `m'`, with the same names, sizes, types and
blocks. -/
structure Extends (m m' : PhysMem) : Prop where
  record : ∀ r, m.Rec r → m'.Rec r
  isDir : ∀ d, m.IsDir d ↔ m'.IsDir d
  header : ∀ r, m.Rec r → ∀ j, 4 * r.off ≤ j → j < 4 * r.off + 136 →
    m' r.blk j = m r.blk j
  ref : ∀ ρ, m.Valid ρ → m.ref ρ ≠ 0 → m'.ref ρ = m.ref ρ

theorem Extends.refl (m : PhysMem) : Extends m m :=
  ⟨fun _ h => h, fun _ => Iff.rfl, fun _ _ _ _ _ => rfl, fun _ _ _ => rfl⟩

theorem Extends.trans (h : Extends m m') (h' : Extends m' m'') :
    Extends m m'' where
  record r hr := h'.record r (h.record r hr)
  isDir d := (h.isDir d).trans (h'.isDir d)
  header r hr j hj hj' := (h'.header r (h.record r hr) j hj hj').trans
    (h.header r hr j hj hj')
  ref ρ hρ h0 := by
    have hr := h.ref ρ hρ h0
    rw [h'.ref ρ ⟨h.record _ hρ.1, hρ.2⟩ (by rwa [hr]), hr]

theorem Extends.entry (h : Extends m m') (hr : m.Rec r) {i : Nat}
    (hi : i < 34) :
    m'.entry r.blk (r.off + i) = m.entry r.blk (r.off + i) :=
  Bytes.load32_congr fun j hj hj' => h.header r hr j (by omega) (by omega)

theorem Extends.fSize (h : Extends m m') (hr : m.Rec r) :
    m'.fSize r = m.fSize r :=
  h.entry hr (by decide)

theorem Extends.fType (h : Extends m m') (hr : m.Rec r) :
    m'.fType r = m.fType r :=
  h.entry hr (by decide)

theorem Extends.fName (h : Extends m m') (hr : m.Rec r) {i : Nat}
    (hi : i < MAXNAMELEN) :
    m'.fName r i = m.fName r i := by
  have hm : MAXNAMELEN = 128 := rfl
  exact h.header r hr _ (by omega) (by omega)

theorem Extends.named (h : Extends m m') (hr : m.Rec r)
    (hn : name.length < MAXNAMELEN) :
    m'.Named r name ↔ m.Named r name := by
  constructor
  · intro hn i hi
    rw [← h.fName hr (by omega)]
    exact hn i hi
  · intro hn i hi
    rw [h.fName hr (by omega)]
    exact hn i hi

theorem Extends.dirBlocks (h : Extends m m') (hr : m.Rec d) :
    m'.dirBlocks d = m.dirBlocks d := by
  rw [PhysMem.dirBlocks, h.fSize hr, PhysMem.dirBlocks]

theorem Extends.aligned (h : Extends m m') (hr : m.Rec d) :
    m'.Aligned d ↔ m.Aligned d := by
  rw [Aligned, h.fSize hr, Aligned]

theorem Extends.slotOf (h : Extends m m') (hd : m.IsDir d) (hf : m.SlotOf d f) :
    m'.SlotOf d f := by
  obtain ⟨k, j, hkn, hk, hj, h0, rfl⟩ := hf
  have href := h.ref _ (.data hd.record hk) h0
  exact ⟨k, j, by rwa [h.dirBlocks hd.record], hk, hj, by rwa [href],
    by rw [href]⟩

theorem SlotOf.record (hd : m.IsDir d) (hf : m.SlotOf d f) : m.Rec f := by
  obtain ⟨k, j, _, hk, hj, h0, rfl⟩ := hf
  exact .inr ⟨d, k, j, hd, hk, hj, h0, rfl⟩

theorem Child.record (h : m.Child d name f) : m.Rec f := h.slot.record h.isDir

theorem Extends.child (h : Extends m m') (hc : m.Child d name f) :
    m'.Child d name f where
  isDir := (h.isDir d).mp hc.isDir
  isName := hc.isName
  slot := h.slotOf hc.isDir hc.slot
  named := (h.named hc.record hc.isName.short).mpr hc.named

/-- A block that is attached takes nothing away. -/
theorem Edit.extends (hm : m.Sound) (hf : m.Rec f)
    (h : Edit (· = .attach) f m m') : Extends m m' := by
  have hself := h
  cases h with
  | detach k => exact nomatch k
  | setSize k => exact nomatch k
  | putName k => exact nomatch k
  | fill k => exact nomatch k
  | @attach ρ b _ hfile hok hp h0 hb _ =>
      subst hfile
      have hρ : m.Valid ρ := ⟨hf, hok⟩
      have href : ∀ ρ', m.Valid ρ' → m.ref ρ' ≠ 0 →
          (m.attach ρ b).ref ρ' = m.ref ρ' := by
        intro ρ' hρ' hne
        by_cases hfile : ρ'.file = ρ.file
        · exact hm.ref_attach_of_ne hρ hp hb h0 hfile hρ'.2 fun he =>
            hne (he ▸ h0)
        · exact (hself.same hm hf hρ'.1 hfile).ref hρ'.2
      have hrec : ∀ r, m.Rec r → (m.attach ρ b).Rec r := fun r hr =>
        record_mono (fun p k hp hk hne => href _ (.data hp.record hk) hne)
          (fun r hr => hself.fType hm hf hr) hr
      obtain ⟨_, hev, _⟩ := hself.evolves hm hf
      refine ⟨hrec, fun d => ⟨fun hd => ?_, hev.isDir⟩,
        fun r hr j hj hj' => ?_, href⟩
      · refine (hrec d hd.record).isDir ?_
        rw [hself.fType hm hf hd.record]
        exact hm.isDir_type hd
      · by_cases hrf : r = ρ.file
        · subst hrf
          have hword := hm.field_attach hρ hp hb (i := (j - 4 * ρ.file.off) / 4)
            (by omega)
          exact Bytes.eq_of_load32 hword (by omega) (by omega)
        · exact (hself.same hm hf hr hrf).record j hj (by omega)

theorem Edits.extends (hm : m.Sound) (hf : m.Rec f)
    (h : Edits (· = .attach) f m m') :
    Extends m m' := by
  induction h with
  | refl => exact .refl m
  | tail h h' ih =>
      obtain ⟨hm', hf'⟩ := Edits.sound hm hf h
      exact ih.trans (h'.extends hm' hf')

theorem Edits.kept (hm : m.Sound) (hf : m.Rec f)
    (h : Edits (· = .attach) f m m') (hr : m.Rec r)
    (hne : r ≠ f) : Kept m m' r := by
  induction h with
  | refl => exact .refl m r
  | tail h h' ih =>
      obtain ⟨hm', hf'⟩ := Edits.sound hm hf h
      exact ih.trans
        (hm'.kept_of_foot hf' (fun _ _ hj hno => h'.foot hm' hf' hj hno)
        ((Edits.extends hm hf h).record r hr) hne)

/-- Blocks were allocated for directories. -/
def Fills : PhysMem → PhysMem → Prop :=
  Relation.ReflTransGen fun m m' => ∃ d, m.IsDir d ∧ Grows d m m'

theorem Fills.refl (m : PhysMem) : Fills m m := Relation.ReflTransGen.refl

theorem Fills.trans (h : Fills m m') (h' : Fills m' m'') : Fills m m'' :=
  Relation.ReflTransGen.trans h h'

theorem Grows.fills (hd : m.IsDir d) (h : Grows d m m') : Fills m m' :=
  Relation.ReflTransGen.single ⟨d, hd, h⟩

theorem Fills.sound (hm : m.Sound) (h : Fills m m') :
    m'.Sound ∧ Extends m m' := by
  induction h with
  | refl => exact ⟨hm, .refl m⟩
  | tail _ h ih =>
      obtain ⟨d, hd, hg⟩ := h
      exact ⟨(hg.sound ih.1 hd.record).1,
        ih.2.trans (hg.edits.extends ih.1 hd.record)⟩

end PhysMem

section

variable {d : PhysMem} {s : Fs} {m : PhysMem} {q : Bytes} {dir : FilePtr}
  {i n : Nat}
  {p : PhysMem → FilePtr → Bool} {name : List (BitVec 8)} {A : Fs → Prop}
  {E : Stop → Fs → Prop}

/-! ## Searching a directory -/

theorem PhysMem.IsDir.slot_rec (hd : m.IsDir dir) {k j : Nat}
    (hk : k < NDIRECT + NINDIRECT)
    (hj : j < BLKFILES) (h0 : m.ref (.data dir k) ≠ 0) :
    m.Rec (slot (m.ref (.data dir k)) j) :=
  .inr ⟨dir, k, j, hd, hk, hj, h0, rfl⟩

/-- The rule of the search that `dir_lookup` and `dir_alloc_file` share. -/
theorem wp_dirSearch (hm : m.Sound) (hd : m.IsDir dir) (hp : NameTest p)
    (hn : i + n ≤ 2 ^ 32)
    (hs : s.Shows d m q) {Q : Except Word (Option FilePtr) → Fs → Prop}
    (hfound : ∀ k j m' t, i ≤ k → k < i + n → k < NDIRECT + NINDIRECT →
      j < BLKFILES →
      Grows dir m m' →
      ((∀ k, i ≤ k → k < i + n → m.ref (.data dir k) ≠ 0) → m' = m) →
      m'.ref (.data dir k) ≠ 0 → p m' (slot (m'.ref (.data dir k)) j) →
      t.Shows d m' q →
      Q (.ok (some (slot (m'.ref (.data dir k)) j))) t)
    (hnone : ∀ m' t, Grows dir m m' →
      ((∀ k, i ≤ k → k < i + n → m.ref (.data dir k) ≠ 0) → m' = m) →
      (∀ k, i ≤ k → k < i + n → k < NDIRECT + NINDIRECT ∧
        m'.ref (.data dir k) ≠ 0 ∧
        ∀ j, j < BLKFILES → ¬p m' (slot (m'.ref (.data dir k)) j)) →
        t.Shows d m' q →
      Q (.ok none) t)
    (herr : ∀ r k m' t, i ≤ k → k < i + n → Grows dir m m' →
      (k < NDIRECT + NINDIRECT → m.ref (.data dir k) = 0 ∧ r = -E_NO_DISK ∧ ∀ b,
        ¬m'.isFree b) →
      (NDIRECT + NINDIRECT ≤ k → r = -E_INVAL) → t.Shows d m' q →
      Q (.error r) t) :
    Prog.wp (dirSearch dir p n i) Q A E s := by
  induction n generalizing i m s with
  | zero => exact Prog.wp_pure_intro (hnone m s (.refl dir m) (fun _ => rfl)
      (fun k _ _ => by omega) hs)
  | succ n ih =>
      have hi : (BitVec.ofNat 32 i).toNat = i := by
        rw [BitVec.toNat_ofNat, Nat.mod_eq_of_lt (by omega)]
      apply Prog.wp_bind_intro
      refine wp_fileGetBlock hm hd.record hs (fun m₁ t hk hg ht => ?_)
        fun r m₁ t hr hbig hg _ h0 ht => Prog.wp_pure_intro ?_
      · rw [hi] at hk hg ⊢
        obtain ⟨hm₁, _⟩ := hg.grows.sound hm hd.record
        have hext := hg.grows.edits.extends hm hd.record
        have hd₁ : m₁.IsDir dir := (hext.isDir dir).mp hd
        have huse := (hm₁.named _ (.data hd₁.record hk) hg.ne).1
        apply Prog.wp_bind_intro
        refine wp_touch hm₁.toMapOk ht huse fun u hu => ?_
        apply Prog.wp_ask_bind
        rw [hu.mem]
        split
        · rename_i j hj
          refine Prog.wp_pure_intro
            (hfound i j m₁ u le_rfl (by omega) hk ?_ hg.grows (fun hfull => ?_)
            hg.ne ?_ hu)
          · exact List.mem_range.mp (List.mem_of_find?_eq_some hj)
          · exact hg.same (hfull i le_rfl (by omega))
          · have hpj := List.find?_some hj
            simpa using hpj
        · rename_i hno
          have hno : ∀ j, j < BLKFILES →
              ¬p m₁ (slot (m₁.ref (.data dir i)) j) := fun j hj =>
            List.find?_eq_none.mp hno j (List.mem_range.mpr hj)
          -- without a hole, the block was there
          have hfull : ∀ m', ((∀ k, i + 1 ≤ k → k < i + 1 + n →
              m₁.ref (.data dir k) ≠ 0) → m' = m₁) →
              (∀ k, i ≤ k → k < i + (n + 1) → m.ref (.data dir k) ≠ 0) →
              m' = m := by
            intro m' hsame hfull
            have h₁ := hg.same (hfull i le_rfl (by omega))
            rw [hsame fun k hik hkn => h₁ ▸ hfull k (by omega) (by omega), h₁]
          refine ih hm₁ hd₁ (by omega) hu
            (fun k j m' w hik hkn hkb hj hg' hsame => ?_)
            (fun m' w hg' hsame hall hw => ?_)
            fun r k m' w hik hkn hg' hr hbig hw => ?_
          · exact hfound k j m' w (by omega) (by omega) hkb hj
              (hg.grows.trans hg') (hfull m' hsame)
          · refine hnone m' w (hg.grows.trans hg') (hfull m' hsame)
              (fun k hik hkn => ?_) hw
            by_cases hki : k = i
            · subst hki
              have hext' := hg'.edits.extends hm₁ hd₁.record
              have href := hext'.ref _ (.data hd₁.record hk) hg.ne
              rw [href]
              refine ⟨hk, hg.ne, fun j hj hpj => hno j hj ?_⟩
              rw [← hpj]
              exact (hp _ _ _ fun x hx =>
                hext'.fName (hd₁.slot_rec hk hj hg.ne) hx).symm
            · exact hall k (by omega) (by omega)
          · refine herr r k m' w (by omega) (by omega) (hg.grows.trans hg')
              (fun hkb => ?_) hbig hw
            obtain ⟨h0, hr⟩ := hr hkb
            refine ⟨?_, hr⟩
            rwa [hg.other k hkb (by omega)] at h0
      · rw [hi] at hr hbig h0
        exact herr r i m₁ t le_rfl (by omega) hg
          (fun hk => ⟨h0 hk, hr hk⟩) hbig ht

theorem wp_dirNblock (hm : m.Sound) (hd : m.Rec dir) (hal : m.Aligned dir)
    (hs : s.Shows d m q)
    {Q : Nat → Fs → Prop} (hQ : ∀ t, t.Shows d m q → Q (m.dirBlocks dir) t) :
    Prog.wp (dirNblock dir) Q A E s := by
  apply Prog.wp_bind_intro
  refine wp_readWord hm.toMapOk hs (hm.blk_inUse hd) fun t ht => ?_
  exact Prog.wp_ite _ (fun h => absurd hal h) fun _ =>
    Prog.wp_pure_intro (hQ t ht)

theorem PhysMem.dirBlocks_lt (m : PhysMem) (dir : FilePtr) :
    m.dirBlocks dir < 2 ^ 32 := BitVec.isLt _

/-- Why a search of a directory can fail. -/
def PhysMem.NoBlock (m m' : PhysMem) (dir : FilePtr) (r : Word) : Prop :=
  ¬m.Whole dir ∧ (r = -E_INVAL ∨ r = -E_NO_DISK ∧ ∀ b, ¬m'.isFree b)

/-- The search of all blocks of a directory. -/
theorem wp_dirSearchAll (hm : m.Sound) (hd : m.IsDir dir) (hp : NameTest p)
    (hs : s.Shows d m q)
    {Q : Except Word (Option FilePtr) → Fs → Prop}
    (hfound : ∀ f m' t, Grows dir m m' → (m.Whole dir → m' = m) →
      m'.SlotOf dir f → p m' f →
      t.Shows d m' q → Q (.ok (some f)) t)
    (hnone : ∀ m' t, Grows dir m m' → (m.Whole dir → m' = m) → m'.Whole dir →
      (∀ f, m'.SlotOf dir f → ¬p m' f) → t.Shows d m' q → Q (.ok none) t)
    (herr : ∀ r m' t, Grows dir m m' → m.NoBlock m' dir r → t.Shows d m' q →
      Q (.error r) t) :
    Prog.wp (dirSearch dir p (m.dirBlocks dir) 0) Q A E s := by
  have hn := m.dirBlocks_lt dir
  have hwhole : ∀ m', ((∀ k, 0 ≤ k → k < 0 + m.dirBlocks dir →
      m.ref (.data dir k) ≠ 0) → m' = m) →
      m.Whole dir → m' = m := fun m' h hw => h fun k _ hk => (hw k (by omega)).2
  have hblocks : ∀ m', Grows dir m m' → m'.dirBlocks dir = m.dirBlocks dir :=
    fun m' hg =>
    (hg.edits.extends hm hd.record).dirBlocks hd.record
  refine wp_dirSearch hm hd hp (by omega) hs
    (fun k j m' t _ hkn hk hj hg hsame h0 hpf ht => ?_)
    (fun m' t hg hsame hall ht => ?_) fun r k m' t _ hkn hg hr hbig ht => ?_
  · refine hfound _ m' t hg (hwhole m' hsame) ⟨k, j, ?_, hk, hj, h0, rfl⟩ hpf ht
    rw [hblocks m' hg]
    omega
  · refine hnone m' t hg (hwhole m' hsame) (fun k hk => ?_) (fun f hf => ?_) ht
    · rw [hblocks m' hg] at hk
      have h := hall k (Nat.zero_le _) (by omega)
      exact ⟨h.1, h.2.1⟩
    · obtain ⟨k, j, hkn, _, hj, _, rfl⟩ := hf
      rw [hblocks m' hg] at hkn
      exact (hall k (Nat.zero_le _) (by omega)).2.2 j hj
  · refine herr r m' t hg ⟨fun hw => ?_, ?_⟩ ht
    · have h := hw k (by omega)
      exact h.2 (hr h.1).1
    · by_cases hk : k < NDIRECT + NINDIRECT
      · exact .inr (hr hk).2
      · exact .inl (hbig (by omega))

/-- `dir_lookup`. -/
theorem wp_dirLookup (hm : m.Sound) (hd : m.IsDir dir) (hal : m.Aligned dir)
    (hn : IsName name)
    (hs : s.Shows d m q) {Q : Except Word FilePtr → Fs → Prop}
    (hfound : ∀ f m' t, Grows dir m m' → (m.Whole dir → m' = m) →
      m'.Child dir name f →
      t.Shows d m' q → Q (.ok f) t)
    (hnone : ∀ m' t, Grows dir m m' → (m.Whole dir → m' = m) →
      (∀ f, ¬m'.Child dir name f) →
      t.Shows d m' q → Q (.error (-E_NOT_FOUND)) t)
    (herr : ∀ r m' t, Grows dir m m' → m.NoBlock m' dir r → t.Shows d m' q →
      Q (.error r) t) :
    Prog.wp (dirLookup dir name) Q A E s := by
  apply Prog.wp_bind_intro
  refine wp_dirNblock hm hd.record hal hs fun t ht => ?_
  apply Prog.wp_bind_intro
  refine wp_dirSearchAll hm hd (nameTest_strEq hn.short) ht
    (fun f m' u hg hsame hf hp hu => ?_)
    (fun m' u hg hsame _ hall hu => ?_) fun r m' u hg hr hu =>
    Prog.wp_pure_intro (herr r m' u hg hr hu)
  · have hd' := ((hg.edits.extends hm hd.record).isDir dir).mp hd
    exact Prog.wp_pure_intro
      (hfound f m' u hg hsame ⟨hd', hn, hf, strEq_named.mp hp⟩ hu)
  · exact Prog.wp_pure_intro (hnone m' u hg hsame
      (fun f hc => hall f hc.slot (strEq_named.mpr hc.named)) hu)

/-- `dir_alloc_file`. -/
theorem wp_dirAllocFile (hm : m.Sound) (hd : m.IsDir dir) (hal : m.Aligned dir)
    (hs : s.Shows d m q)
    {Q : Except Word FilePtr → Fs → Prop}
    (hfree : ∀ f m' t, Grows dir m m' → (m.Whole dir → m' = m) →
      m'.SlotOf dir f → m'.fName f 0 = 0 →
      t.Shows d m' q → Q (.ok f) t)
    (hnew : ∀ m₁ m' t, Grows dir m m₁ → (m.Whole dir → m₁ = m) → m₁.Whole dir →
      (∀ f, m₁.SlotOf dir f → m₁.fName f 0 ≠ 0) →
      m.dirBlocks dir < NDIRECT + NINDIRECT →
      Got dir (m.dirBlocks dir) (m₁.setSize dir (m₁.fSize dir + 4096#32)) m' →
      t.Shows d m' q →
      Q (.ok (slot (m'.ref (.data dir (m.dirBlocks dir))) 0)) t)
    (herr : ∀ r m' t, Grows dir m m' → m.NoBlock m' dir r → t.Shows d m' q →
      Q (.error r) t)
    (hfull : ∀ r m₁ m' t, Grows dir m m₁ → (m.Whole dir → m₁ = m) →
      m₁.Whole dir →
      (∀ f, m₁.SlotOf dir f → m₁.fName f 0 ≠ 0) →
      Grows dir (m₁.setSize dir (m₁.fSize dir + 4096#32)) m' →
      (m.dirBlocks dir < NDIRECT + NINDIRECT →
        m₁.ref (.data dir (m.dirBlocks dir)) = 0 ∧
        ∀ b, ¬m'.isFree b) →
      (m' = m₁.setSize dir (m₁.fSize dir + 4096#32) ∨
        PhysMem.Walked (m₁.setSize dir (m₁.fSize dir + 4096#32)) dir
        (m.dirBlocks dir) m') →
      t.Shows d m' q → Q (.error r) t) :
    Prog.wp (dirAllocFile dir) Q A E s := by
  apply Prog.wp_bind_intro
  refine wp_dirNblock hm hd.record hal hs fun t ht => ?_
  apply Prog.wp_bind_intro
  refine wp_dirSearchAll hm hd nameTest_free ht
    (fun f m' u hg hsame hf hp hu => ?_)
    (fun m₁ u hg hsame hwhole hall hu => ?_) fun r m' u hg hr hu =>
    Prog.wp_pure_intro (herr r m' u hg hr hu)
  · exact Prog.wp_pure_intro (hfree f m' u hg hsame hf (by simpa using hp) hu)
  have hall : ∀ f, m₁.SlotOf dir f → m₁.fName f 0 ≠ 0 :=
    fun f hf h0 => hall f hf (by simpa using h0)
  obtain ⟨hm₁, hf₁⟩ := hg.sound hm hd.record
  have huse := hm₁.blk_inUse hf₁
  have hn : (BitVec.ofNat 32 (m.dirBlocks dir)).toNat = m.dirBlocks dir := by
    rw [BitVec.toNat_ofNat, Nat.mod_eq_of_lt (dirBlocks_lt _ _)]
  apply Prog.wp_bind_intro
  refine wp_readWord hm₁.toMapOk hu huse fun w hw => ?_
  apply Prog.wp_bind_intro
  refine wp_writeWord hm₁.toMapOk hw huse (hm₁.setSize_sameMap hf₁)
    fun x hx => ?_
  have hx : x.Shows d (m₁.setSize dir (m₁.fSize dir + 4096#32)) q := hx
  obtain ⟨hm₂, hf₂⟩ := hm₁.sound_setSize hf₁ (v := m₁.fSize dir + 4096#32)
  apply Prog.wp_bind_intro
  refine wp_fileGetBlock hm₂ hf₂ hx
    (fun m' y hlt hgot hy => Prog.wp_pure_intro ?_)
    fun r m' y hr _ hg' hwalk h0 hy => Prog.wp_pure_intro ?_
  · rw [hn] at hlt hgot ⊢
    exact hnew m₁ m' y hg hsame hwhole hall hlt hgot hy
  · rw [hn] at hr hwalk h0
    refine hfull r m₁ m' y hg hsame hwhole hall hg'
      (fun hlt => ⟨?_, (hr hlt).2⟩) hwalk hy
    rw [← hm₁.ref_setSize hf₁ (.data hf₁ hlt)]
    exact h0 hlt

end

/-! ## Paths -/

/-- The names between the slashes of a path. -/
def components (path : List (BitVec 8)) : List (List (BitVec 8)) :=
  (path.splitOn SLASH).filter (· ≠ [])

example : components [0x2F, 0x61, 0x2F, 0x2F, 0x62, 0x63] =
      [[0x61], [0x62, 0x63]] := by decide

section

variable {path : List (BitVec 8)}

theorem components_slash : components (SLASH :: path) = components path := by
  have hsplit := List.splitOn_append_cons_self (a := SLASH) [] path
  simp only [List.nil_append] at hsplit
  rw [components, hsplit, components]
  simp

theorem components_skipSlash :
    components (skipSlash path) = components path := by
  induction path with
  | nil => rfl
  | cons c cs ih =>
      by_cases hc : c = SLASH
      · subst hc
        rw [components_slash, ← ih]
        simp [skipSlash]
      · simp [skipSlash, hc]

/-- A path that does not begin with a slash. -/
def Bare (path : List (BitVec 8)) : Prop := path.head? ≠ some SLASH

theorem bare_skipSlash : Bare (skipSlash path) := by
  intro h
  have hhead := List.head?_dropWhile_not (fun c => c == SLASH) path
  rw [show List.dropWhile (fun c => c == SLASH) path = skipSlash path from rfl,
    h] at hhead
  simp at hhead

/-- The loop of `walk_path` takes one name off. -/
theorem components_bare (hne : path ≠ []) (hb : Bare path) :
    components path = path.takeWhile (· != SLASH)
        :: components (skipSlash (path.dropWhile (· != SLASH))) ∧
      path.takeWhile (· != SLASH) ≠ [] ∧
      (skipSlash (path.dropWhile (· != SLASH))).length < path.length := by
  have happ : path.takeWhile (· != SLASH) ++
      path.dropWhile (· != SLASH) = path :=
    List.takeWhile_append_dropWhile
  have hname : path.takeWhile (· != SLASH) ≠ [] := by
    cases path with
    | nil => exact absurd rfl hne
    | cons c cs =>
        have hc : c ≠ SLASH := fun h => hb (by rw [h]; rfl)
        simp [hc]
  have hno : SLASH ∉ path.takeWhile (· != SLASH) := by
    intro h
    have := List.mem_takeWhile_imp h
    simp at this
  have hlen : (skipSlash (path.dropWhile (· != SLASH))).length ≤
      (path.dropWhile (· != SLASH)).length :=
    List.Sublist.length_le (List.dropWhile_sublist _)
  have hsum := congrArg List.length happ
  have hpos : 0 < (path.takeWhile (· != SLASH)).length :=
    List.length_pos_iff.mpr hname
  rw [List.length_append] at hsum
  refine ⟨?_, hname, by omega⟩
  rw [components_skipSlash]
  cases hrest : path.dropWhile (· != SLASH) with
  | nil =>
      rw [hrest, List.append_nil] at happ
      have hsplit := List.splitOn_eq_singleton hno
      rw [happ] at hsplit ⊢
      rw [components, hsplit]
      simp [hne, components]
  | cons c cs =>
      have hc : c = SLASH := by
        have hhead := List.head?_dropWhile_not (fun c => c != SLASH) path
        rw [hrest] at hhead
        simpa using hhead
      subst hc
      rw [hrest] at happ
      have hsplit := List.splitOn_append_cons_self (a := SLASH)
        (path.takeWhile (· != SLASH)) cs
      rw [happ, List.splitOn_eq_singleton hno] at hsplit
      rw [components_slash, components, hsplit, components]
      simp [hname]

end

namespace PhysMem

variable {m m' : PhysMem} {d f : FilePtr} {path : List (List (BitVec 8))}

/-- The file that a path leads to. -/
inductive Resolves (m : PhysMem) : List (List (BitVec 8)) → FilePtr → Prop where
  | root : Resolves m [] ROOT
  | child {path : List (List (BitVec 8))} {d f : FilePtr}
      {name : List (BitVec 8)} :
      Resolves m path d → m.Child d name f → Resolves m (path ++ [name]) f

theorem Resolves.record (h : m.Resolves path f) : m.Rec f := by
  cases h with
  | root => exact .inl rfl
  | child _ h => exact h.record

theorem Extends.resolves (h : Extends m m') (hp : m.Resolves path f) :
    m'.Resolves path f := by
  induction hp with
  | root => exact .root
  | child _ hc ih => exact .child ih (h.child hc)

/-- The file that a path leads to, and the directory it is in. -/
inductive Arrives (m : PhysMem) : List (List (BitVec 8)) → Option FilePtr →
      FilePtr → Prop where
  | root : Arrives m [] none ROOT
  | child {path : List (List (BitVec 8))} {d f : FilePtr}
      {name : List (BitVec 8)} :
      m.Resolves path d → m.Child d name f →
      Arrives m (path ++ [name]) (some d) f

theorem Arrives.resolves {pdir : Option FilePtr} (h : m.Arrives path pdir f) :
    m.Resolves path f := by
  cases h with
  | root => exact .root
  | child h hc => exact .child h hc

theorem Extends.whole (h : Extends m m') (hd : m.IsDir d) (hw : m.Whole d) :
    m'.Whole d := by
  intro k hk
  rw [h.dirBlocks hd.record] at hk
  obtain ⟨hkb, h0⟩ := hw k hk
  exact ⟨hkb, by rwa [h.ref _ (.data hd.record hkb) h0]⟩

/-- No directory has a hole. -/
def AllWhole (m : PhysMem) : Prop := ∀ d, m.IsDir d → m.Whole d

/-- The directories can be searched. -/
def AllAligned (m : PhysMem) : Prop := ∀ d, m.IsDir d → m.Aligned d

theorem Extends.allAligned (h : Extends m m') (ha : m.AllAligned) :
    m'.AllAligned := by
  intro d hd
  have hd' := (h.isDir d).mpr hd
  exact (h.aligned hd'.record).mpr (ha d hd')

theorem Extends.allWhole (h : Extends m m') (hw : m.AllWhole) :
    m'.AllWhole := by
  intro d hd
  have hd' := (h.isDir d).mpr hd
  exact h.whole hd' (hw d hd')

/-- Why `walk_path` does not get to the end of a path: at `name` in `dir`, where
`pre` leads, with `rest` to go. -/
inductive Stuck (m m' : PhysMem) (pre : List (List (BitVec 8)))
    (name : List (BitVec 8))
    (rest : List (List (BitVec 8))) : Word → Prop where
  | long {dir : FilePtr} : m'.Resolves pre dir → MAXNAMELEN ≤ name.length →
      Stuck m m' pre name rest (-E_BAD_PATH)
  | file {dir : FilePtr} : m'.Resolves pre dir → name.length < MAXNAMELEN →
      m'.fType dir ≠ FTYPE_DIR →
      Stuck m m' pre name rest (-E_NOT_FOUND)
  | absent {dir : FilePtr} : m'.Resolves pre dir → name.length < MAXNAMELEN →
      rest ≠ [] →
      (∀ f, ¬m'.Child dir name f) → Stuck m m' pre name rest (-E_NOT_FOUND)
  | hole {dir : FilePtr} {r : Word} :
      m.IsDir dir → m.NoBlock m' dir r → Stuck m m' pre name rest r

end PhysMem

section

variable {d : PhysMem} {s : Fs} {m : PhysMem} {q : Bytes}
  {f : FilePtr} {n : Nat}
  {path : List (BitVec 8)} {A : Fs → Prop} {E : Stop → Fs → Prop}

theorem wp_walkPathFrom {pre : List (List (BitVec 8))} (pdir : Option FilePtr)
    (hm : m.Sound)
    (hal : m.AllAligned) (hz : 0 ∉ path) (hb : Bare path) (hn : path.length ≤ n)
    (hf : m.Arrives pre pdir f) (hs : s.Shows d m q) {Q : Walk → Fs → Prop}
    (hfound : ∀ pd g m' t, Fills m m' → (m.AllWhole → m' = m) →
      m'.Arrives (pre ++ components path) pd g → t.Shows d m' q → Q
      (.found pd g) t)
    (hmissing : ∀ par last dir m' t, pre ++ components path = par ++ [last] →
      Fills m m' →
      (m.AllWhole → m' = m) → m'.Resolves par dir → m'.IsDir dir → IsName last →
      (∀ g, ¬m'.Child dir last g) → t.Shows d m' q → Q (.missing dir last) t)
    (herr : ∀ r pre' name rest m' t, pre ++ components path =
      pre' ++ name :: rest → Fills m m' →
      (m.AllWhole → m' = m) → Stuck m m' pre' name rest r → t.Shows d m' q → Q
      (.error r) t) :
    Prog.wp (walkPathFrom n path pdir f) Q A E s := by
  induction n generalizing path pdir f m s pre with
  | zero =>
      obtain rfl : path = [] := List.length_eq_zero_iff.mp (Nat.le_zero.mp hn)
      exact Prog.wp_pure_intro (hfound pdir f m s (.refl m) (fun _ => rfl)
        (by simpa [components] using hf) hs)
  | succ n ih =>
      refine Prog.wp_ite _ (fun hnil => Prog.wp_pure_intro ?_) fun hne => ?_
      · subst hnil
        exact hfound pdir f m s (.refl m) (fun _ => rfl)
          (by simpa [components] using hf) hs
      obtain ⟨hcomp, hname, hlen⟩ := components_bare hne hb
      have hz' : 0 ∉ skipSlash (path.dropWhile (· != SLASH)) := fun h =>
        hz ((List.dropWhile_sublist _).subset
          ((List.dropWhile_sublist _).subset h))
      have hzn : 0 ∉ path.takeWhile (· != SLASH) := fun h =>
        hz ((List.takeWhile_sublist _).subset h)
      have hbare : Bare (skipSlash (path.dropWhile (· != SLASH))) :=
        bare_skipSlash
      generalize path.takeWhile (· != SLASH) = name at *
      generalize skipSlash (path.dropWhile (· != SLASH)) = path' at *
      refine Prog.wp_ite _ (fun hlong => Prog.wp_pure_intro ?_) fun hshort => ?_
      · exact herr _ pre name (components path') m s (by rw [hcomp]) (.refl m)
          (fun _ => rfl)
          (.long hf.resolves hlong) hs
      apply Prog.wp_bind_intro
      refine wp_readWord hm.toMapOk hs (hm.blk_inUse hf.resolves.record)
        fun t ht => ?_
      refine Prog.wp_ite _ (fun htype => Prog.wp_pure_intro ?_) fun htype => ?_
      · exact herr _ pre name (components path') m t (by rw [hcomp]) (.refl m)
          (fun _ => rfl)
          (.file hf.resolves (Nat.not_le.mp hshort) htype) ht
      have hd : m.IsDir f := hf.resolves.record.isDir (not_not.mp htype)
      have hisn : IsName name := ⟨hname, by omega, hzn⟩
      apply Prog.wp_bind_intro
      refine wp_dirLookup hm hd (hal f hd) hisn ht
        (fun g m₁ u hg hsame hc hu => ?_)
        (fun m₁ u hg hsame hno hu => ?_) fun r m₁ u hg hr hu => ?_
      · obtain ⟨hm₁, hext⟩ := Fills.sound hm (hg.fills hd)
        have hwhole : ∀ m', (m₁.AllWhole → m' = m₁) → m.AllWhole → m' = m :=
          fun m' h hw =>
          (h (hext.allWhole hw)).trans (hsame (hw f hd))
        have hassoc : pre ++ components path = pre ++ [name] ++
            components path' := by
          rw [hcomp, List.append_assoc]
          rfl
        refine ih (some f) hm₁ (hext.allAligned hal) hz' hbare (by omega)
          (.child (hext.resolves hf.resolves) hc) hu
          (fun pd g m' w hfill hw hr hw' => ?_)
          (fun par last dir m' w hpl hfill hw hr hdir hl hno hw' => ?_)
          fun r pre' name' rest m' w hpl hfill hw hst hw' => ?_
        · exact hfound pd g m' w ((hg.fills hd).trans hfill) (hwhole m' hw)
            (hassoc ▸ hr) hw'
        · exact hmissing par last dir m' w (hassoc.trans hpl)
            ((hg.fills hd).trans hfill)
            (hwhole m' hw) hr hdir hl hno hw'
        · refine herr r pre' name' rest m' w (hassoc.trans hpl)
            ((hg.fills hd).trans hfill)
            (hwhole m' hw) ?_ hw'
          cases hst with
          | long h hlong => exact .long h hlong
          | file h hlt ht => exact .file h hlt ht
          | absent h hlt hne hno => exact .absent h hlt hne hno
          | hole h h' =>
              have hd' := (hext.isDir _).mpr h
              exact .hole hd' ⟨fun hw => h'.1 (hext.whole hd' hw), h'.2⟩
      · have hext := (Fills.sound hm (hg.fills hd)).2
        refine Prog.wp_ite _ (fun hlast => Prog.wp_pure_intro ?_) fun hmore =>
          Prog.wp_pure_intro ?_
        · obtain ⟨_, rfl⟩ := hlast
          exact hmissing pre name f m₁ u (by rw [hcomp]; rfl) (hg.fills hd)
            (fun hw => hsame (hw f hd))
            (hext.resolves hf.resolves) ((hext.isDir f).mp hd) hisn hno hu
        · refine herr _ pre name (components path') m₁ u (by rw [hcomp])
            (hg.fills hd)
            (fun hw => hsame (hw f hd)) (.absent (hext.resolves hf.resolves)
            hisn.short (fun h0 => ?_) hno) hu
          refine hmore ⟨rfl, ?_⟩
          by_contra hne'
          rw [(components_bare hne' hbare).1] at h0
          exact nomatch h0
      · refine Prog.wp_ite _ (fun hlast => ?_) fun _ => Prog.wp_pure_intro ?_
        · rcases hr.2 with h | h
          · exact absurd (hlast.1.symm.trans h) (by decide)
          · exact absurd (hlast.1.symm.trans h.1) (by decide)
        · exact herr r pre name (components path') m₁ u (by rw [hcomp])
            (hg.fills hd)
            (fun hw => absurd (hw f hd) hr.1) (.hole hd hr) hu

/-- `walk_path`. -/
theorem wp_walkPath (hm : m.Sound) (hal : m.AllAligned) (hz : 0 ∉ path)
    (hs : s.Shows d m q)
    {Q : Walk → Fs → Prop}
    (hfound : ∀ pd g m' t, Fills m m' → (m.AllWhole → m' = m) →
      m'.Arrives (components path) pd g →
      t.Shows d m' q → Q (.found pd g) t)
    (hmissing : ∀ par last dir m' t, components path = par ++ [last] →
      Fills m m' →
      (m.AllWhole → m' = m) → m'.Resolves par dir → m'.IsDir dir → IsName last →
      (∀ g, ¬m'.Child dir last g) → t.Shows d m' q → Q (.missing dir last) t)
    (herr : ∀ r pre name rest m' t, components path = pre ++ name :: rest →
      Fills m m' →
      (m.AllWhole → m' = m) → Stuck m m' pre name rest r → t.Shows d m' q → Q
      (.error r) t) :
    Prog.wp (walkPath path) Q A E s := by
  have hz' : 0 ∉ skipSlash path :=
    fun h => hz ((List.dropWhile_sublist _).subset h)
  have hn : (skipSlash path).length ≤ path.length :=
    (List.dropWhile_sublist _).length_le
  have h := wp_walkPathFrom (A := A) (E := E) (Q := Q) none hm hal hz'
    bare_skipSlash hn
    .root hs
  simp only [List.nil_append, components_skipSlash] at h
  exact h hfound hmissing herr

end

end Jos
