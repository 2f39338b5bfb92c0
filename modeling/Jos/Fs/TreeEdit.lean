import Jos.Fs.Tree

/-!
# What creating and removing files does to a tree

The three changes of a tree: a directory gets a block of free records, a free
record gets a name, and a file goes with all of its blocks.
-/

namespace Jos

namespace PhysMem

variable {m m' : PhysMem} {r f g d : FilePtr} {name : List (BitVec 8)}
  {path path' : List (List (BitVec 8))} {k n : Nat}

/-! ## Naming a free record -/

theorem putName_fName {i : Nat} (hi : i ≤ name.length) :
    (m.putName f name).fName f i = name.getD i 0 := by
  rw [fName, putName, Function.update_self, Bytes.copy_of_mem (by omega)]
  congr 1
  omega

/-- A record whose name alone has changed. -/
theorem Sound.fileOk_putName (hm : m.Sound) (hf : m.Rec f) (hn : IsName name)
    (hok : m.FileOk f) :
    (m.putName f name).FileOk f := by
  have href : ∀ ρ : Role, ρ.file = f → ρ.Ok → (m.putName f name).ref ρ =
      m.ref ρ := by
    rintro ρ rfl hρ
    exact hm.ref_putName hn.short hf ⟨hf, hρ⟩
  have hsize : (m.putName f name).fSize f = m.fSize f :=
    entry_putName hn.short (.inr (.inr (by omega)))
  have htype : (m.putName f name).fType f = m.fType f :=
    entry_putName hn.short (.inr (.inr (by omega)))
  have hnamed : (m.putName f name).Named f name := fun _ hi => putName_fName hi
  constructor
  · rw [hsize]
    exact hok.size
  · intro k hk hkn
    rw [hsize] at hk
    rw [href (.data f k) rfl hkn]
    exact hok.tail k hk hkn
  · intro ht
    rw [htype] at ht
    obtain ⟨n, hn', hall⟩ := hok.dir ht
    refine ⟨n, by rw [hsize, hn'], fun k hk => ?_⟩
    rw [href (.data f k) rfl hk]
    exact hall k hk
  · intro _ h0
    exact absurd h0 (hnamed.fName_ne hn)
  · exact fun _ _ => ⟨name, hn, hnamed⟩

section Name

variable (hm : m.Tree) (hd : m.IsDir d) (hf : m.SlotOf d f)
  (h0 : m.fName f 0 = 0)
  (hn : IsName name) (hno : ∀ g, ¬m.Child d name g)
include hm hd hf h0

theorem Tree.empty_of_free : m.Empty f :=
  (hm.fileOk f (hf.record hd)).free (hm.slotOf_ne_root hd hf) h0

include hn

theorem Tree.changes_putName : Changes f m (m.putName f name) := by
  have hrec := hf.record hd
  have hev := hm.putName_evolves hn.short hrec
  refine ⟨hev.sound hm.toSound, fun _ h => hev.isDir h, fun r hr => .inl ?_,
    fun r hr hne => hm.kept_of_foot hrec
    (fun _ _ _ hno => foot_putName hn.short hno) hr hne, fun hdf g hg => ?_⟩
  · exact (hev.record hr).resolve_right fun ⟨_, _, _, h, _⟩ => nomatch h
  · obtain ⟨k, j, _, hk, _, hne, _⟩ := hg
    rw [hm.ref_putName hn.short hrec (.data hrec hk)] at hne
    exact absurd ((hm.empty_of_free hd hf h0).ref (.data f k) rfl hk) hne

/-- The file that has got a name. -/
theorem Tree.child_putName : (m.putName f name).Child d name f where
  isDir := by
    have hrec := hd.record
    have hev := hm.putName_evolves hn.short (hf.record hd)
    have hr : (m.putName f name).Rec d := record_mono
      (fun p k hp hk _ => hm.ref_putName hn.short (hf.record hd)
      (.data hp.record hk))
      (fun r hr => hev.fType r hr) hrec
    exact hr.isDir ((hev.fType d hrec).trans (hm.isDir_type hd))
  isName := hn
  slot := by
    have he := hm.empty_of_free hd hf h0
    by_cases hdf : d = f
    · obtain ⟨k, j, _, hk, _, hne, _⟩ := hf
      rw [hdf] at hne
      exact absurd (he.ref (.data f k) rfl hk) hne
    · exact (hm.same_putName hn.short (hf.record hd) hd.record
        hdf).slotOf.mpr hf
  named _ hi := putName_fName hi

include hno in
theorem Tree.tree_putName : (m.putName f name).Tree := by
  have hc := hm.changes_putName hd hf h0 hn
  have hchild := hm.child_putName hd hf h0 hn
  refine Tree.of_changes hc hm (fun _ => hm.fileOk_putName (hf.record hd) hn
    (hm.fileOk f (hf.record hd))) fun d' name' hc' => .inr ?_
  obtain rfl :=
    hc.sound.parent_unique hc'.isDir hchild.isDir hc'.slot hchild.slot
  rw [hc'.named.unique hchild.named hc'.isName.noZero hn.noZero]
  exact hno

end Name

/-! ## A file that grows by a block -/

/-- Records that attached blocks bring are blank. -/
theorem Edits.record_attach (hm : m.Sound) (hf : m.Rec f)
    (h : Edits (· = .attach) f m m') (hr : m'.Rec r) :
    m.Rec r ∨ m'.Blank r := by
  induction h generalizing r with
  | refl => exact .inl hr
  | tail h h' ih =>
      obtain ⟨hm₁, hf₁⟩ := Edits.sound hm hf h
      have hstep := h'
      cases h' with
      | detach k => exact nomatch k
      | setSize k => exact nomatch k
      | putName k => exact nomatch k
      | fill k => exact nomatch k
      | @attach ρ b _ hfile hok hp h0 hb _ =>
          subst hfile
          have hρ := And.intro hf₁ hok
          rcases (hm₁.attach_evolves hρ hp hb h0).record hr with
            hr₁ | ⟨_, _, j, ⟨⟩, hj, rfl⟩
          · rcases ih hr₁ with hrm | hblank
            · exact .inl hrm
            · by_cases hrf : r = ρ.file
              · exact .inl (hrf ▸ hf)
              · have hsame := hstep.same hm₁ hf₁ hr₁ hrf
                exact .inr ⟨hsame.empty hblank.toEmpty,
                  hsame.fType.trans hblank.type,
                  (hsame.fName (by decide)).trans hblank.name⟩
          · obtain ⟨ht, hsize, _, hname, href⟩ :=
              slot_of_zero (fun j hj => attach_zero (ρ := ρ) (m := _) hj) hj
            exact .inr ⟨⟨hsize, fun ρ' hfile hok => href ρ' hok hfile⟩,
              ht, hname⟩

section Grow

variable {v : Word} (hm : m.Tree) (hf : m.Rec f) (hk : k < NDIRECT + NINDIRECT)
  (hgot : Got f k (m.setSize f v) m')
include hm hf hgot

theorem Tree.grow_record (hr : m'.Rec r) : m.Rec r ∨ m'.Blank r := by
  obtain ⟨hm₂, hf₂⟩ := hm.sound_setSize hf (v := v)
  rcases Edits.record_attach hm₂ hf₂ hgot.grows.edits hr with hr | hb
  · rcases (hm.setSize_evolves hf).record hr with hr | ⟨_, _, _, ⟨⟩, _⟩
    exact .inl hr
  · exact .inr hb

theorem Tree.grow_kept (hr : m.Rec r) (hne : r ≠ f) : Kept m m' r := by
  obtain ⟨hm₂, hf₂⟩ := hm.sound_setSize hf (v := v)
  have hr₂ : (m.setSize f v).Rec r :=
    record_mono (fun p k hp hk _ => hm.ref_setSize hf (.data hp.record hk))
    (fun r hr => (hm.setSize_evolves hf).fType r hr) hr
  exact (hm.kept_of_foot hf (fun _ _ _ hno => foot_setSize hno) hr hne).trans
    (Edits.kept hm₂ hf₂ hgot.grows.edits hr₂ hne)

theorem Tree.grow_ref {j : Nat} (hj : j < NDIRECT + NINDIRECT) (hjk : j ≠ k) :
    m'.ref (.data f j) = m.ref (.data f j) := by
  rw [hgot.other j hj hjk, hm.ref_setSize hf (.data hf hj)]

theorem Tree.grow_isDir (hd : m'.IsDir d) : m.IsDir d := by
  obtain ⟨hm₂, hf₂⟩ := hm.sound_setSize hf (v := v)
  exact (hm.setSize_evolves hf).isDir
    (((hgot.grows.edits.extends hm₂ hf₂).isDir d).mpr hd)

theorem Tree.grow_fName {i : Nat} (hi : i < MAXNAMELEN) :
    m'.fName f i = m.fName f i := by
  have hM : MAXNAMELEN = 128 := rfl
  obtain ⟨hm₂, hf₂⟩ := hm.sound_setSize hf (v := v)
  rw [(hgot.grows.edits.extends hm₂ hf₂).fName hf₂ hi]
  exact setEntry_byte (.inr (.inl (by omega)))

include hk in
theorem Tree.grow_changes (hz : m.ref (.data f k) = 0) : Changes f m m' := by
  obtain ⟨hm₂, hf₂⟩ := hm.sound_setSize hf (v := v)
  obtain ⟨hm', hf'⟩ := hgot.grows.sound hm₂ hf₂
  refine ⟨hm', fun _ hd => hm.grow_isDir hf hgot hd,
    fun r hr => hm.grow_record hf hgot hr,
    fun r hr hne => hm.grow_kept hf hgot hr hne, fun hd g hg => ?_⟩
  have hslot := hg
  obtain ⟨j, i, _, hj, hi, hne, rfl⟩ := hg
  by_cases hjk : j = k
  · subst hjk
    refine .inr ((hm.grow_record hf hgot (hslot.record hd)).resolve_left
      fun hr => ?_)
    have hfree := hgot.free (by rw [hm.ref_setSize hf (.data hf hk), hz])
    rw [(hm.setSize_sameMap hf).isFree] at hfree
    exact (hm.blk_inUse hr).not_free hfree
  · have href := hm.grow_ref hf hgot hj hjk
    have hd₀ := hm.grow_isDir hf hgot hd
    rw [href] at hne
    exact .inl ⟨j, i, ((hm.dir hd₀).2 j hj).mp hne, hj, hi, hne, by rw [href]⟩

include hk in
/-- A file of a tree that gets a block, and the size for it. -/
theorem Tree.tree_grow (hz : m.ref (.data f k) = 0)
    (hlive : f = ROOT ∨ m.fName f 0 ≠ 0) (hv : v.toNat ≤ MAXFILESIZE)
    (hround : k < (roundBlocks v).toNat)
    (hold : (roundBlocks (m.fSize f)).toNat ≤ (roundBlocks v).toNat)
    (hdir : m.IsDir f → m.dirBlocks f = k ∧ v.toNat = (k + 1) * BLKSIZE) :
    m'.Tree := by
  have hok := hm.fileOk f hf
  have hsize : m'.fSize f = v := by rw [hgot.grows.fSize, fSize_setSize]
  have hnamed : ∀ {name}, name.length < MAXNAMELEN →
      (m'.Named f name ↔ m.Named f name) := fun {name} hn =>
    forall₂_congr fun i hi => by rw [hm.grow_fName hf hgot (i := i) (by omega)]
  refine Tree.of_changes (hm.grow_changes hf hk hgot hz) hm
    (fun _ => ⟨?_, ?_, ?_, ?_, ?_⟩) fun d name hc => .inl ?_
  · rwa [hsize]
  · intro j hj hjn
    rw [hsize] at hj
    rw [hm.grow_ref hf hgot hjn (by omega)]
    exact hok.tail j (by omega) hjn
  · intro ht
    have hd : m.IsDir f := by
      rw [hgot.grows.fType, fType_setSize] at ht
      exact hf.isDir ht
    obtain ⟨hblocks, hvk⟩ := hdir hd
    refine ⟨k + 1, by rw [hsize, hvk], fun j hj => ?_⟩
    by_cases hjk : j = k
    · subst hjk
      exact ⟨fun _ => Nat.lt_succ_self j, fun _ => hgot.ne⟩
    · rw [hm.grow_ref hf hgot hj hjk, (hm.dir hd).2 j hj, hblocks]
      omega
  · intro hr h0
    rw [hm.grow_fName hf hgot (by decide)] at h0
    exact absurd h0 (hlive.resolve_left hr)
  · intro hr h0
    rw [hm.grow_fName hf hgot (by decide)] at h0
    obtain ⟨name, hn, hname⟩ := hok.live hr h0
    exact ⟨name, hn, (hnamed hn.short).mpr hname⟩
  · exact (hnamed hc.isName.short).mp hc.named

end Grow

/-! ## A file that loses its blocks -/

/-- Blocks of `f` were freed, and its pointers to them cleared. -/
structure Shrinks (f : FilePtr) (m m' : PhysMem) : Prop where
  nblocks : m'.nblocks = m.nblocks
  isDir : ∀ d, m'.IsDir d → m.IsDir d
  record : ∀ r, m'.Rec r → m.Rec r
  fSize : m'.fSize f = m.fSize f
  ref : ∀ ρ : Role, ρ.file = f → ρ.Ok → m'.ref ρ = m.ref ρ ∨ m'.ref ρ = 0
  byte : ∀ c j, ¬(2 ≤ c ∧ m.Reserved c) →
    ¬(c = f.blk ∧ 4 * f.off ≤ j ∧ j < 4 * f.off + 256) →
    ¬(c ≠ 0 ∧ c = m.ref (.ind f)) → m' c j = m c j
  inUse : ∀ b, m'.InUse b → m.InUse b
  freed : ∀ b, m.InUse b → ¬m'.InUse b → ∃ ρ : Role, ρ.file = f ∧ ρ.Ok ∧
    m.ref ρ = b
  gone : m.TailZero f → ∀ ρ : Role, ρ.file = f → ρ.Ok → m.ref ρ ≠ 0 →
    m'.ref ρ = 0 → ¬m'.InUse (m.ref ρ)

theorem Shrinks.refl (f : FilePtr) (m : PhysMem) : Shrinks f m m :=
  ⟨rfl, fun _ h => h, fun _ h => h, rfl, fun _ _ _ => .inl rfl,
    fun _ _ _ _ _ => rfl, fun _ h => h,
    fun _ h h' => absurd h h', fun _ _ _ _ h h' => absurd h' h⟩

theorem Shrinks.detach {ρ : Role} (h : Shrinks f m m') (hm' : m'.Sound)
    (hf' : m'.Rec f) (hfile : ρ.file = f) (hok : ρ.Ok)
    (hne : m'.ref ρ ≠ 0) (hind : ρ = .ind f → m'.TailZero f →
      ∀ k, NDIRECT ≤ k → k < NDIRECT + NINDIRECT → m'.ref (.data f k) = 0) :
      Shrinks f m (m'.detach ρ) := by
  subst hfile
  have hρ : m'.Valid ρ := ⟨hf', hok⟩
  have hev := hm'.detach_evolves hρ hne
  have hrefρ := (h.ref ρ rfl hok).resolve_right hne
  have huse : ∀ {b}, (m'.detach ρ).InUse b ↔ m'.InUse b ∧ b ≠ m'.ref ρ :=
    hm'.inUse_detach hρ hne
  constructor
  · exact hev.nblocks.trans h.nblocks
  · exact fun d hd => h.isDir d (hev.isDir hd)
  · intro r hr
    rcases hev.record hr with hr | ⟨_, _, _, ⟨⟩, _⟩
    exact h.record r hr
  · exact (hm'.field_detach hρ hne (by decide)).trans h.fSize
  · intro ρ' hfile' hok'
    by_cases he : ρ' = ρ
    · rw [he]
      exact .inr (hm'.ref_detach_self hρ hne)
    · rcases hm'.ref_detach_of_ne hρ hne hfile' hok' he with hsame | hz
      · rw [hsame]
        exact h.ref ρ' hfile' hok'
      · exact .inr hz.1
  · intro c j hres hrec hblk
    rw [← h.byte c j hres hrec hblk]
    have hbit : c ≠ (bitmapAt (m'.ref ρ)).1 := by
      rintro rfl
      refine hres ⟨two_le_bitmapAt, reserved_bitmapAt ?_⟩
      rw [← h.nblocks]
      exact (hm'.named ρ hρ hne).1.1
    have hplace : c ≠ (m'.place ρ).1 ∨ j < 4 * (m'.place ρ).2 ∨
        4 * (m'.place ρ).2 + 4 ≤ j := by
      rcases place_cases hok (placed_of_ref hne) with
        ⟨hb, hlo, hhi⟩ | ⟨hb, h0, _⟩
      · by_cases hc : c = (m'.place ρ).1
        · right
          have hout := not_and.mp hrec (hc.trans hb)
          omega
        · exact .inl hc
      · left
        have hi := (h.ref (.ind ρ.file) rfl trivial).resolve_right h0
        intro hc
        exact hblk ⟨by rwa [hc, hb], by rw [hc, hb, hi]⟩
    rw [PhysMem.detach, setEntry_byte hplace, markFree, setEntry_of_ne hbit]
  · exact fun b hb => h.inUse b (huse.mp hb).1
  · intro b hb hno
    by_cases hb' : m'.InUse b
    · have he : b = m'.ref ρ := by
        by_contra hne'
        exact hno (huse.mpr ⟨hb', hne'⟩)
      exact ⟨ρ, rfl, hok, by rw [he, hrefρ]⟩
    · exact h.freed b hb hb'
  · intro htail ρ' hfile' hok' hne' hz hb
    obtain ⟨hb, hbne⟩ := huse.mp hb
    by_cases he : ρ' = ρ
    · rw [he, ← hrefρ] at hbne
      exact hbne rfl
    · refine h.gone htail ρ' hfile' hok' hne' ?_ hb
      rcases hm'.ref_detach_of_ne hρ hne hfile' hok' he with
        hsame | ⟨_, hi, k, hk, rfl⟩
      · rw [← hsame, hz]
      · refine hind hi (fun j hj hjn => ?_) k hk hok'
        rw [h.fSize] at hj
        rcases h.ref (.data ρ.file j) rfl hjn with h1 | h1
        · rw [h1, htail j hj hjn]
        · exact h1

theorem Edits.shrinks (hm : m.Sound) (hf : m.Rec f)
    (h : Edits (· = .detach) f m m') : Shrinks f m m' := by
  induction h with
  | refl => exact .refl f m
  | tail h h' ih =>
      obtain ⟨hm₁, hf₁⟩ := Edits.sound hm hf h
      cases h' with
      | attach k => exact nomatch k
      | setSize k => exact nomatch k
      | putName k => exact nomatch k
      | fill k => exact nomatch k
      | detach _ hfile hok hne hind =>
          exact ih.detach hm₁ hf₁ hfile hok hne hind

/-! ## A file that goes -/

/-- File `f` without its name and its size. -/
def cleared (m : PhysMem) (f : FilePtr) : PhysMem :=
  (m.putName f []).setSize f 0

section Remove

variable {m₁ : PhysMem} (hm : m.Tree) (hf : m.Rec f)
  (hcut : Cut f 0 (max 0 (roundBlocks (m.fSize f)).toNat) m m₁)
include hm hf hcut

/-- Truncation to nothing clears all of the pointers. -/
theorem Tree.cut_ref {ρ : Role} (hfile : ρ.file = f) (hok : ρ.Ok) :
    m₁.ref ρ = 0 := by
  cases ρ with
  | ind g =>
      obtain rfl : g = f := hfile
      exact hcut.ind.trans (if_pos (Nat.zero_le _))
  | data g k =>
      obtain rfl : g = f := hfile
      have hk := hcut.data k hok
      split at hk
      · exact hk
      · rename_i hout
        rw [hk]
        refine (hm.fileOk g hf).tail k ?_ hok
        rw [not_or] at hout
        omega

omit hm in
theorem Sound.cleared_map (hm : m.Sound) :
    SameMap m₁ (m₁.cleared f) ∧ (m₁.cleared f).Sound ∧ (m₁.cleared f).Rec f ∧
    (∀ d, (m₁.cleared f).IsDir d → m₁.IsDir d) ∧
    (∀ r, (m₁.cleared f).Rec r → m₁.Rec r) ∧
    (∀ ρ, m₁.Valid ρ → (m₁.cleared f).ref ρ = m₁.ref ρ) ∧
    (m₁.cleared f).fType f = m₁.fType f := by
  obtain ⟨hm₁, hf₁⟩ := hcut.sound hm hf
  have hn : ([] : List (BitVec 8)).length < MAXNAMELEN := by decide
  have hev := hm₁.putName_evolves hn hf₁
  have hm₂ := hev.sound hm₁
  have hvalid : ∀ ρ, m₁.Valid ρ → (m₁.putName f []).Valid ρ :=
    fun ρ hρ => ⟨record_mono
    (fun p k hp hk _ => hm₁.ref_putName hn hf₁ (.data hp.record hk))
    (fun r hr => hev.fType r hr) hρ.1, hρ.2⟩
  have hf₂ : (m₁.putName f []).Rec f := (hvalid (.ind f) (.ind hf₁)).1
  have hev' := hm₂.setSize_evolves (v := 0) hf₂
  obtain ⟨hm', hf'⟩ := hm₂.sound_setSize (v := 0) hf₂
  refine ⟨(hm₁.putName_sameMap hn hf₁).trans (hm₂.setSize_sameMap hf₂),
    hm', hf',
    fun d hd => hev.isDir (hev'.isDir hd), fun r hr => ?_, fun ρ hρ => ?_, ?_⟩
  · rcases hev'.record hr with hr | ⟨_, _, _, ⟨⟩, _⟩
    rcases hev.record hr with hr | ⟨_, _, _, ⟨⟩, _⟩
    exact hr
  · rw [cleared, hm₂.ref_setSize hf₂ (hvalid ρ hρ), hm₁.ref_putName hn hf₁ hρ]
  · rw [cleared, fType_setSize]
    exact entry_putName hn (.inr (.inr (by omega)))

theorem Tree.changes_remove : Changes f m (m₁.cleared f) := by
  have hshrink := hcut.edits.shrinks hm.toSound hf
  obtain ⟨_, hf₁⟩ := hcut.sound hm.toSound hf
  obtain ⟨_, hm', _, hdir, hrec, href, _⟩ :=
    Sound.cleared_map hf hcut hm.toSound
  refine ⟨hm', fun d hd => hshrink.isDir d (hdir d hd),
    fun r hr => .inl (hshrink.record r (hrec r hr)),
    fun r hr hne => hm.kept_of_foot hf (fun c j _ hno => ?_) hr hne,
    fun hd g hg => ?_⟩
  · have hrecord : ¬(c = f.blk ∧ 4 * f.off ≤ j ∧ j < 4 * f.off + 256) :=
      fun h => hno (.inr (.inl h))
    rw [← hshrink.byte c j (fun h => hno (.inl h)) hrecord fun h =>
      hno (.inr (.inr (.inr (.inl h))))]
    have hout : c ≠ f.blk ∨ j < 4 * f.off ∨ 4 * f.off + 256 ≤ j := by
      by_cases hc : c = f.blk
      · have := not_and.mp hrecord hc
        omega
      · exact .inl hc
    rw [cleared, setSize, setEntry_byte (by omega),
      putName_byte (by simp only [List.length_nil]; omega)]
  · obtain ⟨k, _, _, hk, _, hne, _⟩ := hg
    rw [href _ (.data hf₁ hk),
      hm.cut_ref hf hcut (ρ := .data f k) rfl hk] at hne
    exact absurd rfl hne

theorem Tree.tree_remove : (m₁.cleared f).Tree := by
  obtain ⟨_, hf₁⟩ := hcut.sound hm.toSound hf
  obtain ⟨_, _, _, _, _, href, _⟩ := Sound.cleared_map hf hcut hm.toSound
  have hzero : ∀ ρ : Role, ρ.file = f → ρ.Ok → (m₁.cleared f).ref ρ = 0 := by
    rintro ρ rfl hok
    rw [href ρ ⟨hf₁, hok⟩, hm.cut_ref hf hcut rfl hok]
  have hsize : (m₁.cleared f).fSize f = 0 := fSize_setSize
  have hname : (m₁.cleared f).fName f 0 = 0 := by
    rw [cleared, fName, setSize, setEntry_byte (.inr (.inl (by omega)))]
    exact putName_fName (Nat.zero_le ([] : List (BitVec 8)).length)
  refine Tree.of_changes (hm.changes_remove hf hcut) hm
    (fun _ => ⟨?_, fun k _ hk => hzero (.data f k) rfl hk, fun _ => ?_,
    fun _ _ => ⟨hsize, hzero⟩, fun _ h0 => absurd hname h0⟩) fun d name hc =>
    absurd hname (hc.named.fName_ne hc.isName)
  · rw [hsize]
    exact Nat.zero_le _
  · refine ⟨0, by rw [hsize]; rfl, fun k hk => ?_⟩
    rw [hzero (.data f k) rfl hk]
    simp

/-- Exactly the blocks of the file are not in use any more. -/
theorem Tree.inUse_remove {b : Nat} : (m₁.cleared f).InUse b ↔
    m.InUse b ∧ ∀ ρ : Role, ρ.file = f → ρ.Ok → m.ref ρ ≠ 0 → m.ref ρ ≠ b := by
  have hshrink := hcut.edits.shrinks hm.toSound hf
  obtain ⟨hmap, _⟩ := Sound.cleared_map hf hcut hm.toSound
  rw [hmap.inUse]
  constructor
  · refine fun hb => ⟨hshrink.inUse b hb, ?_⟩
    rintro ρ hfile hok hne rfl
    exact hshrink.gone (hm.fileOk f hf).tail ρ hfile hok hne
      (hm.cut_ref hf hcut hfile hok) hb
  · rintro ⟨hb, hno⟩
    by_contra hb'
    obtain ⟨ρ, hfile, hok, hb₁⟩ := hshrink.freed b hb hb'
    have hne : m.ref ρ ≠ 0 := by
      intro h0
      have hres : m₁.Reserved b := .inl (by rw [← hb₁, h0]; decide)
      exact hb' ((hcut.sound hm.toSound hf).1.inUse b hres)
    exact hno ρ hfile hok hne hb₁

end Remove

end PhysMem

end Jos
