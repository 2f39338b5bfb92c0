import Jos.Fs.Create
import Jos.Fs.TreeEdit

/-!
# Removing a file

`file_remove` frees the blocks of the record that a path leads to, whatever it
is. Files below a directory go with it, but their blocks stay in use, and the
root directory can be emptied.
-/

namespace Jos

open PhysMem

namespace PhysMem

variable {m m' : PhysMem} {r f : FilePtr} {b : Nat}
  {path p : List (List (BitVec 8))} {name : List (BitVec 8)}

/-! ## What is reachable -/

/-- The file that path `p` leads to names block `b`. -/
def Owns (m : PhysMem) (p : List (List (BitVec 8))) (b : Nat) : Prop :=
  ∃ ρ : Role, m.Resolves p ρ.file ∧ ρ.Ok ∧ m.ref ρ = b

/-- Block `b` can be reached from the root directory. -/
def Reach (m : PhysMem) (b : Nat) : Prop := b ≠ 0 ∧ ∃ p, m.Owns p b

/-- What is in use is reserved or can be reached. -/
def Tight (m : PhysMem) : Prop := ∀ b, m.InUse b → m.Reserved b ∨ m.Reach b

/-- From `m` to `m'`, the removal of the file at `path` has given back what it
is to give back. -/
structure Reclaims (m m' : PhysMem) (path : List (List (BitVec 8))) : Prop where
  tight : m'.Tight
  freed : ∀ b, m.Reach b → (∀ p, m.Owns p b → path <+: p) → m'.isFree b
  root : path = [] → ∀ name f, ¬m.Child ROOT name f

/-- No file below `path` has a block, and the root directory is not to go with
files in it. -/
structure Removable (m : PhysMem) (path : List (List (BitVec 8))) : Prop where
  below : ∀ p b, path <+: p → p ≠ path → m.Owns p b → b = 0
  root : path = [] → ∀ name f, ¬m.Child ROOT name f

/-- A reachable block is in use. -/
theorem Sound.inUse_of_owns (hm : m.Sound) (h : m.Owns p b) (h0 : b ≠ 0) :
    m.InUse b := by
  obtain ⟨ρ, hr, hok, rfl⟩ := h
  exact (hm.named ρ ⟨hr.record, hok⟩ h0).1

/-- A block that is reached is reached by one path. -/
theorem Sound.owns_unique {p' : List (List (BitVec 8))} (hm : m.Sound)
    (h : m.Owns p b) (h' : m.Owns p' b)
    (h0 : b ≠ 0) : p = p' := by
  obtain ⟨ρ, hr, hok, hb⟩ := h
  obtain ⟨ρ', hr', hok', hb'⟩ := h'
  have hρ : ρ = ρ' := hm.inj ρ ρ' ⟨hr.record, hok⟩ ⟨hr'.record, hok'⟩ (hb ▸ h0)
    (hb.trans hb'.symm)
  subst hρ
  exact hm.path_unique hr hr'

section

variable {m₁ : PhysMem} (hm : m.Tree) (hf : m.Resolves path f)
  (hcut : Cut f 0 (max 0 (roundBlocks (m.fSize f)).toNat) m m₁)
include hm hf hcut

/-- What is not below a file that goes stays where it is. -/
theorem Tree.resolves_remove (hr : m.Resolves p r) (hno : ¬path <+: p) :
    (m₁.cleared f).Resolves p r := by
  have hc := hm.changes_remove hf.record hcut
  have hne : ∀ {p r}, m.Resolves p r → ¬path <+: p → r ≠ f := by
    rintro p r hr hno rfl
    rw [hm.path_unique hf hr] at hno
    exact hno (List.prefix_refl p)
  induction hr with
  | root => exact .root
  | @child p d r name hd hch ih =>
      have hnod : ¬path <+: p :=
        fun h => hno (h.trans (List.prefix_append p [name]))
      have hdf := hne hd hnod
      have hd' : (m₁.cleared f).IsDir d := by
        refine (ih hnod).record.isDir ?_
        rw [(hc.kept d hd.record hdf).fType]
        exact hm.isDir_type hch.isDir
      exact .child (ih hnod) (hc.child hch hd' hdf (hne (.child hd hch) hno))

theorem Tree.nblocks_remove : (m₁.cleared f).nblocks = m.nblocks :=
  (Sound.cleared_map hf.record hcut hm.toSound).1.nblocks.trans
    (hcut.edits.shrinks hm.toSound hf.record).nblocks

theorem Tree.reclaims_remove (ht : m.Tight) : Reclaims m (m₁.cleared f) path ↔
      m.Removable path := by
  have huse : ∀ {b}, (m₁.cleared f).InUse b ↔ m.InUse b ∧ ∀ ρ : Role,
      ρ.file = f → ρ.Ok → m.ref ρ ≠ 0 → m.ref ρ ≠ b :=
    hm.inUse_remove hf.record hcut
  constructor
  · refine fun h => ⟨fun p b hp hne how => ?_, h.root⟩
    by_contra h0
    have hfree := h.freed b ⟨h0, p, how⟩ fun p' how' =>
      hm.owns_unique how how' h0 ▸ hp
    have huse' : (m₁.cleared f).InUse b := by
      refine huse.mpr ⟨hm.inUse_of_owns how h0, ?_⟩
      rintro ρ rfl hok _ hb
      exact hne (hm.owns_unique how ⟨ρ, hf, hok, hb⟩ h0)
    exact huse'.not_free hfree
  · refine fun h => ⟨fun b hb => ?_, fun b hreach honly => ?_, h.root⟩
    · obtain ⟨hb, hno⟩ := huse.mp hb
      rcases ht b hb with hres | ⟨h0, p, ρ, hr, hok, rfl⟩
      · exact .inl ((reserved_congr (hm.nblocks_remove hf hcut)).mpr hres)
      · have hne : ρ.file ≠ f := fun he => hno ρ he hok h0 rfl
        have hout : ¬path <+: p := by
          intro hp
          refine h0 (h.below p _ hp ?_ ⟨ρ, hr, hok, rfl⟩)
          rintro rfl
          exact hne (hm.dirs.resolves_unique hr hf)
        have hkept :=
          (hm.changes_remove hf.record hcut).kept ρ.file hr.record hne
        exact .inr ⟨h0, p, ρ, hm.resolves_remove hf hcut hr hout, hok,
          hkept.ref hok⟩
    · obtain ⟨h0, p, how⟩ := hreach
      have hp : p = path := by
        by_contra hne
        exact h0 (h.below p b (honly p how) hne how)
      subst hp
      have hb := hm.inUse_of_owns how h0
      obtain ⟨ρ, hr, hok, rfl⟩ := how
      have hgone : ¬(m₁.cleared f).InUse (m.ref ρ) := fun hb' =>
        (huse.mp hb').2 ρ (hm.dirs.resolves_unique hr hf) hok h0 rfl
      have hlt : m.ref ρ < (m₁.cleared f).nblocks := by
        rw [hm.nblocks_remove hf hcut]
        exact hb.1
      refine isFree_iff.mpr ⟨hlt, ?_⟩
      by_contra hbit
      exact hgone ⟨hlt, by simpa using hbit⟩

end

end PhysMem

section

variable {d m : PhysMem} {s : Fs} {q : Bytes} {f : FilePtr}
  {name : List (BitVec 8)} {path : List (BitVec 8)}
  {A : Fs → Prop} {E : Stop → Fs → Prop}

theorem wp_setName (hm : m.Sound) (hf : m.Rec f) (hn : name.length < MAXNAMELEN)
    (hs : s.Shows d m q)
    {Q : Unit → Fs → Prop} (hQ : ∀ t, t.Shows d (m.putName f name) q → Q () t) :
    Prog.wp (setName f name) Q A E s := by
  apply Prog.wp_bind_intro
  refine wp_touch hm.toMapOk hs (hm.blk_inUse hf) fun t ht => ?_
  apply Prog.wp_update_intro
  rw [ht.mem]
  exact hQ _ (ht.store (hm.putName_sameMap hn hf))

/-- `file_remove` in a tree. -/
theorem wp_fileRemove (hm : m.Tree) (hz : 0 ∉ path) (hs : s.Shows d m q)
    {Q : Except Word Unit → Fs → Prop}
    (hok : ∀ f m₁ t, m.Resolves (components path) f →
      Cut f 0 (max 0 (roundBlocks (m.fSize f)).toNat) m m₁ →
      t.Shows d (m₁.cleared f) q → Q (.ok ()) t)
    (herr : ∀ r t, (∀ f, ¬m.Resolves (components path) f) → t.Shows d m q →
      Q (.error r) t) :
    Prog.wp (fileRemove path) Q A E s := by
  have hopen : Prog.wp (fileOpen path) (fun a t => t.Shows d m q ∧
      (∀ f, a = .ok f → m.Resolves (components path) f) ∧
      ∀ r, a = .error r → ∀ f, ¬m.Resolves (components path) f) A E s := by
    apply Prog.wp_bind_intro
    refine wp_walkPath_dirs hm.dirs hz hs fun w t hw ht => ?_
    cases w with
    | found pd f =>
        refine Prog.wp_pure_intro ⟨ht, fun g hg => ?_, fun r hr => by cases hr⟩
        cases hg
        exact Arrives.resolves hw
    | missing dir c =>
        exact Prog.wp_pure_intro ⟨ht, fun g hg => (by cases hg), fun _ _ f =>
          hm.dirs.not_resolves_of_lacks hw.2⟩
    | error r =>
        obtain ⟨pre, name, rest, hp, hst⟩ := hw
        rw [hp]
        exact Prog.wp_pure_intro ⟨ht, fun g hg => (by cases hg), fun _ _ f =>
          hm.dirs.not_resolves hst⟩
  apply Prog.wp_bind_intro
  refine Prog.wp_imp hopen (fun a t h => ?_) (fun _ h => h) fun _ _ h => h
  obtain ⟨ht, hfound, hmissing⟩ := h
  cases a with
  | error r => exact Prog.wp_pure_intro (herr r t (hmissing r rfl) ht)
  | ok f =>
      have hroot : roundBlocks 0 = 0#32 := by decide
      have hf : m.Rec f := Resolves.record (hfound f rfl)
      apply Prog.wp_bind_intro
      refine wp_fileTruncateBlocks hm.toSound hf ht fun m₁ u hcut hu => ?_
      rw [hroot] at hcut
      obtain ⟨hm₁, hf₁⟩ := hcut.sound hm.toSound hf
      have hn : ([] : List (BitVec 8)).length < MAXNAMELEN := by decide
      have hev := hm₁.putName_evolves hn hf₁
      have hm₂ := hev.sound hm₁
      have hf₂ : (m₁.putName f []).Rec f := record_mono
        (fun p k hp hk _ => hm₁.ref_putName hn hf₁ (.data hp.record hk))
        (fun r hr => hev.fType r hr) hf₁
      have huse := hm₂.blk_inUse hf₂
      have hmap := hm₂.setSize_sameMap (v := 0) hf₂
      apply Prog.wp_bind_intro
      refine wp_setName hm₁ hf₁ hn hu fun v hv => ?_
      apply Prog.wp_bind_intro
      refine wp_writeWord hm₂.toMapOk hv huse hmap fun w hw => ?_
      apply Prog.wp_bind_intro
      refine wp_flushBlock (hmap.mapOk hm₂.toMapOk) hw ?_ (fun h => ?_)
        fun x hx _ =>
        Prog.wp_pure_intro (hok f m₁ x (hfound f rfl) hcut hx)
      · rw [hmap.nblocks]
        exact huse.1
      · exact hm₂.blk_not_bitmap hf₂
          ⟨by omega, (reserved_congr hmap.nblocks).mp h.2⟩

/-- `file_remove` frees what it removes exactly when nothing below it has
blocks, and it is not the root directory with files in it. -/
theorem file_remove_reclaims (hm : m.Tree) (ht : m.Tight) (hz : 0 ∉ path)
    (hs : s.Shows d m q) :
    (∀ t, fileRemove path s = .ret (.ok ()) t →
      Reclaims m t.mem (components path)) ↔
      m.Removable (components path) := by
  constructor
  · intro h
    have hwp : Prog.wp (fileRemove path)
        (fun a t => a = .ok () ∧ (∃ f m₁, m.Resolves (components path) f ∧
        Cut f 0 (max 0 (roundBlocks (m.fSize f)).toNat) m m₁ ∧
        t.mem = m₁.cleared f) ∨
        ∀ f, ¬m.Resolves (components path) f) (fun _ =>
          False) (fun _ _ => False) s :=
      wp_fileRemove hm hz hs (fun f m₁ t hf hcut ht =>
        .inl ⟨rfl, f, m₁, hf, hcut, ht.mem⟩)
        fun r t hno _ => .inr hno
    obtain ⟨a, t, hret, hrun⟩ := hwp.exists_ret
    rcases hrun with ⟨rfl, f, m₁, hf, hcut, hmem⟩ | hno
    · have hrec := h t hret
      rw [hmem] at hrec
      exact (hm.reclaims_remove hf hcut ht).mp hrec
    · refine ⟨fun p b hp _ how => ?_, fun hnil =>
        absurd .root (hnil ▸ hno ROOT)⟩
      obtain ⟨ρ, hr, _⟩ := how
      obtain ⟨g, hg⟩ := hr.of_prefix hp
      exact absurd hg (hno g)
  · intro h t hret
    have hwp : Prog.wp (fileRemove path) (fun a t => a = .ok () →
        Reclaims m t.mem (components path))
        (fun _ => False) (fun _ _ => False) s := by
      refine wp_fileRemove hm hz hs (fun f m₁ t hf hcut ht' _ => ?_)
        fun r t _ _ => nofun
      rw [ht'.mem]
      exact (hm.reclaims_remove hf hcut ht).mpr h
    exact hwp.ret hret rfl

end

/-! ## A root directory with a file -/

/-- The root directory has a block of empty files. -/
def rootDisk : PhysMem := (smallDisk.setSize ROOT 4096).attach (.data ROOT 0) 3

/-- The first of them has a name. -/
def namedDisk : PhysMem := rootDisk.putName (slot 3 0) [0x61]

/-- And a byte. -/
def fileDisk : PhysMem :=
  (namedDisk.setSize (slot 3 0) 1).attach (.data (slot 3 0) 0) 4

def fileFs : Fs := ⟨fileDisk, fun _ => none, fun _ => false, fun _ => 0⟩

theorem rootDisk_tree : rootDisk.Tree ∧ rootDisk.ref (.data ROOT 0) = 3 ∧
    ∀ k, k < NDIRECT + NINDIRECT → k ≠ 0 → rootDisk.ref (.data ROOT k) = 0 := by
  have hroot : smallDisk.Rec ROOT := .inl rfl
  obtain ⟨hm₂, hf₂⟩ := smallDisk_sound.sound_setSize hroot (v := 4096)
  have hk : 0 < NDIRECT + NINDIRECT := by decide
  have hp : (smallDisk.setSize ROOT 4096).Placed (.data ROOT 0) :=
    .inl (by decide)
  have hfree : (smallDisk.setSize ROOT 4096).FirstFree 3 :=
    ⟨by decide, fun c hc => by interval_cases c <;> decide⟩
  have hgot : Got ROOT 0 (smallDisk.setSize ROOT 4096) rootDisk :=
    hm₂.got_attach (.data hf₂ hk) hp (by decide) hfree
  refine ⟨smallDisk_tree.tree_grow hroot hk hgot (by decide) (.inl rfl)
    (by decide) (by decide) (by decide)
    fun _ => ⟨by decide, by decide⟩,
    hm₂.ref_attach_self (.data hf₂ hk) hp hfree.1, fun k hkn hk0 => ?_⟩
  rw [smallDisk_tree.grow_ref hroot hgot hkn hk0]
  exact ref_of_empty (by decide) (by decide) rfl

theorem namedDisk_tree :
    namedDisk.Tree ∧ namedDisk.Child ROOT [0x61] (slot 3 0) := by
  obtain ⟨hm, href, hother⟩ := rootDisk_tree
  have hd : rootDisk.IsDir ROOT := .root _
  have hblank : ∀ g, rootDisk.SlotOf ROOT g → rootDisk.fName g 0 = 0 := by
    rintro g ⟨k, j, _, hk, hj, hne, rfl⟩
    obtain rfl : k = 0 := by
      by_contra hk0
      exact hne (hother k hk hk0)
    rw [href]
    exact (slot_of_zero (fun _ hj => attach_zero hj) hj).2.2.2.1
  have hslot : rootDisk.SlotOf ROOT (slot 3 0) :=
    ⟨0, 0, by decide, by decide, by decide, by rw [href]; decide, by rw [href]⟩
  have hn : IsName [0x61] := ⟨by decide, by decide, by decide⟩
  exact ⟨hm.tree_putName hd hslot (hblank _ hslot) hn fun g hc =>
    hc.named.fName_ne hn (hblank g hc.slot),
    hm.child_putName hd hslot (hblank _ hslot) hn⟩

theorem fileDisk_tree : fileDisk.Tree ∧ fileDisk.Child ROOT [0x61] (slot 3 0) ∧
      fileDisk.ref (.data (slot 3 0) 0) = 4 ∧
    fileDisk.ref (.data ROOT 0) = 3 := by
  obtain ⟨hm, hc⟩ := namedDisk_tree
  have hf := hc.record
  obtain ⟨hm₂, hf₂⟩ := hm.sound_setSize hf (v := 1)
  have hk : 0 < NDIRECT + NINDIRECT := by decide
  have hp : (namedDisk.setSize (slot 3 0) 1).Placed (.data (slot 3 0) 0) :=
    .inl (by decide)
  have hfree : (namedDisk.setSize (slot 3 0) 1).FirstFree 4 :=
    ⟨by decide, fun c hc => by interval_cases c <;> decide⟩
  have hgot : Got (slot 3 0) 0 (namedDisk.setSize (slot 3 0) 1) fileDisk :=
    hm₂.got_attach (.data hf₂ hk) hp (by decide) hfree
  have hreg : ¬namedDisk.IsDir (slot 3 0) :=
    fun hd => absurd (hm.isDir_type hd) (by decide)
  have htree := hm.tree_grow hf hk hgot (by decide) (.inr (by decide))
    (by decide) (by decide) (by decide)
    fun hd => absurd hd hreg
  have hroot : fileDisk.ref (.data ROOT 0) = 3 := by decide +kernel
  refine ⟨htree, ⟨.root _, ⟨by decide, by decide, by decide⟩, ?_, fun i hi =>
    ?_⟩, hm₂.ref_attach_self (.data hf₂ hk) hp
    hfree.1, hroot⟩
  · exact ⟨0, 0, by decide +kernel, by decide, by decide, by rw [hroot]; decide,
      by rw [hroot]⟩
  · have hi : i ≤ 1 := hi
    interval_cases i <;> decide +kernel

theorem fileDisk_tight : fileDisk.Tight := by
  obtain ⟨_, hc, hfile, hroot⟩ := fileDisk_tree
  rintro b ⟨hlt, hbit⟩
  have hn : fileDisk.nblocks = 8 := by decide +kernel
  rw [hn] at hlt
  interval_cases b
  · exact .inl (.inl (by decide))
  · exact .inl (.inl (by decide))
  · exact .inl (.inr ⟨le_rfl, by rw [hn]; decide⟩)
  · exact .inr ⟨by decide, [], .data ROOT 0, .root,
      show 0 < NDIRECT + NINDIRECT by decide, hroot⟩
  · exact .inr ⟨by decide, [[0x61]], .data (slot 3 0) 0, .child .root hc,
      show 0 < NDIRECT + NINDIRECT by decide, hfile⟩
  all_goals exact absurd hbit (by decide +kernel)

theorem fileFs_shows : fileFs.Shows fileDisk fileDisk fun _ => 0 :=
  ⟨rfl, fun _ _ => rfl, nofun, fun _ _ _ h => h, fun _ _ _ => rfl⟩

/-- The file is removed, and its block is free again. -/
theorem file_remove_reclaims_small :
    ∃ t, fileRemove [SLASH, 0x61] fileFs = .ret (.ok ()) t ∧
    t.mem.isFree 4 ∧ Reclaims fileDisk t.mem (components [SLASH, 0x61]) := by
  have hrun : (fileRemove [SLASH, 0x61] fileFs).returned.any (fun x =>
      decide (x.1 = .ok () ∧ x.2.mem.isFree 4)) = true := by
    decide +kernel
  obtain ⟨⟨r, t⟩, hret, hr⟩ := (Option.any_eq_true _ _).mp hrun
  have hret := Outcome.returned_eq_some.mp hret
  obtain ⟨rfl, hfree⟩ : r = .ok () ∧ t.mem.isFree 4 := of_decide_eq_true hr
  obtain ⟨hm, hc, -⟩ := fileDisk_tree
  refine ⟨t, hret, hfree,
    (file_remove_reclaims hm fileDisk_tight (by decide) fileFs_shows).mpr
    ⟨?_, ?_⟩ t hret⟩
  case refine_2 => exact fun h => absurd h (by decide)
  -- a file that is no directory has nothing below it
  rintro p b ⟨rest, rfl⟩ hne ⟨ρ, hr, -⟩
  have hrest : rest ≠ [] := fun h => hne (by rw [h, List.append_nil])
  obtain ⟨name, rest, rfl⟩ := List.exists_cons_of_ne_nil hrest
  obtain ⟨d, g, hd, hchild⟩ := hr.through
  obtain rfl := hm.dirs.resolves_unique hd (.child .root hc)
  exact absurd (hm.isDir_type hchild.isDir) (by decide +kernel)

/-- The root directory is removed with the file in it, whose block stays in
use. -/
theorem file_remove_empties_root : fileDisk.Tree ∧ fileDisk.Tight ∧
      fileFs.Shows fileDisk fileDisk (fun _ => 0) ∧
    ∃ t, fileRemove [SLASH] fileFs = .ret (.ok ()) t ∧
    (∃ name f, fileDisk.Child ROOT name f) ∧
      t.mem.InUse 4 ∧ ¬t.mem.Reserved 4 ∧ ¬t.mem.Reach 4 ∧
      ¬Reclaims fileDisk t.mem (components [SLASH]) := by
  obtain ⟨hm, hc, _⟩ := fileDisk_tree
  refine ⟨hm, fileDisk_tight, fileFs_shows, ?_⟩
  have hrun : (match fileRemove [SLASH] fileFs with
      | .ret (.ok ()) t => decide (t.mem.nblocks = 8 ∧ t.mem.bit 4 = false ∧
          t.mem.fIndirect ROOT = 0 ∧
          ∀ i, i < NDIRECT → t.mem.fDirect ROOT i = 0)
      | _ => false) = true := by decide +kernel
  cases hret : fileRemove [SLASH] fileFs with
  | away t | stop x t =>
      rw [hret] at hrun
      cases hrun
  | ret r t =>
      rw [hret] at hrun
      cases r with
      | error x => cases hrun
      | ok n =>
          obtain ⟨hn, hbit, hi, hd⟩ := of_decide_eq_true hrun
          have huse : t.mem.InUse 4 := ⟨by rw [hn]; decide, hbit⟩
          have hres : ¬t.mem.Reserved 4 := by
            rw [Reserved, hn]
            decide
          have hreach : ¬t.mem.Reach 4 := by
            rintro ⟨_, p, ρ, hr, _, hb⟩
            rw [ref_of_empty hd hi (rec_of_empty hd hi hr.record)] at hb
            cases hb
          exact ⟨t, rfl, ⟨_, _, hc⟩, huse, hres, hreach, fun h =>
            (h.tight 4 huse).elim hres hreach⟩

end Jos
