import Jos.Fs.Walk

/-!
# Creating a file that cannot be created

`file_create` fails because of its path, and then nothing has changed, or
because its directory is full and cannot get another block. By then
`dir_alloc_file` has set the size of the directory, and the code is that of
`walk_path`.
-/

namespace Jos

namespace PhysMem

variable {m m' : PhysMem} {f dir : FilePtr} {ρ : Role} {b c k : Nat} {v : Word}
  {path : List (List (BitVec 8))}

/-! ## Room for another block -/

/-- Every `struct File` of `dir` has a name. -/
def NoSlot (m : PhysMem) (dir : FilePtr) : Prop :=
  ∀ f, m.SlotOf dir f → m.fName f 0 ≠ 0

/-- There are free blocks for the `k`th block of `f` and the indirect block it
needs. -/
def Room (m : PhysMem) (f : FilePtr) (k : Nat) : Prop :=
  ∃ b, m.isFree b ∧ (m.Placed (.data f k) ∨ ∃ c, m.isFree c ∧ c ≠ b)

/-- The path is that of a new file in directory `dir`, which has no `struct
File` left. -/
def Full (m : PhysMem) (path : List (List (BitVec 8))) (dir : FilePtr) : Prop :=
  (∃ c, IsName c ∧ m.Lacks path dir c) ∧ m.NoSlot dir

/-- The directory needs a block, and there is none. -/
def OutOfBlocks (m : PhysMem) (path : List (List (BitVec 8))) : Prop :=
  ∃ dir, m.Full path dir ∧ m.dirBlocks dir < NDIRECT + NINDIRECT ∧
    ¬m.Room dir (m.dirBlocks dir)

/-- The directory needs a block, and there is none or it has as many as a file
can have. -/
def Stranded (m : PhysMem) (path : List (List (BitVec 8))) : Prop :=
  ∃ dir, m.Full path dir ∧
    ¬(m.dirBlocks dir < NDIRECT + NINDIRECT ∧ m.Room dir (m.dirBlocks dir))

theorem OutOfBlocks.stranded (h : m.OutOfBlocks path) : m.Stranded path := by
  obtain ⟨dir, hfull, _, hno⟩ := h
  exact ⟨dir, hfull, fun hroom => hno hroom.2⟩

/-- A block that a file gets was free. -/
theorem Edits.ref_attach (hm : m.Sound) (hf : m.Rec f)
    (h : Edits (· = .attach) f m m') (hfile : ρ.file = f)
    (hok : ρ.Ok) (h0 : m.ref ρ = 0) : m'.ref ρ = 0 ∨ m.isFree (m'.ref ρ) := by
  have hfree : (∀ c, m'.isFree c → m.isFree c) ∧
      (m'.ref ρ = 0 ∨ m.isFree (m'.ref ρ)) := by
    induction h with
    | refl => exact ⟨fun _ h => h, .inl h0⟩
    | tail h h' ih =>
        obtain ⟨hm', hf'⟩ := Edits.sound hm hf h
        obtain ⟨hfree, href⟩ := ih
        cases h' with
        | detach k => exact nomatch k
        | setSize k => exact nomatch k
        | putName k => exact nomatch k
        | fill k => exact nomatch k
        | @attach ρ' b _ hfile' hok' hp h0' hb _ =>
            subst hfile'
            have hρ' := And.intro hf' hok'
            refine ⟨fun c hc => hfree c
              ((hm'.isFree_attach hρ' hp hb).mp hc).1, ?_⟩
            by_cases he : ρ = ρ'
            · rw [he, hm'.ref_attach_self hρ' hp hb]
              exact .inr (hfree b hb)
            · rw [hm'.ref_attach_of_ne hρ' hp hb h0' hfile hok he]
              exact href
  exact hfree.2

theorem placed_setSize : (m.setSize f v).Placed (.data f k) ↔
      m.Placed (.data f k) :=
  placed_congr (entry_setSize (.inr (show f.off + 44 ≠ f.off + 32 by omega)))

theorem Sound.isFree_setSize (hm : m.Sound) (hf : m.Rec f) :
    (m.setSize f v).isFree b = m.isFree b :=
  (hm.setSize_sameMap hf).isFree

/-- A directory that got its next block had room. -/
theorem Tree.room_of_got (hm : m.Tree) (hd : m.IsDir dir)
    (hk : m.dirBlocks dir < NDIRECT + NINDIRECT)
    (h : Got dir (m.dirBlocks dir) (m.setSize dir v) m') :
    m.Room dir (m.dirBlocks dir) := by
  have hf := hd.record
  obtain ⟨hm₂, hf₂⟩ := hm.sound_setSize hf (v := v)
  obtain ⟨hm', hf'⟩ := h.grows.sound hm₂ hf₂
  have h0 : (m.setSize dir v).ref (.data dir (m.dirBlocks dir)) = 0 := by
    rw [hm.ref_setSize hf (.data hf hk)]
    by_contra hne
    exact absurd (((hm.dir hd).2 _ hk).mp hne) (Nat.lt_irrefl _)
  have hb := h.free h0
  rw [hm.isFree_setSize hf] at hb
  refine ⟨_, hb, ?_⟩
  by_cases hp : m.Placed (.data dir (m.dirBlocks dir))
  · exact .inl hp
  -- the indirect block is new too
  right
  obtain ⟨hkd, hind⟩ := ind_of_not_placed hp
  have hne : m'.ref (.ind dir) ≠ 0 := fun h0 =>
    (placed_of_ref h.ne).elim hkd fun h1 => h1 (BitVec.eq_of_toNat_eq h0)
  have hi0 : (m.setSize dir v).ref (.ind dir) = 0 := by
    rw [hm.ref_setSize hf (.ind hf)]
    exact congrArg BitVec.toNat hind
  have hfree := (Edits.ref_attach hm₂ hf₂ h.grows.edits rfl
    (show Role.Ok (.ind dir) from trivial) hi0).resolve_left hne
  rw [hm.isFree_setSize hf] at hfree
  exact ⟨_, hfree, fun he =>
    nomatch hm'.inj _ _ (.ind hf') (.data hf' hk) hne he⟩

/-- A directory that did not get its next block had no room. -/
theorem Sound.not_room (hm : m.Sound) (hf : m.Rec f) (hfree : ∀ b, ¬m'.isFree b)
    (h : m' = m.setSize f v ∨ Walked (m.setSize f v) f k m') : ¬m.Room f k := by
  rintro ⟨b, hb, hroom⟩
  rcases h with rfl | h
  · exact hfree b (by rwa [hm.isFree_setSize hf])
  cases h with
  | here _ => exact hfree b (by rwa [hm.isFree_setSize hf])
  | @ind b' hno hb' =>
      obtain ⟨hm₂, hf₂⟩ := hm.sound_setSize hf (v := v)
      obtain ⟨c, hc, hcb⟩ := hroom.resolve_left fun hp =>
        hno (placed_setSize.mpr hp)
      have hiff : ∀ {x}, ((m.setSize f v).attach (.ind f) b').isFree x ↔
          (m.setSize f v).isFree x ∧ x ≠ b' :=
        hm₂.isFree_attach (.ind hf₂) trivial hb'.1
      by_cases hbb : b = b'
      · refine hfree c (hiff.mpr ⟨by rwa [hm.isFree_setSize hf], ?_⟩)
        rwa [← hbb]
      · exact hfree b (hiff.mpr ⟨by rwa [hm.isFree_setSize hf], hbb⟩)

end PhysMem

open PhysMem

/-! ## What a failure leaves -/

/-- No record, bit of the bitmap or pointer is another in `m'`. -/
structure PhysMem.Unaffected (m m' : PhysMem) : Prop where
  map : SameMap m m'
  record : ∀ r, m'.Rec r ↔ m.Rec r
  same : ∀ r, m.Rec r → Same m m' r

theorem PhysMem.Unaffected.refl (m : PhysMem) : Unaffected m m :=
  ⟨⟨rfl, fun _ _ => rfl⟩, fun _ => Iff.rfl, fun _ _ =>
    ⟨fun _ _ _ => rfl, fun _ _ _ => rfl⟩⟩

/-- A failure with code `r` that takes `s` to `t` has changed nothing, and tells
its cause. -/
structure CreateFails (m : PhysMem) (s t : Fs) (path : List (List (BitVec 8)))
    (r : Word) : Prop where
  unaffected : Unaffected m t.mem
  lookup : ∀ p, 0 ∉ p → ∃ w u v, walkPath p s = .ret w u ∧
    walkPath p t = .ret w v
  cause : r = -E_NO_DISK ↔ m.OutOfBlocks path

section

variable {d d' m : PhysMem} {s t : Fs} {q q' : Bytes} {path : List (BitVec 8)}
  {dir : FilePtr} {c : List (BitVec 8)}

/-- A lookup depends on the memory only. -/
theorem walkPath_same (hm : m.Dirs) (hs : s.Shows d m q) (ht : t.Shows d' m q')
    (hz : 0 ∉ path) :
    ∃ w u v, walkPath path s = .ret w u ∧ walkPath path t = .ret w v := by
  obtain ⟨w, u, hu, hw⟩ :=
    (wp_walkPath_dirs (Q := fun w _ => m.Answers (components path) w) hm hz hs
    fun _ _ h _ => h).exists_ret
  obtain ⟨w', v, hv, hw'⟩ :=
    (wp_walkPath_dirs (Q := fun w _ => m.Answers (components path) w) hm hz ht
    fun _ _ h _ => h).exists_ret
  obtain rfl := hm.answers_unique hw hw'
  exact ⟨w, u, v, hu, hv⟩

/-- `dir_alloc_file` in a tree: it fails when the directory is full and cannot
grow, with another size. -/
theorem wp_dirAllocFile_tree (hm : m.Tree) (hd : m.IsDir dir)
    (hs : s.Shows d m q) {A : Fs → Prop}
    {E : Stop → Fs → Prop} {Q : Except Word FilePtr → Fs → Prop}
    (hok : ∀ f t, (m.NoSlot dir → m.dirBlocks dir < NDIRECT + NINDIRECT ∧
      m.Room dir (m.dirBlocks dir)) → Q (.ok f) t)
    (herr : ∀ r t, m.NoSlot dir →
      ¬(m.dirBlocks dir < NDIRECT + NINDIRECT ∧ m.Room dir (m.dirBlocks dir)) →
      t.mem.fSize dir = m.fSize dir + 4096#32 → Q (.error r) t) :
      Prog.wp (dirAllocFile dir) Q A E s := by
  have hwhole := hm.allWhole dir hd
  refine wp_dirAllocFile hm.toSound hd (hm.allAligned dir hd) hs
    (fun f m' t _ hsame hf h0 _ => ?_)
    (fun m₁ m' t _ hsame _ _ hk hgot _ => ?_)
    (fun r m' t _ hno _ => absurd hwhole hno.1)
    fun r m₁ m' t _ hsame _ hall hgrows hno hwalk ht => ?_
  · obtain rfl := hsame hwhole
    exact hok f t fun hnoslot => absurd h0 (hnoslot f hf)
  · obtain rfl := hsame hwhole
    exact hok _ t fun _ => ⟨hk, hm.room_of_got hd hk hgot⟩
  · obtain rfl := hsame hwhole
    refine herr r t hall (fun hroom =>
      hm.not_room hd.record (hno hroom.1).2 hwalk hroom.2) ?_
    rw [ht.mem, hgrows.fSize, fSize_setSize]

theorem fileCreate_lacks (hm : m.Tree) (hz : 0 ∉ path) (hs : s.Shows d m q)
    (hc : IsName c)
    (hl : m.Lacks (components path) dir c) {A : Fs → Prop}
    {E : Stop → Fs → Prop}
    {Q : Except Word FilePtr → Fs → Prop}
    (h : ∀ u, u.Shows d m q → Prog.wp (dirAllocFile dir >>= fun
      | .error _ => pure (.error (-E_NOT_FOUND))
      | .ok f => do
          setName f c
          fileFlush dir
          pure (.ok f)) Q A E u) : Prog.wp (fileCreate path) Q A E s := by
  apply Prog.wp_bind_intro
  refine wp_walkPath_dirs hm.dirs hz hs fun w u hw hu => ?_
  have hans : m.Answers (components path) (.missing dir c) := ⟨hc, hl⟩
  obtain rfl := hm.dirs.answers_unique hw hans
  exact h u hu

/-- A failing `file_create` changes nothing and tells its cause, unless its
directory is full and cannot get another block. -/
theorem file_create_fails_clean (hm : m.Tree) (hz : 0 ∉ path)
    (hs : s.Shows d m q) :
    (∀ r t, fileCreate path s = .ret (.error r) t →
      CreateFails m s t (components path) r) ↔
      ¬m.Stranded (components path) := by
  constructor
  · rintro hclean ⟨dir, ⟨⟨c, hc, hl⟩, hnoslot⟩, hno⟩
    have hdir := hl.isDir
    have hwp : Prog.wp (fileCreate path) (fun a t => (∃ r, a = .error r) ∧
        t.mem.fSize dir = m.fSize dir + 4096#32)
        (fun _ => False) (fun _ _ => False) s := by
      refine fileCreate_lacks hm hz hs hc hl fun u hu => ?_
      apply Prog.wp_bind_intro
      exact wp_dirAllocFile_tree hm hdir hu
        (fun f t hroom => absurd (hroom hnoslot) hno) fun r t _ _ hsize =>
        Prog.wp_pure_intro ⟨⟨_, rfl⟩, hsize⟩
    obtain ⟨_, t, hret, ⟨r, rfl⟩, hsize⟩ := hwp.exists_ret
    have hsame := ((hclean r t hret).unaffected.same dir hdir.record).fSize
    rw [hsize] at hsame
    simp at hsame
  · intro hno r t hret
    have hclean : ∀ r u, r ≠ -E_NO_DISK → u.Shows d m q →
        CreateFails m s u (components path) r := by
      intro r u hr hu
      refine ⟨?_, fun p hp => walkPath_same hm.dirs hs hu hp,
        fun h => absurd h hr, fun h => absurd h.stranded hno⟩
      rw [hu.mem]
      exact .refl m
    have hwp : Prog.wp (fileCreate path) (fun a t => ∀ r, a = .error r →
        CreateFails m s t (components path) r)
        (fun _ => True) (fun _ _ => True) s := by
      apply Prog.wp_bind_intro
      refine wp_walkPath_dirs hm.dirs hz hs fun w u hw hu => ?_
      cases w with
      | found pd f =>
          refine Prog.wp_pure_intro ?_
          rintro r ⟨⟩
          exact hclean _ u (by decide) hu
      | error r' =>
          refine Prog.wp_pure_intro ?_
          rintro r ⟨⟩
          obtain ⟨_, _, _, _, hst⟩ := hw
          exact hclean _ u (by rcases hm.dirs.stuck_code hst with rfl | rfl
            <;> decide) hu
      | missing dir c =>
          obtain ⟨hc, hl⟩ := hw
          have hdir := hl.isDir
          apply Prog.wp_bind_intro
          refine wp_dirAllocFile_tree hm hdir hu (fun f t _ => ?_)
            fun r t hnoslot hroom _ => ?_
          · refine Prog.wp_of_runs (fun a v h => ?_) (fun _ _ => trivial)
              fun _ _ _ => trivial
            rintro r rfl
            obtain ⟨_, _, _, h⟩ := Prog.bind_eq_ret.mp h
            obtain ⟨_, _, _, h⟩ := Prog.bind_eq_ret.mp h
            cases h
          · exact absurd ⟨dir, ⟨⟨c, hc, hl⟩, hnoslot⟩, hroom⟩ hno
    exact hwp.ret hret r rfl

end

theorem smallFs_shows : smallFs.Shows smallDisk smallDisk fun _ => 0 :=
  ⟨rfl, fun _ _ => rfl, nofun, fun _ _ _ h => h, fun _ _ _ => rfl⟩

theorem smallDisk_noChild {d f : FilePtr} {name : List (BitVec 8)} :
    ¬smallDisk.Child d name f := by
  intro hf
  have hd : ∀ i, i < NDIRECT → smallDisk.fDirect ROOT i = 0 := by decide
  obtain ⟨k, j, -, -, -, hne, -⟩ := hf.slot
  exact hne (PhysMem.ref_of_empty hd (by decide)
    (PhysMem.rec_of_empty hd (by decide) hf.isDir.record))

/-- A file in a directory that is not there is not created. -/
theorem file_create_fails_clean_small : ∃ t,
    fileCreate [SLASH, 0x62, SLASH, 0x63] smallFs =
      .ret (.error (-E_NOT_FOUND)) t ∧
      CreateFails smallDisk smallFs t (components [SLASH, 0x62, SLASH, 0x63])
        (-E_NOT_FOUND) := by
  have hrun :
      (fileCreate [SLASH, 0x62, SLASH, 0x63] smallFs).returned.any (fun x =>
      match x.1 with
      | .error r => decide (r = -E_NOT_FOUND)
      | .ok _ => false) = true := by decide +kernel
  obtain ⟨⟨r, t⟩, hret, hr⟩ := (Option.any_eq_true _ _).mp hrun
  have hret := Outcome.returned_eq_some.mp hret
  cases r with
  | ok _ => cases hr
  | error r =>
      obtain rfl := of_decide_eq_true hr
      refine ⟨t, hret, (file_create_fails_clean smallDisk_tree
        (by decide) smallFs_shows).mpr ?_ _ _ hret⟩
      rintro ⟨dir, ⟨⟨c, -, par, hpar, hr, -⟩, -⟩, -⟩
      have hpar : [[0x62#8]] ++ [[0x63#8]] = par ++ [c] := hpar
      obtain ⟨rfl, -⟩ := List.append_inj' hpar rfl
      have hr : smallDisk.Resolves ([] ++ [[0x62#8]]) dir := hr
      obtain ⟨d, -, hchild⟩ := PhysMem.resolves_snoc.mp hr
      exact smallDisk_noChild hchild

/-- A disk of three blocks, none of them free, with an empty root directory. -/
def fullDisk : PhysMem :=
  (PhysMem.setEntry (fun _ _ => 0) 1 1 3).setEntry 1 35 FTYPE_DIR

def fullFs : Fs := ⟨fullDisk, fun _ => none, fun _ => false, fun _ => 0⟩

theorem fullDisk_tree : fullDisk.Tree := by
  have hn : fullDisk.nblocks = 3 := by decide
  have hm : fullDisk.MapOk := by
    refine ⟨by rw [hn]; decide, fun b hb => ?_⟩
    have hlt : b < 3 := by
      unfold PhysMem.Reserved at hb
      rw [hn] at hb
      simp only [BLKBITSIZE, BLKSIZE, PGSIZE] at hb
      omega
    refine ⟨by omega, ?_⟩
    interval_cases b <;> decide
  exact (hm.sound_of_empty (by decide) (by decide) (by decide)).tree_of_empty
    (by decide) (by decide) (by decide)

/-- The root directory cannot get a block, but it gets the size of one, and
lookups in it fail. -/
theorem file_create_leaves_size :
    fullDisk.Tree ∧ fullFs.Shows fullDisk fullDisk (fun _ => 0) ∧ ∃ t,
    fileCreate [SLASH, 0x61] fullFs = .ret (.error (-E_NOT_FOUND)) t ∧
      t.mem.fSize ROOT = 4096 ∧
      (∃ u, walkPath [SLASH, 0x62] t = .ret (.error (-E_NO_DISK)) u) ∧
      ¬CreateFails fullDisk fullFs t (components [SLASH, 0x61])
        (-E_NOT_FOUND) := by
  refine ⟨fullDisk_tree, ⟨rfl, fun _ _ => rfl, nofun, fun _ _ _ h => h,
    fun _ _ _ => rfl⟩, ?_⟩
  have hrun : (match fileCreate [SLASH, 0x61] fullFs with
      | .ret (.error r) t =>
          decide (r = -E_NOT_FOUND ∧ t.mem.fSize ROOT = 4096) &&
          match walkPath [SLASH, 0x62] t with
          | .ret (.error r') _ => decide (r' = -E_NO_DISK)
          | _ => false
      | _ => false) = true := by decide +kernel
  cases hret : fileCreate [SLASH, 0x61] fullFs with
  | away t | stop x t =>
      rw [hret] at hrun
      cases hrun
  | ret r t =>
      rw [hret] at hrun
      cases r with
      | ok n => cases hrun
      | error x =>
          simp only [Bool.and_eq_true] at hrun
          obtain ⟨rfl, hsize⟩ := of_decide_eq_true hrun.1
          refine ⟨t, rfl, hsize, ?_, fun h => ?_⟩
          · have hwalk := hrun.2
            cases hw : walkPath [SLASH, 0x62] t with
            | away u | stop x u =>
                rw [hw] at hwalk
                cases hwalk
            | ret w u =>
                rw [hw] at hwalk
                cases w with
                | found _ _ | missing _ _ => cases hwalk
                | error r' =>
                    obtain rfl := of_decide_eq_true hwalk
                    exact ⟨u, rfl⟩
          · have hsame := (h.unaffected.same ROOT (.inl rfl)).fSize
            rw [hsize] at hsame
            exact absurd hsame (by decide)

end Jos
