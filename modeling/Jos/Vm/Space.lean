import Jos.Vm.Calls

/-!
# Address spaces as user programs see them

A user program reads its page directory and its page tables in the window at
`UVPT`, and reaches memory through them. `Opened` says that the directories are
as `env_setup_vm` and `pgdir_walk` make them; then what a program can read and
write below `UTOP` is decided by the page-table entries alone.
-/

namespace Jos

open Slot (target)

/-! ## Flags -/

/-- One of the flag bits of a page-table entry. -/
def Flag (b : Word) : Prop := ∃ k < 12, b = BitVec.twoPow 32 k

theorem flag_P : Flag PTE_P := ⟨0, by decide, by decide⟩
theorem flag_W : Flag PTE_W := ⟨1, by decide, by decide⟩
theorem flag_U : Flag PTE_U := ⟨2, by decide, by decide⟩

section

variable {b x y w : Word} {p : Nat}

theorem and_twoPow_ne_zero {k : Nat} (hk : k < 32) :
    x &&& BitVec.twoPow 32 k ≠ 0 ↔ x.getLsbD k = true := by
  rw [BitVec.and_twoPow]
  have hne : BitVec.twoPow 32 k ≠ 0 := by
    intro h
    have hbit := congrArg (fun v : Word => v.getLsbD k) h
    simp [hk] at hbit
  by_cases hx : x.getLsbD k = true
  · rw [if_pos hx]
    exact iff_of_true hne hx
  · rw [if_neg hx]
    exact iff_of_false (fun h => h rfl) hx

theorem Flag.and_iff (h : Flag b) :
    (x &&& y) &&& b ≠ 0 ↔ x &&& b ≠ 0 ∧ y &&& b ≠ 0 := by
  obtain ⟨k, hk, rfl⟩ := h
  have hk : k < 32 := by omega
  rw [and_twoPow_ne_zero hk, and_twoPow_ne_zero hk, and_twoPow_ne_zero hk,
    BitVec.getLsbD_and,
    Bool.and_eq_true]

theorem Flag.or_iff (h : Flag b) :
    (x ||| y) &&& b ≠ 0 ↔ x &&& b ≠ 0 ∨ y &&& b ≠ 0 := by
  obtain ⟨k, hk, rfl⟩ := h
  have hk : k < 32 := by omega
  rw [and_twoPow_ne_zero hk, and_twoPow_ne_zero hk, and_twoPow_ne_zero hk,
    BitVec.getLsbD_or,
    Bool.or_eq_true]

theorem Flag.and_eq (h : Flag b) : x &&& b = b ↔ x &&& b ≠ 0 := by
  obtain ⟨k, hk, rfl⟩ := h
  have hk : k < 32 := by omega
  have hb : BitVec.twoPow 32 k ≠ 0 := by
    have := (and_twoPow_ne_zero (x := BitVec.twoPow 32 k) hk).mpr (by simp [hk])
    rwa [BitVec.and_self] at this
  rw [and_twoPow_ne_zero hk, BitVec.and_twoPow]
  by_cases hx : x.getLsbD k = true
  · rw [if_pos hx]
    exact iff_of_true rfl hx
  · rw [if_neg hx]
    exact iff_of_false (fun h => hb h.symm) hx

/-- The address of a page has no flags. -/
theorem Flag.page2pa (h : Flag b) : Jos.page2pa p &&& b = 0 := by
  obtain ⟨k, hk, rfl⟩ := h
  by_contra hne
  rw [← ne_eq, and_twoPow_ne_zero (by omega)] at hne
  simp [Jos.page2pa, BitVec.getLsbD_shiftLeft, hk] at hne

/-- The flags of an entry that `page_insert` stores. -/
theorem Flag.page2pa_or (h : Flag b) : (Jos.page2pa p ||| w) &&& b ≠ 0 ↔
      w &&& b ≠ 0 := by
  rw [h.or_iff, h.page2pa]
  simp

theorem present_iff : present w = true ↔ w &&& PTE_P ≠ 0 := by
  simp [present]

end

/-! ## Open page directories -/

/-- The window at `UVPT` shows the directory, and its page tables are open to
the user. -/
structure Opened (m : PhysMem) (dirs : Nat → Option Nat) : Prop where
  window : ∀ e d, dirs e = some d →
    m.entry d (pdx UVPT) = page2pa d ||| PTE_P ||| PTE_U
  table : ∀ e d i, dirs e = some d → i < pdxUTOP →
    present (m.entry d i) = true →
    m.entry d i &&& PTE_U ≠ 0 ∧ m.entry d i &&& PTE_W ≠ 0

section

variable {L : Layout} {dirs : Nat → Option Nat} {out out' : List Nat}
  {v v' : Vm} {m m' : PhysMem}
  {e d i j p q pt pp c : Nat} {va perm w : Word}

/-- The entry that `pgdir_walk` makes for a page table is open. -/
theorem open_table : (page2pa p ||| PTE_U ||| PTE_W ||| PTE_P) &&& PTE_U ≠ 0
    ∧ (page2pa p ||| PTE_U ||| PTE_W ||| PTE_P) &&& PTE_W ≠ 0 := by
  constructor
  · rw [flag_U.or_iff, flag_U.or_iff, flag_U.page2pa_or]
    exact .inl (.inl (by decide))
  · rw [flag_W.or_iff, flag_W.or_iff]
    exact .inl (.inr (by decide))

/-- A change of the address space of `e`. -/
theorem Opened.of_frame (h : Opened m dirs)
    (hdir : ∀ e d, dirs e = some d → e < L.ndirs)
    (hf : Frame L dirs e m m')
    (hpde : ∀ d i, dirs e = some d → i < pdxUTOP → m'.entry d i = m.entry d i
      ∨ m'.entry d i &&& PTE_U ≠ 0 ∧ m'.entry d i &&& PTE_W ≠ 0) :
      Opened m' dirs := by
  have hother : ∀ e' d i, dirs e' = some d → e' ≠ e →
      m'.entry d i = m.entry d i :=
    fun e' d i hd hne => PhysMem.entry_congr
      (hf.other e' d hne (nodeOf_dir (hdir e' d hd) hd))
  constructor
  · intro e' d hd
    by_cases he : e' = e
    · rw [hf.upper d (he ▸ hd) _ (by decide)]
      exact h.window e' d hd
    · rw [hother e' d _ hd he]
      exact h.window e' d hd
  · intro e' d i hd hi hp
    by_cases he : e' = e
    · rcases hpde d i (he ▸ hd) hi with heq | hopen
      · rw [heq] at hp ⊢
        exact h.table e' d i hd hi hp
      · exact hopen
    · rw [hother e' d i hd he] at hp ⊢
      exact h.table e' d i hd hi hp

/-- A store of an entry for an address that has a page table. -/
theorem Stored.opened {fits : Prop} (h : Stored L dirs out fits e va w v v')
    (ho : Opened v.mem dirs) (hdir : ∀ e d, dirs e = some d → e < L.ndirs)
    (hpt : ∀ d, dirs e = some d → v.mem.link d (pdx va) = none →
      v'.mem.entry d (pdx va) &&& PTE_U ≠ 0 ∧ v'.mem.entry d
      (pdx va) &&& PTE_W ≠ 0) :
    Opened v'.mem dirs := by
  refine ho.of_frame hdir h.frame fun d i hd _ => ?_
  by_cases hi : i = pdx va ∧ v.mem.link d i = none
  · obtain ⟨rfl, hnone⟩ := hi
    exact .inr (hpt d hd hnone)
  · rw [not_and_or] at hi
    exact .inl (h.pdes d i hd hi)

theorem Owned.NewPage.opened (h : Owned.NewPage L dirs out e pp va perm v v')
    (ho : Opened v.mem dirs) (hdir : ∀ e d, dirs e = some d → e < L.ndirs) :
    Opened v'.mem dirs := by
  refine ho.of_frame hdir h.frame fun d i hd _ => ?_
  by_cases hi : i = pdx va ∧ v.mem.link d i = none
  · obtain ⟨rfl, hnone⟩ := hi
    obtain ⟨t, ht⟩ := h.newTable d hd hnone
    rw [ht]
    exact .inr open_table
  · rw [not_and_or] at hi
    exact .inl (h.pdes d i hd hi)

/-- `page_insert` leaves page tables that are open. -/
theorem Owned.pageInsert_opened (h : Owned L dirs out v)
    (ho : Opened v.mem dirs)
    (hav : Avail L dirs v.mem pp out out') (he : e < L.ndirs)
    (hd : dirs e = some d)
    (hva : va < UTOP) (hperm : perm < 0x1000#32) {fits : Prop}
    (hret : Jos.pageInsert d pp va perm v = .ret (.ok ()) v')
    (hst : Stored L dirs out' fits e va w v v') : Opened v'.mem dirs := by
  refine hst.opened ho h.dir_lt fun d' hd' hnone => ?_
  obtain rfl : d = d' := Option.some.inj (hd.symm.trans hd')
  obtain ⟨t, ht⟩ := h.pageInsert_newTable hav he hd hva hperm hnone hret
  rw [ht]
  exact open_table

/-- A new page directory is open. -/
theorem Opened.newPgdir (h : Opened v.mem dirs)
    (hdir : ∀ e d, dirs e = some d → e < L.ndirs)
    (hfresh : ∀ k ∈ L.slots, target v.mem dirs k ≠ some d) :
    Opened (Owned.newPgdir d v).mem (Function.update dirs e (some d)) := by
  have hold : ∀ e' d' i, e' ≠ e → Function.update dirs e (some d) e' = some d' →
      dirs e' = some d' ∧ (Owned.newPgdir d v).mem.entry d' i =
        v.mem.entry d' i := by
    intro e' d' i hne hd'
    rw [Function.update_of_ne hne] at hd'
    have hslot : Slot.dir e' ∈ L.slots := mem_slots.mpr (hdir e' d' hd')
    refine ⟨hd', PhysMem.entry_congr (Owned.initPgdir_of_ne fun hdd => ?_)⟩
    exact hfresh _ hslot (hdd ▸ hd')
  have hnew : ∀ i < NPDENTRIES, (Owned.newPgdir d v).mem.entry d i = _ :=
    fun i hi =>
    Owned.initPgdir_entry rfl hi
  constructor
  · intro e' d' hd'
    by_cases he : e' = e
    · subst he
      rw [Function.update_self] at hd'
      obtain rfl := Option.some.inj hd'
      rw [hnew _ (by decide), if_pos rfl]
    · obtain ⟨hd, heq⟩ := hold e' d' (pdx UVPT) he hd'
      rw [heq]
      exact h.window e' d' hd
  · intro e' d' i hd' hi hp
    by_cases he : e' = e
    · subst he
      rw [Function.update_self] at hd'
      obtain rfl := Option.some.inj hd'
      have hi' : i < 955 := hi
      have hpu : pdx UVPT = 957 := by decide
      have hpv : pdx VPT = 959 := by decide
      rw [hnew i (show i < 1024 by omega), if_neg (by omega), if_neg (by omega),
        if_pos hi] at hp
      cases hp
    · obtain ⟨hd, heq⟩ := hold e' d' i he hd'
      rw [heq] at hp ⊢
      exact h.table e' d' i hd hi hp

/-- The address space of `e` is given up. -/
theorem Opened.drop (h : Opened m dirs)
    (hdir : ∀ e d, dirs e = some d → e < L.ndirs)
    (hf : Frame L dirs e m m') : Opened m' (Function.update dirs e none) := by
  have hold : ∀ e' d' i, Function.update dirs e none e' = some d' →
      dirs e' = some d' ∧ m'.entry d' i = m.entry d' i := by
    intro e' d' i hd'
    by_cases he : e' = e
    · rw [he, Function.update_self] at hd'
      cases hd'
    · rw [Function.update_of_ne he] at hd'
      exact ⟨hd', PhysMem.entry_congr
        (hf.other e' d' he (nodeOf_dir (hdir e' d' hd') hd'))⟩
  constructor
  · intro e' d' hd'
    obtain ⟨hd, heq⟩ := hold e' d' (pdx UVPT) hd'
    rw [heq]
    exact h.window e' d' hd
  · intro e' d' i hd' hi hp
    obtain ⟨hd, heq⟩ := hold e' d' i hd'
    rw [heq] at hp ⊢
    exact h.table e' d' i hd hi hp

/-- `sys_page_map` on checked arguments leaves page tables that are open. -/
theorem Owned.pageMapAt_opened (h : Owned L dirs out v) (ho : Opened v.mem dirs)
    {es ds : Nat}
    {srcva : Word} (hes : es < L.ndirs) (hds : dirs es = some ds)
    (hsrcva : srcva < UTOP)
    (hpp : target v.mem dirs (.pte es (pdx srcva) (ptx srcva)) = some pp)
    (he : e < L.ndirs)
    (hd : dirs e = some d) (hva : va < UTOP) (hperm : perm < 0x1000#32)
    {fits : Prop}
    (hret : Jos.pageMapAt ds srcva d va perm v = .ret (.ok ()) v')
    (hst : Stored L dirs out fits e va w v v') : Opened v'.mem dirs := by
  have hi := pdx_lt_of_lt_UTOP hsrcva
  have hslot : Slot.pte es (pdx srcva) (ptx srcva) ∈ L.slots :=
    mem_slots.mpr ⟨hes, hi, ptx_lt srcva⟩
  obtain ⟨pt, hpt, hlink⟩ := table_of_target hds hpp
  have hlt := h.lt (h.tree.user_of_nodeOf (nodeOf_pde hes hi hds hpt))
  rw [Jos.pageMapAt, Prog.bind_ret
    (pageLookup_mapped hpt hlt hlink (h.lt (h.user hslot hpp)))] at hret
  simp only at hret
  rw [Prog.ask_bind] at hret
  split at hret
  · cases hret
  · obtain ⟨x, v'', hins, hrest⟩ := Prog.bind_eq_ret.mp hret
    cases x with
    | error r =>
        obtain ⟨_, _, _, hrest⟩ := Prog.bind_eq_ret.mp hrest
        cases hrest
    | ok =>
        cases hrest
        exact h.pageInsert_opened ho (.shared hslot Slot.not_node hpp) he hd hva
          hperm hins hst

/-! ## Entries by page number -/

/-- The entry for page `n` in the address space of `e`. -/
def pteNo (m : PhysMem) (dirs : Nat → Option Nat) (e n : Nat) : Word :=
  pteAt m dirs e (n / 1024) (n % 1024)

theorem pageNo_lt (hi : i < pdxUTOP * 1024) :
    i / 1024 < pdxUTOP ∧ i % 1024 < NPTENTRIES :=
  ⟨Nat.div_lt_of_lt_mul (by rwa [Nat.mul_comm]), Nat.mod_lt _ (by decide)⟩

theorem pageNo_iff : i / 1024 = pdx va ∧ i % 1024 = ptx va ↔ i = ppn va := by
  rw [pdx_eq, ptx_eq, ppn_eq]
  omega

theorem ppn_lt_of_lt_UTOP (hva : va < UTOP) : ppn va < pdxUTOP * 1024 := by
  rw [BitVec.lt_def, show UTOP.toNat = 0xEEC00000 from rfl] at hva
  rw [ppn_eq, pdxUTOP_eq]
  omega

theorem pteAt_eq_pteNo :
    pteAt m dirs e (pdx va) (ptx va) = pteNo m dirs e (ppn va) := by
  obtain ⟨hi, hj⟩ := pageNo_iff.mpr (Eq.refl (ppn va))
  rw [pteNo, hi, hj]

/-- What a store to an entry changes. -/
theorem Stored.pteNo {fits : Prop} (h : Stored L dirs out fits e va w v v')
    (hc : c < L.ndirs)
    (hi : i < pdxUTOP * 1024) :
    pteNo v'.mem dirs c i = if c = e ∧ i = ppn va then w else
    pteNo v.mem dirs c i := by
  rw [Jos.pteNo, h.pte c _ _ hc (pageNo_lt hi).1 (pageNo_lt hi).2]
  exact if_congr (and_congr_right fun _ => pageNo_iff) rfl rfl

/-! ## Accesses -/

/-- Below `UTOP`, an access of user code is decided by the page-table entry. -/
theorem Opened.userAccess (h : Opened m dirs) (hd : dirs c = some d)
    (hlt : d < 2 ^ 20)
    (hva : va < UTOP) (write : Bool) : userAccess m (page2pa d) va write
      = if present (pteAt m dirs c (pdx va) (ptx va)) = true
          ∧ pteAt m dirs c (pdx va) (ptx va) &&& PTE_U ≠ 0
          ∧ (write → pteAt m dirs c (pdx va) (ptx va) &&& PTE_W ≠ 0)
        then some (ppn (pteAt m dirs c (pdx va) (ptx va))) else none := by
  unfold Jos.userAccess translate
  simp only [ppn_page2pa hlt]
  by_cases hp : present (m.entry d (pdx va)) = true
  · obtain ⟨hu, hw⟩ := h.table c d _ hd (pdx_lt_of_lt_UTOP hva) hp
    rw [pteAt_table hd (mapped_of_present hp)]
    generalize m.entry (ppn (m.entry d (pdx va))) (ptx va) = pte
    by_cases hpte : present pte = true
    · rw [if_pos ⟨hp, hpte⟩]
      simp only [flag_U.and_iff, flag_W.and_iff]
      refine if_congr ?_ rfl rfl
      tauto
    · rw [if_neg fun h => hpte h.2]
      simp [hpte]
  · rw [pteAt_noTable hd (mapped_of_absent hp), if_neg fun h => hp h.1]
    simp [present_zero]

/-- Word `n` of the window at `UVPT`. -/
def windowVa (n : Nat) : Word := UVPT + BitVec.ofNat 32 (4 * n)

theorem windowVa_toNat (hn : p < 2 ^ 20) :
    (windowVa p).toNat = 0xEF400000 + 4 * p := by
  unfold windowVa
  rw [BitVec.toNat_add, BitVec.toNat_ofNat, show UVPT.toNat =
    0xEF400000 from rfl]
  omega

/-- The window shows the page table of directory entry `i`, if there is one. -/
theorem Opened.userAccess_window (h : Opened m dirs) (hd : dirs c = some d)
    (hlt : d < 2 ^ 20)
    (hi : i < 1024) (hj : j < 1024) :
    Jos.userAccess m (page2pa d) (windowVa (i * 1024 + j)) false
      = if present (m.entry d i) = true ∧ m.entry d i &&& PTE_U ≠ 0 then
      some (ppn (m.entry d i))
        else none := by
  have hva := windowVa_toNat (show i * 1024 + j < 2 ^ 20 by omega)
  have hpdx : pdx (windowVa (i * 1024 + j)) = pdx UVPT := by
    rw [pdx_eq, hva, show pdx UVPT = 957 by decide]
    omega
  have hptx : ptx (windowVa (i * 1024 + j)) = i := by
    rw [ptx_eq, hva]
    omega
  have hppn : ppn (page2pa d ||| PTE_P ||| PTE_U) = d := by
    rw [BitVec.or_assoc]
    exact ppn_page2pa_or hlt (by decide)
  have hpres : present (page2pa d ||| PTE_P ||| PTE_U) = true := by
    rw [present_iff, flag_P.or_iff, flag_P.page2pa_or]
    exact .inl (by decide)
  have huser : (page2pa d ||| PTE_P ||| PTE_U) &&& PTE_U ≠ 0 := by
    rw [flag_U.or_iff]
    exact .inr (by decide)
  unfold Jos.userAccess translate
  simp only [ppn_page2pa hlt, hpdx, hptx, h.window c d hd, hppn]
  by_cases hp : present (m.entry d i) = true
  · rw [if_pos ⟨hpres, hp⟩]
    simp only [flag_U.and_iff]
    refine if_congr ?_ rfl rfl
    tauto
  · rw [if_neg fun h => hp h.2]
    simp [hp]

theorem pgoff_windowVa (hi : i < 1024) (hj : j < 1024) :
    pgoff (windowVa (i * 1024 + j)) = 4 * j := by
  rw [pgoff_eq, windowVa_toNat (by omega)]
  omega

/-! ## Stores that need no counters -/

variable (perm) in
/-- The end of `page_insert` stores the entry, whatever becomes of the page
mapped before, which may be put on the free list. -/
theorem storePte_mem (hpt : v.mem.link d (pdx va) = some pt)
    (hlt : pt < v.npage)
    (hq : ∀ q, v.mem.link pt (ptx va) = some q → q < v.npage)
    (hp : pp < 2 ^ 20) :
    ∃ v', storePte d pp va perm (pt, ptx va) v = .ret (.ok ()) v'
      ∧ v'.mem = v.mem.setEntry pt (ptx va) (page2pa pp ||| perm ||| PTE_P)
      ∧ v'.npage = v.npage
      ∧ (v'.pageFreeList = v.pageFreeList
        ∨ ∃ q, v.mem.link pt (ptx va) = some q ∧ v'.pageFreeList.first =
          some q) := by
  cases hold : v.mem.link pt (ptx va) with
  | none => exact ⟨_, storePte_of (unmapOld_absent hold), rfl, rfl, .inl rfl⟩
  | some q =>
      by_cases hqp : q = pp
      · subst hqp
        exact ⟨_, storePte_of (unmapOld_same hold hp), rfl, rfl, .inl rfl⟩
      · refine ⟨_, storePte_of (unmapOld_other hpt hlt hold (hq q hold) hp hqp),
          ?_, rfl, ?_⟩
        · exact PhysMem.setEntry_setEntry
        · by_cases hz : v.ppRef q - 1 = 0
          · refine .inr ⟨q, rfl, ?_⟩
            simp only [Vm.install, Vm.setPte, Vm.decref, if_pos hz]
            rfl
          · refine .inl ?_
            simp only [Vm.install, Vm.setPte, Vm.decref, if_neg hz]

/-- The directories and page tables are a tree, and memory has the size it
should have. -/
structure Shaped (L : Layout) (dirs : Nat → Option Nat) (v : Vm) : Prop where
  npage : v.npage = L.npage
  tree : Tree L (target v.mem dirs)
  opened : Opened v.mem dirs
  dir_lt : ∀ e d, dirs e = some d → e < L.ndirs

namespace Shaped

theorem lt (h : Shaped L dirs v) (hp : L.User p) : p < v.npage :=
  h.npage ▸ L.managed_lt p hp.1

theorem dir_pow (h : Shaped L dirs v) (hd : dirs e = some d) : d < 2 ^ 20 :=
  Owned.lt_pow (h.tree.user_of_nodeOf (nodeOf_dir (h.dir_lt e d hd) hd))

/-- An access of the environment whose directory is `d`. -/
theorem userAccess (h : Shaped L dirs v) (hd : dirs c = some d)
    (hva : va < UTOP) (write : Bool) :
    Jos.userAccess v.mem (page2pa d) va write
      = if present (pteAt v.mem dirs c (pdx va) (ptx va)) = true
          ∧ pteAt v.mem dirs c (pdx va) (ptx va) &&& PTE_U ≠ 0
          ∧ (write → pteAt v.mem dirs c (pdx va) (ptx va) &&& PTE_W ≠ 0)
        then some (ppn (pteAt v.mem dirs c (pdx va) (ptx va))) else none :=
  h.opened.userAccess hd (h.dir_pow hd) hva write

/-- The entry for `va` in the directory of `e` is set to `w`, and no directory
changes. -/
structure Put (L : Layout) (dirs : Nat → Option Nat) (e : Nat) (va w : Word)
    (v v' : Vm) : Prop where
  shaped : Shaped L dirs v'
  pte : ∀ e' i j, e' < L.ndirs → i < pdxUTOP → pteAt v'.mem dirs e' i j
    = if e' = e ∧ i = pdx va ∧ j = ptx va then w else pteAt v.mem dirs e' i j
  data : ∀ q, (∀ e', ¬NodeOf L v.mem dirs e' q) → v'.mem q = v.mem q
  link : ∀ e' d i, dirs e' = some d → v'.mem.link d i = v.mem.link d i

/-- A store to a page table that refers to a data page or to nothing. -/
theorem setPte (h : Shaped L dirs v) (he : e < L.ndirs) (hd : dirs e = some d)
    (hva : va < UTOP)
    (hpt : v.mem.link d (pdx va) = some pt)
    (hm : v'.mem = v.mem.setEntry pt (ptx va) w)
    (hn : v'.npage = v.npage)
    (hw : ∀ p, mapped w = some p → L.User p ∧ ∀ e', ¬NodeOf L v.mem dirs e' p) :
    Put L dirs e va w v v' := by
  have hi := pdx_lt_of_lt_UTOP hva
  have hslot : Slot.pte e (pdx va) (ptx va) ∈ L.slots :=
    mem_slots.mpr ⟨he, hi, ptx_lt va⟩
  have ht : ∀ l ∈ L.slots, target v'.mem dirs l
      = if l = .pte e (pdx va) (ptx va) then mapped w else
      target v.mem dirs l := fun l hl => by
    rw [hm]
    exact target_setPte h.tree he hi hd hpt hl
  have hag : ∀ l ∈ L.slots, l ≠ .pte e (pdx va) (ptx va) →
      target v'.mem dirs l = target v.mem dirs l :=
    fun l hl hne => by rw [ht l hl, if_neg hne]
  have hentry : ∀ e' d' i', dirs e' = some d' →
      v'.mem.entry d' i' = v.mem.entry d' i' := by
    intro e' d' i' hd'
    rw [hm]
    exact PhysMem.entry_setEntry_ne
      (.inl (h.tree.dir_ne_table he hi hd hpt (h.dir_lt e' d' hd') hd'))
  constructor
  case shaped =>
    refine ⟨hn.trans h.npage, ?_,
      ⟨fun e' d' hd' => ?_, fun e' d' i' hd' hi' hp => ?_⟩, h.dir_lt⟩
    · cases hmap : mapped w with
      | none => exact h.tree.clear (by rw [ht _ hslot, if_pos rfl, hmap]) hag
      | some p =>
          obtain ⟨hu, hdata⟩ := hw p hmap
          refine h.tree.install (by rw [ht _ hslot, if_pos rfl, hmap]) hag hu
            fun l hl hlp => ?_
          exact ⟨nofun, fun hn => hdata l.env ⟨l, hl, hn, rfl, hlp⟩⟩
    · rw [hentry e' d' _ hd']
      exact h.opened.window e' d' hd'
    · rw [hentry e' d' _ hd'] at hp ⊢
      exact h.opened.table e' d' i' hd' hi' hp
  case pte =>
    intro e' i' j' he' hi'
    rw [hm]
    exact pteAt_setPte h.tree he hi hd hpt he' hi'
  case data =>
    intro q hq
    rw [hm]
    exact PhysMem.setEntry_of_ne fun hqp => hq e (hqp ▸ nodeOf_pde he hi hd hpt)
  case link => exact fun e' d' i' hd' => congrArg mapped (hentry e' d' i' hd')

/-- `page_insert` where a page table is. -/
theorem pageInsert (h : Shaped L dirs v) (he : e < L.ndirs)
    (hd : dirs e = some d) (hva : va < UTOP)
    (hpt : v.mem.link d (pdx va) = some pt) (hu : L.User pp)
    (hdata : ∀ e', ¬NodeOf L v.mem dirs e' pp) (hperm : perm < 0x1000#32) :
    ∃ v', Jos.pageInsert d pp va perm v = .ret (.ok ()) v'
      ∧ Put L dirs e va (page2pa pp ||| perm ||| PTE_P) v v' := by
  have hi := pdx_lt_of_lt_UTOP hva
  have hlt := h.lt (h.tree.user_of_nodeOf (nodeOf_pde he hi hd hpt))
  have hold : ∀ q, v.mem.link pt (ptx va) = some q → q < v.npage := fun q hq =>
    h.lt (h.tree.user (.pte e (pdx va) (ptx va))
      (mem_slots.mpr ⟨he, hi, ptx_lt va⟩) q
      ((target_pte hd hpt).trans hq))
  obtain ⟨v', hv', hm, hn, -⟩ :=
    storePte_mem perm hpt hlt hold (Owned.lt_pow hu)
  refine ⟨v', (pageInsert_some (pgdirWalk_table hpt hlt)).trans hv', ?_⟩
  refine h.setPte he hd hva hpt hm hn fun p hp => ?_
  rw [mapped_page2pa (Owned.lt_pow hu) hperm] at hp
  obtain rfl := Option.some.inj hp
  exact ⟨hu, hdata⟩

/-- A page that an insertion where a page table is puts on the free list was
mapped there. -/
theorem pageInsert_list (h : Shaped L dirs v) (he : e < L.ndirs)
    (hd : dirs e = some d) (hva : va < UTOP)
    (hpt : v.mem.link d (pdx va) = some pt) (hp : pp < 2 ^ 20)
    (hret : Jos.pageInsert d pp va perm v = .ret (.ok ()) v') :
    v'.pageFreeList = v.pageFreeList
      ∨ ∃ q, target v.mem dirs (.pte e (pdx va) (ptx va)) = some q
      ∧ v'.pageFreeList.first = some q := by
  have hi := pdx_lt_of_lt_UTOP hva
  have hlt := h.lt (h.tree.user_of_nodeOf (nodeOf_pde he hi hd hpt))
  have hold : ∀ q, v.mem.link pt (ptx va) = some q → q < v.npage := fun q hq =>
    h.lt (h.tree.user (.pte e (pdx va) (ptx va))
      (mem_slots.mpr ⟨he, hi, ptx_lt va⟩) q
      ((target_pte hd hpt).trans hq))
  obtain ⟨v₁, hv₁, -, -, hlist⟩ := storePte_mem perm hpt hlt hold hp
  rw [pageInsert_some (pgdirWalk_table hpt hlt), hv₁] at hret
  cases hret
  rw [target_pte hd hpt]
  exact hlist

/-- `page_insert` with a new page table, on whatever page is in front of the
free list. -/
theorem pageInsert_new {t : Nat} (h : Shaped L dirs v) (hd : dirs e = some d)
    (hpt : v.mem.link d (pdx va) = none)
    (hfirst : v.pageFreeList.first = some t) (ht : L.User t)
    (htd : t ≠ d) : ∃ v', Jos.pageInsert d pp va perm v = .ret (.ok ()) v'
      ∧ pteAt v'.mem dirs e (pdx va) (ptx va) = page2pa pp ||| perm ||| PTE_P
      ∧ v'.pageFreeList = v.pageFreeList.remove t := by
  have hw := mapped_table (Owned.lt_pow ht)
  have hzero : (v.addTable d (pdx va) t).mem.link t (ptx va) = none := by
    rw [PhysMem.link]
    unfold Vm.addTable
    rw [PhysMem.entry_setEntry_ne (.inl htd),
      PhysMem.entry_zeroPage_self (ptx_lt va)]
    exact mapped_zero
  refine ⟨_, (pageInsert_some
    (pgdirWalk_new hpt hfirst (Owned.lt_pow ht) (h.lt ht))).trans
    (storePte_of (unmapOld_absent hzero)), ?_, rfl⟩
  change pteAt ((v.addTable d (pdx va) t).mem.setEntry t (ptx va) _) dirs e
    (pdx va) (ptx va) = _
  have hlink : ((v.addTable d (pdx va) t).mem.setEntry t (ptx va)
      (page2pa pp ||| perm ||| PTE_P)).link
      d (pdx va) = some t := by
    rw [PhysMem.link_setEntry_ne (.inl htd.symm)]
    exact PhysMem.link_setEntry_self.trans hw
  rw [pteAt_table hd hlink, PhysMem.entry_setEntry_self]

section MapAt

variable {es ds : Nat} {srcva : Word} (h : Shaped L dirs v) (hes : es < L.ndirs)
  (hds : dirs es = some ds)
  (hsrcva : srcva < UTOP)
  (hpp : target v.mem dirs (.pte es (pdx srcva) (ptx srcva)) = some pp)
include h hes hds hsrcva hpp

/-- The source of `sys_page_map`: a page that is no directory and no page
table. -/
theorem source : L.User pp ∧ (∀ e', ¬NodeOf L v.mem dirs e' pp)
    ∧ ∃ pt, v.mem.entry pt (ptx srcva) =
      pteAt v.mem dirs es (pdx srcva) (ptx srcva)
      ∧ pageLookup ds srcva v = .ret (some pp, some (pt, ptx srcva)) v := by
  have hi := pdx_lt_of_lt_UTOP hsrcva
  have hslot : Slot.pte es (pdx srcva) (ptx srcva) ∈ L.slots :=
    mem_slots.mpr ⟨hes, hi, ptx_lt srcva⟩
  obtain ⟨spt, hspt, hlink⟩ := table_of_target hds hpp
  have hlt := h.lt (h.tree.user_of_nodeOf (nodeOf_pde hes hi hds hspt))
  have hu := h.tree.user _ hslot pp hpp
  exact ⟨hu, h.tree.not_nodeOf hslot Slot.not_node hpp, spt,
    (pteAt_table hds hspt).symm,
    pageLookup_mapped hspt hlt hlink (h.lt hu)⟩

variable (hw : perm &&& PTE_W ≠ 0 →
    pteAt v.mem dirs es (pdx srcva) (ptx srcva) &&& PTE_W ≠ 0)
include hw

/-- `sys_page_map` on checked arguments, when the page can be inserted. -/
theorem pageMapAt_ok (hins : Jos.pageInsert d pp va perm v = .ret (.ok ()) v') :
    Jos.pageMapAt ds srcva d va perm v = .ret (.ok ()) v' := by
  obtain ⟨-, -, pt, hpt, hlookup⟩ := h.source hes hds hsrcva hpp
  rw [← hpt] at hw
  rw [Jos.pageMapAt, Prog.bind_ret hlookup]
  simp only
  rw [Prog.ask_bind, if_neg fun hno => hw hno.1 hno.2, Prog.bind_ret hins]
  rfl

/-- If it cannot, the page is freed. -/
theorem pageMapAt_error {r : Word}
    (hins : Jos.pageInsert d pp va perm v = .ret (.error r) v') :
    Jos.pageMapAt ds srcva d va perm v = .ret (.error r) (v'.give pp) := by
  obtain ⟨-, -, pt, hpt, hlookup⟩ := h.source hes hds hsrcva hpp
  rw [← hpt] at hw
  rw [Jos.pageMapAt, Prog.bind_ret hlookup]
  simp only
  rw [Prog.ask_bind, if_neg fun hno => hw hno.1 hno.2, Prog.bind_ret hins]
  rfl

/-- `sys_page_map` on checked arguments, to an address that has a page table. -/
theorem pageMapAt (he : e < L.ndirs) (hd : dirs e = some d) (hva : va < UTOP)
    (hperm : perm < 0x1000#32)
    (hpt : v.mem.link d (pdx va) = some pt) :
    ∃ v', Jos.pageMapAt ds srcva d va perm v = .ret (.ok ()) v'
      ∧ Put L dirs e va (page2pa pp ||| perm ||| PTE_P) v v' := by
  obtain ⟨hu, hdata, -⟩ := h.source hes hds hsrcva hpp
  obtain ⟨v', hv', hput⟩ := h.pageInsert he hd hva hpt hu hdata hperm
  exact ⟨v', h.pageMapAt_ok hes hds hsrcva hpp hw hv', hput⟩

end MapAt

/-- `page_remove` where a page is mapped. -/
theorem pageRemove (h : Shaped L dirs v) (he : e < L.ndirs)
    (hd : dirs e = some d) (hva : va < UTOP)
    (hpp : target v.mem dirs (.pte e (pdx va) (ptx va)) = some pp) :
    ∃ v', Jos.pageRemove d va v = .ret () v' ∧ Put L dirs e va 0 v v' := by
  have hi := pdx_lt_of_lt_UTOP hva
  obtain ⟨pt, hpt, hlink⟩ := table_of_target hd hpp
  have hlt := h.lt (h.tree.user_of_nodeOf (nodeOf_pde he hi hd hpt))
  have hslot : Slot.pte e (pdx va) (ptx va) ∈ L.slots :=
    mem_slots.mpr ⟨he, hi, ptx_lt va⟩
  have hltp := h.lt (h.tree.user _ hslot pp hpp)
  refine ⟨_, pageRemove_mapped hpt hlt hlink hltp,
    h.setPte he hd hva hpt rfl rfl fun p hp => ?_⟩
  rw [mapped_zero] at hp
  cases hp

/-- A change of a page that is no directory and no page table. -/
theorem setData (h : Shaped L dirs v) (hdata : ∀ e', ¬NodeOf L v.mem dirs e' p)
    (hm : ∀ q, q ≠ p → m' q = v.mem q) :
    Shaped L dirs { v with mem := m' } where
  npage := h.npage
  tree := h.tree.congr fun _ hk => target_of_ne hk fun q hq => hm q fun hqp =>
    hdata _ (hqp ▸ hq)
  opened := by
    have hentry : ∀ e d i, dirs e = some d → m'.entry d i = v.mem.entry d i :=
      fun e d i hd =>
      PhysMem.entry_congr (hm d fun hdp =>
        hdata e (hdp ▸ nodeOf_dir (h.dir_lt e d hd) hd))
    constructor
    · intro e d hd
      rw [hentry e d _ hd]
      exact h.opened.window e d hd
    · intro e d i hd hi hp
      rw [hentry e d i hd] at hp ⊢
      exact h.opened.table e d i hd hi hp
  dir_lt := h.dir_lt

end Shaped

theorem Owned.shaped (h : Owned L dirs out v) (ho : Opened v.mem dirs) :
    Shaped L dirs v :=
  ⟨h.npage, h.tree, ho, h.dir_lt⟩

end

end Jos
