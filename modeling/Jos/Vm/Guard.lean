import Jos.Vm.Boot
import Jos.Vm.Space

/-!
# Whose memory changes

What the operations on page tables leave alone. `Altered` says of a change of
memory that it was made on behalf of the address spaces in `mine`: the kernel's
pages stay, all other address spaces map the same pages with the same
permissions, what they map changes only in the pages `W` that the caller may
write anyway, and a page that only they use is used by nobody else afterwards.
`Halved` is the part of the protection that does not rest on counting: no
directory lets user code write at `UTOP` or above.
-/

namespace Jos

open Slot (target)

/-- User code of `c` may write page `p`, which is mapped below `UTOP`. -/
def CanWrite (m : PhysMem) (dirs : Nat → Option Nat) (c p : Nat) : Prop :=
  ∃ i j, i < pdxUTOP ∧ j < NPTENTRIES ∧ target m dirs (.pte c i j) = some p
    ∧ pteAt m dirs c i j &&& PTE_W ≠ 0

/-- Memory changed only where user code of `c` may write. -/
def Stores (dirs : Nat → Option Nat) (c : Nat) (m m' : PhysMem) : Prop :=
  ∀ p, m' p = m p ∨ CanWrite m dirs c p

/-- No page directory lets user code write at `UTOP` or above, nor does
`boot_pgdir`, from which they are made. -/
structure Halved (L : Layout) (dirs : Nat → Option Nat) (m : PhysMem) :
    Prop where
  boot : KernelHalf L m L.bootPgdir
  bootPage : ¬L.User L.bootPgdir
  dir : ∀ e d, dirs e = some d → KernelHalf L m d

/-- Memory changed from `m` to `m'` on behalf of the address spaces in
`mine`. -/
structure Altered (L : Layout) (mine W : Nat → Prop)
    (dirs dirs' : Nat → Option Nat) (m m' : PhysMem) : Prop where
  kernel : ∀ p, ¬L.User p → m' p = m p
  target : ∀ k ∈ L.slots, ¬mine k.env → dirs k.env ≠ none →
    target m' dirs' k = target m dirs k
  pde : ∀ e d i, dirs e = some d → ¬mine e → m'.entry d i = m.entry d i
  pte : ∀ e i j, e < L.ndirs → i < pdxUTOP → ¬mine e → dirs e ≠ none →
    pteAt m' dirs' e i j = pteAt m dirs e i j
  data : ∀ k ∈ L.slots, ¬k.Node → ¬mine k.env → ∀ p, Slot.target m dirs k =
    some p → m' p = m p ∨ W p
  apart : ∀ p, (∃ l ∈ L.slots, Slot.target m dirs l = some p) →
    (∀ l ∈ L.slots, Slot.target m dirs l = some p → ¬mine l.env) →
    ∀ k ∈ L.slots, Slot.target m' dirs' k = some p →
    Slot.target m dirs k = some p

section

variable {L : Layout} {mine W : Nat → Prop}
  {dirs dirs' dirs'' : Nat → Option Nat} {out out' : List Nat}
  {v v' : Vm} {m m' m'' : PhysMem} {c e d i j p q pt pp : Nat}
  {va perm w : Word} {k : Slot}

theorem pte_mem (he : e < L.ndirs) (hi : i < pdxUTOP) (hj : j < NPTENTRIES) :
    Slot.pte e i j ∈ L.slots :=
  mem_slots.mpr ⟨he, hi, hj⟩

/-! ## Changes one after the other -/

/-- A slot that refers to a page belongs to a live environment. -/
theorem dirs_ne_none_of_target (h : target m dirs k = some p) :
    dirs k.env ≠ none := by
  intro hnone
  cases k with
  | dir e => cases hnone.symm.trans h
  | pde e i =>
      simp only [Slot.env] at hnone
      simp [target, hnone] at h
  | pte e i j =>
      have hnone : dirs e = none := hnone
      rw [target, pteAt_noDir hnone, mapped_zero] at h
      cases h

namespace Altered

theorem refl : Altered L mine W dirs dirs m m where
  kernel _ _ := rfl
  target _ _ _ _ := rfl
  pde _ _ _ _ _ := rfl
  pte _ _ _ _ _ _ _ := rfl
  data _ _ _ _ _ _ := .inl rfl
  apart _ _ _ _ _ h := h

/-- The page directories of the other environments stay. -/
theorem dir (h : Altered L mine W dirs dirs' m m') (he : e < L.ndirs)
    (hmine : ¬mine e) (hd : dirs e ≠ none) :
    dirs' e = dirs e :=
  h.target (.dir e) (mem_slots.mpr he) hmine hd

theorem env_lt (hk : k ∈ L.slots) : k.env < L.ndirs := by
  have h := mem_slots.mp hk
  cases k with
  | dir e => exact h
  | pde e i => exact h.1
  | pte e i j => exact h.1

theorem trans (h : Altered L mine W dirs dirs' m m')
    (h' : Altered L mine W dirs' dirs'' m' m'')
    (hdir : ∀ e d, dirs e = some d → e < L.ndirs) :
    Altered L mine W dirs dirs'' m m'' where
  kernel p hp := (h'.kernel p hp).trans (h.kernel p hp)
  target k hk hmine hd :=
    (h'.target k hk hmine (h.dir (env_lt hk) hmine hd ▸ hd)).trans
      (h.target k hk hmine hd)
  pde e d i hd hmine := by
    have hsame := h.dir (hdir e d hd) hmine (hd ▸ nofun)
    exact (h'.pde e d i (hsame.trans hd) hmine).trans (h.pde e d i hd hmine)
  pte e i j he hi hmine hd :=
    (h'.pte e i j he hi hmine (h.dir he hmine hd ▸ hd)).trans
      (h.pte e i j he hi hmine hd)
  data k hk hn hmine p hp := by
    have hd := dirs_ne_none_of_target hp
    have hp' := (h.target k hk hmine hd).trans hp
    rcases h'.data k hk hn hmine p hp' with hsame | hw
    · exact (h.data k hk hn hmine p hp).imp_left hsame.trans
    · exact .inr hw
  apart p hused honly k hk hp := by
    obtain ⟨l, hl, hlp⟩ := hused
    have hlp' :=
      (h.target l hl (honly l hl hlp) (dirs_ne_none_of_target hlp)).trans hlp
    have hold := h.apart p ⟨l, hl, hlp⟩ honly
    exact hold k hk (h'.apart p ⟨l, hl, hlp'⟩
      (fun k' hk' hp' => honly k' hk' (hold k' hk' hp')) k hk hp)

end Altered

/-! ## One address space changes -/

/-- The entry for `va` in the directory of `e` was set to `w`, in a new page
table if need be. -/
structure Patched (L : Layout) (dirs : Nat → Option Nat) (e : Nat) (va w : Word)
    (m m' : PhysMem) : Prop where
  tree : Tree L (target m' dirs)
  frame : Frame L dirs e m m'
  pte : ∀ e' i j, e' < L.ndirs → i < pdxUTOP → j < NPTENTRIES →
    pteAt m' dirs e' i j
    = if e' = e ∧ i = pdx va ∧ j = ptx va then w else pteAt m dirs e' i j
  pdes : ∀ d i, dirs e = some d → (i ≠ pdx va ∨ m.link d i ≠ none) →
    m'.entry d i = m.entry d i
  data : ∀ q, (∃ k ∈ L.slots, target m dirs k = some q) →
    ¬NodeOf L m' dirs e q → m' q = m q

theorem Stored.patched {fits : Prop} (h : Stored L dirs out fits e va w v v') :
    Patched L dirs e va w v.mem v'.mem :=
  ⟨h.separate.tree, h.frame, h.pte, h.pdes, fun q _ hq => h.data q hq⟩

theorem Owned.NewPage.patched (h : Owned.NewPage L dirs out e pp va perm v v') :
    Patched L dirs e va (page2pa pp ||| perm ||| PTE_P) v.mem v'.mem := by
  refine ⟨h.tree, h.frame, h.pte, h.pdes, fun q ⟨k, hk, hkq⟩ hq =>
    h.data q (fun hpp => ?_) hq⟩
  exact h.fresh k hk (hpp ▸ hkq)

namespace Patched

/-- What other environments refer to stays. -/
theorem other (h : Patched L dirs e va w m m') (hk : k ∈ L.slots)
    (hne : k.env ≠ e) :
    target m' dirs k = target m dirs k := h.frame.target_eq hk hne

/-- Where there was no page table, nothing is unmapped. -/
theorem still (h : Patched L dirs e va w m m') (hd : dirs e = some d)
    (hnone : m.link d (pdx va) = none)
    (hk : k ∈ L.slots) (hkp : target m dirs k = some p) :
    target m' dirs k = some p := by
  have hslot := mem_slots.mp hk
  by_cases hke : k.env = e
  · cases k with
    | dir e' => exact hkp
    | pde e' i =>
        obtain rfl : e' = e := hke
        rw [target_pde hd] at hkp ⊢
        have hi : i ≠ pdx va := by
          rintro rfl
          cases hnone.symm.trans hkp
        rw [PhysMem.link, h.pdes d i hd (.inl hi)]
        exact hkp
    | pte e' i j =>
        rw [target, h.pte e' i j hslot.1 hslot.2.1 hslot.2.2, if_neg]
        · exact hkp
        · rintro ⟨rfl, rfl, -⟩
          rw [target_pte_none hd hnone] at hkp
          cases hkp
  · exact (h.other hk hke).trans hkp

/-- A slot that refers to a page in use before did so already, or is the entry
that was set. -/
theorem used (h : Patched L dirs e va w m m') (hd : dirs e = some d) {l : Slot}
    (hl : l ∈ L.slots)
    (hlp : target m' dirs l = some p) (hk : k ∈ L.slots)
    (hkp : target m dirs k = some p) :
    target m dirs l = some p ∨ mapped w = some p := by
  have hslot := mem_slots.mp hl
  by_cases hle : l.env = e
  · cases l with
    | dir e' => exact .inl hlp
    | pde e' i =>
        obtain rfl : e' = e := hle
        have hlp' := hlp
        rw [target_pde hd] at hlp
        by_cases hi : i = pdx va ∧ m.link d i = none
        · -- a new page table is no other page
          obtain ⟨rfl, hnone⟩ := hi
          have hsame :=
            h.tree.node _ hl k hk p trivial hlp' (h.still hd hnone hk hkp)
          exact .inl (hsame ▸ hkp)
        · rw [not_and_or] at hi
          rw [PhysMem.link, h.pdes d i hd hi] at hlp
          exact .inl ((target_pde hd).trans hlp)
    | pte e' i j =>
        rw [target, h.pte e' i j hslot.1 hslot.2.1 hslot.2.2] at hlp
        split at hlp
        · exact .inr hlp
        · exact .inl hlp
  · exact .inl ((h.other hl hle).symm.trans hlp)

/-- A mapped page keeps its contents, also where it is unmapped. -/
theorem kept (h : Patched L dirs e va w m m') (ht : Tree L (target m dirs))
    (hd : dirs e = some d)
    (hk : k ∈ L.slots) (hn : ¬k.Node) (hq : target m dirs k = some q) :
    m' q = m q := by
  refine h.data q ⟨k, hk, hq⟩ ?_
  rintro ⟨l, hl, hln, hle, hlq⟩
  have hold : target m dirs l ≠ some q :=
    fun h' => hn (ht.node l hl k hk q hln h' hq ▸ hln)
  cases l with
  | dir e' => exact hold hlq
  | pde e' i =>
      obtain rfl : e' = e := hle
      have hlq' := hlq
      rw [target_pde hd] at hlq
      by_cases hi : i = pdx va ∧ m.link d i = none
      · obtain ⟨rfl, hnone⟩ := hi
        cases h.tree.node _ hl k hk q trivial hlq' (h.still hd hnone hk hq)
        exact hn trivial
      · rw [not_and_or] at hi
        rw [PhysMem.link, h.pdes d i hd hi] at hlq
        exact hold ((target_pde hd).trans hlq)
  | pte e' i j => exact hln

/-- The change is one of `e`, if the page was free or mapped on the caller's
side. -/
theorem altered (h : Patched L dirs e va w m m') (ht : Tree L (target m dirs))
    (hdir : ∀ e d, dirs e = some d → e < L.ndirs) (hd : dirs e = some d)
    (hmine : mine e) (hw : ∀ p, mapped w = some p →
      (∀ l ∈ L.slots, target m dirs l ≠ some p) ∨ ∃ l ∈ L.slots, mine l.env
        ∧ target m dirs l = some p) :
    Altered L mine W dirs dirs m m' := by
  have hne : ∀ {e'}, ¬mine e' → e' ≠ e := fun hno heq => hno (heq ▸ hmine)
  constructor
  case kernel => exact h.frame.kernel
  case target => exact fun k hk hno _ => h.other hk (hne hno)
  case pde =>
    exact fun e' d' i hd' hno =>
      PhysMem.entry_congr (h.frame.other e' d' (hne hno)
        (nodeOf_dir (hdir e' d' hd') hd'))
  case pte =>
    exact fun e' i j he' hi hno _ => pteAt_of_ne he' hi fun q hq =>
      h.frame.other e' q (hne hno) hq
  case data => exact fun k hk hn _ q hq => .inl (h.kept ht hd hk hn hq)
  case apart =>
    rintro p ⟨l, hl, hlp⟩ honly k hk hkp
    refine (h.used hd hk hkp hl hlp).resolve_right fun hwp => ?_
    rcases hw p hwp with hfree | ⟨l', hl', hm, hlp'⟩
    · exact hfree l hl hlp
    · exact honly l' hl' hlp' hm

end Patched

/-! ## Counters -/

/-- A page that becomes used becomes so once, which its counter can count. -/
theorem Fits.fresh (h : Fits L dirs m)
    (hnew : ∀ k ∈ L.slots, ∀ q, target m' dirs' k = some q →
      target m dirs k = some q ∨ ∀ l ∈ L.slots, target m' dirs' l = some q →
      l = k) : Fits L dirs' m' := by
  intro q hq
  have hcount := h q hq
  unfold Countable at hcount ⊢
  by_cases hsub : ∀ k ∈ L.slots, target m' dirs' k = some q →
    target m dirs k = some q
  · have hle : pageRefs L.ndirs m' dirs' q ≤ pageRefs L.ndirs m dirs q :=
      refCount_mono hsub
    omega
  · simp only [not_forall] at hsub
    obtain ⟨k, hk, hkq, hno⟩ := hsub
    have hone := (hnew k hk q hkq).resolve_left hno
    have hle : pageRefs L.ndirs m' dirs' q ≤ 1 :=
      refCount_le_one fun i hi j hj hiq hjq =>
        (hone i hi hiq).trans (hone j hj hjq).symm
    have hhold : L.hold q = 0 := hq.2
    omega

/-- A new page is mapped. -/
theorem Patched.fits (h : Patched L dirs e va w m m') (hd : dirs e = some d)
    (hfresh : ∀ q, mapped w = some q → ∀ k ∈ L.slots, target m dirs k ≠ some q)
    (hf : Fits L dirs m) :
    Fits L dirs m' := by
  refine hf.fresh fun k hk q hkq => ?_
  by_cases hused : ∃ l ∈ L.slots, target m dirs l = some q
  · obtain ⟨l, hl, hlq⟩ := hused
    exact .inl ((h.used hd hk hkq hl hlq).resolve_right fun hwq =>
      hfresh q hwq l hl hlq)
  -- the page was not used, so an entry that maps it is the one that was set
  have hset : ∀ e' i j, Slot.pte e' i j ∈ L.slots →
      target m' dirs (.pte e' i j) = some q →
      e' = e ∧ i = pdx va ∧ j = ptx va := by
    intro e' i j hl hlq
    obtain ⟨he', hi, hj⟩ := mem_slots.mp hl
    by_contra hne
    rw [target, h.pte e' i j he' hi hj, if_neg hne] at hlq
    exact hused ⟨_, hl, hlq⟩
  refine .inr fun l hl hlq => ?_
  by_cases hkn : k.Node
  · exact h.tree.node k hk l hl q hkn hkq hlq
  by_cases hln : l.Node
  · exact (h.tree.node l hl k hk q hln hlq hkq).symm
  cases k with
  | dir _ => exact absurd trivial hkn
  | pde _ _ => exact absurd trivial hkn
  | pte e₁ i₁ j₁ =>
      cases l with
      | dir _ => exact absurd trivial hln
      | pde _ _ => exact absurd trivial hln
      | pte e₂ i₂ j₂ =>
          obtain ⟨rfl, rfl, rfl⟩ := hset _ _ _ hk hkq
          obtain ⟨rfl, rfl, rfl⟩ := hset _ _ _ hl hlq
          rfl

/-! ## Stores of user code -/

namespace Stores

/-- Directories and page tables are not stored to. -/
theorem node (h : Stores dirs c m m') (ht : Tree L (target m dirs))
    (hc : c < L.ndirs)
    (hp : NodeOf L m dirs e p) : m' p = m p := by
  refine (h p).resolve_right ?_
  rintro ⟨i, j, hi, hj, hq, -⟩
  exact ht.not_nodeOf (pte_mem hc hi hj) Slot.not_node hq e hp

theorem target_eq (h : Stores dirs c m m') (ht : Tree L (target m dirs))
    (hc : c < L.ndirs)
    (hk : k ∈ L.slots) : target m' dirs k = target m dirs k :=
  target_of_ne hk fun _ hp => h.node ht hc hp

theorem pteAt_eq (h : Stores dirs c m m') (ht : Tree L (target m dirs))
    (hc : c < L.ndirs)
    (he : e < L.ndirs) (hi : i < pdxUTOP) :
    pteAt m' dirs e i j = pteAt m dirs e i j :=
  pteAt_of_ne he hi fun _ hp => h.node ht hc hp

/-- The same pages may be written afterwards. -/
theorem canWrite_iff (h : Stores dirs c m m') (ht : Tree L (target m dirs))
    (hc : c < L.ndirs)
    (he : e < L.ndirs) : CanWrite m' dirs e p ↔ CanWrite m dirs e p := by
  constructor
  · rintro ⟨i, j, hi, hj, hp, hw⟩
    rw [h.target_eq ht hc (pte_mem he hi hj)] at hp
    rw [h.pteAt_eq ht hc he hi] at hw
    exact ⟨i, j, hi, hj, hp, hw⟩
  · rintro ⟨i, j, hi, hj, hp, hw⟩
    rw [← h.target_eq ht hc (pte_mem he hi hj)] at hp
    rw [← h.pteAt_eq ht hc he hi] at hw
    exact ⟨i, j, hi, hj, hp, hw⟩

theorem refl : Stores dirs c m m := fun _ => .inl rfl

theorem trans (h : Stores dirs c m m') (h' : Stores dirs c m' m'')
    (ht : Tree L (target m dirs))
    (hc : c < L.ndirs) : Stores dirs c m m'' := by
  intro p
  rcases h' p with hsame | hw
  · exact (h p).imp_left hsame.trans
  · exact .inr ((h.canWrite_iff ht hc hc).mp hw)

theorem frame (h : Stores dirs c m m') (ht : Tree L (target m dirs))
    (hc : c < L.ndirs)
    (hdir : ∀ e d, dirs e = some d → e < L.ndirs) : Frame L dirs e m m' where
  kernel p hp := by
    refine (h p).resolve_right ?_
    rintro ⟨i, j, hi, hj, hq, -⟩
    exact hp (ht.user _ (pte_mem hc hi hj) p hq)
  other _ _ _ hp := h.node ht hc hp
  upper d hd _ _ :=
    PhysMem.entry_congr (h.node ht hc (nodeOf_dir (hdir _ d hd) hd))

theorem altered (h : Stores dirs c m m') (ht : Tree L (target m dirs))
    (hc : c < L.ndirs)
    (hdir : ∀ e d, dirs e = some d → e < L.ndirs) :
    Altered L mine (CanWrite m dirs c) dirs dirs m m' where
  kernel := (h.frame (e := c) ht hc hdir).kernel
  target _ hk _ _ := h.target_eq ht hc hk
  pde e d _ hd _ :=
    PhysMem.entry_congr (h.node ht hc (nodeOf_dir (hdir e d hd) hd))
  pte _ _ _ he hi _ _ := h.pteAt_eq ht hc he hi
  data _ _ _ _ p _ := h p
  apart _ _ _ _ hk hkp := (h.target_eq ht hc hk).symm.trans hkp

end Stores

/-- What user code stores to does not matter to the allocator. -/
theorem Owned.stores (h : Owned L dirs out v) (hc : c < L.ndirs)
    (hs : Stores dirs c v.mem m') :
    Owned L dirs out { v with mem := m' } :=
  h.congr rfl rfl rfl rfl fun _ hk => hs.target_eq h.tree hc hk

/-! ## Memory that user code reaches -/

theorem pdx_lt_iff : pdx va < pdxUTOP ↔ va < UTOP := by
  refine ⟨fun h => ?_, pdx_lt_of_lt_UTOP⟩
  rw [pdx_eq, pdxUTOP_eq] at h
  show va.toNat < 0xEEC00000
  omega

/-- What the processor finds below `UTOP`. -/
theorem pte_of_translate (hd : dirs c = some d) (hlt : d < 2 ^ 20)
    (htr : translate m (page2pa d) va = some (p, w)) :
    target m dirs (.pte c (pdx va) (ptx va)) = some p
      ∧ w = m.entry d (pdx va) &&& pteAt m dirs c (pdx va) (ptx va) := by
  unfold translate at htr
  simp only [ppn_page2pa hlt] at htr
  split at htr
  · rename_i hp
    obtain ⟨rfl, rfl⟩ := Prod.mk.inj (Option.some.inj htr)
    rw [target, pteAt_table hd (mapped_of_present hp.1)]
    exact ⟨mapped_of_present hp.2, rfl⟩
  · cases htr

theorem canWrite_of_translate (hd : dirs c = some d) (hlt : d < 2 ^ 20)
    (hva : va < UTOP)
    (htr : translate m (page2pa d) va = some (p, w)) (hw : w &&& PTE_W ≠ 0) :
    CanWrite m dirs c p := by
  obtain ⟨hp, rfl⟩ := pte_of_translate hd hlt htr
  exact ⟨_, _, pdx_lt_of_lt_UTOP hva, ptx_lt va, hp, (flag_W.and_iff.mp hw).2⟩

namespace Halved

/-- User code writes below `UTOP` only, to pages that it maps writable. -/
theorem userAccess (h : Halved L dirs m) (hd : dirs c = some d)
    (hlt : d < 2 ^ 20)
    (hacc : Jos.userAccess m (page2pa d) va true = some p) :
    va < UTOP ∧ CanWrite m dirs c p := by
  unfold Jos.userAccess at hacc
  cases htr : translate m (page2pa d) va with
  | none =>
      rw [htr] at hacc
      cases hacc
  | some x =>
      obtain ⟨q, flags⟩ := x
      rw [htr] at hacc
      dsimp only at hacc
      split at hacc
      · rename_i hflags
        obtain rfl := Option.some.inj hacc
        have hva : va < UTOP := by
          by_contra hge
          have hi : pdxUTOP ≤ pdx va := Nat.le_of_not_lt fun hlow =>
            hge (pdx_lt_iff.mp hlow)
          have hu := hflags.1
          have hw := hflags.2 rfl
          unfold translate at htr
          simp only [ppn_page2pa hlt] at htr
          split at htr
          · rename_i hp
            obtain ⟨-, rfl⟩ := Prod.mk.inj (Option.some.inj htr)
            rw [flag_U.and_iff] at hu
            rw [flag_W.and_iff] at hw
            exact (h.dir c d hd _ hi (pdx_lt va) ⟨hp.1, hu.1, hw.1⟩).2 _
              (ptx_lt va) ⟨hp.2, hu.2, hw.2⟩
          · cases htr
        exact ⟨hva, canWrite_of_translate hd hlt hva htr (hflags.2 rfl)⟩
      · cases hacc

theorem stores (h : Halved L dirs m) (hd : dirs c = some d) (hlt : d < 2 ^ 20)
    (hs : UserStores m (page2pa d) m') : Stores dirs c m m' := by
  intro p
  refine (hs p).imp_right ?_
  rintro ⟨va, hva⟩
  exact (h.userAccess hd hlt hva).2

end Halved

/-! ## The kernel half -/

theorem KernelHalf.congr (h : KernelHalf L m d)
    (hd : ∀ i, pdxUTOP ≤ i → m'.entry d i = m.entry d i)
    (hkern : ∀ p, ¬L.User p → m' p = m p) : KernelHalf L m' d := by
  intro i hi hlt hw
  rw [hd i hi] at hw ⊢
  obtain ⟨hu, hj⟩ := h i hi hlt hw
  refine ⟨hu, fun j hj' => ?_⟩
  rw [PhysMem.entry_congr (hkern _ hu)]
  exact hj j hj'

namespace Halved

theorem frame (h : Halved L dirs m)
    (hdir : ∀ e d, dirs e = some d → e < L.ndirs)
    (hf : Frame L dirs e m m') : Halved L dirs m' where
  boot := h.boot.congr (fun _ _ =>
    PhysMem.entry_congr (hf.kernel _ h.bootPage)) hf.kernel
  bootPage := h.bootPage
  dir e' d hd := by
    refine (h.dir e' d hd).congr (fun i hi => ?_) hf.kernel
    by_cases he : e' = e
    · exact hf.upper d (he ▸ hd) i hi
    · exact PhysMem.entry_congr
        (hf.other e' d he (nodeOf_dir (hdir e' d hd) hd))

/-- An address space is given up. -/
theorem drop (h : Halved L dirs m) :
    Halved L (Function.update dirs e none) m where
  boot := h.boot
  bootPage := h.bootPage
  dir e' d hd := by
    by_cases he : e' = e
    · rw [he, Function.update_self] at hd
      cases hd
    · rw [Function.update_of_ne he] at hd
      exact h.dir e' d hd

/-- A new page directory has the kernel half of `boot_pgdir`. -/
theorem newPgdir (h : Halved L dirs v.mem) (hb : v.bootPgdir = L.bootPgdir)
    (hdir : ∀ e d, dirs e = some d → e < L.ndirs) (hu : L.User d)
    (hfresh : ∀ k ∈ L.slots, target v.mem dirs k ≠ some d) :
    Halved L (Function.update dirs e (some d)) (Owned.newPgdir d v).mem := by
  have hkern : ∀ p, ¬L.User p → (Owned.newPgdir d v).mem p = v.mem p :=
    fun p hp =>
    Owned.initPgdir_of_ne fun hpd => hp (hpd ▸ hu)
  refine ⟨h.boot.congr (fun _ _ => PhysMem.entry_congr (hkern _ h.bootPage))
    hkern, h.bootPage,
    fun e' d' hd' => ?_⟩
  by_cases he : e' = e
  · rw [he, Function.update_self] at hd'
    obtain rfl := Option.some.inj hd'
    intro i hi hlt hw
    have halign : (page2pa d).toNat % PGSIZE = 0 := page2pa_aligned d
    have hentry : (Owned.newPgdir d v).mem.entry d i = if i = pdx UVPT then
        page2pa d ||| PTE_P ||| PTE_U
        else if i = pdx VPT then page2pa d ||| PTE_P ||| PTE_W
        else if i < pdxUTOP then 0 else v.mem.entry L.bootPgdir i :=
      Owned.initPgdir_entry hb hlt
    rw [hentry] at hw ⊢
    split at hw
    · refine absurd hw ?_
      rw [BitVec.or_assoc, BitVec.or_comm PTE_P, ← BitVec.or_assoc]
      exact not_userWritable_page halign (.inl rfl)
    split at hw
    · refine absurd hw ?_
      rw [BitVec.or_assoc, BitVec.or_comm PTE_P, ← BitVec.or_assoc]
      exact not_userWritable_page halign (.inr rfl)
    rw [if_neg (by omega)] at hw
    rename_i hu' hv'
    rw [if_neg hu', if_neg hv', if_neg (by omega)]
    obtain ⟨hno, hj⟩ := h.boot i hi hlt hw
    refine ⟨hno, fun j hj' => ?_⟩
    rw [PhysMem.entry_congr (hkern _ hno)]
    exact hj j hj'
  · rw [Function.update_of_ne he] at hd'
    refine (h.dir e' d' hd').congr (fun i _ =>
      PhysMem.entry_congr (Owned.initPgdir_of_ne fun hdd => ?_)) hkern
    exact hfresh (.dir e') (mem_slots.mpr (hdir e' d' hd')) (hdd ▸ hd')

end Halved

/-! ## New and freed address spaces -/

/-- The directory of one environment does not matter to the others. -/
theorem target_update {x : Option Nat} (hne : k.env ≠ e) :
    target m (Function.update dirs e x) k = target m dirs k := by
  have hupd : Function.update dirs e x k.env = dirs k.env :=
    Function.update_of_ne hne ..
  cases k with
  | dir e' => exact hupd
  | pde e' i => exact target_pde_congr hupd fun _ _ => rfl
  | pte e' i j => exact congrArg mapped (pteAt_congr hupd (fun _ _ => rfl)
      fun _ _ _ _ => rfl)

theorem pteAt_update {x : Option Nat} {e' : Nat} (hne : e' ≠ e) :
    pteAt m (Function.update dirs e x) e' i j = pteAt m dirs e' i j :=
  pteAt_congr (Function.update_of_ne hne ..) (fun _ _ => rfl) fun _ _ _ _ => rfl

theorem altered_newPgdir (hdir : ∀ e d, dirs e = some d → e < L.ndirs)
    (hu : L.User d) (hnone : dirs e = none)
    (hfresh : ∀ k ∈ L.slots, target v.mem dirs k ≠ some d) :
    Altered L mine W dirs
      (Function.update dirs e (some d)) v.mem (Owned.newPgdir d v).mem := by
  have hm : ∀ q, q ≠ d → (Owned.newPgdir d v).mem q = v.mem q :=
    fun q hq => Owned.initPgdir_of_ne hq
  have hne : ∀ {e'}, dirs e' ≠ none → e' ≠ e := fun hd heq => hd (heq ▸ hnone)
  constructor
  case kernel => exact fun p hp => hm p fun hpd => hp (hpd ▸ hu)
  case target =>
    intro k hk _ hd
    rw [Owned.target_newPgdir hnone hfresh hk, if_neg]
    rintro rfl
    exact hne hd rfl
  case pde =>
    exact fun e' d' i hd' _ => PhysMem.entry_congr (hm d' fun hdd =>
      hfresh (.dir e') (mem_slots.mpr (hdir e' d' hd')) (hdd ▸ hd'))
  case pte =>
    intro e' i j he' hi _ hd
    rw [pteAt_update (hne hd)]
    refine pteAt_of_ne he' hi fun q hq => hm q fun hqd => ?_
    obtain ⟨l, hl, -, -, hlq⟩ := hq
    exact hfresh l hl (hqd ▸ hlq)
  case data => exact fun k hk _ _ q hq => .inl (hm q fun hqd =>
    hfresh k hk (hqd ▸ hq))
  case apart =>
    rintro p ⟨l, hl, hlp⟩ _ k hk hkp
    rw [Owned.target_newPgdir hnone hfresh hk] at hkp
    split at hkp
    · exact absurd ((Option.some.inj hkp).symm ▸ hlp) (hfresh l hl)
    · exact hkp

/-- A new page directory is used once. -/
theorem Fits.newPgdir (hf : Fits L dirs v.mem) (hnone : dirs e = none)
    (hfresh : ∀ k ∈ L.slots, target v.mem dirs k ≠ some d) :
    Fits L (Function.update dirs e (some d)) (Owned.newPgdir d v).mem := by
  refine hf.fresh fun k hk q hkq => ?_
  rw [Owned.target_newPgdir hnone hfresh hk] at hkq
  split at hkq
  · rename_i hke
    refine .inr fun l hl hlq => ?_
    rw [Owned.target_newPgdir hnone hfresh hl] at hlq
    split at hlq
    · rename_i hle
      rw [hke, hle]
    · obtain rfl := Option.some.inj hkq
      exact absurd hlq (hfresh l hl)
  · exact .inl hkq

/-- Memory changed in directory `d` and the page tables that it had in `m₀`
only, and they lost entries. -/
structure Pruned (d : Nat) (m₀ m : PhysMem) : Prop where
  same : ∀ q, q ≠ d → (∀ i < pdxUTOP, m₀.link d i ≠ some q) → m q = m₀ q
  link : ∀ i < pdxUTOP, m.link d i = m₀.link d i ∨ m.link d i = none

namespace Pruned

variable {m₀ : PhysMem}

theorem refl : Pruned d m m := ⟨fun _ _ _ => rfl, fun _ _ => .inl rfl⟩

/-- A store to one of the page tables. -/
theorem setPte (h : Pruned d m₀ m) (hself : ∀ i < pdxUTOP, m₀.link d i ≠ some d)
    (hi : i < pdxUTOP)
    (hpt : m.link d i = some pt) : Pruned d m₀ (m.setEntry pt j w) := by
  have hold : m₀.link d i = some pt := by
    rcases h.link i hi with hsame | hnone
    · exact hsame.symm.trans hpt
    · cases hnone.symm.trans hpt
  constructor
  · intro q hq hno
    have hqp : q ≠ pt := fun hqp => hno i hi (hqp ▸ hold)
    rw [PhysMem.setEntry_of_ne hqp]
    exact h.same q hq hno
  · intro i' hi'
    have hdp : d ≠ pt := fun hdp =>
      hself i hi (hold.trans (congrArg some hdp.symm))
    rw [PhysMem.link_setEntry_ne (.inl hdp)]
    exact h.link i' hi'

/-- An entry of the directory is cleared. -/
theorem setPde (h : Pruned d m₀ m) : Pruned d m₀ (m.setEntry d i 0) := by
  constructor
  · intro q hq hno
    rw [PhysMem.setEntry_of_ne hq]
    exact h.same q hq hno
  · intro i' hi'
    by_cases hii : i' = i
    · rw [hii, PhysMem.link_setEntry_self, mapped_zero]
      exact .inr rfl
    · rw [PhysMem.link_setEntry_ne (.inr hii)]
      exact h.link i' hi'

end Pruned

/-- The entry pointer that `pgdir_walk` finds. -/
theorem pgdirWalk_ret {pte : Nat × Nat}
    (h : pgdirWalk d va false v = .ret (some pte) v') :
    v.mem.link d (pdx va) = some pte.1 := by
  unfold pgdirWalk at h
  rw [Prog.ask_bind] at h
  split at h
  · rename_i hp
    obtain ⟨q, _, hq, hret⟩ := Prog.bind_eq_ret.mp h
    cases hret
    unfold kaddr checkedPage at hq
    rw [Prog.ask_bind] at hq
    split at hq
    · cases hq
    · cases hq
      rw [ppn_pteAddr]
      exact mapped_of_present hp
  · cases h

theorem wp_pageRemove_pruned {m₀ : PhysMem} (h : Pruned d m₀ v.mem)
    (hself : ∀ i < pdxUTOP, m₀.link d i ≠ some d) (hi : pdx va < pdxUTOP) :
    Prog.wp (pageRemove d va) (fun _ v' => Pruned d m₀ v'.mem) (fun _ => True)
      (fun _ _ => True) v := by
  unfold pageRemove
  apply Prog.wp_bind_intro
  refine (pageLookup_reads ..).wp (fun r hr => ?_) fun _ _ => trivial
  rcases r with ⟨_ | pp, _ | pte⟩
  · exact Prog.wp_pure_intro h
  · exact Prog.wp_halt_intro trivial
  · exact Prog.wp_pure_intro h
  · -- the entry is that of a page table
    unfold pageLookup at hr
    obtain ⟨x, u, hx, hr⟩ := Prog.bind_eq_ret.mp hr
    obtain rfl := (pgdirWalk_reads ..).ret_state hx
    cases x with
    | none => cases hr
    | some pte' =>
        dsimp only at hr
        rw [Prog.ask_bind] at hr
        split at hr
        · obtain ⟨q, _, -, hr⟩ := Prog.bind_eq_ret.mp hr
          cases hr
          have hpt := pgdirWalk_ret hx
          apply Prog.wp_bind_intro
          refine Prog.wp_ret pageDecref_apply (Prog.wp_update_intro ?_)
          exact h.setPte hself hi hpt
        · cases hr

/-- `env_free` stores to the directory and its page tables only. -/
theorem wp_freeUserPages_pruned
    (hself : ∀ i < pdxUTOP, v.mem.link d i ≠ some d) :
    Prog.wp (freeUserPages d) (fun _ v' => Pruned d v.mem v'.mem)
      (fun _ => True) (fun _ _ => True) v := by
  refine Prog.wp_imp (Prog.wp_forUp (fun _ v' => Pruned d v.mem v'.mem) .refl
    ?_) (fun _ _ h => h)
    (fun _ h => h) fun _ _ h => h
  intro i u hi h
  apply Prog.wp_ask_bind
  refine Prog.wp_ite _ (fun _ => ?_) fun _ => Prog.wp_pure_intro h
  apply Prog.wp_bind_intro
  refine (kaddr_reads _).wp (fun pt _ => ?_) fun _ _ => trivial
  apply Prog.wp_bind_intro
  refine Prog.wp_imp (Prog.wp_forUp (fun _ v' => Pruned d v.mem v'.mem) h ?_) ?_
    (fun _ h => h) fun _ _ h => h
  · intro j u' hj h'
    apply Prog.wp_ask_bind
    refine Prog.wp_ite _ (fun _ => ?_) fun _ => Prog.wp_pure_intro h'
    refine wp_pageRemove_pruned h' hself ?_
    rw [pdxUTOP_eq] at hi
    rw [pdx_pgaddr (by omega) hj, pdxUTOP_eq]
    exact hi
  · intro _ u' h'
    apply Prog.wp_bind_intro
    refine Prog.wp_update_intro ?_
    apply Prog.wp_bind_intro
    refine (pa2page_reads _).wp (fun pp _ => ?_) fun _ _ => trivial
    exact Prog.wp_ret pageDecref_apply h'.setPde

theorem wp_freeVm_pruned (w : Word)
    (hself : ∀ i < pdxUTOP, v.mem.link d i ≠ some d) :
    Prog.wp (freeVm d w) (fun _ v' => Pruned d v.mem v'.mem) (fun _ => True)
      (fun _ _ => True) v := by
  unfold freeVm
  apply Prog.wp_bind_intro
  refine Prog.wp_imp (wp_freeUserPages_pruned hself) (fun _ u hu => ?_)
    (fun _ h => h) fun _ _ h => h
  apply Prog.wp_bind_intro
  refine (pa2page_reads _).wp (fun pp _ => ?_) fun _ _ => trivial
  exact Prog.wp_ret pageDecref_apply hu

/-- What other environments map keeps its contents when an address space is
freed. -/
theorem altered_freeVm (h : Owned L dirs out v) (hd : dirs e = some d)
    (hmine : mine e)
    (hret : freeVm d w v = .ret () v') (hf : Frame L dirs e v.mem v'.mem) :
    Altered L mine W dirs (Function.update dirs e none) v.mem v'.mem := by
  have he := h.dir_lt e d hd
  have hself : ∀ i < pdxUTOP, v.mem.link d i ≠ some d := fun i hi hl =>
    h.tree.dir_ne_table he hi hd hl he hd rfl
  have hpruned := (wp_freeVm_pruned w hself).ret hret
  have hne : ∀ {e'}, ¬mine e' → e' ≠ e := fun hno heq => hno (heq ▸ hmine)
  constructor
  case kernel => exact hf.kernel
  case target =>
    intro k hk hno _
    rw [target_update (hne hno)]
    exact hf.target_eq hk (hne hno)
  case pde =>
    exact fun e' d' i hd' hno =>
      PhysMem.entry_congr (hf.other e' d' (hne hno)
        (nodeOf_dir (h.dir_lt e' d' hd') hd'))
  case pte =>
    intro e' i j he' hi hno _
    rw [pteAt_update (hne hno)]
    exact pteAt_of_ne he' hi fun q hq => hf.other e' q (hne hno) hq
  case data =>
    intro k hk hn _ q hq
    have hnode := h.tree.not_nodeOf hk hn hq e
    refine .inl (hpruned.same q (fun hqd => hnode (hqd ▸ nodeOf_dir he hd))
      fun i hi hl => ?_)
    exact hnode (nodeOf_pde he hi hd hl)
  case apart =>
    rintro p - - k hk hkp
    have hke : k.env ≠ e := by
      rintro rfl
      have hlive := dirs_ne_none_of_target hkp
      rw [Function.update_self] at hlive
      exact hlive rfl
    rw [target_update hke] at hkp
    exact (hf.target_eq hk hke).symm.trans hkp

end

end Jos
