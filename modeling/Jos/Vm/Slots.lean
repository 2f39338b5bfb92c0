import Mathlib.Order.Interval.Finset.Nat
import Jos.Lib.Count
import Jos.Kern.Pmap

/-!
# References to pages

The two-level page tables of all environments as a set of slots that refer to
pages: the page directory of each live environment, its directory entries
below `UTOP`, and the entries of the page tables these use. `Tree` says that a
page used as a directory or as a page table is referred to only once, so
that a store to one entry changes one slot; the `target_*` lemmas say which.
-/

namespace Jos

/-- The page a page-table entry refers to. -/
def mapped (pte : Word) : Option Nat :=
  if present pte then some (ppn pte) else none

theorem mapped_of_present {w : Word} (h : present w) :
    mapped w = some (ppn w) := if_pos h

theorem mapped_of_absent {w : Word} (h : ¬present w) :
    mapped w = none := if_neg h

theorem mapped_eq_some {w : Word} {p : Nat} :
    mapped w = some p ↔ present w ∧ ppn w = p := by
  unfold mapped
  by_cases h : present w <;> simp [h]

theorem mapped_eq_none {w : Word} : mapped w = none ↔ ¬present w := by
  unfold mapped
  by_cases h : present w <;> simp [h]

@[simp] theorem mapped_zero : mapped 0 = none := by decide

/-- The entry `page_insert` and `pgdir_walk` store refers to the page. -/
theorem mapped_page2pa {p : Nat} {flags : Word} (hp : p < 2 ^ 20)
    (hf : flags < 0x1000#32) :
    mapped (page2pa p ||| flags ||| PTE_P) = some p := by
  rw [mapped_of_present (present_or_P _), BitVec.or_assoc,
    ppn_page2pa_or hp (or_P_lt hf)]

/-- The page that entry `i` of the table in page `p` refers to. -/
def PhysMem.link (m : PhysMem) (p i : Nat) : Option Nat := mapped (m.entry p i)

section Link

variable {m m' : PhysMem} {p q i j : Nat} {w : Word}

theorem PhysMem.link_congr (h : m' p = m p) : m'.link p i = m.link p i := by
  rw [PhysMem.link, PhysMem.entry_congr h, PhysMem.link]

@[simp] theorem PhysMem.link_setEntry_self :
    (m.setEntry p i w).link p i = mapped w := by
  rw [PhysMem.link, PhysMem.entry_setEntry_self]

theorem PhysMem.link_setEntry_ne (h : q ≠ p ∨ j ≠ i) :
    (m.setEntry p i w).link q j = m.link q j := by
  rw [PhysMem.link, PhysMem.entry_setEntry_ne h, PhysMem.link]

end Link

/-- The page-table entry of environment `e` at directory index `i` and table
index `j`, 0 when there is no table; `dirs` gives the page directories of the
live environments. -/
def pteAt (m : PhysMem) (dirs : Nat → Option Nat) (e i j : Nat) : Word :=
  match (dirs e).bind fun d => m.link d i with
  | none => 0
  | some pt => m.entry pt j

/-! ## Slots -/

/-- A place that can refer to a page: the directory of environment `e`, its
entry `i`, or entry `j` of the table that entry `i` refers to. -/
inductive Slot where
  | dir (e : Nat)
  | pde (e i : Nat)
  | pte (e i j : Nat)
deriving DecidableEq

namespace Slot

/-- The environment a slot belongs to. -/
def env : Slot → Nat
  | dir e => e
  | pde e _ => e
  | pte e _ _ => e

/-- What the slot refers to is a page directory or a page table. -/
def Node : Slot → Prop
  | dir _ => True
  | pde _ _ => True
  | pte _ _ _ => False

theorem not_node {e i j : Nat} : ¬(pte e i j).Node := id

instance : DecidablePred Node
  | dir _ => .isTrue trivial
  | pde _ _ => .isTrue trivial
  | pte _ _ _ => .isFalse id

/-- The slots there are with `n` environments. -/
def Valid (n : Nat) : Slot → Prop
  | dir e => e < n
  | pde e i => e < n ∧ i < pdxUTOP
  | pte e i j => e < n ∧ i < pdxUTOP ∧ j < NPTENTRIES

/-- What a slot refers to. -/
def target (m : PhysMem) (dirs : Nat → Option Nat) : Slot → Option Nat
  | dir e => dirs e
  | pde e i => (dirs e).bind fun d => m.link d i
  | pte e i j => mapped (pteAt m dirs e i j)

end Slot

open Slot (target)

/-- All slots of `n` environments. -/
def slots (n : Nat) : Finset Slot :=
  (Finset.range n).biUnion fun e => insert (.dir e)
    ((Finset.range pdxUTOP).biUnion fun i => insert (.pde e i)
      ((Finset.range NPTENTRIES).image (.pte e i)))

theorem mem_slots {n : Nat} {k : Slot} : k ∈ slots n ↔ k.Valid n := by
  cases k with
  | dir e => simp [slots, Slot.Valid]
  | pde e i => simp [slots, Slot.Valid]
  | pte e i j => simp [slots, Slot.Valid]

-- Otherwise unification would list the slots.
attribute [irreducible] slots

/-- The number of references to page `p`: the page directories of live
environments that it is, and the present entries below `UTOP` that refer to
it. -/
def pageRefs (n : Nat) (m : PhysMem) (dirs : Nat → Option Nat)
    (p : Nat) : Nat :=
  refCount (slots n) (target m dirs) p

/-- The number of page-table entries that map page `p`. -/
def mapCount (n : Nat) (m : PhysMem) (dirs : Nat → Option Nat)
    (p : Nat) : Nat :=
  refCount ((slots n).filter fun k => ¬k.Node) (target m dirs) p

section Target

variable {m m' : PhysMem} {dirs dirs' : Nat → Option Nat} {d e i j p q pt : Nat}
  {w : Word}
  {n : Nat} {k : Slot}

theorem target_pde (hd : dirs e = some d) :
    target m dirs (.pde e i) = m.link d i := by
  simp [target, hd]

theorem pteAt_table (hd : dirs e = some d) (hpt : m.link d i = some pt) :
    pteAt m dirs e i j = m.entry pt j := by
  simp [pteAt, hd, hpt]

theorem pteAt_noTable (hd : dirs e = some d) (hpt : m.link d i = none) :
    pteAt m dirs e i j = 0 := by
  simp [pteAt, hd, hpt]

theorem pteAt_noDir (hd : dirs e = none) : pteAt m dirs e i j = 0 := by
  simp [pteAt, hd]

theorem target_pte (hd : dirs e = some d) (hpt : m.link d i = some pt) :
    target m dirs (.pte e i j) = m.link pt j :=
  congrArg mapped (pteAt_table hd hpt)

theorem target_pte_none (hd : dirs e = some d) (hpt : m.link d i = none) :
    target m dirs (.pte e i j) = none := by
  rw [target, pteAt_noTable hd hpt, mapped_zero]

theorem target_pde_congr (hdir : dirs' e = dirs e)
    (h : ∀ d, dirs e = some d → m'.link d i = m.link d i) :
    target m' dirs' (.pde e i) = target m dirs (.pde e i) := by
  simp only [target]
  rw [hdir]
  cases hd : dirs e with
  | none => rfl
  | some d => exact h d hd

/-- Without page directories nothing is referred to. -/
theorem target_none (k : Slot) : target m (fun _ => none) k = none := by
  cases k with
  | dir e => rfl
  | pde e i => rfl
  | pte e i j => exact mapped_zero

theorem pteAt_congr (hdir : dirs' e = dirs e)
    (h : ∀ d, dirs e = some d → m'.link d i = m.link d i)
    (hpt : ∀ d pt, dirs e = some d → m.link d i = some pt →
      m'.entry pt j = m.entry pt j) :
    pteAt m' dirs' e i j = pteAt m dirs e i j := by
  cases hd : dirs e with
  | none => rw [pteAt_noDir hd, pteAt_noDir (hdir.trans hd)]
  | some d =>
      cases hl : m.link d i with
      | none => rw [pteAt_noTable hd hl,
          pteAt_noTable (hdir.trans hd) ((h d hd).trans hl)]
      | some pt =>
          rw [pteAt_table hd hl, pteAt_table (hdir.trans hd)
            ((h d hd).trans hl), hpt d pt hd hl]

end Target

/-! ## Directories and tables are referred to once -/

/-- What the allocator manages: the number of pages and of environments, the
kernel's page directory, the pages that were put on the free list, and how many
references the kernel holds to each for good. -/
structure Layout where
  npage : Nat
  ndirs : Nat
  bootPgdir : Nat
  managed : Nat → Prop
  hold : Nat → Nat
  npage_le : npage ≤ 2 ^ 20
  managed_lt : ∀ p, managed p → p < npage

/-- The slots of all environments. -/
abbrev Layout.slots (L : Layout) : Finset Slot := Jos.slots L.ndirs

/-- A page that is free or in use by environments. -/
def Layout.User (L : Layout) (p : Nat) : Prop := L.managed p ∧ L.hold p = 0

/-- Slots refer to pages for users, and a page directory or page table is
referred to once. -/
structure Tree (L : Layout) (tgt : Slot → Option Nat) : Prop where
  user : ∀ k ∈ L.slots, ∀ p, tgt k = some p → L.User p
  node : ∀ k ∈ L.slots, ∀ l ∈ L.slots, ∀ p, k.Node → tgt k = some p →
    tgt l = some p → l = k

section TreeUpdate

variable {L : Layout} {tgt tgt' : Slot → Option Nat} {k : Slot} {p : Nat}

theorem Tree.congr (h : Tree L tgt) (heq : ∀ k ∈ L.slots, tgt' k = tgt k) :
    Tree L tgt' where
  user k hk p hp := h.user k hk p (heq k hk ▸ hp)
  node k hk l hl p hn hp hp' :=
    h.node k hk l hl p hn (heq k hk ▸ hp) (heq l hl ▸ hp')

/-- A slot comes to refer to `p`, which is not a directory or table, and is not
referred to otherwise if it becomes one. -/
theorem Tree.install (h : Tree L tgt) (hself : tgt' k = some p)
    (hag : ∀ l ∈ L.slots, l ≠ k → tgt' l = tgt l) (hp : L.User p)
    (hfresh : ∀ l ∈ L.slots, tgt l = some p → ¬k.Node ∧ ¬l.Node) :
    Tree L tgt' := by
  constructor
  · intro l hl q hq
    by_cases hlk : l = k
    · rw [hlk, hself] at hq
      exact Option.some.inj hq ▸ hp
    · exact h.user l hl q (hag l hl hlk ▸ hq)
  · intro l hl l' hl' q hn hq hq'
    by_cases hlk : l = k
    · subst hlk
      by_contra hne
      obtain rfl : p = q := Option.some.inj (hself.symm.trans hq)
      exact (hfresh l' hl' (hag l' hl' hne ▸ hq')).1 hn
    · rw [hag l hl hlk] at hq
      by_cases hlk' : l' = k
      · subst hlk'
        obtain rfl : p = q := Option.some.inj (hself.symm.trans hq')
        exact absurd hn (hfresh l hl hq).2
      · exact h.node l hl l' hl' q hn hq (hag l' hl' hlk' ▸ hq')

/-- A slot is cleared. -/
theorem Tree.clear (h : Tree L tgt) (hself : tgt' k = none)
    (hag : ∀ l ∈ L.slots, l ≠ k → tgt' l = tgt l) : Tree L tgt' := by
  have hsub : ∀ l ∈ L.slots, ∀ q, tgt' l = some q → tgt l = some q := by
    intro l hl q hq
    by_cases hlk : l = k
    · rw [hlk, hself] at hq
      cases hq
    · exact hag l hl hlk ▸ hq
  exact ⟨fun l hl q hq => h.user l hl q (hsub l hl q hq),
    fun l hl l' hl' q hn hq hq' =>
    h.node l hl l' hl' q hn (hsub l hl q hq) (hsub l' hl' q hq')⟩

end TreeUpdate

/-! ## What a store changes -/

section Store

variable {L : Layout} {m : PhysMem} {dirs : Nat → Option Nat}
  {d e i j p q pt : Nat} {w : Word}
  {k : Slot}

/-- A directory or table of environment `e` is in page `p`. -/
def NodeOf (L : Layout) (m : PhysMem) (dirs : Nat → Option Nat)
    (e p : Nat) : Prop :=
  ∃ k ∈ L.slots, k.Node ∧ k.env = e ∧ target m dirs k = some p

theorem nodeOf_dir (he : e < L.ndirs) (hd : dirs e = some d) :
    NodeOf L m dirs e d :=
  ⟨.dir e, mem_slots.mpr he, trivial, rfl, hd⟩

theorem nodeOf_pde (he : e < L.ndirs) (hi : i < pdxUTOP) (hd : dirs e = some d)
    (hpt : m.link d i = some pt) : NodeOf L m dirs e pt :=
  ⟨.pde e i, mem_slots.mpr ⟨he, hi⟩, trivial, rfl, (target_pde hd).trans hpt⟩

/-- The directories and tables of two environments are different pages. -/
theorem Tree.nodeOf_inj (ht : Tree L (target m dirs)) {e' : Nat}
    (h : NodeOf L m dirs e p)
    (h' : NodeOf L m dirs e' p) : e = e' := by
  obtain ⟨k, hk, hn, rfl, hp⟩ := h
  obtain ⟨k', hk', -, rfl, hp'⟩ := h'
  rw [ht.node k hk k' hk' p hn hp hp']

theorem Tree.user_of_nodeOf (ht : Tree L (target m dirs))
    (h : NodeOf L m dirs e p) :
    L.User p := by
  obtain ⟨k, hk, -, -, hp⟩ := h
  exact ht.user k hk p hp

/-- Directories and tables are in different pages. -/
theorem Tree.dir_ne_table (ht : Tree L (target m dirs)) {e' d' : Nat}
    (he : e < L.ndirs)
    (hi : i < pdxUTOP) (hd : dirs e = some d) (hpt : m.link d i = some pt)
    (he' : e' < L.ndirs)
    (hd' : dirs e' = some d') : d' ≠ pt := by
  rintro rfl
  cases ht.node (.pde e i) (mem_slots.mpr ⟨he, hi⟩) (.dir e')
    (mem_slots.mpr he') d' trivial
    ((target_pde hd).trans hpt) hd'

/-- Two directories in one page are one. -/
theorem Tree.dir_inj (ht : Tree L (target m dirs)) {e' : Nat} (he : e < L.ndirs)
    (hd : dirs e = some d) (he' : e' < L.ndirs) (hd' : dirs e' = some d) :
    e' = e := by
  cases ht.node (.dir e) (mem_slots.mpr he) (.dir e')
    (mem_slots.mpr he') d trivial hd hd'
  rfl

/-- Two page tables in one page are one. -/
theorem Tree.table_inj (ht : Tree L (target m dirs)) {e' d' i' : Nat}
    (he : e < L.ndirs)
    (hi : i < pdxUTOP) (hd : dirs e = some d) (hpt : m.link d i = some pt)
    (he' : e' < L.ndirs)
    (hi' : i' < pdxUTOP) (hd' : dirs e' = some d')
    (hpt' : m.link d' i' = some pt) :
    e' = e ∧ i' = i := by
  cases ht.node (.pde e i) (mem_slots.mpr ⟨he, hi⟩) (.pde e' i')
    (mem_slots.mpr ⟨he', hi'⟩) pt
    trivial ((target_pde hd).trans hpt) ((target_pde hd').trans hpt')
  exact ⟨rfl, rfl⟩

/-- A change of pages that are no directory and no page table of `e`. -/
theorem pteAt_of_ne {m' : PhysMem} (he : e < L.ndirs) (hi : i < pdxUTOP)
    (h : ∀ p, NodeOf L m dirs e p → m' p = m p) :
    pteAt m' dirs e i j = pteAt m dirs e i j :=
  pteAt_congr rfl (fun d hd => PhysMem.link_congr (h d (nodeOf_dir he hd)))
    fun _ pt hd hpt => PhysMem.entry_congr (h pt (nodeOf_pde he hi hd hpt))

theorem target_of_ne {m' : PhysMem} (hk : k ∈ L.slots)
    (h : ∀ p, NodeOf L m dirs k.env p → m' p = m p) :
    target m' dirs k = target m dirs k := by
  rw [mem_slots] at hk
  cases k with
  | dir e => rfl
  | pde e i =>
      exact target_pde_congr rfl fun d hd =>
        PhysMem.link_congr (h d (nodeOf_dir hk.1 hd))
  | pte e i j => exact congrArg mapped (pteAt_of_ne hk.1 hk.2.1 h)

section SetPte

variable (ht : Tree L (target m dirs)) (he : e < L.ndirs) (hi : i < pdxUTOP)
  (hd : dirs e = some d) (hpt : m.link d i = some pt)
include ht he hi hd hpt

/-- A store to a page table changes no directory. -/
theorem link_setPte {e' d' i' : Nat} (he' : e' < L.ndirs)
    (hd' : dirs e' = some d') :
    (m.setEntry pt j w).link d' i' = m.link d' i' :=
  PhysMem.link_setEntry_ne (.inl (ht.dir_ne_table he hi hd hpt he' hd'))

/-- A store to entry `j` of the page table at directory entry `i` of `e`. -/
theorem pteAt_setPte {e' i' j' : Nat} (he' : e' < L.ndirs)
    (hi' : i' < pdxUTOP) :
    pteAt (m.setEntry pt j w) dirs e' i' j'
      = if e' = e ∧ i' = i ∧ j' = j then w else pteAt m dirs e' i' j' := by
  by_cases hself : e' = e ∧ i' = i ∧ j' = j
  · obtain ⟨rfl, rfl, rfl⟩ := hself
    rw [if_pos ⟨rfl, rfl, rfl⟩,
      pteAt_table hd ((link_setPte ht he hi hd hpt he hd).trans hpt),
      PhysMem.entry_setEntry_self]
  · rw [if_neg hself]
    refine pteAt_congr rfl (fun d' hd' => link_setPte ht he hi hd hpt he' hd')
      fun d' pt' hd' hpt' => ?_
    by_cases hp : pt' = pt
    · subst hp
      obtain ⟨rfl, rfl⟩ := ht.table_inj he hi hd hpt he' hi' hd' hpt'
      exact PhysMem.entry_setEntry_ne (.inr fun hj => hself ⟨rfl, rfl, hj⟩)
    · exact PhysMem.entry_setEntry_ne (.inl hp)

theorem target_setPte (hk : k ∈ L.slots) :
    target (m.setEntry pt j w) dirs k
      = if k = .pte e i j then mapped w else target m dirs k := by
  rw [mem_slots] at hk
  cases k with
  | dir e' => rfl
  | pde e' i' =>
      exact target_pde_congr rfl fun d' hd' =>
        link_setPte ht he hi hd hpt hk.1 hd'
  | pte e' i' j' =>
      simp only [target, pteAt_setPte ht he hi hd hpt hk.1 hk.2.1,
        Slot.pte.injEq]
      split <;> rfl

end SetPte

section SetPde

variable (ht : Tree L (target m dirs)) (he : e < L.ndirs) (hd : dirs e = some d)
include ht he hd

/-- A store to directory entry `i` of `e` does not affect other directory
entries. -/
theorem link_setPde {e' d' i' : Nat} (he' : e' < L.ndirs)
    (hd' : dirs e' = some d')
    (hne : e' = e → i' ≠ i) : (m.setEntry d i w).link d' i' = m.link d' i' := by
  by_cases hdd : d' = d
  · subst hdd
    exact PhysMem.link_setEntry_ne (.inr (hne (ht.dir_inj he hd he' hd')))
  · exact PhysMem.link_setEntry_ne (.inl hdd)

theorem pteAt_setPde {e' i' j : Nat} (he' : e' < L.ndirs) (hi' : i' < pdxUTOP)
    (hne : e' = e → i' ≠ i) :
    pteAt (m.setEntry d i w) dirs e' i' j = pteAt m dirs e' i' j :=
  pteAt_congr rfl (fun _ hd' => link_setPde ht he hd he' hd' hne)
    fun _ _ hd' hpt' =>
    PhysMem.entry_setEntry_ne
      (.inl (ht.dir_ne_table he' hi' hd' hpt' he hd).symm)

theorem target_setPde (hk : k ∈ L.slots) (hpde : k ≠ .pde e i)
    (hpte : ∀ j, k ≠ .pte e i j) :
    target (m.setEntry d i w) dirs k = target m dirs k := by
  rw [mem_slots] at hk
  cases k with
  | dir e' => rfl
  | pde e' i' =>
      exact target_pde_congr rfl fun d' hd' =>
        link_setPde ht he hd hk.1 hd' fun he' hi' => hpde (he' ▸ hi' ▸ rfl)
  | pte e' i' j' =>
      exact congrArg mapped (pteAt_setPde ht he hd hk.1 hk.2.1
        fun he' hi' => hpte j' (he' ▸ hi' ▸ rfl))

end SetPde

section AddTable

variable (ht : Tree L (target m dirs)) (he : e < L.ndirs) (hd : dirs e = some d)
  (hnone : m.link d i = none) (hw : mapped w = some pt)
  (hfresh : ∀ k ∈ L.slots, target m dirs k ≠ some pt)
include ht he hd hnone hw hfresh

/-- A directory entry comes to refer to a new page table, with no entries. -/
theorem pteAt_addTable {e' i' j : Nat} (he' : e' < L.ndirs) (hi' : i' < pdxUTOP)
    (hj : j < NPTENTRIES) :
    pteAt ((m.zeroPage pt).setEntry d i w) dirs e' i' j =
      pteAt m dirs e' i' j := by
  have hdpt : d ≠ pt := fun h => hfresh (.dir e) (mem_slots.mpr he) (h ▸ hd)
  have hzero : ∀ e p, NodeOf L m dirs e p → m.zeroPage pt p = m p := by
    rintro e p ⟨l, hl, -, -, hp⟩
    refine PhysMem.zeroPage_of_ne ?_
    rintro rfl
    exact hfresh l hl hp
  by_cases hself : e' = e ∧ i' = i
  · obtain ⟨rfl, rfl⟩ := hself
    rw [pteAt_table hd (PhysMem.link_setEntry_self.trans hw),
      PhysMem.entry_setEntry_ne (.inl hdpt.symm),
      PhysMem.entry_zeroPage_self hj,
      pteAt_noTable hd hnone]
    rfl
  · rw [pteAt_setPde (ht.congr fun l hl => target_of_ne hl (hzero l.env)) he
      hd he' hi'
      fun h h' => hself ⟨h, h'⟩]
    exact pteAt_of_ne he' hi' (hzero e')

theorem target_addTable (hk : k ∈ L.slots) :
    target ((m.zeroPage pt).setEntry d i w) dirs k
      = if k = .pde e i then some pt else target m dirs k := by
  have hzero : ∀ l ∈ L.slots, target (m.zeroPage pt) dirs l =
      target m dirs l := by
    refine fun l hl => target_of_ne hl fun p hp => PhysMem.zeroPage_of_ne ?_
    rintro rfl
    obtain ⟨l', hl', -, -, h⟩ := hp
    exact hfresh l' hl' h
  by_cases hpde : k = .pde e i
  · rw [if_pos hpde, hpde, target_pde hd, PhysMem.link_setEntry_self, hw]
  rw [if_neg hpde]
  have hk' := mem_slots.mp hk
  cases k with
  | dir e' => rfl
  | pde e' i' =>
      rw [target_setPde (ht.congr hzero) he hd hk hpde (fun j hj => nomatch hj)]
      exact hzero _ hk
  | pte e' i' j =>
      exact congrArg mapped (pteAt_addTable ht he hd hnone hw hfresh hk'.1
        hk'.2.1 hk'.2.2)

end AddTable

/-- A directory entry for an empty page table is cleared. -/
theorem target_dropTable (ht : Tree L (target m dirs)) (he : e < L.ndirs)
    (hd : dirs e = some d) (hpt : m.link d i = some pt)
    (hempty : ∀ j < NPTENTRIES, m.link pt j = none) (hk : k ∈ L.slots) :
    target (m.setEntry d i 0) dirs k = if k = .pde e i then none else
    target m dirs k := by
  have hlink : (m.setEntry d i 0).link d i = none := by
    rw [PhysMem.link_setEntry_self, mapped_zero]
  by_cases hpde : k = .pde e i
  · rw [if_pos hpde, hpde, target_pde hd, hlink]
  rw [if_neg hpde]
  by_cases hpte : ∃ j, k = .pte e i j
  · obtain ⟨j, rfl⟩ := hpte
    rw [target_pte_none hd hlink, target_pte hd hpt,
      hempty j (mem_slots.mp hk).2.2]
  · exact target_setPde ht he hd hk hpde fun j hj => hpte ⟨j, hj⟩

/-- An environment gets a page directory with nothing below `UTOP`. -/
theorem target_addDir {m' : PhysMem} (hm : ∀ q, q ≠ d → m' q = m q)
    (hempty : ∀ i < pdxUTOP, m'.link d i = none)
    (hfresh : ∀ k ∈ L.slots, target m dirs k ≠ some d) (hnone : dirs e = none)
    (hk : k ∈ L.slots) :
    target m' (Function.update dirs e (some d)) k
      = if k = .dir e then some d else target m dirs k := by
  have hself : Function.update dirs e (some d) e = some d :=
    Function.update_self ..
  have hother : k.env ≠ e → target m' (Function.update dirs e (some d)) k =
      target m dirs k := by
    intro hke
    have h : target m' dirs k = target m dirs k := target_of_ne hk fun p hp =>
      hm p fun hpd => by
      obtain ⟨l, hl, -, -, h⟩ := hp
      exact hfresh l hl (hpd ▸ h)
    rw [← h]
    have hupd : Function.update dirs e (some d) k.env = dirs k.env :=
      Function.update_of_ne hke ..
    cases k with
    | dir e' => exact hupd
    | pde e' i => exact target_pde_congr hupd fun _ _ => rfl
    | pte e' i j =>
        exact congrArg mapped (pteAt_congr hupd (fun _ _ => rfl)
          fun _ _ _ _ => rfl)
  by_cases hke : k.env = e
  · rw [mem_slots] at hk
    cases k with
    | dir e' =>
        obtain rfl : e' = e := hke
        rw [if_pos rfl]
        exact hself
    | pde e' i =>
        obtain rfl : e' = e := hke
        rw [if_neg nofun, target_pde hself, hempty i hk.2]
        simp [target, hnone]
    | pte e' i j =>
        obtain rfl : e' = e := hke
        rw [if_neg nofun, target_pte_none hself (hempty i hk.2.1), target,
          pteAt_noDir hnone,
          mapped_zero]
  · rw [hother hke, if_neg fun h => hke (by rw [h]; rfl)]

/-- An environment loses a page directory with nothing below `UTOP`. -/
theorem target_dropDir (hd : dirs e = some d)
    (hempty : ∀ i < pdxUTOP, m.link d i = none)
    (hk : k ∈ L.slots) :
    target m (Function.update dirs e none) k = if k = .dir e then none else
    target m dirs k := by
  have hself : Function.update dirs e none e = none := Function.update_self ..
  by_cases hke : k.env = e
  · rw [mem_slots] at hk
    cases k with
    | dir e' =>
        obtain rfl : e' = e := hke
        rw [if_pos rfl]
        exact hself
    | pde e' i =>
        obtain rfl : e' = e := hke
        rw [if_neg nofun, target_pde hd, hempty i hk.2]
        simp [target]
    | pte e' i j =>
        obtain rfl : e' = e := hke
        rw [if_neg nofun, target_pte_none hd (hempty i hk.2.1), target,
          pteAt_noDir hself,
          mapped_zero]
  · have hupd : Function.update dirs e none k.env = dirs k.env :=
      Function.update_of_ne hke ..
    rw [if_neg fun h => hke (by rw [h]; rfl)]
    cases k with
    | dir e' => exact hupd
    | pde e' i => exact target_pde_congr hupd fun _ _ => rfl
    | pte e' i j =>
        exact congrArg mapped (pteAt_congr hupd (fun _ _ => rfl)
          fun _ _ _ _ => rfl)

end Store

end Jos
