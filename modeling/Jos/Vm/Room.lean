import Jos.Vm.Space

/-!
# Free pages

How many pages are free, as a lower bound that survives the operations of fork:
mapping a page into another address space uses no page, except for one page
table where there is none. An address space has at most `pdxUTOP` page tables,
so with that many free pages all its pages can be mapped into a new one.
-/

namespace Jos

open Slot (target)

/-- At least `n` pages for users are not referred to. -/
def FreeAtLeast (L : Layout) (dirs : Nat → Option Nat) (m : PhysMem)
    (n : Nat) : Prop :=
  ∃ ps : Finset Nat, n ≤ ps.card ∧ ∀ p ∈ ps, L.User p ∧ ∀ k ∈ L.slots,
    target m dirs k ≠ some p

/-- The page tables of directory `d`. -/
def tables (m : PhysMem) (d : Nat) : Finset Nat :=
  (Finset.range pdxUTOP).filter fun i => m.link d i ≠ none

/-- There are `n` free pages, not counting those that already serve as page
tables of `d`. -/
def Spare (L : Layout) (dirs : Nat → Option Nat) (m : PhysMem)
    (d n : Nat) : Prop :=
  ∃ k, FreeAtLeast L dirs m k ∧ n ≤ k + (tables m d).card

section

variable {L : Layout} {dirs dirs' : Nat → Option Nat} {out : List Nat}
  {v v' : Vm} {m m' : PhysMem}
  {e d i n k p q pp : Nat} {va perm w : Word}

theorem FreeAtLeast.mono (h : FreeAtLeast L dirs m n) (hk : k ≤ n) :
    FreeAtLeast L dirs m k := by
  obtain ⟨ps, hn, hps⟩ := h
  exact ⟨ps, Nat.le_trans hk hn, hps⟩

/-- No page but those in `qs` becomes used. -/
theorem FreeAtLeast.take (qs : Finset Nat)
    (h : FreeAtLeast L dirs m (n + qs.card))
    (hused : ∀ l ∈ L.slots, ∀ p, target m' dirs' l = some p → p ∉ qs →
      ∃ l' ∈ L.slots, target m dirs l' = some p) :
      FreeAtLeast L dirs' m' n := by
  obtain ⟨ps, hn, hps⟩ := h
  refine ⟨ps \ qs, ?_, fun p hp => ?_⟩
  · have := Finset.le_card_sdiff qs ps
    omega
  · obtain ⟨hmem, hne⟩ := Finset.mem_sdiff.mp hp
    refine ⟨(hps p hmem).1, fun l hl hlp => ?_⟩
    obtain ⟨l', hl', h'⟩ := hused l hl p hlp hne
    exact (hps p hmem).2 l' hl' h'

/-- No page becomes used. -/
theorem FreeAtLeast.keep (h : FreeAtLeast L dirs m n)
    (hused : ∀ l ∈ L.slots, ∀ p, target m' dirs' l = some p →
      ∃ l' ∈ L.slots, target m dirs l' = some p) : FreeAtLeast L dirs' m' n :=
  h.take ∅ fun l hl p hp _ => hused l hl p hp

/-- Free pages are on the free list. -/
theorem Owned.first_of_free (h : Owned L dirs [] v)
    (hfree : FreeAtLeast L dirs v.mem (n + 1)) :
    v.pageFreeList.first ≠ none := by
  obtain ⟨ps, hn, hps⟩ := hfree
  obtain ⟨p, hp⟩ := Finset.card_pos.mp (show 0 < ps.card by omega)
  obtain ⟨xs, hrep, -, hc⟩ := h.pool
  have hzero : refCount L.slots (target v.mem dirs) p = 0 :=
    refCount_eq_zero.mpr (hps p hp).2
  have hx : p ∈ xs :=
    (hc.free_iff p).mpr ⟨(hps p hp).1.1, by rw [hzero, (hps p hp).1.2]⟩
  rw [hrep.first_eq]
  intro hnil
  rw [List.head?_eq_none_iff.mp hnil] at hx
  cases hx

/-- With two free pages there is room for a page and its page table. -/
theorem Owned.room_of_free (h : Owned L dirs [] v)
    (hfree : FreeAtLeast L dirs v.mem (n + 2))
    (hfirst : v.pageFreeList.first = some pp) :
    (v.take pp).pageFreeList.first ≠ none := by
  obtain ⟨ps, hn, hps⟩ := hfree
  obtain ⟨xs, hrep, hnd, hc⟩ := h.pool
  obtain ⟨ys, rfl⟩ := hrep.eq_cons hfirst
  obtain ⟨p, hp⟩ := Finset.card_pos.mp (show 0 < (ps.erase pp).card by
    have := Finset.pred_card_le_card_erase (s := ps) (a := pp)
    omega)
  obtain ⟨hne, hmem⟩ := Finset.mem_erase.mp hp
  have hzero : refCount L.slots (target v.mem dirs) p = 0 :=
    refCount_eq_zero.mpr (hps p hmem).2
  have hx : p ∈ pp :: ys :=
    (hc.free_iff p).mpr ⟨(hps p hmem).1.1, by rw [hzero, (hps p hmem).1.2]⟩
  have hy : p ∈ ys := (List.mem_cons.mp hx).resolve_left hne
  change (v.pageFreeList.remove pp).first ≠ none
  rw [(Queue.rep_removeFirst hrep).first_eq]
  intro hnil
  rw [List.head?_eq_none_iff.mp hnil] at hy
  cases hy

/-- Mapping a new page takes it, and perhaps one for a page table. -/
theorem Owned.NewPage.free (hn : Owned.NewPage L dirs out e pp va perm v v')
    (hd : dirs e = some d)
    (hperm : perm < 0x1000#32) (h : FreeAtLeast L dirs v.mem (n + 2)) :
    FreeAtLeast L dirs v'.mem n := by
  obtain ⟨t, ht⟩ : ∃ t, v.mem.link d (pdx va) = none →
      ∀ p, v'.mem.link d (pdx va) = some p → p = t := by
    refine ⟨(v'.mem.link d (pdx va)).getD 0, fun _ p hp => ?_⟩
    rw [hp]
    rfl
  have hcard : ({pp, t} : Finset Nat).card ≤ 2 := Finset.card_le_two
  refine FreeAtLeast.take {pp, t} (h.mono (by omega)) fun l hl p hp hne => ?_
  simp only [Finset.mem_insert, Finset.mem_singleton, not_or] at hne
  have hslot := mem_slots.mp hl
  cases l with
  | dir e' => exact ⟨_, hl, hp⟩
  | pde e' i =>
      by_cases he : e' = e
      · subst he
        rw [target_pde hd] at hp
        by_cases hi : i = pdx va ∧ v.mem.link d i = none
        · obtain ⟨rfl, hnone⟩ := hi
          exact absurd (ht hnone p hp) hne.2
        · rw [not_and_or] at hi
          rw [PhysMem.link, hn.pdes d i hd hi] at hp
          exact ⟨_, hl, (target_pde hd).trans hp⟩
      · rw [hn.frame.target_eq hl he] at hp
        exact ⟨_, hl, hp⟩
  | pte e' i j =>
      rw [target, hn.pte e' i j hslot.1 hslot.2.1 hslot.2.2] at hp
      split at hp
      · rw [mapped_page2pa (Owned.lt_pow hn.user) hperm] at hp
        exact absurd (Option.some.inj hp).symm hne.1
      · exact ⟨_, hl, hp⟩

/-- A new page directory takes its page. -/
theorem FreeAtLeast.newPgdir (hnone : dirs e = none)
    (hfresh : ∀ k ∈ L.slots, target v.mem dirs k ≠ some d)
    (h : FreeAtLeast L dirs v.mem (n + 1)) :
    FreeAtLeast L (Function.update dirs e (some d))
      (Owned.newPgdir d v).mem n := by
  refine FreeAtLeast.take {d} (by rwa [Finset.card_singleton])
    fun l hl p hp hne => ?_
  rw [Finset.mem_singleton] at hne
  rw [Owned.target_newPgdir hnone hfresh hl] at hp
  split at hp
  · exact absurd (Option.some.inj hp).symm hne
  · exact ⟨l, hl, hp⟩

/-- With two free pages, a new page can be mapped. -/
theorem Owned.pageAllocAt_free (h : Owned L dirs [] v) (he : e < L.ndirs)
    (hd : dirs e = some d)
    (hva : va < UTOP) (hperm : perm < 0x1000#32)
    (hfree : FreeAtLeast L dirs v.mem 2) :
    ∃ v' pp, Jos.pageAllocAt d va perm v = .ret 0 v'
      ∧ NewPage L dirs [] e pp va perm v v' := by
  rcases h.pageAllocAt_newPage he hd hva hperm with hnew | ⟨-, hno⟩
  · exact hnew
  · obtain ⟨pp, hfirst⟩ :=
      Option.ne_none_iff_exists'.mp (h.first_of_free (n := 1) hfree)
    exact absurd (hno pp hfirst).2 (h.room_of_free (n := 0) hfree hfirst)

theorem tables_card_le : (tables m d).card ≤ pdxUTOP := by
  have := Finset.card_filter_le (Finset.range pdxUTOP) fun i =>
    m.link d i ≠ none
  rwa [Finset.card_range] at this

/-- What is left when the directory has all its page tables. -/
theorem Spare.free (h : Spare L dirs m d (pdxUTOP + n)) :
    FreeAtLeast L dirs m n := by
  obtain ⟨k, hfree, hle⟩ := h
  have htables := tables_card_le (m := m) (d := d)
  exact hfree.mono (by omega)

/-- The address space `e` comes to refer to the page of the entry `w`, and
perhaps to a new page table. -/
theorem Stored.used {fits : Prop} (h : Stored L dirs out fits e va w v v')
    (hd : dirs e = some d)
    {l : Slot} (hl : l ∈ L.slots) (hp : target v'.mem dirs l = some p) :
    (∃ l' ∈ L.slots, target v.mem dirs l' = some p) ∨ mapped w = some p
      ∨ v.mem.link d (pdx va) = none ∧ v'.mem.link d (pdx va) = some p := by
  have hslot := mem_slots.mp hl
  cases l with
  | dir e' => exact .inl ⟨_, hl, hp⟩
  | pde e' i =>
      by_cases he : e' = e
      · subst he
        rw [target_pde hd] at hp
        by_cases hi : i = pdx va ∧ v.mem.link d i = none
        · obtain ⟨rfl, hnone⟩ := hi
          exact .inr (.inr ⟨hnone, hp⟩)
        · rw [not_and_or] at hi
          rw [PhysMem.link, h.pdes d i hd hi] at hp
          exact .inl ⟨_, hl, (target_pde hd).trans hp⟩
      · rw [h.frame.target_eq hl he] at hp
        exact .inl ⟨_, hl, hp⟩
  | pte e' i j =>
      rw [target, h.pte e' i j hslot.1 hslot.2.1 hslot.2.2] at hp
      split at hp
      · exact .inr (.inl hp)
      · exact .inl ⟨_, hl, hp⟩

/-- What is left when the directory lacks a page table. -/
theorem Spare.free_table (h : Spare L dirs m d (pdxUTOP + n)) (hi : i < pdxUTOP)
    (hnone : m.link d i = none) :
    FreeAtLeast L dirs m (n + 1) := by
  obtain ⟨k, hfree, hle⟩ := h
  have hnot : i ∉ tables m d := by simp [tables, hnone]
  have hsub : insert i (tables m d) ⊆ Finset.range pdxUTOP :=
    Finset.insert_subset (Finset.mem_range.mpr hi) (Finset.filter_subset _ _)
  have hcard := Finset.card_le_card hsub
  rw [Finset.card_insert_of_notMem hnot, Finset.card_range] at hcard
  exact hfree.mono (by omega)

/-- Mapping a page that is in use or one of `qs` takes these and at most a page
for a page table. -/
theorem Spare.stored_take {fits : Prop} (qs : Finset Nat)
    (hs : Spare L dirs v.mem d (n + qs.card))
    (h : Stored L dirs out fits e va w v v') (hd : dirs e = some d)
    (hva : va < UTOP)
    (hw : ∀ p, mapped w = some p → p ∉ qs → ∃ l ∈ L.slots,
      target v.mem dirs l = some p)
    (hn : pdxUTOP ≤ n) : Spare L dirs v'.mem d n := by
  obtain ⟨k, hfree, hle⟩ := hs
  have hi := pdx_lt_of_lt_UTOP hva
  have hlink : ∀ i, i ≠ pdx va ∨ v.mem.link d i ≠ none →
      v'.mem.link d i = v.mem.link d i :=
    fun i hi => congrArg mapped (h.pdes d i hd hi)
  have htables : (tables v.mem d).card ≤ pdxUTOP := tables_card_le
  obtain ⟨t, ht⟩ := h.table d hd
  by_cases hnone : v.mem.link d (pdx va) = none
  · -- the new page table counts for the page it takes
    have hins : tables v'.mem d = insert (pdx va) (tables v.mem d) := by
      ext i
      simp only [tables, Finset.mem_filter, Finset.mem_range, Finset.mem_insert]
      by_cases hiv : i = pdx va
      · subst hiv
        simp [hi, ht]
      · rw [hlink i (.inl hiv)]
        simp [hiv]
    have hnot : pdx va ∉ tables v.mem d := by simp [tables, hnone]
    have hcard := Finset.card_insert_of_notMem hnot
    rw [← hins] at hcard
    have hle' : (tables v'.mem d).card ≤ pdxUTOP := tables_card_le
    have hqs := Finset.card_insert_le t qs
    obtain ⟨k, rfl⟩ : ∃ k', k = k' + (qs.card + 1) :=
      ⟨k - (qs.card + 1), by omega⟩
    refine ⟨k, FreeAtLeast.take (insert t qs) (hfree.mono (by omega))
      fun l hl p hp hne => ?_, by omega⟩
    rw [Finset.mem_insert, not_or] at hne
    rcases h.used hd hl hp with hold | hmap | ⟨-, hnew⟩
    · exact hold
    · exact hw p hmap hne.2
    · rw [ht] at hnew
      exact absurd (Option.some.inj hnew).symm hne.1
  · have hsame : tables v'.mem d = tables v.mem d := by
      refine Finset.filter_congr fun i _ => ?_
      by_cases hiv : i = pdx va
      · rw [hlink i (.inr (hiv ▸ hnone))]
      · rw [hlink i (.inl hiv)]
    obtain ⟨k, rfl⟩ : ∃ k', k = k' + qs.card := ⟨k - qs.card, by omega⟩
    refine ⟨k, hfree.take qs fun l hl p hp hne => ?_, by rw [hsame]; omega⟩
    rcases h.used hd hl hp with hold | hmap | ⟨hno, -⟩
    · exact hold
    · exact hw p hmap hne
    · exact absurd hno hnone

/-- Mapping a page that is in use takes at most a page for a page table. -/
theorem Spare.stored {fits : Prop} (hs : Spare L dirs v.mem d n)
    (h : Stored L dirs out fits e va w v v') (hd : dirs e = some d)
    (hva : va < UTOP)
    (hw : ∀ p, mapped w = some p → ∃ l ∈ L.slots, target v.mem dirs l = some p)
    (hn : pdxUTOP ≤ n) :
    Spare L dirs v'.mem d n :=
  Spare.stored_take ∅ hs h hd hva (fun p hp _ => hw p hp) hn

/-- A change of a page that is no directory and no page table. -/
theorem Spare.setData (hs : Spare L dirs m d n) (he : e < L.ndirs)
    (hd : dirs e = some d)
    (hdata : ∀ e', ¬NodeOf L m dirs e' p) (hm : ∀ q, q ≠ p → m' q = m q) :
    Spare L dirs m' d n := by
  obtain ⟨k, hfree, hle⟩ := hs
  have hsame : tables m' d = tables m d := by
    refine Finset.filter_congr fun i _ => ?_
    rw [PhysMem.link_congr (hm d fun hdp => hdata e (hdp ▸ nodeOf_dir he hd))]
  refine ⟨k, hfree.keep fun l hl q hq => ⟨l, hl, ?_⟩, by rwa [hsame]⟩
  rwa [target_of_ne hl fun q hq => hm q fun hqp => hdata _ (hqp ▸ hq)] at hq

/-- Mapping a page that is in use where another address space has a page table
takes no page. -/
theorem Spare.other {fits : Prop} {b d' : Nat} (hs : Spare L dirs v.mem d n)
    (h : Stored L dirs out fits e va w v v') (hd' : dirs e = some d')
    (hd : dirs b = some d)
    (hb : b < L.ndirs) (hne : b ≠ e) (hpt : v.mem.link d' (pdx va) ≠ none)
    (hw : ∀ p, mapped w = some p → ∃ l ∈ L.slots,
      target v.mem dirs l = some p) :
    Spare L dirs v'.mem d n := by
  obtain ⟨k, hfree, hle⟩ := hs
  have hmem : v'.mem d = v.mem d := h.frame.other b d hne (nodeOf_dir hb hd)
  have hsame : tables v'.mem d = tables v.mem d :=
    Finset.filter_congr fun i _ => by rw [PhysMem.link_congr hmem]
  refine ⟨k, hfree.keep fun l hl p hp => ?_, by rwa [hsame]⟩
  rcases h.used hd' hl hp with hold | hmap | ⟨hno, -⟩
  · exact hold
  · exact hw p hmap
  · exact absurd hno hpt

end

end Jos
