import Jos.Kern.Start

/-!
# Free pages

What the protection says of the free list: no page on it is the page directory
or a page table of a live environment, or mapped by one below `UTOP`. It holds
as long as no mapping call frees the page that it was to map, which happens
when there is no page for a page table.
-/

namespace Jos

open Slot (target)

/-- Page `p` is the page directory of environment `e`, or a page table that it
refers to below `UTOP`, or mapped by one of those. -/
inductive Kern.Uses (s : Kern) (e p : Nat) : Prop where
  | cr3 (h : ppn (s.envs e).envCr3 = p)
  | pde {i : Nat} (hi : i < pdxUTOP)
      (h : s.vm.mem.link (ppn (s.envs e).envCr3) i = some p)
  | pte {i j pt : Nat} (hi : i < pdxUTOP) (hj : j < NPTENTRIES)
      (hpt : s.vm.mem.link (ppn (s.envs e).envCr3) i = some pt)
      (h : s.vm.mem.link pt j = some p)

/-- No page on the free list is in use by a live environment, none is on it
twice, and a page that `page_alloc` gives out is not in use. -/
structure FreeOut (s : Kern) : Prop where
  list : ∃ xs, s.vm.pageFreeList.Rep xs ∧ xs.Nodup
    ∧ ∀ p ∈ xs, ∀ e, s.Live e → ¬s.Uses e p
  alloc : ∀ p v, pageAlloc s.vm = .ret (.ok p) v → ∀ e, s.Live e →
    ¬s.Uses e p
      ∧ ∀ va < UTOP, ∀ w, userAccess s.vm.mem (s.envs e).envCr3 va w ≠ some p

section

variable {L : Layout} {s₀ s t : Kern} {c e p : Nat} {va : Word} {w : Bool}

/-- What user code reaches below `UTOP` is in use. -/
theorem Kern.uses_of_access (hva : va < UTOP)
    (h : userAccess s.vm.mem (s.envs e).envCr3 va w = some p) : s.Uses e p := by
  unfold userAccess at h
  cases htr : translate s.vm.mem (s.envs e).envCr3 va with
  | none =>
      rw [htr] at h
      cases h
  | some x =>
      rw [htr] at h
      unfold translate at htr
      dsimp only at h htr
      split at h
      · obtain rfl := Option.some.inj h
        split at htr
        · rename_i hp
          obtain rfl := Option.some.inj htr
          exact .pte (pdx_lt_of_lt_UTOP hva) (ptx_lt va)
            (mapped_of_present hp.1) (mapped_of_present hp.2)
        · cases htr
      · cases h

/-- A page in use is one that a slot refers to. -/
theorem Kern.Uses.slot (h : s.Uses e p) (hg : Guarded L s) (he : s.Live e) :
    ∃ k ∈ L.slots, target s.vm.mem s.dirs k = some p := by
  have hlt := hg.pages.lt he
  have hppn : ppn (s.envs e).envCr3 = (s.envs e).envPgdir := by
    rw [hg.pages.cr3 e he, ppn_page2pa (hg.lt_pow he)]
  cases h with
  | cr3 h =>
      refine ⟨.dir e, mem_slots.mpr hlt, ?_⟩
      rw [← h, hppn]
      exact he.dirs
  | @pde i hi h =>
      rw [hppn] at h
      exact ⟨.pde e i, mem_slots.mpr ⟨hlt, hi⟩, (target_pde he.dirs).trans h⟩
  | @pte i j pt hi hj hpt h =>
      rw [hppn] at hpt
      exact ⟨.pte e i j, pte_mem hlt hi hj, (target_pte he.dirs hpt).trans h⟩

theorem Guarded.freeOut (h : Guarded L s) : FreeOut s := by
  obtain ⟨xs, hrep, hnd, hc⟩ := h.pages.owned.pool
  have hfree : ∀ p ∈ xs, ∀ e, s.Live e → ¬s.Uses e p := by
    intro p hp e he huse
    obtain ⟨k, hk, hkp⟩ := huse.slot h he
    exact (Owned.not_target hc (List.mem_append_right _ hp)).2 k hk hkp
  refine ⟨⟨xs, hrep, hnd, hfree⟩, fun p v hret e he => ?_⟩
  have hmem : p ∈ xs := by
    cases hfirst : s.vm.pageFreeList.first with
    | none =>
        cases hret.symm.trans (pageAlloc_none hfirst)
    | some q =>
        cases hret.symm.trans (pageAlloc_some hfirst)
        rw [hrep.first_eq] at hfirst
        exact List.mem_of_head? hfirst
  have hno := hfree p hmem e he
  exact ⟨hno, fun va hva w hacc => hno (Kern.uses_of_access hva hacc)⟩

/-- In every run in which no counter reaches its limit and no mapping call
finds no page for a page table, no free page is in use. -/
theorem free_pages_out (h : Protected L s₀) (hrun : Runs Step (Mild L) s₀ s) :
    FreeOut s := by
  have hinv : Protected L s :=
    hrun.invariant (fun _ _ _ hu hm hstep => hu.step hm hstep) h
  exact hinv.guarded.freeOut

end

/-- Environment 2 allocates its first page, and all counters stay exact. -/
theorem smallKern_alloc_fits {k : Nat} (hk : k ≤ 10000) (hpages : 2 ≤ k)
    {t : Kern} (ht : (smallKern k).act (.call 4 0 0x800000 7 0 0) = some t) :
    Fits (smallLayout k hk) t.dirs t.vm.mem := by
  have hd : (smallKern k).dirs 2 = some 402 := smallKern_dirs
  have hva : (0x800000 : Word) < UTOP := by decide
  have hperm : validPerm 7 := by decide
  obtain ⟨v, pp, hret, hnew⟩ :=
    pageAllocAt_two (smallKern_pagesOk hk).owned (Queue.rep_range 404 k)
      (by rwa [List.length_range']) (show 2 < 1024 by decide) hd hva
      (validPerm_lt hperm)
  have hstep := Kern.act_step (s := smallKern k) rfl ht
  let u : Kern := (smallKern k).saved 2
    (callTrap (smallKern k) 2 4 0 0x800000 7 0 0)
  have hcall : sysPageAlloc 0 0x800000 7 u = .ret 0 (u.withVm v) :=
    sysPageAlloc_ret (c := 2) (e := 2) rfl resolve_zero (by decide) hperm hret
  obtain ⟨e, -, rfl⟩ :=
    step_of_syscall_ret (smallKern_running k) hstep rfl hcall
  have hsame : SameSpaces (u.withVm v) (((u.withVm v).sysRet 2 0).runOn e) :=
    ((SameSpaces.refl _).setEnv Iff.rfl rfl rfl rfl rfl).runOn
  have hdirs : (u.withVm v).dirs = (smallKern k).dirs := Kern.saved_dirs
  rw [hsame.dirs, hsame.vm, hdirs]
  refine hnew.patched.fits hd (fun q hq => ?_) (smallKern_fits hk)
  rw [mapped_page2pa (Owned.lt_pow hnew.user) (validPerm_lt hperm)] at hq
  obtain rfl := Option.some.inj hq
  exact hnew.fresh

/-- Environment 2 allocates a page, which it then shares with its child. -/
theorem free_pages_out_small : ∃ s,
    Runs Step (Mild (smallLayout 4 (by decide))) (smallKern 4) s
      ∧ s.vm.pageFreeList.first = some 407 ∧ s.Uses 2 404 ∧ s.Uses 3 404
      ∧ FreeOut s := by
  have hk : 4 ≤ 10000 := by decide
  let alloc : Act := .call 4 0 0x800000 7 0 0
  let share : Act := .call 5 0 0x800000 0x1003 0x800000 7
  have hrun : (((smallKern 4).act alloc).any fun t =>
      (t.act share).any fun s => decide (t.curenv = some 2
        ∧ t.vm.pageFreeList.first = some 406
        ∧ s.vm.pageFreeList.first = some 407
        ∧ (s.vm.mem.link (ppn (s.envs 2).envCr3) 2 = some 405
          ∧ s.vm.mem.link 405 0 = some 404)
        ∧ s.vm.mem.link (ppn (s.envs 3).envCr3) 2 = some 406
        ∧ s.vm.mem.link 406 0 = some 404)) = true := by
    decide +kernel
  obtain ⟨t, ht, hrun⟩ := (Option.any_eq_true _ _).mp hrun
  obtain ⟨s, hs, hrun⟩ := (Option.any_eq_true _ _).mp hrun
  obtain ⟨hcur, hfirst, hfree, ⟨hpt, hpage⟩, hpt', hpage'⟩ :=
    of_decide_eq_true hrun
  have hmild : Mild (smallLayout 4 hk) (smallKern 4)
      (alloc.trap (smallKern 4) 2) :=
    .of_free (some .pageAlloc) (smallKern_fits hk) rfl (by decide) rfl
      (by decide)
  have hmild' : Mild (smallLayout 4 hk) t (share.trap t 2) :=
    .of_free (some .pageMap) (smallKern_alloc_fits hk (by decide) ht) hcur
      (hfirst ▸ Option.some_ne_none _) rfl (by decide)
  have hruns := (Runs.single hmild (Kern.act_step rfl ht)).tail hmild'
    (Kern.act_step hcur hs)
  exact ⟨s, hruns, hfree, .pte (by decide) (by decide) hpt hpage,
    .pte (by decide) (by decide) hpt' hpage',
    free_pages_out (smallKern_protected hk) hruns⟩

/-- With two free pages, environment 2 takes both for a page and its page
table. Then it maps the page where there is no page table. -/
theorem free_page_in_use : ∃ (L : Layout) (s₀ s : Kern), Protected L s₀
    ∧ Runs Step (fun _ _ => True) s₀ s ∧ ¬FreeOut s := by
  have hrun : ((smallKern 2).acts [.call 4 0 0x800000 7 0 0,
      .call 5 0 0x800000 0 0xC00000 7]).any (fun s =>
        decide ((s.envs 2).envStatus ≠ .free
        ∧ s.vm.pageFreeList.first = some 404
        ∧ s.vm.mem.link (ppn (s.envs 2).envCr3) 2 = some 405
        ∧ s.vm.mem.link 405 0 = some 404)) = true := by
    decide +kernel
  obtain ⟨s, hs, hrun⟩ := (Option.any_eq_true _ _).mp hrun
  obtain ⟨hlive, hfirst, hpt, hpage⟩ := of_decide_eq_true hrun
  refine ⟨_, smallKern 2, s, smallKern_protected (by decide),
    Kern.acts_runs hs, fun hout => ?_⟩
  exact (hout.alloc 404 _ (pageAlloc_some hfirst) 2
    ⟨by decide, hlive⟩).1
    (.pte (by decide) (by decide) hpt hpage)

end Jos
