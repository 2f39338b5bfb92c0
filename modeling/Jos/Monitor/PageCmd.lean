import Jos.Kern.Pages
import Jos.Monitor.Perm

/-!
# The monitor's page commands

`mon_alloc_page` and `mon_free_page` of kern/monitor.c, and any sequence of
them. `mon_free_page` takes the page from its argument and frees it: it does not
ask whether there is such a page, whether it is free, or whether anything refers
to it. A sequence keeps the free list sound as long as no free_page is of such a
page, and every other free_page changes the list.
-/

namespace Jos

open Slot (target)

def monAllocPage : MonM Word := do
  match ← inKernel pageAlloc with
  | .ok pp =>
      let v ← Prog.ask
      inKernel (setPpRef pp (v.ppRef pp + 1))
      pure 0
  | .error _ => pure (-E_NO_MEM)

/-- `VPN(pa)` is an index into `pages`, which has `npage` elements. -/
def monFreePage (argc : Nat) (argv : Nat → Bytes) : MonM Word := do
  if argc ≠ 2 then
    pure (-E_INVAL)
  else
    let pa ← inScan (atox (argv 1))
    inKernel (setPpRef (ppn pa) 0)
    inKernel (pageFree (ppn pa))
    pure 0

/-- A page command with its command line. -/
inductive PageCmd where
  | alloc
  | free (argc : Nat) (argv : Nat → Bytes)

def PageCmd.run : PageCmd → MonM Word
  | .alloc => monAllocPage
  | .free argc argv => monFreePage argc argv

/-- The command goes on to free page `p`. -/
def PageCmd.Frees (c : PageCmd) (p : Nat) : Prop :=
  ∃ argv pa log, c = .free 2 argv ∧ atox (argv 1) [] = .ret pa log ∧ ppn pa = p

/-- The kernel holds `p`, or a page directory or page table or another mapping
refers to it. -/
def InUse (L : Layout) (dirs : Nat → Option Nat) (v : Vm) (p : Nat) : Prop :=
  ¬L.User p ∨ ∃ k ∈ L.slots, target v.mem dirs k = some p

/-- The free list is a list without duplicates of unused pages. -/
def FreeSound (L : Layout) (dirs : Nat → Option Nat) (v : Vm) : Prop :=
  ∃ xs, v.pageFreeList.Rep xs ∧ ∀ p ∈ xs, p < v.npage ∧ v.ppRef p = 0 ∧
    ¬InUse L dirs v p

/-- There is no page `p`, or it is free, or it is in use. -/
def NotToFree (L : Layout) (dirs : Nat → Option Nat) (v : Vm)
    (p : Nat) : Prop :=
  v.npage ≤ p ∨ (∃ xs, v.pageFreeList.Rep xs ∧ p ∈ xs) ∨ InUse L dirs v p

/-- `P` holds of every step of the sequence, up to a command that does not
return. -/
def EachCmd (P : Vm → PageCmd → Vm → Prop) : List PageCmd → Vm → Prop
  | [], _ => True
  | c :: cs, v => ∀ r v', c.run v = .ret r v' → P v c v' ∧ EachCmd P cs v'

/-- After the step the free list is sound, and it is as before if the step frees
what is not to be freed. -/
def KeepsFree (L : Layout) (dirs : Nat → Option Nat) (v : Vm) (c : PageCmd)
    (v' : Vm) : Prop :=
  FreeSound L dirs v' ∧ ∀ p, c.Frees p → NotToFree L dirs v p →
    v'.pageFreeList = v.pageFreeList

/-- The step frees nothing that is not to be freed. -/
def FreesWell (L : Layout) (dirs : Nat → Option Nat) (v : Vm) (c : PageCmd)
    (_ : Vm) : Prop :=
  ∀ p, c.Frees p → ¬NotToFree L dirs v p

section

variable {L : Layout} {dirs : Nat → Option Nat} {out : List Nat} {v v' : Vm}
  {c : PageCmd} {p : Nat} {r : Word}
  {argc : Nat} {argv : Nat → Bytes} {pa : Word} {log : List Nat}

/-- The kernel leaves a sound free list to the monitor. -/
theorem Owned.freeSound (h : Owned L dirs out v) : FreeSound L dirs v := by
  obtain ⟨xs, hrep, -, hc⟩ := h.pool
  refine ⟨xs, hrep, fun p hp => ?_⟩
  have hmem : p ∈ out ++ xs := List.mem_append_right _ hp
  obtain ⟨huser, hnone⟩ := Owned.not_target hc hmem
  obtain ⟨hok, hzero⟩ := (hc.free_iff p).mp hmem
  refine ⟨by rw [h.npage]; exact L.managed_lt p hok,
    by simp [hc.cnt_eq p hok, hzero], ?_⟩
  rintro (hno | ⟨k, hk, hp⟩)
  · exact hno huser
  · exact hnone k hk hp

/-! ## One command -/

/-- `v` after the first free page has been taken. -/
def Vm.pageTaken (v : Vm) (p : Nat) : Vm :=
  { v with pageFreeList := v.pageFreeList.remove p, ppRef :=
    Function.update v.ppRef p (v.ppRef p + 1) }

/-- `v` after `p` has been put on the free list, wherever it was. -/
def Vm.pageFreed (v : Vm) (p : Nat) : Vm :=
  { v with ppRef := Function.update v.ppRef p 0, pageFreeList :=
    v.pageFreeList.insertHead p }

theorem monAllocPage_some (h : v.pageFreeList.first = some p) : monAllocPage v =
      .ret 0 (v.pageTaken p) := by
  simp [monAllocPage, inKernel, Prog.mapStop, Prog.bind_apply, pageAlloc,
    Prog.ask, Prog.update, setPpRef, h,
    Vm.pageTaken]

theorem monAllocPage_none (h : v.pageFreeList.first = none) :
    monAllocPage v = .ret (-E_NO_MEM) v := by
  simp [monAllocPage, inKernel, Prog.mapStop, Prog.bind_apply, pageAlloc,
    Prog.ask, h]

/-- `free_page` changes nothing without an argument, or frees the page of its
argument. -/
theorem monFreePage_ret (h : monFreePage argc argv v = .ret r v') :
    argc ≠ 2 ∧ v' = v ∨ ∃ pa log, argc = 2 ∧ atox (argv 1) [] = .ret pa log ∧
    v' = v.pageFreed (ppn pa) := by
  by_cases hargc : argc = 2
  · subst hargc
    cases hpa : atox (argv 1) [] with
    | ret pa log =>
        simp [monFreePage, inScan, inKernel, Prog.zoom,
          Prog.mapStop, Prog.bind_apply, hpa, setPpRef, pageFree,
          Prog.update] at h
        exact .inr ⟨pa, log, rfl, rfl, h.2.symm⟩
    | away log =>
        simp [monFreePage, inScan, Prog.zoom, Prog.bind_apply, hpa] at h
    | stop e log =>
        simp [monFreePage, inScan, Prog.zoom, Prog.bind_apply, hpa] at h
  · simp [monFreePage, hargc] at h
    exact .inl ⟨hargc, h.2.symm⟩

theorem PageCmd.frees_free (h : atox (argv 1) [] = .ret pa log) :
    (PageCmd.free 2 argv).Frees p ↔ p = ppn pa := by
  constructor
  · rintro ⟨argv', pa', log', heq, hpa', rfl⟩
    injection heq with _ hargv
    subst hargv
    rw [h] at hpa'
    injection hpa' with hpa' _
    rw [hpa']
  · rintro rfl
    exact ⟨argv, pa, log, rfl, h, rfl⟩

/-- What a command that returns has done: nothing, or taken the first free page,
or freed a page. -/
theorem PageCmd.run_ret (h : c.run v = .ret r v') :
    v' = v ∧ (∀ p, ¬c.Frees p) ∨
    (∃ p, v.pageFreeList.first = some p ∧ v' = v.pageTaken p ∧ ∀ p,
      ¬c.Frees p) ∨
    ∃ p, v' = v.pageFreed p ∧ ∀ q, c.Frees q ↔ q = p := by
  cases c with
  | alloc =>
      have hno : ∀ p, ¬PageCmd.alloc.Frees p := by
        rintro p ⟨argv, pa, log, hc, -⟩
        cases hc
      have hrun : monAllocPage v = .ret r v' := h
      cases hfirst : v.pageFreeList.first with
      | none =>
          rw [monAllocPage_none hfirst] at hrun
          injection hrun with _ hv
          exact .inl ⟨hv.symm, hno⟩
      | some p =>
          rw [monAllocPage_some hfirst] at hrun
          injection hrun with _ hv
          exact .inr (.inl ⟨p, rfl, hv.symm, hno⟩)
  | free argc argv =>
      rcases monFreePage_ret h with ⟨hargc, hv⟩ | ⟨pa, log, rfl, hpa, hv⟩
      · refine .inl ⟨hv, ?_⟩
        rintro p ⟨argv', pa, log, heq, -⟩
        injection heq with h2 _
        exact hargc h2
      · exact .inr (.inr ⟨ppn pa, hv, fun q => frees_free hpa⟩)

theorem FreeSound.pageTaken (h : FreeSound L dirs v)
    (hfirst : v.pageFreeList.first = some p) :
    FreeSound L dirs (v.pageTaken p) := by
  obtain ⟨xs, hrep, hxs⟩ := h
  obtain ⟨ys, rfl⟩ := hrep.eq_cons hfirst
  refine ⟨ys, Queue.rep_removeFirst hrep, fun q hq => ?_⟩
  have hne : q ≠ p := by
    rintro rfl
    exact (List.nodup_cons.mp hrep.nodup).1 hq
  obtain ⟨hlt, hzero, huse⟩ := hxs q (List.mem_cons_of_mem _ hq)
  exact ⟨hlt, by simpa [Vm.pageTaken, hne] using hzero, huse⟩

theorem FreeSound.pageFreed
    (h : FreeSound L dirs v) (hp : ¬NotToFree L dirs v p) :
    FreeSound L dirs (v.pageFreed p) := by
  obtain ⟨xs, hrep, hxs⟩ := h
  have hlt : p < v.npage := by
    by_contra hge
    exact hp (.inl (by omega))
  have hmem : p ∉ xs := fun hmem => hp (.inr (.inl ⟨xs, hrep, hmem⟩))
  refine ⟨p :: xs, Queue.rep_insertHead hrep hmem, fun q hq => ?_⟩
  rcases List.mem_cons.mp hq with rfl | hq
  · exact ⟨hlt, by simp [Vm.pageFreed], fun huse => hp (.inr (.inr huse))⟩
  · have hne : q ≠ p := fun he => hmem (he ▸ hq)
    obtain ⟨hlt, hzero, huse⟩ := hxs q hq
    exact ⟨hlt, by simpa [Vm.pageFreed, hne] using hzero, huse⟩

/-- One command keeps the free list sound, and leaves it alone where it should,
if and only if it frees nothing that is not to be freed. -/
theorem keepsFree_iff (h : FreeSound L dirs v) (hrun : c.run v = .ret r v') :
    KeepsFree L dirs v c v' ↔ FreesWell L dirs v c v' := by
  rcases PageCmd.run_ret hrun with
    ⟨rfl, hno⟩ | ⟨p, hfirst, rfl, hno⟩ | ⟨p, rfl, hfrees⟩
  · exact iff_of_true ⟨h, fun p hp => absurd hp (hno p)⟩ fun p hp =>
      absurd hp (hno p)
  · exact iff_of_true ⟨h.pageTaken hfirst, fun p hp =>
      absurd hp (hno p)⟩ fun p hp => absurd hp (hno p)
  · constructor
    · rintro ⟨-, hsame⟩ q hq hbad
      obtain ⟨xs, hrep, -⟩ := h
      obtain rfl := (hfrees q).mp hq
      exact Queue.insertHead_ne hrep q (hsame q hq hbad)
    · intro hwell
      have hp := hwell p ((hfrees p).mpr rfl)
      refine ⟨h.pageFreed hp, fun q hq hbad => ?_⟩
      obtain rfl := (hfrees q).mp hq
      exact absurd hbad hp

/-- A sequence of page commands keeps the free list sound throughout, and leaves
it alone where it should, if and only if no command of it frees a page that is
not there, free or in use. -/
theorem page_commands_keep (h : FreeSound L dirs v) (cs : List PageCmd) :
    EachCmd (KeepsFree L dirs) cs v ↔ EachCmd (FreesWell L dirs) cs v := by
  induction cs generalizing v with
  | nil => exact Iff.rfl
  | cons c cs ih =>
      refine forall_congr' fun r => forall_congr' fun v' => ?_
      constructor
      · intro hkeep hrun
        obtain ⟨hstep, hrest⟩ := hkeep hrun
        exact ⟨(keepsFree_iff h hrun).mp hstep, (ih hstep.1).mp hrest⟩
      · intro hwell hrun
        obtain ⟨hstep, hrest⟩ := hwell hrun
        have hkeeps := (keepsFree_iff h hrun).mpr hstep
        exact ⟨hkeeps, (ih hkeeps.1).mpr hrest⟩

end

/-! ## Two sequences -/

/-- The command line `free_page 0x194000`. -/
def firstFreeArgument (_ : Nat) : Bytes :=
  strOf [0x30, 0x78, 0x31, 0x39, 0x34, 0x30, 0x30, 0x30]

theorem firstFreeArgument_value :
    atox (firstFreeArgument 1) [] =
      .ret 0x194000 [8, 7, 6, 5, 4, 3, 2, 1, 0, 0] := by decide +kernel

theorem firstFree_frees : (PageCmd.free 2 firstFreeArgument).Frees 404 :=
  ⟨firstFreeArgument, _, _, rfl, firstFreeArgument_value, by decide⟩

theorem smallVm_freeSound {k : Nat} (hk : k ≤ 10000) :
    FreeSound (smallLayout k hk) (smallKern k).dirs (smallVm k) :=
  (smallKern_pagesOk hk).owned.freeSound

/-- The first free page is taken, and given back. -/
theorem page_commands_keep_small :
    EachCmd (KeepsFree (smallLayout 2 (by decide)) (smallKern 2).dirs)
      [.alloc, .free 2 firstFreeArgument]
      (smallVm 2) := by
  have hsound := smallVm_freeSound (k := 2) (by decide)
  refine (page_commands_keep hsound _).mpr fun r v hrun => ?_
  have hfirst : (smallVm 2).pageFreeList.first = some 404 := by decide
  have hv : .ret r v = Outcome.ret 0 ((smallVm 2).pageTaken 404) :=
    hrun.symm.trans (monAllocPage_some hfirst)
  cases hv
  refine ⟨fun p hp => ?_, fun r v hrun => ⟨fun p hp => ?_, trivial⟩⟩
  · obtain ⟨argv, pa, log, hc, -⟩ := hp
    cases hc
  · obtain rfl : p = ppn 0x194000 :=
      (PageCmd.frees_free firstFreeArgument_value).mp hp
    obtain ⟨xs, hrep, hxs⟩ := hsound
    obtain ⟨ys, rfl⟩ := hrep.eq_cons hfirst
    obtain ⟨-, -, huse⟩ := hxs 404 List.mem_cons_self
    rintro (hge | ⟨zs, hzs, hmem⟩ | huse')
    · exact absurd hge (by decide)
    · obtain rfl := hzs.unique (Queue.rep_removeFirst hrep)
      exact (List.nodup_cons.mp hrep.nodup).1 hmem
    · exact huse huse'

/-- Freeing the first free page makes a cycle of it. -/
theorem free_page_cycle :
    ¬∀ (L : Layout) (dirs : Nat → Option Nat) (v : Vm) (cs : List PageCmd),
      FreeSound L dirs v → EachCmd (KeepsFree L dirs) cs v := by
  intro h
  have hrun : (PageCmd.free 2 firstFreeArgument).run (smallVm 2) = .ret 0
      ((smallVm 2).pageFreed 404) := by
    simp [PageCmd.run, monFreePage, inScan, inKernel, Prog.zoom, Prog.mapStop,
      Prog.bind_apply, firstFreeArgument_value,
      setPpRef, pageFree, Prog.update, Vm.pageFreed, ppn]
  obtain ⟨⟨-, hsame⟩, -⟩ := h _ _ _ [.free 2 firstFreeArgument]
    (smallVm_freeSound (k := 2) (by decide)) 0 _ hrun
  have hfree : NotToFree (smallLayout 2 (by decide))
      (smallKern 2).dirs (smallVm 2) 404 :=
    .inr (.inl ⟨_, Queue.rep_range 404 2, by decide⟩)
  have hnext := congrArg (fun l => l.next 404) (hsame 404 firstFree_frees hfree)
  revert hnext
  decide

end Jos
