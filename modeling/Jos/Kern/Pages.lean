import Jos.Kern.Ids
import Jos.Vm.Boot

/-!
# Reference counts in the kernel

The page allocator's invariant for the page directories of the live
environments, and the runs of the operations that change page tables and
directories from the state that `i386_vm_init` and `env_init` leave: the
counters are exact, and a page is free exactly when nothing refers to it.
-/

namespace Jos

open Slot (target)

/-- The page directory of each live environment. -/
def Kern.dirs (s : Kern) (e : Nat) : Option Nat :=
  if e < NENV ∧ (s.envs e).envStatus ≠ .free then
    some (s.envs e).envPgdir else none

/-- Environment `c` comes to run. -/
def Kern.switch (c : Nat) (s : Kern) : Kern := { s with curenv := some c }

/-- The environment table and the page allocator are consistent. -/
structure PagesOk (L : Layout) (s : Kern) : Prop where
  ndirs : L.ndirs = NENV
  env : EnvInv s
  owned : Owned L s.dirs [] s.vm
  cr3 : ∀ e, s.Live e → (s.envs e).envCr3 = page2pa (s.envs e).envPgdir

section

variable {L : Layout} {s s' t : Kern} {c d e pp : Nat}
  {id va perm r pid : Word} {v : Vm}
  {dir : Nat × Word}

/-! ## Page directories of live environments -/

theorem Kern.Live.dirs (h : s.Live e) :
    s.dirs e = some (s.envs e).envPgdir := if_pos h

theorem dirs_eq_some : s.dirs e = some d ↔
      s.Live e ∧ (s.envs e).envPgdir = d := by
  unfold Kern.dirs Kern.Live
  split <;> simp_all

theorem dirs_congr (hfree : ∀ e, (t.envs e).envStatus = .free ↔
      (s.envs e).envStatus = .free)
    (hdir : ∀ e, (t.envs e).envPgdir = (s.envs e).envPgdir) :
    t.dirs = s.dirs := by
  funext e
  simp only [Kern.dirs, ne_eq, hfree, hdir]

theorem dirs_freed : (s.freed e v).dirs = Function.update s.dirs e none := by
  funext d
  by_cases hd : d = e
  · subst hd
    rw [Function.update_self, Kern.dirs, Kern.freed_status,
      if_neg fun h => h.2 rfl]
  · rw [Function.update_of_ne hd, Kern.dirs, Kern.freed_envs_ne hd, Kern.dirs]

theorem dirs_alloced (he : e < NENV) :
    (s.alloced e pid dir v).dirs = Function.update s.dirs e (some dir.1) := by
  funext d
  by_cases hd : d = e
  · subst hd
    rw [Function.update_self, Kern.dirs, Kern.alloced_envs_self,
      if_pos ⟨he, nofun⟩]
    rfl
  · rw [Function.update_of_ne hd, Kern.dirs, Kern.alloced_envs_ne hd, Kern.dirs]

/-! ## Programs that return -/

theorem envFree_ret (h : freeVm (s.envs e).envPgdir (s.envs e).envCr3 s.vm =
      .ret () v) :
    envFree e s = .ret () (s.freed e v) := by
  obtain ⟨_, v₁, h₁, h⟩ := Prog.bind_eq_ret.mp h
  obtain ⟨pp, v₂, h₂, h₃⟩ := Prog.bind_eq_ret.mp h
  have hwp : Prog.wp (envFree e) (fun _ s' => s' = s.freed e v) (fun _ => False)
      (fun _ _ => False) s := by
    unfold envFree
    rw [Prog.wp_bind]
    refine Prog.wp_ret leavePgdir_apply ?_
    simp only [Prog.wp_bind, Prog.wp_ask, inVm, Prog.wp_zoom, Prog.wp_update]
    refine Prog.wp_ret h₁ (Prog.wp_ret h₂ (Prog.wp_ret h₃ ?_))
    simp [Kern.freed, Kern.setEnv, Kern.withVm, Kern.lcr3]
  obtain ⟨_, _, hret, rfl⟩ := hwp.exists_ret
  exact hret

/-- `env_alloc` when there is a slot and a page for its directory. -/
theorem envAlloc_ret (hfirst : s.envFreeList.first = some e)
    (h : setupPgdir s.vm = .ret (.ok dir) v) :
    envAlloc pid s = .ret (.ok e) (s.alloced e pid dir v) := by
  have hwp : Prog.wp (envAlloc pid)
      (fun r s' => r = .ok e ∧ s' = s.alloced e pid dir v)
      (fun _ => False) (fun _ _ => False) s := by
    unfold envAlloc envSetupVm
    simp only [Prog.wp_bind, Prog.wp_ask, hfirst, inVm, Prog.wp_zoom]
    refine Prog.wp_ret h ?_
    simp [Kern.alloced, Kern.setEnv, Kern.withVm]
  obtain ⟨_, _, hret, rfl, rfl⟩ := hwp.exists_ret
  exact hret

variable (pid) in
/-- `env_alloc` when there is no slot or no page. -/
theorem envAlloc_error (hfirst : s.envFreeList.first = none
      ∨ setupPgdir s.vm = .ret (.error r) s.vm) :
    ∃ r, envAlloc pid s = .ret (.error r) s := by
  have hwp : Prog.wp (envAlloc pid) (fun r s' => (∃ x, r = .error x) ∧ s' = s)
      (fun _ => False) (fun _ _ => False) s := by
    unfold envAlloc envSetupVm
    simp only [Prog.wp_bind, Prog.wp_ask]
    cases hf : s.envFreeList.first with
    | none => exact Prog.wp_pure_intro ⟨⟨_, rfl⟩, rfl⟩
    | some e =>
        simp only [Prog.wp_bind, inVm, Prog.wp_zoom]
        refine Prog.wp_ret
          (hfirst.resolve_left (by rw [hf]; exact Option.some_ne_none _)) ?_
        exact Prog.wp_pure_intro (Prog.wp_pure_intro ⟨⟨r, rfl⟩, rfl⟩)
  obtain ⟨_, _, hret, ⟨x, rfl⟩, rfl⟩ := hwp.exists_ret
  exact ⟨x, hret⟩

/-! ## The operations under the invariant -/

namespace PagesOk

theorem lt (h : PagesOk L s) (he : s.Live e) : e < L.ndirs := h.ndirs ▸ he.1

theorem slots_eq (h : PagesOk L s) : L.slots = slots NENV :=
  congrArg slots h.ndirs

/-- A change of environments that affects neither their ids nor their
directories. -/
theorem congr (h : PagesOk L s) (henv : EnvInv t) (hvm : t.vm = s.vm)
    (hfree : ∀ e, (t.envs e).envStatus = .free ↔ (s.envs e).envStatus = .free)
    (hdir : ∀ e, (t.envs e).envPgdir = (s.envs e).envPgdir)
    (hcr3 : ∀ e, (t.envs e).envCr3 = (s.envs e).envCr3) : PagesOk L t := by
  refine ⟨h.ndirs, henv, ?_, fun e he => ?_⟩
  · rw [hvm, dirs_congr hfree hdir]
    exact h.owned
  · rw [hcr3, hdir]
    exact h.cr3 e ⟨he.1, fun hf => he.2 ((hfree e).mpr hf)⟩

theorem switch (h : PagesOk L s) (c : Nat) : PagesOk L (s.switch c) :=
  h.congr (h.env.congr rfl (fun _ => Iff.rfl) fun _ => rfl) rfl
    (fun _ => Iff.rfl)
    (fun _ => rfl) fun _ => rfl

/-- A change of memory. -/
theorem withVm (h : PagesOk L s) (ho : Owned L s.dirs [] v) :
    PagesOk L (s.withVm v) :=
  ⟨h.ndirs, h.env.withVm v, ho, h.cr3⟩

/-- A live environment is freed. -/
theorem freed (h : PagesOk L s) (he : s.Live e)
    (hfits : Fits L s.dirs s.vm.mem) :
    ∃ v, freeVm (s.envs e).envPgdir (s.envs e).envCr3 s.vm = .ret () v
      ∧ PagesOk L (s.freed e v) ∧ Frame L s.dirs e s.vm.mem v.mem := by
  obtain ⟨v, hv, ho, hframe⟩ := h.owned.freeVm he.dirs hfits
  rw [h.cr3 e he]
  refine ⟨v, hv, ⟨h.ndirs, h.env.freed he v, dirs_freed ▸ ho,
    fun d hd => ?_⟩, hframe⟩
  have hde : d ≠ e := fun hde => hd.2 (hde ▸ Kern.freed_status)
  have hlive : s.Live d := ⟨hd.1, Kern.freed_envs_ne (v := v) hde ▸ hd.2⟩
  rw [Kern.freed_envs_ne hde]
  exact h.cr3 d hlive

/-- A free slot is taken, or there is no page for the directory. -/
theorem alloced (h : PagesOk L s) (hfirst : s.envFreeList.first = some e)
    (pid : Word) :
    (∃ d, setupPgdir s.vm = .ret (.ok (d, page2pa d)) (Owned.newPgdir d s.vm)
      ∧ PagesOk L (s.alloced e pid (d, page2pa d) (Owned.newPgdir d s.vm)))
    ∨ setupPgdir s.vm = .ret (.error (-E_NO_MEM)) s.vm := by
  obtain ⟨he, hfree, henv⟩ :=
    h.env.alloced hfirst pid (0, 0) s.vm
  have hnone : s.dirs e = none := if_neg fun hl => hl.2 hfree
  rcases h.owned.setupPgdir (h.ndirs ▸ he) hnone with
    ⟨d, -, hd, ho, -, -⟩ | ⟨herr, -⟩
  · refine .inl ⟨d, hd, h.ndirs, (h.env.alloced hfirst ..).2.2,
      dirs_alloced he ▸ ho,
      fun e' he' => ?_⟩
    by_cases hee : e' = e
    · subst hee
      rw [Kern.alloced_envs_self]
      rfl
    · rw [Kern.alloced_envs_ne hee]
      exact h.cr3 e' ⟨he'.1, Kern.alloced_envs_ne (s := s) hee ▸ he'.2⟩
  · exact .inr herr

end PagesOk

/-- `i386_vm_init` and `env_init` establish the invariant. -/
theorem VmBooted.pagesOk {b : BootParams} (h : VmBooted b s.vm)
    (hinit : envInit s = .ret () s') :
    PagesOk (bootLayout b s.vm) s' := by
  obtain ⟨hvm, -⟩ := wp_envInit.ret hinit
  obtain ⟨henv, hlive⟩ := envInv_of_envInit hinit
  have hdirs : s'.dirs = fun _ => none := funext fun e => if_neg (hlive e)
  refine ⟨rfl, henv, ?_, fun e he => absurd he (hlive e)⟩
  rw [hdirs, hvm]
  exact h.owned

end

/-! ## Runs -/

/-- The operations that change page tables and directories. -/
inductive PageOp where
  | sysPageAlloc (c : Nat) (envid va perm : Word)
  | pageInsert (e pp : Nat) (va perm : Word)
  | pageRemove (e : Nat) (va : Word)
  | envAlloc (parentId : Word)
  | envFree (e : Nat)

namespace PageOp

/-- The operation, and its error code if it fails. `sys_page_alloc` is a call of
`c`. -/
def run : PageOp → K (Except Word Unit)
  | sysPageAlloc c envid va perm => do
      Prog.update (Kern.switch c)
      let r ← Jos.sysPageAlloc envid va perm
      pure (if r = 0 then .ok () else .error r)
  | pageInsert e pp va perm => do
      let s ← Prog.ask
      inVm (Jos.pageInsert (s.envs e).envPgdir pp va perm)
  | pageRemove e va => do
      let s ← Prog.ask
      inVm (Jos.pageRemove (s.envs e).envPgdir va)
      pure (.ok ())
  | envAlloc parentId => do
      match ← Jos.envAlloc parentId with
      | .error r => pure (.error r)
      | .ok _ => pure (.ok ())
  | envFree e => do
      Jos.envFree e
      pure (.ok ())

/-- The calls within the contracts: live environments, a data page that is
already mapped somewhere, permissions in the low 12 bits, and an address that is
mapped to be unmapped. -/
def Allowed (s : Kern) : PageOp → Prop
  | sysPageAlloc c _ _ _ => s.Live c
  | pageInsert e pp va perm => s.Live e ∧ va < UTOP ∧ perm < 0x1000#32
      ∧ ∃ k ∈ slots NENV, ¬k.Node ∧ target s.vm.mem s.dirs k = some pp
  | pageRemove e va => s.Live e ∧ va < UTOP
      ∧ target s.vm.mem s.dirs (.pte e (pdx va) (ptx va)) ≠ none
  | envAlloc _ => True
  | envFree e => s.Live e

/-- The operation returns. -/
def Step (s : Kern) (op : PageOp) (s' : Kern) : Prop :=
  ∃ r, op.run s = .ret r s'

end PageOp

section

variable {L : Layout} {s s' t : Kern} {c d e pp : Nat}
  {id va perm r pid : Word} {v : Vm}

/-- The permissions that the system calls accept are flags. -/
theorem validPerm_lt (h : validPerm perm) : perm < 0x1000#32 :=
  lt_of_or_PTE_USER h.2.2

theorem PagesOk.sysPageAlloc (h : PagesOk L s) (id va perm : Word)
    (hfits : Fits L s.dirs s.vm.mem) (hc : s.Live c)
    (hcur : s.curenv = some c) :
    ∃ r s', Jos.sysPageAlloc id va perm s = .ret r s' ∧ PagesOk L s'
      ∧ (r ≠ 0 → s' = s) := by
  refine Prog.wp.exists_ret ?_
  unfold Jos.sysPageAlloc
  refine Prog.wp_ite _ (fun _ => Prog.wp_pure_intro ⟨h, fun _ => rfl⟩)
    fun hva => ?_
  refine Prog.wp_ite _ (fun _ => Prog.wp_pure_intro ⟨h, fun _ => rfl⟩)
    fun hperm => ?_
  refine wp_withEnv hcur (fun _ _ => ⟨h, fun _ => rfl⟩) fun e he => ?_
  have hlive := live_of_resolve he hc
  rw [not_not] at hva hperm
  simp only [Prog.wp_bind, Prog.wp_ask, inVm, Prog.wp_zoom]
  rcases h.owned.pageAllocAt (h.lt hlive) hlive.dirs hva.1 (validPerm_lt hperm)
    fun q hq =>
      hfits q (h.owned.user (k := .pte e _ _)
        (mem_slots.mpr ⟨h.lt hlive, pdx_lt_of_lt_UTOP hva.1, ptx_lt va⟩)
        hq) with
    ⟨v, pp, hv, ha⟩ | ⟨hv, -⟩
  · exact Prog.wp_ret hv ⟨h.withVm ha.owned, fun hr => absurd rfl hr⟩
  · exact Prog.wp_ret hv ⟨h, fun _ => rfl⟩

theorem PagesOk.envAlloc (h : PagesOk L s) (pid : Word) :
    (∃ e s', Jos.envAlloc pid s = .ret (.ok e) s' ∧ PagesOk L s')
    ∨ ∃ x, Jos.envAlloc pid s = .ret (.error x) s := by
  cases hfirst : s.envFreeList.first with
  | none => exact .inr (envAlloc_error _ (r := 0) (.inl hfirst))
  | some e =>
      rcases h.alloced hfirst pid with ⟨d, hd, hok⟩ | hno
      · exact .inl ⟨e, _, envAlloc_ret hfirst hd, hok⟩
      · exact .inr (envAlloc_error _ (.inr hno))

/-- What an operation comes to: the invariant still holds, and an error has
changed nothing. -/
structure PageOp.Done (L : Layout) (s : Kern) (r : Except Word Unit)
    (s' : Kern) : Prop where
  pages : PagesOk L s'
  failed : ∀ x, r = .error x → s'.vm = s.vm ∧ s'.dirs = s.dirs

/-- Every operation within its contract returns, keeps the invariant, and
changes nothing if it fails. -/
theorem PageOp.run_spec {op : PageOp} (h : PagesOk L s)
    (hfits : Fits L s.dirs s.vm.mem)
    (hop : op.Allowed s) : ∃ r s', op.run s = .ret r s'
      ∧ PageOp.Done L s r s' := by
  have hfit : ∀ e va q, s.Live e → va < UTOP →
      target s.vm.mem s.dirs (.pte e (pdx va) (ptx va)) = some q →
      Countable L s.dirs s.vm.mem q := fun e va q he hva hq =>
    hfits q (h.owned.user (k := .pte e _ _)
      (mem_slots.mpr ⟨h.lt he, pdx_lt_of_lt_UTOP hva, ptx_lt va⟩) hq)
  refine Prog.wp.exists_ret ?_
  cases op with
  | sysPageAlloc c id va perm =>
      simp only [run, Prog.wp_bind, Prog.wp_update]
      obtain ⟨r, s', hret, hok, herr⟩ :=
        (h.switch c).sysPageAlloc id va perm hfits hop rfl
      refine Prog.wp_ret hret (Prog.wp_pure_intro ⟨hok, fun x hx => ?_⟩)
      split at hx
      · cases hx
      · rename_i hr
        rw [herr hr]
        exact ⟨rfl, rfl⟩
  | pageInsert e pp va perm =>
      obtain ⟨he, hva, hperm, k, hk, hdata, hpp⟩ := hop
      rw [← h.ndirs] at hk
      simp only [run, Prog.wp_bind, Prog.wp_ask, inVm, Prog.wp_zoom]
      rcases h.owned.pageInsert (.shared hk hdata hpp)
        (h.lt he) he.dirs hva hperm with
        ⟨v, hv, hst⟩ | ⟨-, -, hv⟩
      · exact Prog.wp_ret hv
          ⟨h.withVm (hst.owned fun q hq _ => hfit e va q he hva hq),
          fun _ h => by cases h⟩
      · exact Prog.wp_ret hv ⟨h, fun _ _ => ⟨rfl, rfl⟩⟩
  | pageRemove e va =>
      obtain ⟨he, hva, hmapped⟩ := hop
      obtain ⟨q, hq⟩ := Option.ne_none_iff_exists'.mp hmapped
      obtain ⟨v, hv, hst⟩ := h.owned.pageRemove (h.lt he) he.dirs hva hq
      simp only [run, Prog.wp_bind, Prog.wp_ask, inVm, Prog.wp_zoom]
      exact Prog.wp_ret hv (Prog.wp_pure_intro
        ⟨h.withVm (hst.owned (hfit e va q he hva hq)), fun _ h => by cases h⟩)
  | envAlloc pid =>
      simp only [run, Prog.wp_bind]
      rcases h.envAlloc pid with ⟨e, s', hret, hok⟩ | ⟨x, hret⟩
      · exact Prog.wp_ret hret (Prog.wp_pure_intro ⟨hok, fun _ h => by cases h⟩)
      · exact Prog.wp_ret hret (Prog.wp_pure_intro ⟨h, fun _ _ => ⟨rfl, rfl⟩⟩)
  | envFree e =>
      obtain ⟨v, hv, hok, -⟩ := h.freed hop hfits
      simp only [run, Prog.wp_bind]
      exact Prog.wp_ret (envFree_ret hv)
        (Prog.wp_pure_intro ⟨hok, fun _ h => by cases h⟩)

end

/-- Reference counts and the free list, in every run of page operations from the
state that `i386_vm_init` and `env_init` leave: the counter of every page is the
number of its references, the page is free, and free once, exactly when there
are none, and every operation returns, and changes nothing if it fails. -/
theorem page_counts {b : BootParams} {s₀ s₁ s : Kern} (hboot : VmBooted b s₀.vm)
    (hinit : envInit s₀ = .ret () s₁)
    (hrun : Runs PageOp.Step
      (fun s op => Fits (bootLayout b s₀.vm) s.dirs s.vm.mem
      ∧ op.Allowed s) s₁ s)
    (hfits : Fits (bootLayout b s₀.vm) s.dirs s.vm.mem) :
    (∀ p, b.Managed p → (s.vm.ppRef p).toNat
      = pageRefs NENV s.vm.mem s.dirs p + bootHold b.pgdir s₀.vm.mem p)
    ∧ (∃ xs, s.vm.pageFreeList.Rep xs ∧ xs.Nodup ∧ ∀ p, p ∈ xs ↔ b.Managed p
      ∧ pageRefs NENV s.vm.mem s.dirs p + bootHold b.pgdir s₀.vm.mem p = 0)
    ∧ ∀ op : PageOp, op.Allowed s → ∃ r s', op.run s = .ret r s'
      ∧ ∀ x, r = .error x → s'.vm = s.vm ∧ s'.dirs = s.dirs := by
  have h : PagesOk (bootLayout b s₀.vm) s := by
    refine hrun.invariant (fun t op t' ht hP hstep => ?_) (hboot.pagesOk hinit)
    obtain ⟨r, u, hu, hdone⟩ := PageOp.run_spec ht hP.1 hP.2
    obtain ⟨r', hr'⟩ := hstep
    cases hu.symm.trans hr'
    exact hdone.pages
  obtain ⟨xs, hrep, hnd, hc⟩ := h.owned.pool
  refine ⟨fun p hp => ?_, ⟨xs, hrep, hnd, hc.free_iff⟩, fun op hop => ?_⟩
  · rw [hc.cnt_eq p hp, BitVec.toNat_ofNat]
    refine Nat.mod_eq_of_lt ?_
    by_cases hhold : bootHold b.pgdir s₀.vm.mem p = 0
    · exact hfits p ⟨hp, hhold⟩
    · have hnone : pageRefs NENV s.vm.mem s.dirs p = 0 :=
        refCount_eq_zero.mpr fun k hk hkp =>
        hhold (h.owned.user hk hkp).2
      have hle := bootHold_le b.pgdir s₀.vm.mem p
      change pageRefs NENV s.vm.mem s.dirs p +
        bootHold b.pgdir s₀.vm.mem p < 2 ^ 16
      omega
  · obtain ⟨r, s', hret, hdone⟩ := PageOp.run_spec h hfits hop
    exact ⟨r, s', hret, hdone.failed⟩

section

variable {L : Layout} {dirs : Nat → Option Nat} {m : PhysMem}

/-- Where at most one entry refers to each page of data, every page is referred
to once at most. -/
theorem refs_le_one (htree : Tree L (target m dirs))
    (hsingle : ∀ k ∈ L.slots, ∀ l ∈ L.slots, ¬k.Node → ¬l.Node →
      ∀ p, target m dirs k = some p →
      target m dirs l = some p → k = l) (p : Nat) :
      refCount L.slots (target m dirs) p ≤ 1 := by
  refine refCount_le_one fun k hk l hl hkp hlp => ?_
  by_cases hkn : k.Node
  · exact (htree.node k hk l hl p hkn hkp hlp).symm
  · by_cases hln : l.Node
    · exact htree.node l hl k hk p hln hlp hkp
    · exact hsingle k hk l hl hkn hln p hkp hlp

/-- Then all counters are exact. -/
theorem fits_of_single (htree : Tree L (target m dirs))
    (hsingle : ∀ k ∈ L.slots, ∀ l ∈ L.slots, ¬k.Node → ¬l.Node →
      ∀ p, target m dirs k = some p →
      target m dirs l = some p → k = l) : Fits L dirs m := by
  intro p hp
  have hone := refs_le_one htree hsingle p
  change refCount L.slots (target m dirs) p + L.hold p < 2 ^ 16
  rw [hp.2]
  omega

end

/-- After the boot three pages and more are free. -/
theorem smallBoot_free {v : Vm} (hboot : VmBooted smallBoot v) :
    ∃ xs, v.pageFreeList.Rep xs ∧ 3 ≤ xs.length := by
  obtain ⟨xs, hrep, hnd, hc⟩ := hboot.owned.pool
  refine ⟨xs, hrep, ?_⟩
  have hmany : ∀ p ∈ Finset.Ico 1024 4096, smallBoot.Managed p := by
    have hn : smallBoot.npage = 4096 := by decide
    have hu : smallBoot.upperlimit = 337 := by decide
    intro p hp
    rw [Finset.mem_Ico] at hp
    simp only [BootParams.Managed, hn, hu]
    omega
  let held := (Finset.range NPDENTRIES).image fun i =>
    (v.mem.link smallBoot.pgdir i).getD 0
  have hsub : Finset.Ico 1024 4096 \ held ⊆ xs.toFinset := by
    intro p hp
    rw [Finset.mem_sdiff] at hp
    have hhold : bootHold smallBoot.pgdir v.mem p = 0 := by
      by_contra hne
      obtain ⟨i, hi, hlink⟩ := bootHold_pos.mp (Nat.pos_of_ne_zero hne)
      exact hp.2
        (Finset.mem_image.mpr ⟨i, Finset.mem_range.mpr hi, by rw [hlink]; rfl⟩)
    have hrefs : refCount (bootLayout smallBoot v).slots
        (target v.mem fun _ => none) p = 0 :=
      refCount_eq_zero.mpr fun k _ hk => by
        rw [target_none] at hk
        cases hk
    have hfree := (hc.free_iff p).mpr ⟨hmany p hp.1, by
      rw [hrefs, Nat.zero_add]
      exact hhold⟩
    exact List.mem_toFinset.mpr hfree
  have hheld : held.card ≤ 1024 :=
    Finset.card_image_le.trans (by rw [Finset.card_range]; decide)
  have hle := (Finset.le_card_sdiff held (Finset.Ico 1024 4096)).trans
    (Finset.card_le_card hsub)
  rw [Nat.card_Ico] at hle
  have := hle.trans (List.toFinset_card_le xs)
  omega

/-- A kernel whose boot is complete, before its first environment. -/
theorem exists_booted : ∃ s₀ s₁ : Kern, VmBooted smallBoot s₀.vm ∧ envInit s₀ =
      .ret () s₁
    ∧ s₁.vm = s₀.vm ∧ s₁.dirs = (fun _ => none) ∧ ∃ e, s₁.envFreeList.first =
      some e := by
  obtain ⟨v, hv⟩ := exists_smallBoot
  obtain ⟨_, s₁, h₁, hvm, -, -, ys, hys, hmem⟩ :=
    (wp_envInit (s := (smallKern 0).withVm v)).exists_ret
  refine ⟨_, s₁, hv, h₁, hvm,
    funext fun e => if_neg ((envInv_of_envInit h₁).2 e), ?_⟩
  refine Option.ne_none_iff_exists'.mp fun hnone => ?_
  rw [hys.first_eq, List.head?_eq_none_iff] at hnone
  have hzero := (hmem 0).mpr (by decide)
  rw [hnone] at hzero
  cases hzero

/-- The page operations within their contracts, after a boot that leaves memory
`v`. -/
abbrev PageRun (v : Vm) : Kern → Kern → Prop :=
  Runs PageOp.Step fun s op => Fits (bootLayout smallBoot v) s.dirs s.vm.mem
    ∧ op.Allowed s

/-- The first environment has an empty address space. -/
theorem exists_firstEnv : ∃ (s₀ s₁ s₂ : Kern) (e d : Nat),
      VmBooted smallBoot s₀.vm ∧ envInit s₀ = .ret () s₁
    ∧ PageRun s₀.vm s₁ s₂ ∧ PagesOk (bootLayout smallBoot s₀.vm) s₂ ∧ s₂.Live e
    ∧ (∀ k ∈ (bootLayout smallBoot s₀.vm).slots,
      target s₂.vm.mem s₂.dirs k = if k = .dir e then some d else none)
    ∧ ∃ xs, s₂.vm.pageFreeList.Rep xs ∧ 2 ≤ xs.length := by
  obtain ⟨s₀, s₁, hboot, hinit, hvm, hdirs, e, hfirst⟩ := exists_booted
  have h₁ := hboot.pagesOk hinit
  have hnone : ∀ m k, target m s₁.dirs k = none :=
    fun m k => by rw [hdirs, target_none]
  have hfits : Fits (bootLayout smallBoot s₀.vm) s₁.dirs s₁.vm.mem :=
    fits_of_single h₁.owned.tree fun k _ l _ _ _ p hk => by
      rw [hnone] at hk
      cases hk
  obtain ⟨he, hfree, -⟩ := h₁.env.alloced hfirst 0 (0, 0) s₁.vm
  have hslot : s₁.dirs e = none := by rw [hdirs]
  obtain ⟨xs, hrep, hlen⟩ := smallBoot_free hboot
  rw [← hvm] at hrep
  rcases h₁.owned.setupPgdir he hslot with
    ⟨d, hd, hsetup, -, -, hfresh⟩ | ⟨-, hno⟩
  · rcases h₁.alloced hfirst 0 with ⟨d', hsetup', h₂⟩ | herr
    · obtain rfl : d = d' := by
        rw [hsetup] at hsetup'
        cases hsetup'
        rfl
      refine ⟨s₀, s₁, _, e, d, hboot, hinit, .single ⟨hfits, trivial⟩
        (l := .envAlloc 0) ⟨.ok (), ?_⟩, h₂, ⟨he, ?_⟩, fun k hk => ?_, ?_⟩
      · exact Prog.bind_ret (envAlloc_ret hfirst hsetup)
      · rw [Kern.alloced_envs_self]
        nofun
      · rw [dirs_alloced he]
        exact (Owned.target_newPgdir hslot hfresh hk).trans (by rw [hnone])
      · obtain ⟨ys, rfl⟩ := hrep.eq_cons hd
        exact ⟨ys, Queue.rep_removeFirst hrep, by simpa using hlen⟩
    · rw [hsetup] at herr
      cases herr
  · rw [hrep.first_eq, List.head?_eq_none_iff] at hno
    rw [hno] at hlen
    exact absurd hlen (by decide)

/-- With two free pages, a new page can be mapped. -/
theorem pageAllocAt_two {L : Layout} {dirs : Nat → Option Nat} {v : Vm}
    {e d : Nat} {va perm : Word} {xs : List Nat}
    (h : Owned L dirs [] v) (hrep : v.pageFreeList.Rep xs)
    (hlen : 2 ≤ xs.length) (he : e < L.ndirs)
    (hd : dirs e = some d) (hva : va < UTOP) (hperm : perm < 0x1000#32) :
    ∃ v' pp, pageAllocAt d va perm v = .ret 0 v'
      ∧ Owned.NewPage L dirs [] e pp va perm v v' := by
  rcases h.pageAllocAt_newPage he hd hva hperm with hnew | ⟨-, hno⟩
  · exact hnew
  · match xs, hlen with
    | p :: q :: xs, _ =>
        have hnone := (hno p hrep.first_eq).2
        rw [show (v.take p).pageFreeList = v.pageFreeList.remove p from rfl,
          (Queue.rep_removeFirst hrep).first_eq] at hnone
        cases hnone

/-- A page in an address space that is empty otherwise. -/
structure OnlyPage (L : Layout) (s : Kern) (e d pp : Nat) (va : Word) :
    Prop where
  owned : Owned L s.dirs [] s.vm
  live : s.Live e
  dir : s.dirs e = some d
  others : ∀ e' < NENV, e' ≠ e → s.dirs e' = none
  mapped : target s.vm.mem s.dirs (.pte e (pdx va) (ptx va)) = some pp
  only : ∀ k ∈ L.slots, ¬k.Node → ∀ p, target s.vm.mem s.dirs k = some p →
    k = .pte e (pdx va) (ptx va)

theorem OnlyPage.single {L : Layout} {s : Kern} {e d pp : Nat} {va : Word}
    (h : OnlyPage L s e d pp va) :
    ∀ k ∈ L.slots, ∀ l ∈ L.slots, ¬k.Node → ¬l.Node →
    ∀ p, target s.vm.mem s.dirs k = some p →
      target s.vm.mem s.dirs l = some p → k = l :=
  fun k hk l hl hkn hln p hkp hlp =>
    (h.only k hk hkn p hkp).trans (h.only l hl hln p hlp).symm

theorem exists_onlyPage : ∃ (s₀ s₁ s₂ : Kern) (e d pp : Nat),
      VmBooted smallBoot s₀.vm ∧ envInit s₀ = .ret () s₁
    ∧ PageRun s₀.vm s₁ s₂ ∧ OnlyPage (bootLayout smallBoot s₀.vm) s₂ e d pp
      UTEXT := by
  obtain ⟨s₀, s₁, s, e, d, hboot, hinit, hrun, hs, he, htgt, ys, hys, hlen⟩ :=
    exists_firstEnv
  have hva : UTEXT < UTOP := by decide
  have hperm : validPerm (PTE_P ||| PTE_U ||| PTE_W) := by decide
  have hdirs : ∀ e' < NENV, s.dirs e' = if e' = e then some d else none :=
    fun e' he' => by
    refine (htgt (.dir e') (mem_slots.mpr he')).trans ?_
    simp only [Slot.dir.injEq]
  have hdir : s.dirs e = some d := (hdirs e he.1).trans (if_pos rfl)
  have hempty : ∀ k ∈ (bootLayout smallBoot s₀.vm).slots, ¬k.Node →
      target s.vm.mem s.dirs k = none :=
    fun k hk hnode => (htgt k hk).trans (if_neg fun heq : k = .dir e =>
      hnode (heq ▸ trivial))
  have hfits : Fits (bootLayout smallBoot s₀.vm) s.dirs s.vm.mem :=
    fits_of_single hs.owned.tree fun k hk l _ hnode _ p hkp => by
      rw [hempty k hk hnode] at hkp
      cases hkp
  obtain ⟨v, pp, hret, hnew⟩ :=
    pageAllocAt_two hs.owned hys hlen he.1 hdir hva (validPerm_lt hperm)
  have hpgdir : (s.envs e).envPgdir = d := (dirs_eq_some.mp hdir).2
  have halloc : sysPageAlloc 0 UTEXT (PTE_P ||| PTE_U ||| PTE_W) (s.switch e) =
      .ret 0 ((s.switch e).withVm v) := by
    unfold sysPageAlloc
    rw [if_neg (by decide), if_neg (not_not.mpr hperm),
      withEnv_ok (c := e) rfl resolve_zero, Prog.ask_bind, inVm,
      Prog.zoom_apply, show ((s.switch e).envs e).envPgdir = d from hpgdir,
      show (s.switch e).vm = s.vm from rfl, hret]
  have hslot : Slot.pte e (pdx UTEXT) (ptx UTEXT) ∈
      (bootLayout smallBoot s₀.vm).slots :=
    mem_slots.mpr ⟨he.1, pdx_lt_of_lt_UTOP hva, ptx_lt _⟩
  refine ⟨s₀, s₁, (s.switch e).withVm v, e, d, pp, hboot, hinit,
    hrun.tail (l := .sysPageAlloc e 0 UTEXT (PTE_P ||| PTE_U ||| PTE_W))
    ⟨hfits, he⟩ ⟨.ok (), Prog.bind_ret halloc⟩, ?_⟩
  constructor
  case owned =>
    exact hnew.owned fun q hq => by
      rw [hempty _ hslot id] at hq
      cases hq
  case live => exact he
  case dir => exact hdir
  case others => exact fun e' he' hne => (hdirs e' he').trans (if_neg hne)
  case mapped =>
    show target v.mem s.dirs _ = _
    rw [target, hnew.pte e _ _ he.1 (pdx_lt_of_lt_UTOP hva) (ptx_lt _),
      if_pos ⟨rfl, rfl, rfl⟩]
    exact mapped_page2pa (Owned.lt_pow hnew.user) (by decide)
  case only =>
    intro k hk hnode p hkp
    have hkp : target v.mem s.dirs k = some p := hkp
    cases k with
    | dir | pde => exact absurd trivial hnode
    | pte e' i j =>
        obtain ⟨he', hi, hj⟩ := mem_slots.mp hk
        by_contra hne
        have hpte := hnew.pte e' i j he' hi hj
        rw [if_neg fun h => hne (by rw [h.1, h.2.1, h.2.2])] at hpte
        have hold := hempty _ hk hnode
        rw [target] at hkp hold
        rw [hpte, hold] at hkp
        cases hkp

/-- Once the page is unmapped, nothing but the directory and the page table is
left. -/
theorem OnlyPage.removed {L : Layout} {s : Kern} {e d pp : Nat} {va : Word}
    {v : Vm} {fits : Prop}
    (h : OnlyPage L s e d pp va) (hL : L.ndirs = NENV) (hva : va < UTOP)
    (hst : Stored L s.dirs [] fits e va 0 s.vm v) :
    (∀ k ∈ L.slots, ¬k.Node → ∀ p, target v.mem s.dirs k ≠ some p)
      ∧ ∀ k ∈ L.slots, target v.mem s.dirs k ≠ some pp := by
  have hslot : Slot.pte e (pdx va) (ptx va) ∈ L.slots :=
    mem_slots.mpr ⟨hL ▸ h.live.1, pdx_lt_of_lt_UTOP hva, ptx_lt _⟩
  have hdata : ∀ k ∈ L.slots, ¬k.Node → ∀ p, target v.mem s.dirs k ≠
      some p := by
    intro k hk hnode p hkp
    cases k with
    | dir | pde => exact absurd trivial hnode
    | pte e' i j =>
        obtain ⟨he', hi, hj⟩ := mem_slots.mp hk
        rw [target, hst.pte e' i j he' hi hj] at hkp
        split at hkp
        · rw [mapped_zero] at hkp
          cases hkp
        · rename_i hne
          cases h.only _ hk id p hkp
          exact hne ⟨rfl, rfl, rfl⟩
  have hnode : ∀ k ∈ L.slots, k.Node → target s.vm.mem s.dirs k ≠ some pp :=
    fun k hk hkn hkp => by
    rw [← h.owned.tree.node k hk _ hslot pp hkn hkp h.mapped] at hkn
    exact hkn
  refine ⟨hdata, fun k hk hkp => ?_⟩
  cases k with
  | dir e' => exact hnode (.dir e') hk trivial hkp
  | pte e' i j => exact hdata _ hk id pp hkp
  | pde e' i =>
      obtain ⟨d', hd', hlink⟩ := Option.bind_eq_some_iff.mp hkp
      obtain rfl : e' = e := by
        by_contra hne
        cases hd'.symm.trans (h.others e' (hL ▸ (mem_slots.mp hk).1) hne)
      obtain rfl : d = d' := Option.some.inj (h.dir.symm.trans hd')
      -- the page table is there, and stays where it is
      obtain ⟨pt, hpt, -⟩ := table_of_target h.dir h.mapped
      have hentry : v.mem.entry d i = s.vm.mem.entry d i :=
        hst.pdes d i h.dir <| by
        by_cases hi : i = pdx va
        · rw [hi, hpt]
          exact .inr (Option.some_ne_none _)
        · exact .inl hi
      rw [PhysMem.link, hentry] at hlink
      exact hnode (.pde e' i) hk trivial
        (Option.bind_eq_some_iff.mpr ⟨d, hd', hlink⟩)

/-- From a booted kernel, an environment is allocated, and a page is mapped in
it and unmapped again. -/
theorem page_counts_small :
    ∃ (s₀ s₁ s₂ s₃ : Kern) (pp : Nat), VmBooted smallBoot s₀.vm
    ∧ envInit s₀ = .ret () s₁ ∧ PageRun s₀.vm s₁ s₂ ∧ PageRun s₀.vm s₂ s₃
    ∧ (s₂.vm.ppRef pp).toNat = 1 ∧ (s₃.vm.ppRef pp).toNat = 0 := by
  obtain ⟨s₀, s₁, s₂, e, d, pp, hboot, hinit, hrun, hs⟩ := exists_onlyPage
  have hva : UTEXT < UTOP := by decide
  have hslot : Slot.pte e (pdx UTEXT) (ptx UTEXT) ∈
      (bootLayout smallBoot s₀.vm).slots :=
    mem_slots.mpr ⟨hs.live.1, pdx_lt_of_lt_UTOP hva, ptx_lt _⟩
  have hfits : Fits (bootLayout smallBoot s₀.vm) s₂.dirs s₂.vm.mem :=
    fits_of_single hs.owned.tree hs.single
  obtain ⟨v, hremove, hst⟩ := hs.owned.pageRemove hs.live.1 hs.dir hva hs.mapped
  obtain ⟨hdata, hgone⟩ := hs.removed rfl hva hst
  have hin : inVm (pageRemove d UTEXT) s₂ = .ret () (s₂.withVm v) := by
    rw [inVm, Prog.zoom_apply, hremove]
  have hstep : (PageOp.pageRemove e UTEXT).run s₂ =
      .ret (.ok ()) (s₂.withVm v) := by
    rw [PageOp.run, Prog.ask_bind, show (s₂.envs e).envPgdir = d from
      (dirs_eq_some.mp hs.dir).2, Prog.bind_ret hin]
    rfl
  have hallowed : (PageOp.pageRemove e UTEXT).Allowed s₂ :=
    ⟨hs.live, hva, fun h => by cases h.symm.trans hs.mapped⟩
  have hrun' : PageRun s₀.vm s₂ (s₂.withVm v) :=
    .single ⟨hfits, hallowed⟩ ⟨.ok (), hstep⟩
  have hfits' : Fits (bootLayout smallBoot s₀.vm) s₂.dirs v.mem :=
    fits_of_single hst.separate.tree fun k hk _ _ hkn _ p hkp =>
      absurd hkp (hdata k hk hkn p)
  have huser : (bootLayout smallBoot s₀.vm).User pp :=
    hs.owned.user hslot hs.mapped
  have hcounts : ∀ s, PageRun s₀.vm s₁ s →
      Fits (bootLayout smallBoot s₀.vm) s.dirs s.vm.mem →
      (s.vm.ppRef pp).toNat = pageRefs NENV s.vm.mem s.dirs pp :=
    fun s hs hfs => by
    rw [(page_counts hboot hinit hs hfs).1 pp huser.1,
      show bootHold smallBoot.pgdir s₀.vm.mem pp = 0 from huser.2, Nat.add_zero]
  refine ⟨s₀, s₁, s₂, s₂.withVm v, pp, hboot, hinit, hrun, hrun', ?_, ?_⟩
  · rw [hcounts s₂ hrun hfits]
    have hle : pageRefs NENV s₂.vm.mem s₂.dirs pp ≤ 1 :=
      refs_le_one hs.owned.tree hs.single pp
    have hpos : 0 < pageRefs NENV s₂.vm.mem s₂.dirs pp :=
      refCount_pos hslot hs.mapped
    exact Nat.le_antisymm hle hpos
  · rw [hcounts _ (hrun.trans hrun') hfits']
    exact refCount_eq_zero.mpr hgone

/-! ## The small kernel -/

/-- What the allocator of the small kernel manages: the directories of its
environments and its free pages. -/
def smallLayout (k : Nat) (hk : k ≤ 10000) : Layout where
  npage := 404 + k
  ndirs := NENV
  bootPgdir := 300
  managed p := 400 ≤ p ∧ p < 404 + k
  hold _ := 0
  npage_le := by omega
  managed_lt _ h := h.2

section

variable {k e p : Nat}

theorem smallKern_live : (smallKern k).Live e ↔ e < 4 := by
  unfold Kern.Live smallKern smallEnv NENV
  simp only
  split <;> simp <;> omega

theorem smallKern_dirs :
    (smallKern k).dirs e = if e < 4 then some (400 + e) else none := by
  by_cases he : e < 4
  · rw [(smallKern_live.mpr he).dirs, if_pos he]
    exact congrArg some (if_pos he)
  · rw [if_neg he]
    exact if_neg fun h => he (smallKern_live.mp h)

theorem smallVm_link (k p i : Nat) : (smallVm k).mem.link p i = none := by
  simp [PhysMem.link, PhysMem.entry, Bytes.load32, smallVm, mapped, present]

/-- Nothing is mapped. -/
theorem smallKern_target {l : Slot}
    (hl : target (smallKern k).vm.mem (smallKern k).dirs l = some p) :
    ∃ e < 4, l = .dir e ∧ p = 400 + e := by
  have hlink : ∀ q i, (smallKern k).vm.mem.link q i = none := smallVm_link k
  cases l with
  | dir e =>
      change (smallKern k).dirs e = some p at hl
      rw [smallKern_dirs] at hl
      split at hl
      · rename_i he
        exact ⟨e, he, rfl, (Option.some.inj hl).symm⟩
      · cases hl
  | pde e i =>
      obtain ⟨d, -, hd⟩ := Option.bind_eq_some_iff.mp hl
      rw [hlink] at hd
      cases hd
  | pte e i j =>
      have hzero : pteAt (smallKern k).vm.mem (smallKern k).dirs e i j = 0 := by
        unfold pteAt
        cases (smallKern k).dirs e with
        | none => rfl
        | some d =>
            rw [Option.bind_some, hlink]
      rw [target, hzero, mapped_zero] at hl
      cases hl

theorem smallKern_pagesOk (hk : k ≤ 10000) :
    PagesOk (smallLayout k hk) (smallKern k) := by
  have hdir : ∀ e, e < 4 → Slot.dir e ∈ (smallLayout k hk).slots := fun e he =>
    mem_slots.mpr (Nat.lt_of_lt_of_le he (show 4 ≤ 1024 by decide))
  have hone : ∀ p, refCount (smallLayout k hk).slots
      (target (smallKern k).vm.mem (smallKern k).dirs) p ≤ 1 := fun p =>
    refCount_le_one fun l _ l' _ hl hl' => by
      obtain ⟨e, he, rfl, hp⟩ := smallKern_target hl
      obtain ⟨e', he', rfl, hp'⟩ := smallKern_target hl'
      obtain rfl : e = e' := by omega
      rfl
  have hpos : ∀ p, 0 < refCount (smallLayout k hk).slots
      (target (smallKern k).vm.mem (smallKern k).dirs) p ↔
      400 ≤ p ∧ p < 404 := by
    intro p
    constructor
    · intro hp
      obtain ⟨l, hl⟩ := Finset.card_pos.mp hp
      obtain ⟨e, he, -, rfl⟩ := smallKern_target (Finset.mem_filter.mp hl).2
      omega
    · intro hp
      have he : p - 400 < 4 := by omega
      refine refCount_pos (hdir (p - 400) he)
        ((smallKern_dirs (e := p - 400)).trans ?_)
      rw [if_pos he, Nat.add_sub_cancel' hp.1]
  refine ⟨rfl, smallKern_envInv k,
    ⟨rfl, rfl, fun e d hd => ?_, ⟨_, Queue.rep_range 404 k,
    List.nodup_range', fun p _ => ?_, fun p => ?_⟩, fun l _ p hl =>
    ?_, fun l _ l' _ p _ hl hl' => ?_⟩,
    fun e he => ?_⟩
  · exact (dirs_eq_some.mp hd).1.1
  · change (if 400 ≤ p ∧ p < 404 then 1 else 0) = _
    have h₁ := hone p
    have h₂ := hpos p
    generalize refCount (smallLayout k hk).slots
      (target (smallKern k).vm.mem (smallKern k).dirs) p = n at h₁ h₂ ⊢
    have h₀ : (smallLayout k hk).hold p = 0 := rfl
    rw [h₀, Nat.add_zero]
    split
    · obtain rfl : n = 1 := by omega
      rfl
    · obtain rfl : n = 0 := by omega
      rfl
  · have h₂ := hpos p
    have h₀ : (smallLayout k hk).hold p = 0 := rfl
    have hm : (smallLayout k hk).managed p ↔ 400 ≤ p ∧ p < 404 + k := Iff.rfl
    rw [List.nil_append, List.mem_range'_1, hm, h₀]
    omega
  · obtain ⟨e, he, -, rfl⟩ := smallKern_target hl
    exact ⟨⟨by omega, by omega⟩, rfl⟩
  · obtain ⟨e, he, rfl, hp⟩ := smallKern_target hl
    obtain ⟨e', he', rfl, hp'⟩ := smallKern_target hl'
    obtain rfl : e = e' := by omega
    rfl
  · have he := smallKern_live.mp he
    simp [smallKern, smallEnv, he]

end

end Jos
