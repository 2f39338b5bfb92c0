import Jos.Kern.Isolation

/-!
# Protection from the start

What `i386_init` does after memory has been set up: it creates the first
environments, each with its program, and runs one of them. The protection holds
from then on (`Launched.protected`). While the environments are made no page is
mapped twice, so all counters are exact.
-/

namespace Jos

open Slot (target)

/-- The segments of the image lie below the stack. -/
def SegmentsFit (binary : Bytes) : Prop :=
  ∀ i, IsSegment binary i → (proghdr binary i).Fits

/-- `ENV_CREATE` of the image. -/
def Creates (s : Kern) (binary : Bytes) (t : Kern) : Prop :=
  envCreate binary s = .ret () t

/-- The kernel that starts in `s₀` runs its first environment in `s`. -/
structure Launched (b : BootParams) (s₀ s : Kern) : Prop where
  vm : VmBooted b s₀.vm
  cur : s₀.curenv = none
  created : ∃ s₁ s₂, envInit s₀ = .ret () s₁
    ∧ Runs Creates (fun _ binary => SegmentsFit binary) s₁ s₂
    ∧ (schedYield : K Unit) s₂ = .away s

/-- Free pages, page tables and the kernel are out of the reach of user code,
and all counters are exact. -/
structure Sealed (L : Layout) (dirs : Nat → Option Nat) (v : Vm) : Prop where
  owned : Owned L dirs [] v
  halved : Halved L dirs v.mem
  fits : Fits L dirs v.mem

section

variable {L : Layout} {dirs : Nat → Option Nat} {v v' : Vm} {m : PhysMem}
  {s t : Kern} {c d e n : Nat} {va : Word} {x : BitVec 8} {binary : Bytes}
  {b : BootParams}

namespace Sealed

/-! ## The loader -/

theorem stores (h : Sealed L dirs v) (hc : c < L.ndirs)
    (hs : Stores dirs c v.mem m) : Sealed L dirs { v with mem := m } where
  owned := h.owned.stores hc hs
  halved := h.halved.frame h.owned.dir_lt
    (hs.frame (e := c) h.owned.tree hc h.owned.dir_lt)
  fits := h.fits.mono fun _ hk _ hp =>
    (hs.target_eq h.owned.tree hc hk).symm.trans hp

section

variable (he : e < L.ndirs) (hd : dirs e = some d)
include he hd

theorem lt_pow (h : Sealed L dirs v) : d < 2 ^ 20 :=
  Owned.lt_pow (h.owned.tree.user_of_nodeOf (nodeOf_dir he hd))

/-- A new page is mapped, whatever was mapped there. -/
theorem wp_segmentPage (h : Sealed L dirs v) (hva : va < UTOP) :
    Prog.wp (segmentPage d va) (fun _ v' => Sealed L dirs v') (fun _ => True)
      (fun _ _ => True) v := by
  unfold segmentPage
  cases hfirst : v.pageFreeList.first with
  | none =>
      apply Prog.wp_bind_intro
      exact Prog.wp_ret (pageAlloc_none hfirst) (Prog.wp_halt_intro trivial)
  | some pp =>
      obtain ⟨hu, hfresh, -⟩ := h.owned.first hfirst
      have hperm : PTE_U ||| PTE_W < 0x1000#32 := by decide
      apply Prog.wp_bind_intro
      refine Prog.wp_ret (pageAlloc_some hfirst) ?_
      apply Prog.wp_bind_intro
      rcases (h.owned.take hfirst).pageInsert .new he hd hva hperm with
        ⟨v', hret, hst⟩ | ⟨-, -, hret⟩
      · refine Prog.wp_ret hret (Prog.wp_pure_intro ?_)
        have hp := hst.patched
        have hslot := pte_mem he (pdx_lt_of_lt_UTOP hva) (ptx_lt va)
        refine ⟨hst.owned fun q hq _ => h.fits q ?_,
          h.halved.frame h.owned.dir_lt hp.frame, hp.fits hd ?_ h.fits⟩
        · exact h.owned.user hslot hq
        · intro q hq k hk hkq
          rw [mapped_page2pa (Owned.lt_pow hu) hperm] at hq
          obtain rfl := Option.some.inj hq
          exact hfresh k hk hkq
      · exact Prog.wp_ret hret (Prog.wp_halt_intro trivial)

/-- Pages are mapped for `n` bytes from `va` on. -/
theorem wp_segmentAlloc (h : Sealed L dirs v) {len : Word}
    (hva : va.toNat + len.toNat + 2 * PGSIZE ≤ UTOP.toNat) :
    Prog.wp (segmentAlloc d va len) (fun _ v' => Sealed L dirs v')
      (fun _ => True) (fun _ _ => True) v := by
  have hU : UTOP.toNat = 0xEEC00000 := rfl
  have hla : (roundDownPage va).toNat = _ := roundDownPage_toNat
  have hsize : (roundUpPage len).toNat = _ :=
    Loading.roundUpPage_toNat (by omega)
  simp only [PGSIZE] at hva hla hsize
  unfold segmentAlloc
  refine Prog.wp_forUp (fun _ v' => Sealed L dirs v') h fun i v' hi h' =>
    h'.wp_segmentPage he hd ?_
  rw [BitVec.toNat_add, hla, hsize, PGSIZE] at hi
  rw [BitVec.lt_def, BitVec.toNat_add, BitVec.toNat_ofNat, hla, hU, PGSIZE]
  omega

theorem wp_storeBytes (h : Sealed L dirs v) {f : Nat → BitVec 8}
    (hva : va.toNat + n ≤ UTOP.toNat) :
    Prog.wp (storeBytes (page2pa d) va n f) (fun _ v' => Sealed L dirs v')
      (fun _ => True) (fun _ _ => True) v := by
  have hU : UTOP.toNat = 0xEEC00000 := rfl
  unfold storeBytes
  refine Prog.wp_forUp (fun _ v' => Sealed L dirs v') h fun i v' hi h' => ?_
  have hbelow : va + BitVec.ofNat 32 i < UTOP := by
    rw [BitVec.lt_def, BitVec.toNat_add, BitVec.toNat_ofNat]
    omega
  refine (kstore8_stays ..).wp (fun _ w hw => ?_) fun _ _ _ => trivial
  obtain ⟨hs, hsame⟩ := kstore8_stores hd (h'.lt_pow he hd) hbelow hw
  rw [hsame]
  exact h'.stores he hs

theorem wp_loadSegment (h : Sealed L dirs v) {ph : Proghdr} (hph : ph.Fits) :
    Prog.wp (loadSegment d (page2pa d) binary ph) (fun _ v' => Sealed L dirs v')
      (fun _ => True) (fun _ _ => True) v := by
  have hbelow := hph.below
  have hfile := hph.file
  have hU : UTOP.toNat = 0xEEC00000 := rfl
  rw [stackPage_toNat] at hbelow
  simp only [PGSIZE] at hbelow
  have hrest : (ph.pMemsz - ph.pFilesz).toNat =
      ph.pMemsz.toNat - ph.pFilesz.toNat := BitVec.toNat_sub_of_le hfile
  have hstart : (ph.pVa + ph.pFilesz).toNat =
      ph.pVa.toNat + ph.pFilesz.toNat := by
    rw [BitVec.toNat_add]
    omega
  unfold loadSegment
  apply Prog.wp_bind_intro
  refine Prog.wp_imp (h.wp_segmentAlloc he hd (by simp only [PGSIZE]; omega))
    (fun _ v' h' => ?_) (fun _ h => h) fun _ _ h => h
  apply Prog.wp_bind_intro
  refine Prog.wp_imp (h'.wp_storeBytes he hd (by omega))
    (fun _ v'' h'' => ?_) (fun _ h => h) fun _ _ h => h
  exact h''.wp_storeBytes he hd (by rw [hstart, hrest]; omega)

end

end Sealed

/-! ## The environments -/

/-- The environments are being made: none runs yet. -/
structure Making (L : Layout) (s : Kern) : Prop where
  guarded : Guarded L s
  fits : Fits L s.dirs s.vm.mem
  cur : s.curenv = none

namespace Making

theorem sealed (h : Making L s) : Sealed L s.dirs s.vm :=
  ⟨h.guarded.pages.owned, h.guarded.halved, h.fits⟩

/-- Memory is loaded for a live environment, whose program counter is set. -/
theorem loaded (h : Making L s) (hv : Sealed L s.dirs v)
    (hsame : SameSpaces (s.withVm v) t) (hcur : t.curenv = s.curenv) :
    Making L t where
  guarded := hsame.guarded ⟨h.guarded.pages.withVm hv.owned, hv.halved⟩
  fits := by
    rw [hsame.dirs, hsame.vm]
    exact hv.fits
  cur := hcur.trans h.cur

/-- `load_icode` keeps to the address space of the environment. -/
theorem wp_loadIcode (h : Making L s) (he : s.Live e)
    (hfit : SegmentsFit binary) :
    Prog.wp (loadIcode e binary) (fun _ t => Making L t) (fun _ => True)
      (fun _ _ => True) s := by
  have hlt := h.guarded.pages.lt he
  have hcr3 : (s.lcr3 (s.envs e).envCr3).cr3 = page2pa (s.envs e).envPgdir :=
    h.guarded.pages.cr3 e he
  have hstack : (USTACKTOP - BitVec.ofNat 32 PGSIZE).toNat
      + (BitVec.ofNat 32 PGSIZE).toNat + 2 * PGSIZE ≤ UTOP.toNat := by decide
  unfold loadIcode
  refine Prog.wp_ite _ (fun _ => Prog.wp_halt_intro trivial) fun _ => ?_
  apply Prog.wp_update_bind
  apply Prog.wp_bind_intro
  refine Prog.wp_imp (Prog.wp_forUp
    (fun _ t => ∃ v, t = (s.lcr3 (s.envs e).envCr3).withVm v
      ∧ Sealed L s.dirs v) ⟨s.vm, rfl, h.sealed⟩ ?_) ?_ (fun _ h => h)
    fun _ _ h => h
  · -- one program header
    rintro i _ hi ⟨v, rfl, hv⟩
    refine Prog.wp_ite _ (fun htype => ?_) fun _ =>
      Prog.wp_pure_intro ⟨v, rfl, hv⟩
    apply Prog.wp_ask_bind
    simp only [inVm, Prog.wp_zoom]
    exact Prog.wp_imp
      (hcr3 ▸ hv.wp_loadSegment hlt he.dirs (hfit i ⟨hi, htype⟩))
      (fun _ v' hv' => ⟨v', rfl, hv'⟩) (fun _ h => h) fun _ _ h => h
  · rintro - _ ⟨v, rfl, hv⟩
    apply Prog.wp_update_bind
    apply Prog.wp_update_bind
    apply Prog.wp_ask_bind
    simp only [inVm, Prog.wp_zoom, Kern.setEnv_envs_self]
    refine Prog.wp_imp (hv.wp_segmentAlloc hlt he.dirs hstack)
      (fun _ v' hv' => ?_) (fun _ h => h) fun _ _ h => h
    -- only the program counter is set besides
    have hframe : SameSpaces (s.withVm v') ((s.withVm v').setEnv e fun env =>
        { env with envTf := { env.envTf with tfEip := eEntry binary } }) :=
      (SameSpaces.refl (s.withVm v')).setEnv Iff.rfl rfl rfl rfl rfl
    exact h.loaded hv' ⟨⟨hframe.ids.id, hframe.ids.parent, hframe.ids.free,
      hframe.ids.list⟩, rfl, hframe.pgdir, hframe.cr3⟩ rfl

/-- `env_alloc` makes an empty address space. -/
theorem alloced (h : Making L s) {pid : Word} {dir : Nat × Word}
    (hfirst : s.envFreeList.first = some e)
    (hret : setupPgdir s.vm = .ret (.ok dir) v) :
    Making L (s.alloced e pid dir v) ∧ (s.alloced e pid dir v).Live e := by
  obtain ⟨he, hfree, -⟩ := h.guarded.pages.env.alloced hfirst pid dir v
  have hnone : s.dirs e = none := if_neg fun hl => hl.2 hfree
  have hg : Guarded L (s.alloced e pid dir v) :=
    (h.guarded.alloced (fun _ => True) (fun _ => True) hfirst hret).1
  refine ⟨⟨hg, ?_, h.cur⟩, he, ?_⟩
  · rcases h.guarded.pages.owned.setupPgdir (h.guarded.pages.ndirs ▸ he)
      hnone with ⟨d, -, hd, -, -, hfresh⟩ | ⟨herr, -⟩
    · cases hret.symm.trans hd
      rw [dirs_alloced he]
      exact h.fits.newPgdir hnone hfresh
    · cases hret.symm.trans herr
  · rw [Kern.alloced_envs_self]
    exact nofun

/-- `ENV_CREATE` keeps the protection. -/
theorem step (h : Making L s) (hfit : SegmentsFit binary)
    (hcreate : Creates s binary t) : Making L t := by
  have hspec : Prog.wp (envCreate binary) (fun _ t => Making L t)
      (fun _ => True) (fun _ _ => True) s := by
    unfold envCreate
    apply Prog.wp_bind_intro
    refine Prog.wp_imp (wp_envAlloc (A := fun _ => True)
      (Q := fun r t => ∀ e, r = .ok e → Making L t ∧ t.Live e)
      (fun _ _ h => by cases h) fun e dir v hfirst hv e' he' => ?_)
      (fun r t ht => ?_) (fun _ h => h) fun _ _ _ => trivial
    · cases he'
      exact h.alloced hfirst hv
    · cases r with
      | error r => exact Prog.wp_halt_intro trivial
      | ok e =>
          obtain ⟨hmake, hlive⟩ := ht e rfl
          exact hmake.wp_loadIcode hlive hfit
  exact hspec.ret hcreate

end Making

/-! ## The start -/

/-- After `env_init` there are no address spaces. -/
theorem VmBooted.making {s₁ : Kern} (h : VmBooted b s.vm)
    (hcur : s.curenv = none) (hinit : envInit s = .ret () s₁) :
    Making (bootLayout b s.vm) s₁ := by
  have hpages := h.pagesOk hinit
  obtain ⟨hvm, hcur', hfree, -⟩ := wp_envInit.ret hinit
  have hnone : s₁.dirs = fun _ => none := funext fun e =>
    if_neg fun he => he.2 (hfree e he.1).1
  have hdata : ∀ k p, target s₁.vm.mem s₁.dirs k ≠ some p := by
    intro k p hp
    exact dirs_ne_none_of_target hp (by rw [hnone])
  refine ⟨⟨hpages, ?_, fun hu => b.pgdir_not_managed hu.1, ?_⟩, ?_,
    hcur'.trans hcur⟩
  · rw [hvm]
    exact h.kernelHalf
  · intro e d hd
    rw [hnone] at hd
    cases hd
  · exact fits_of_single hpages.owned.tree fun k _ _ _ _ _ p hp =>
      absurd hp (hdata k p)

/-- From the start on, free pages, page tables and the kernel are out of the
reach of user code. -/
theorem Launched.protected (h : Launched b s t) :
    Protected (bootLayout b s.vm) t := by
  obtain ⟨s₁, s₂, hinit, hrun, hfirst⟩ := h.created
  have hmake : Making (bootLayout b s.vm) s₂ :=
    hrun.invariant (fun _ _ _ hs hfit hc => hs.step hfit hc)
      (h.vm.making h.cur hinit)
  refine ⟨?_, .schedYield hmake.guarded.pages.env hmake.cur hfirst⟩
  refine Prog.wp.away (Q := fun _ _ => True) (E := fun _ _ => True)
    (A := fun u => Guarded (bootLayout b s.vm) u) ?_ hfirst
  exact wp_schedYield (fun _ _ _ =>
    (SameSpaces.refl s₂).runOn.guarded hmake.guarded) trivial

end

end Jos
