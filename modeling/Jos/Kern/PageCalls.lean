import Jos.Kern.Pages

/-!
# System calls on pages, under the invariant

What `sys_page_map` and `sys_page_unmap` of an environment `c` do when the
environment table and the allocator are consistent. `InsertFails` is the case in
which a page that stays mapped is freed.
-/

namespace Jos

open Slot (target)

/-- A page is mapped at `srcva` of `src`, and may be mapped with `perm`, but
`dst` has no page table for `dstva` and no page is free. -/
structure InsertFails (s : Kern) (src : Nat) (srcva : Word) (dst : Nat)
    (dstva perm : Word) :
    Prop where
  mapped : target s.vm.mem s.dirs (.pte src (pdx srcva) (ptx srcva)) ≠ none
  writable : perm &&& PTE_W ≠ 0 →
    pteAt s.vm.mem s.dirs src (pdx srcva) (ptx srcva) &&& PTE_W ≠ 0
  table : s.vm.mem.link (s.envs dst).envPgdir (pdx dstva) = none
  full : s.vm.pageFreeList.first = none

/-- `pageMapAt` for live environments. -/
inductive MapResult (L : Layout) (s : Kern) (src : Nat) (srcva : Word)
    (dst : Nat)
    (dstva perm : Word) : Except Word Unit → Vm → Prop where
  | refused (hno : ∀ pp, target s.vm.mem s.dirs
      (.pte src (pdx srcva) (ptx srcva)) = some pp →
        perm &&& PTE_W ≠ 0 ∧ pteAt s.vm.mem s.dirs src (pdx srcva)
        (ptx srcva) &&& PTE_W = 0) :
      MapResult L s src srcva dst dstva perm (.error (-E_INVAL)) s.vm
  | mapped {pp : Nat} {v : Vm}
      (hpp : target s.vm.mem s.dirs (.pte src (pdx srcva) (ptx srcva)) =
      some pp)
      (hw : perm &&& PTE_W ≠ 0 →
        pteAt s.vm.mem s.dirs src (pdx srcva) (ptx srcva) &&& PTE_W ≠ 0)
      (hst : Stored L s.dirs []
      (ReplaceFits L s.dirs dst pp dstva s.vm.mem) dst dstva
        (page2pa pp ||| perm ||| PTE_P) s.vm v) :
      MapResult L s src srcva dst dstva perm (.ok ()) v
  | freed {pp : Nat}
      (hpp : target s.vm.mem s.dirs (.pte src (pdx srcva) (ptx srcva)) =
      some pp)
      (hfail : InsertFails s src srcva dst dstva perm) :
      MapResult L s src srcva dst dstva perm (.error (-E_NO_MEM)) (s.vm.give pp)

/-- The arguments of `sys_page_map`, called by `c`. -/
structure MapCall where
  c : Nat
  srcenvid : Word
  srcva : Word
  dstenvid : Word
  dstva : Word
  perm : Word

/-- The call resolves to the environments `src` and `dst`, with arguments that
pass the checks. -/
structure MapCall.Names (a : MapCall) (s : Kern) (src dst : Nat) : Prop where
  src : s.resolve a.c a.srcenvid true = .ok src
  dst : s.resolve a.c a.dstenvid true = .ok dst
  srcva : userPage a.srcva
  dstva : userPage a.dstva
  perm : validPerm a.perm

def MapCall.run (a : MapCall) : K Word :=
  sysPageMap a.srcenvid a.srcva a.dstenvid a.dstva a.perm

/-- What the call comes to: the page is mapped at `dstva` too; the call fails
and nothing changes; or there is no page for a page table, and the page, which
is still mapped at `srcva`, is freed. -/
inductive MapCall.Result (L : Layout) (a : MapCall) (s : Kern) :
    Word → Vm → Prop where
  | failed {r : Word} (hr : r ≠ 0) (hno : ∀ src dst pp, a.Names s src dst →
        target s.vm.mem s.dirs (.pte src (pdx a.srcva) (ptx a.srcva)) =
        some pp →
        a.perm &&& PTE_W ≠ 0
          ∧ pteAt s.vm.mem s.dirs src (pdx a.srcva) (ptx a.srcva) &&&
          PTE_W = 0) :
      Result L a s r s.vm
  | mapped {src dst pp : Nat} {v : Vm} (hnames : a.Names s src dst)
      (hsrc : s.Live src)
      (hdst : s.Live dst)
      (hpp : target s.vm.mem s.dirs (.pte src (pdx a.srcva) (ptx a.srcva)) =
      some pp)
      (hw : a.perm &&& PTE_W ≠ 0 →
        pteAt s.vm.mem s.dirs src (pdx a.srcva) (ptx a.srcva) &&& PTE_W ≠ 0)
      (hst : Stored L s.dirs [] (ReplaceFits L s.dirs dst pp a.dstva s.vm.mem)
      dst a.dstva
        (page2pa pp ||| a.perm ||| PTE_P) s.vm v) : Result L a s 0 v
  | freed {src dst pp : Nat} (hnames : a.Names s src dst) (hsrc : s.Live src)
      (hdst : s.Live dst)
      (hpp : target s.vm.mem s.dirs (.pte src (pdx a.srcva) (ptx a.srcva)) =
      some pp)
      (hfail : InsertFails s src a.srcva dst a.dstva a.perm) :
      Result L a s (-E_NO_MEM) (s.vm.give pp)

section

variable {L : Layout} {s s' t : Kern} {c e src dst : Nat}
  {id va srcva dstva perm r : Word}
  {a : MapCall}

namespace PagesOk

theorem pageMapAt (h : PagesOk L s) (hsrc : s.Live src) (hdst : s.Live dst)
    (hsrcva : srcva < UTOP) (hdstva : dstva < UTOP) (hperm : perm < 0x1000#32) :
    ∃ x v, Jos.pageMapAt (s.envs src).envPgdir srcva
      (s.envs dst).envPgdir dstva perm s.vm
        = .ret x v
      ∧ MapResult L s src srcva dst dstva perm x v := by
  rcases h.owned.pageMapAt (h.lt hsrc) hsrc.dirs hsrcva
    (h.lt hdst) hdst.dirs hdstva hperm with
    ⟨v, pp, hret, hpp, hw, hst⟩ | ⟨hret, hno⟩ | ⟨pp, hret, hpp, hw,
    hnone, hfirst⟩
  · exact ⟨_, v, hret, .mapped hpp hw hst⟩
  · exact ⟨_, _, hret, .refused hno⟩
  · exact ⟨_, _, hret, .freed hpp ⟨hpp ▸ nofun, hw, hnone, hfirst⟩⟩

theorem sysPageMap (h : PagesOk L s) (hc : s.Live a.c)
    (hcur : s.curenv = some a.c) :
    ∃ r v, a.run s = .ret r (s.withVm v) ∧ a.Result L s r v := by
  have key : Prog.wp a.run (fun r s' => ∃ v, s' = s.withVm v ∧ a.Result L s r v)
      (fun _ => False) (fun _ _ => False) s := by
    have hbad : ∀ r, r ≠ 0 → (∀ src dst, ¬a.Names s src dst) →
        ∃ v, s = s.withVm v ∧ a.Result L s r v := fun r hr hno =>
      ⟨s.vm, rfl, .failed hr fun src dst _ hnames =>
        absurd hnames (hno src dst)⟩
    have hname : ∀ id p r, s.resolve a.c id p = .error r → r ≠ 0 :=
      fun id p r hr => by
      rw [resolve_error hr]
      decide
    unfold MapCall.run Jos.sysPageMap
    refine Prog.wp_ite _ (fun hno => Prog.wp_pure_intro
      (hbad _ (by decide) fun _ _ h => hno h.srcva)) fun hsrcva => ?_
    refine Prog.wp_ite _ (fun hno => Prog.wp_pure_intro
      (hbad _ (by decide) fun _ _ h => hno h.dstva)) fun hdstva => ?_
    refine Prog.wp_ite _ (fun hno => Prog.wp_pure_intro
      (hbad _ (by decide) fun _ _ h => hno h.perm)) fun hperm => ?_
    rw [not_not] at hsrcva hdstva hperm
    refine wp_withEnv hcur (fun r hr => hbad r (hname _ _ r hr) fun _ _ h => ?_)
      fun src hsrc => ?_
    · cases hr.symm.trans h.src
    refine wp_withEnv hcur (fun r hr => hbad r (hname _ _ r hr) fun _ _ h => ?_)
      fun dst hdst => ?_
    · cases hr.symm.trans h.dst
    have hls := live_of_resolve hsrc hc
    have hld := live_of_resolve hdst hc
    have hnames : a.Names s src dst := ⟨hsrc, hdst, hsrcva, hdstva, hperm⟩
    obtain ⟨x, v, hret, hres⟩ :=
      h.pageMapAt hls hld hsrcva.1 hdstva.1 (validPerm_lt hperm)
    simp only [Prog.wp_bind, Prog.wp_ask, inVm, Prog.wp_zoom]
    refine Prog.wp_ret hret ?_
    cases hres with
    | refused hno =>
        refine Prog.wp_pure_intro
          ⟨s.vm, rfl, .failed (by decide) fun src' dst' pp hnames' hpp => ?_⟩
        rw [Except.ok.inj (hnames'.src.symm.trans hsrc)] at hpp ⊢
        exact hno pp hpp
    | mapped hpp hw hst =>
        exact Prog.wp_pure_intro ⟨v, rfl, .mapped hnames hls hld hpp hw hst⟩
    | freed hpp hfail =>
        exact Prog.wp_pure_intro ⟨_, rfl, .freed hnames hls hld hpp hfail⟩
  obtain ⟨r, _, hret, v, rfl, hr⟩ := key.exists_ret
  exact ⟨r, v, hret, hr⟩

/-- `sys_page_unmap` fails and changes nothing, unmaps a page, or stops at an
address whose page table has no entry. -/
theorem sysPageUnmap (h : PagesOk L s) (hc : s.Live c)
    (hcur : s.curenv = some c)
    (hret : Jos.sysPageUnmap id va s = .ret r s') :
    ∃ v, s' = s.withVm v ∧ (v = s.vm
      ∨ ∃ e pp, s.resolve c id true = .ok e ∧ s.Live e ∧ userPage va
        ∧ target s.vm.mem s.dirs (.pte e (pdx va) (ptx va)) = some pp
        ∧ Stored L s.dirs [] (Countable L s.dirs s.vm.mem pp) e
          va 0 s.vm v) := by
  have key : Prog.wp (Jos.sysPageUnmap id va) (fun _ s' => ∃ v, s' = s.withVm v
      ∧ (v = s.vm
      ∨ ∃ e pp, s.resolve c id true = .ok e ∧ s.Live e ∧ userPage va
        ∧ target s.vm.mem s.dirs (.pte e (pdx va) (ptx va)) = some pp
        ∧ Stored L s.dirs [] (Countable L s.dirs s.vm.mem pp) e va 0 s.vm v))
      (fun _ => False) (fun _ _ => True) s := by
    unfold Jos.sysPageUnmap
    refine Prog.wp_ite _ (fun _ => Prog.wp_pure_intro
      ⟨s.vm, rfl, .inl rfl⟩) fun hva => ?_
    rw [not_not] at hva
    refine wp_withEnv hcur (fun _ _ => ⟨s.vm, rfl, .inl rfl⟩) fun e he => ?_
    have hlive := live_of_resolve he hc
    have hi := pdx_lt_of_lt_UTOP hva.1
    simp only [Prog.wp_bind, Prog.wp_ask, inVm, Prog.wp_zoom]
    cases hpt : s.vm.mem.link (s.envs e).envPgdir (pdx va) with
    | none => exact Prog.wp_ret (pageRemove_none hpt) (Prog.wp_pure_intro
        ⟨s.vm, rfl, .inl rfl⟩)
    | some pt =>
        cases hpp : s.vm.mem.link pt (ptx va) with
        | none =>
            have hlt := h.owned.lt (h.owned.tree.user_of_nodeOf
              (nodeOf_pde (h.lt hlive) hi hlive.dirs hpt))
            refine Prog.wp_of_runs (fun x v hx => ?_) (fun v hx => ?_)
              fun _ _ _ => trivial
            · rw [pageRemove_absent hpt hlt hpp] at hx
              cases hx
            · rw [pageRemove_absent hpt hlt hpp] at hx
              cases hx
        | some pp =>
            have htarget := (target_pte hlive.dirs hpt).trans hpp
            obtain ⟨v, hv, hst⟩ :=
              h.owned.pageRemove (h.lt hlive) hlive.dirs hva.1 htarget
            exact Prog.wp_ret hv (Prog.wp_pure_intro
              ⟨v, rfl, .inr ⟨e, pp, he, hlive, hva, htarget, hst⟩⟩)
  exact key.ret hret

end PagesOk

end

/-- `PTE_D`, which the processor sets. -/
def PTE_D : Word := 0x040#32

/-- Mapping a writable page onto itself, as `flush_block` does, changes nothing
but its entry, which names the same page and is clean. -/
theorem page_map_self {s : Kern} {c pt pp : Nat} {va : Word}
    (hc : s.curenv = some c)
    (hva : userPage va)
    (hpt : s.vm.mem.link (s.envs c).envPgdir (pdx va) = some pt)
    (hlt : pt < s.vm.npage) (hpp : s.vm.mem.link pt (ptx va) = some pp)
    (hltp : pp < s.vm.npage)
    (hw : s.vm.mem.entry pt (ptx va) &&& PTE_W ≠ 0) :
    ∃ w, sysPageMap 0 va 0 va PTE_USER s =
      .ret 0 (s.withVm (s.vm.setPte (pt, ptx va) w)) ∧
      mapped w = some pp ∧ w &&& PTE_D = 0 := by
  have hp : pp < 2 ^ 20 := by
    have hlt32 := (s.vm.mem.entry pt (ptx va)).isLt
    rw [← (mapped_eq_some.mp hpp).2, ppn_eq]
    omega
  have hmap :
      pageMapAt (s.envs c).envPgdir va (s.envs c).envPgdir va PTE_USER s.vm =
      .ret (.ok ()) (s.vm.setPte (pt, ptx va)
        (page2pa pp ||| PTE_USER ||| PTE_P)) := by
    rw [pageMapAt, Prog.bind_ret (pageLookup_mapped hpt hlt hpp hltp)]
    simp only
    rw [Prog.ask_bind, if_neg (fun h => hw h.2),
      Prog.bind_ret ((pageInsert_some (pgdirWalk_table hpt hlt)).trans
        (storePte_of (unmapOld_same hpp hp))), install_same]
    rfl
  refine ⟨page2pa pp ||| PTE_USER ||| PTE_P, ?_,
    mapped_page2pa hp (by decide), ?_⟩
  · have hperm : validPerm PTE_USER := by decide
    unfold sysPageMap
    rw [if_neg (not_not.mpr hva), if_neg (not_not.mpr hva),
      if_neg (not_not.mpr hperm),
      withEnv_ok hc resolve_zero, withEnv_ok hc resolve_zero, Prog.ask_bind]
    have hrun : inVm (pageMapAt (s.envs c).envPgdir va (s.envs c).envPgdir va
        PTE_USER) s =
        .ret (.ok ()) (s.withVm (s.vm.setPte (pt, ptx va)
          (page2pa pp ||| PTE_USER ||| PTE_P))) := by
      rw [inVm, Prog.zoom_apply, hmap]
    rw [Prog.bind_ret hrun]
    rfl
  · have hhigh : ∀ i, i < 32 → 12 ≤ i → PTE_D.getLsbD i = false := by decide
    have hflags : (PTE_USER ||| PTE_P) &&& PTE_D = 0 := by decide
    have hpage : page2pa pp &&& PTE_D = 0 := by
      apply BitVec.eq_of_getLsbD_eq
      intro i hi
      by_cases h12 : i < 12
      · simp [page2pa, BitVec.getLsbD_shiftLeft, h12]
      · simp [hhigh i hi (by omega)]
    rw [BitVec.or_assoc, BitVec.and_comm, BitVec.and_or_distrib_left,
      BitVec.and_comm, hpage,
      BitVec.and_comm, hflags]
    rfl

end Jos
