import Jos.Vm.Owned

/-!
# The page-table functions under the invariant

What the functions of kern/pmap.c compute when the allocator is consistent: each
returns, and its effect is one of the changes of `Owned`. `page_insert` and the
system calls built on it either succeed, or find no free page for a page table.
-/

namespace Jos

open Slot (target)

section

variable {L : Layout} {dirs : Nat → Option Nat} {out out' : List Nat} {v : Vm}
  {e d i j p q pt pp : Nat} {va perm w : Word} {k : Slot} {msg : String}
  {c : Bool}

/-! ## What they compute -/

theorem checkedPage_apply (h : ppn w < v.npage) :
    checkedPage msg w v = .ret (ppn w) v := by
  unfold checkedPage
  rw [Prog.ask_bind, if_neg (by omega), Prog.pure_apply]

theorem checkedPage_pteAddr (hp : mapped w = some p) (hlt : p < v.npage) :
    checkedPage msg (pteAddr w) v = .ret p v := by
  have h := (mapped_eq_some.mp hp).2
  rw [checkedPage_apply (by rwa [ppn_pteAddr, h]), ppn_pteAddr, h]

theorem kaddr_pteAddr (hp : mapped w = some p) (hlt : p < v.npage) :
    kaddr (pteAddr w) v = .ret p v := checkedPage_pteAddr hp hlt

theorem pa2page_pteAddr (hp : mapped w = some p) (hlt : p < v.npage) :
    pa2page (pteAddr w) v = .ret p v := checkedPage_pteAddr hp hlt

theorem pa2page_page2pa (hp : p < 2 ^ 20) (hlt : p < v.npage) :
    pa2page (page2pa p) v = .ret p v := by
  rw [pa2page, checkedPage_apply (by rwa [ppn_page2pa hp]), ppn_page2pa hp]

theorem page2kva_apply (hp : p < 2 ^ 20) (hlt : p < v.npage) :
    page2kva p v = .ret p v := by
  rw [page2kva, kaddr, checkedPage_apply (by rwa [ppn_page2pa hp]),
    ppn_page2pa hp]

theorem pgdirWalk_table (hpt : v.mem.link d (pdx va) = some pt)
    (hlt : pt < v.npage) :
    pgdirWalk d va c v = .ret (some (pt, ptx va)) v := by
  rw [pgdirWalk, Prog.ask_bind, if_pos (mapped_eq_some.mp hpt).1,
    Prog.bind_ret (kaddr_pteAddr hpt hlt)]
  rfl

theorem pgdirWalk_none (hpt : v.mem.link d (pdx va) = none) :
    pgdirWalk d va false v = .ret none v := by
  rw [pgdirWalk, Prog.ask_bind, if_neg (mapped_eq_none.mp hpt)]
  rfl

/-- A new page table. -/
theorem pgdirWalk_new (hpt : v.mem.link d (pdx va) = none)
    (hfirst : v.pageFreeList.first = some pp) (hp : pp < 2 ^ 20)
    (hlt : pp < v.npage) :
    pgdirWalk d va true v = .ret (some (pp, ptx va))
      (v.addTable d (pdx va) pp) := by
  rw [pgdirWalk, Prog.ask_bind, if_neg (mapped_eq_none.mp hpt), if_pos rfl,
    Prog.bind_ret (pageAlloc_some hfirst)]
  simp only [setPpRef, Prog.update_bind]
  rw [Prog.bind_ret (page2kva_apply hp (by exact hlt))]
  simp only [setPte, Prog.update_bind]
  rw [Prog.bind_ret (kaddr_pteAddr (mapped_table hp) (by exact hlt))]
  rfl

theorem pageDecref_apply : pageDecref pp v = .ret () (v.decref pp) := by
  unfold pageDecref
  rw [Prog.ask_bind, setPpRef, Prog.update_bind]
  by_cases hz : v.ppRef pp - 1 = 0
  · rw [if_pos hz, Vm.decref, if_pos hz]
    rfl
  · rw [if_neg hz, Vm.decref, if_neg hz]
    rfl

theorem pageLookup_none (hpt : v.mem.link d (pdx va) = none) :
    pageLookup d va v = .ret (none, none) v := by
  rw [pageLookup, Prog.bind_ret (pgdirWalk_none hpt)]
  rfl

theorem pageLookup_absent (hpt : v.mem.link d (pdx va) = some pt)
    (hlt : pt < v.npage)
    (hpp : v.mem.link pt (ptx va) = none) :
    pageLookup d va v = .ret (none, some (pt, ptx va)) v := by
  rw [pageLookup, Prog.bind_ret (pgdirWalk_table hpt hlt)]
  simp only
  rw [Prog.ask_bind, if_neg (mapped_eq_none.mp hpp)]
  rfl

theorem pageLookup_mapped (hpt : v.mem.link d (pdx va) = some pt)
    (hlt : pt < v.npage)
    (hpp : v.mem.link pt (ptx va) = some pp) (hltp : pp < v.npage) :
    pageLookup d va v = .ret (some pp, some (pt, ptx va)) v := by
  rw [pageLookup, Prog.bind_ret (pgdirWalk_table hpt hlt)]
  simp only
  rw [Prog.ask_bind, if_pos (mapped_eq_some.mp hpp).1,
    Prog.bind_ret (pa2page_pteAddr hpp hltp)]
  rfl

theorem pageRemove_mapped (hpt : v.mem.link d (pdx va) = some pt)
    (hlt : pt < v.npage)
    (hpp : v.mem.link pt (ptx va) = some pp) (hltp : pp < v.npage) :
    pageRemove d va v = .ret () ((v.decref pp).setPte (pt, ptx va) 0) := by
  rw [pageRemove, Prog.bind_ret (pageLookup_mapped hpt hlt hpp hltp)]
  simp only
  rw [Prog.bind_ret pageDecref_apply]
  rfl

/-- `page_remove` where no page table is does nothing. -/
theorem pageRemove_none (hpt : v.mem.link d (pdx va) = none) :
    pageRemove d va v = .ret () v := by
  rw [pageRemove, Prog.bind_ret (pageLookup_none hpt)]
  rfl

/-- `page_remove` of an empty entry stops. -/
theorem pageRemove_absent (hpt : v.mem.link d (pdx va) = some pt)
    (hlt : pt < v.npage)
    (hpp : v.mem.link pt (ptx va) = none) :
    pageRemove d va v = .stop .nullPointer v := by
  rw [pageRemove, Prog.bind_ret (pageLookup_absent hpt hlt hpp)]
  rfl

/-! ## Inserting a page -/

/-- The end of `page_insert`, when the entry is `pte`. -/
def storePte (pgdir pp : Nat) (va perm : Word) (pte : Nat × Nat) :
    VmM (Except Word Unit) := do
  unmapOld pgdir pp va pte
  setPte pte (page2pa pp ||| perm ||| PTE_P)
  let v ← Prog.ask
  setPpRef pp (v.ppRef pp + 1)
  pure (.ok ())

theorem pageInsert_some {pte : Nat × Nat} {v' : Vm}
    (h : pgdirWalk d va true v = .ret (some pte) v') :
    pageInsert d pp va perm v = storePte d pp va perm pte v' := by
  rw [pageInsert, Prog.bind_ret h]
  rfl

theorem storePte_of {pte : Nat × Nat} {v' : Vm}
    (h : unmapOld d pp va pte v = .ret () v') :
    storePte d pp va perm pte v = .ret (.ok ()) (v'.install pte pp perm) := by
  rw [storePte, Prog.bind_ret h]
  rfl

theorem unmapOld_absent (hpp : v.mem.link pt j = none) :
    unmapOld d pp va (pt, j) v = .ret () v := by
  rw [unmapOld, Prog.ask_bind, if_neg (mapped_eq_none.mp hpp)]
  rfl

theorem unmapOld_same (hpp : v.mem.link pt j = some pp) (hp : pp < 2 ^ 20) :
    unmapOld d pp va (pt, j) v
      = .ret ()
        { v with ppRef := Function.update v.ppRef pp (v.ppRef pp - 1) } := by
  have h := mapped_eq_some.mp hpp
  rw [unmapOld, Prog.ask_bind, if_pos h.1,
    if_neg (not_not.mpr ((pteAddr_eq_page2pa_iff hp _).mpr h.2))]
  rfl

theorem unmapOld_other (hpt : v.mem.link d (pdx va) = some pt)
    (hlt : pt < v.npage)
    (hq : v.mem.link pt (ptx va) = some q) (hltq : q < v.npage)
    (hp : pp < 2 ^ 20)
    (hne : q ≠ pp) : unmapOld d pp va (pt, ptx va) v
      = .ret () ((v.decref q).setPte (pt, ptx va) 0) := by
  have h := mapped_eq_some.mp hq
  rw [unmapOld, Prog.ask_bind, if_pos h.1,
    if_pos
    (fun he => hne (h.2.symm.trans ((pteAddr_eq_page2pa_iff hp _).mp he)))]
  exact pageRemove_mapped hpt hlt hq hltq

/-- Taking back a reference and counting it again only changes the entry. -/
theorem install_same {pte : Nat × Nat} :
    ({ v with ppRef := Function.update v.ppRef pp (v.ppRef pp - 1) } :
    Vm).install pte pp perm
      = v.setPte pte (page2pa pp ||| perm ||| PTE_P) := by
  have h : v.ppRef pp - 1 + 1 = v.ppRef pp := BitVec.sub_add_cancel _ _
  simp only [Vm.install, Vm.setPte, Function.update_self,
    Function.update_idem, h,
    Function.update_eq_self]

/-- The page that `page_insert` is given is one just handed out, or is already
mapped. -/
inductive Avail (L : Layout) (dirs : Nat → Option Nat) (m : PhysMem)
    (pp : Nat) :
    List Nat → List Nat → Prop where
  | new {out : List Nat} : Avail L dirs m pp (pp :: out) out
  | shared {out : List Nat} {k : Slot} (hk : k ∈ L.slots) (hdata : ¬k.Node)
      (hpp : target m dirs k = some pp) : Avail L dirs m pp out out

theorem Avail.user (h : Owned L dirs out v)
    (hav : Avail L dirs v.mem pp out out') :
    L.User pp := by
  cases hav with
  | new => exact (h.not_out (List.mem_cons_self ..)).1
  | shared hk _ hpp => exact h.user hk hpp

/-- The page can still be inserted after a page table was added for it. -/
theorem Avail.addTable {t : Nat} (hav : Avail L dirs v.mem pp out out')
    (h : Owned L dirs out v)
    (he : e < L.ndirs) (hd : dirs e = some d) (hpt : v.mem.link d i = none)
    (hfirst : v.pageFreeList.first = some t) :
    Avail L dirs (v.addTable d i t).mem pp out out' := by
  obtain ⟨hu, hfresh, -⟩ := h.first hfirst
  cases hav with
  | new => exact .new
  | @shared _ k hk hdata hpp =>
      refine .shared hk hdata ?_
      refine (target_addTable h.tree he hd hpt (mapped_table (Owned.lt_pow hu))
        hfresh hk).trans ?_
      rw [if_neg, hpp]
      rintro rfl
      exact hdata trivial

/-- Directories and page tables are referred to once, and are not free. -/
structure Separate (L : Layout) (dirs : Nat → Option Nat) (v : Vm) : Prop where
  tree : Tree L (target v.mem dirs)
  allocated : ∀ xs, v.pageFreeList.Rep xs →
    ∀ e p, NodeOf L v.mem dirs e p → p ∉ xs

/-- `v'` is `v` after the entry for `va` in the directory of `e` was set to `w`.
The allocator stays consistent if the counter of the page that was unmapped
`fits`. -/
structure Stored (L : Layout) (dirs : Nat → Option Nat) (out' : List Nat)
    (fits : Prop)
    (e : Nat) (va w : Word) (v v' : Vm) : Prop where
  owned : fits → Owned L dirs out' v'
  separate : Separate L dirs v'
  npage : v'.npage = v.npage
  frame : Frame L dirs e v.mem v'.mem
  pte : ∀ e' i j, e' < L.ndirs → i < pdxUTOP → j < NPTENTRIES →
    pteAt v'.mem dirs e' i j
    = if e' = e ∧ i = pdx va ∧ j = ptx va then w else pteAt v.mem dirs e' i j
  table : ∀ d, dirs e = some d → ∃ pt, v'.mem.link d (pdx va) = some pt
  pdes : ∀ d i, dirs e = some d → (i ≠ pdx va ∨ v.mem.link d i ≠ none) →
    v'.mem.entry d i = v.mem.entry d i
  data : ∀ q, ¬NodeOf L v'.mem dirs e q → v'.mem q = v.mem q

/-- The counter of the page mapped at `va`, if it is another page than `pp`, is
exact. -/
def ReplaceFits (L : Layout) (dirs : Nat → Option Nat) (e pp : Nat) (va : Word)
    (m : PhysMem) :
    Prop :=
  ∀ q, target m dirs (.pte e (pdx va) (ptx va)) = some q → q ≠ pp →
    Countable L dirs m q

/-- The page tables stay where they are. -/
theorem Stored.tables {fits : Prop} {v' : Vm}
    (h : Stored L dirs out' fits e va w v v')
    (hd : dirs e = some d) (hpt : v.mem.link d i = some pt) :
    v'.mem.link d i = some pt := by
  rw [PhysMem.link, h.pdes d i hd
    (.inr (by rw [hpt]; exact Option.some_ne_none _))]
  exact hpt

/-- A page other than the one that was stored does not gain references. -/
theorem Stored.countable {fits : Prop} {v' : Vm}
    (h : Stored L dirs out' fits e va w v v')
    (ho : Owned L dirs out' v') (hw : mapped w ≠ some q)
    (hq : Countable L dirs v.mem q) :
    Countable L dirs v'.mem q := by
  by_cases hnode : ∃ k ∈ L.slots, k.Node ∧ target v'.mem dirs k = some q
  · obtain ⟨k, hk, hn, hkq⟩ := hnode
    exact ho.countable_node hk hn hkq
  have hle : pageRefs L.ndirs v'.mem dirs q ≤
      pageRefs L.ndirs v.mem dirs q := by
    refine refCount_mono fun k hk hkq => ?_
    have hslot := mem_slots.mp hk
    cases k with
    | dir e' => exact absurd ⟨_, hk, trivial, hkq⟩ hnode
    | pde e' i => exact absurd ⟨_, hk, trivial, hkq⟩ hnode
    | pte e' i j =>
        rw [target, h.pte e' i j hslot.1 hslot.2.1 hslot.2.2] at hkq
        split at hkq
        · exact absurd hkq hw
        · exact hkq
  unfold Countable at hq ⊢
  omega

/-- The references to a page that is mapped are the entries that map it. -/
theorem pageRefs_eq_mapCount {m : PhysMem} (ht : Tree L (target m dirs))
    (hk : k ∈ L.slots)
    (hn : ¬k.Node) (hp : target m dirs k = some p) :
    pageRefs L.ndirs m dirs p = mapCount L.ndirs m dirs p := by
  unfold pageRefs mapCount refCount
  rw [Finset.filter_filter]
  refine congrArg Finset.card (Finset.filter_congr fun l hl => ?_)
  exact ⟨fun hlp => ⟨fun hln => hn (ht.node l hl k hk p hln hlp hp ▸ hln), hlp⟩,
    fun h => h.2⟩

/-- The page table through which a mapped address is mapped. -/
theorem table_of_target {m : PhysMem} (hd : dirs e = some d)
    (hpp : target m dirs (.pte e i j) = some p) :
    ∃ pt, m.link d i = some pt ∧ m.link pt j = some p := by
  cases hpt : m.link d i with
  | none =>
      rw [target_pte_none hd hpt] at hpp
      cases hpp
  | some pt => exact ⟨pt, rfl, (target_pte hd hpt).symm.trans hpp⟩

/-- A mapped page is no directory and no table. -/
theorem Tree.not_nodeOf {m : PhysMem} (ht : Tree L (target m dirs))
    (hk : k ∈ L.slots)
    (hn : ¬k.Node) (hp : target m dirs k = some p) (e : Nat) :
    ¬NodeOf L m dirs e p := by
  rintro ⟨l, hl, hln, -, hlp⟩
  exact hn (ht.node l hl k hk p hln hlp hp ▸ hln)

namespace Owned

theorem separate (h : Owned L dirs out v) : Separate L dirs v := by
  refine ⟨h.tree, fun xs hrep e p hp hx => ?_⟩
  obtain ⟨ys, hrep', -, hc⟩ := h.pool
  obtain ⟨k, hk, -, -, hkp⟩ := hp
  exact (not_target hc (List.mem_append_right _ (hrep'.unique hrep ▸ hx))).2
    k hk hkp

/-- A store to a page-table entry, the page that it unmaps perhaps becoming
free. -/
theorem separate_setPte (h : Owned L dirs out v) (he : e < L.ndirs)
    (hi : i < pdxUTOP)
    (hj : j < NPTENTRIES) (hd : dirs e = some d)
    (hpt : v.mem.link d i = some pt)
    (hq : v.mem.link pt j = some q) {v' : Vm}
    (hm : v'.mem = v.mem.setEntry pt j w)
    (hl : v'.pageFreeList = (v.decref q).pageFreeList)
    (htree : Tree L (target v'.mem dirs)) :
    Separate L dirs v' := by
  refine ⟨htree, fun xs hrep e' p hp hx => ?_⟩
  obtain ⟨ys, hrep', -, hc⟩ := h.pool
  have hslot : Slot.pte e i j ∈ L.slots := mem_slots.mpr ⟨he, hi, hj⟩
  have hkq : target v.mem dirs (.pte e i j) = some q :=
    (target_pte hd hpt).trans hq
  have hqy : q ∉ ys := fun hy =>
    (not_target hc (List.mem_append_right _ hy)).2 _ hslot hkq
  have hmem : p = q ∨ p ∈ ys := by
    rw [hl, Vm.decref] at hrep
    simp only at hrep
    split at hrep
    · rw [hrep.unique (Queue.rep_insertHead hrep' hqy)] at hx
      exact List.mem_cons.mp hx
    · exact .inr (hrep.unique hrep' ▸ hx)
  have hold : NodeOf L v.mem dirs e' p := by
    obtain ⟨k, hk, hn, hke, hkp⟩ := hp
    refine ⟨k, hk, hn, hke, ?_⟩
    rw [hm, target_setPte h.tree he hi hd hpt hk, if_neg] at hkp
    · exact hkp
    · rintro rfl
      exact hn
  rcases hmem with rfl | hy
  · exact h.tree.not_nodeOf hslot Slot.not_node hkq e' hold
  · exact h.separate.allocated ys hrep' e' p hold hy

/-- What the store to the page-table entry of `va` makes of memory. -/
theorem stored (h : Owned L dirs out v) (he : e < L.ndirs)
    (hd : dirs e = some d)
    (hva : va < UTOP) (hpt : v.mem.link d (pdx va) = some pt) {v' : Vm}
    {fits : Prop}
    (hm : v'.mem = v.mem.setEntry pt (ptx va) w) (hn : v'.npage = v.npage)
    (hs : Separate L dirs v') (ho : fits → Owned L dirs out' v') :
    Stored L dirs out' fits e va w v v' := by
  have hi := pdx_lt_of_lt_UTOP hva
  have hlink : ∀ d' i', dirs e = some d' →
      v'.mem.link d' i' = v.mem.link d' i' := by
    intro d' i' hd'
    rw [hm]
    exact link_setPte h.tree he hi hd hpt he hd'
  refine ⟨ho, hs, hn, ?_, ?_, fun d' hd' => ⟨pt, ?_⟩, fun d' i' hd' _ => ?_,
    fun q hq => ?_⟩
  · rw [hm]
    exact frame_setPte h.tree he hi hd hpt
  · intro e' i j he' hi' _
    rw [hm]
    exact pteAt_setPte h.tree he hi hd hpt he' hi'
  · rw [hlink d' _ hd', ← hpt, Option.some.inj (hd'.symm.trans hd)]
  · rw [hm]
    exact PhysMem.entry_setEntry_ne
      (.inl (h.tree.dir_ne_table he hi hd hpt he hd'))
  · rw [hm]
    refine PhysMem.setEntry_of_ne ?_
    rintro rfl
    exact hq (nodeOf_pde he hi hd ((hlink d _ hd).trans hpt))

/-- The page that `page_insert` maps is not used as a directory or a page
table. -/
theorem tree_setPte (h : Owned L dirs out v)
    (hav : Avail L dirs v.mem pp out out')
    (he : e < L.ndirs) (hi : i < pdxUTOP) (hj : j < NPTENTRIES)
    (hd : dirs e = some d)
    (hpt : v.mem.link d i = some pt) (hperm : perm < 0x1000#32) :
    Tree L (target (v.mem.setEntry pt j (page2pa pp ||| perm ||| PTE_P))
      dirs) := by
  have hu := hav.user h
  have hslot : Slot.pte e i j ∈ L.slots := mem_slots.mpr ⟨he, hi, hj⟩
  have ht : ∀ l ∈ L.slots,
      target (v.mem.setEntry pt j (page2pa pp ||| perm ||| PTE_P)) dirs l
      = if l = .pte e i j then some pp else target v.mem dirs l :=
    fun l hl => by
    rw [← mapped_page2pa (lt_pow hu) hperm]
    exact target_setPte h.tree he hi hd hpt hl
  refine h.tree.install (k := .pte e i j) ?_
    (fun l hl hne => by rw [ht l hl, if_neg hne]) hu
    fun l hl hlp => ⟨nofun, ?_⟩
  · rw [ht _ hslot, if_pos rfl]
  · cases hav with
    | new => exact absurd hlp ((h.not_out (List.mem_cons_self ..)).2 l hl)
    | shared hk hdata hpp =>
        exact fun hn => hdata (h.tree.node l hl _ hk pp hn hlp hpp ▸ hn)

/-- The end of `page_insert` under the invariant. -/
theorem storePte (h : Owned L dirs out v) (hav : Avail L dirs v.mem pp out out')
    (he : e < L.ndirs) (hd : dirs e = some d) (hva : va < UTOP)
    (hperm : perm < 0x1000#32)
    (hpt : v.mem.link d (pdx va) = some pt) :
    ∃ v', Jos.storePte d pp va perm (pt, ptx va) v = .ret (.ok ()) v'
      ∧ Stored L dirs out' (ReplaceFits L dirs e pp va v.mem) e va
        (page2pa pp ||| perm ||| PTE_P) v v' := by
  have hi := pdx_lt_of_lt_UTOP hva
  have hj : ptx va < NPTENTRIES := ptx_lt va
  have hlt : pt < v.npage :=
    h.lt (h.tree.user_of_nodeOf (nodeOf_pde he hi hd hpt))
  have hslot : Slot.pte e (pdx va) (ptx va) ∈ L.slots :=
    mem_slots.mpr ⟨he, hi, hj⟩
  cases hq : v.mem.link pt (ptx va) with
  | none =>
      have ho : Owned L dirs out' (v.install (pt, ptx va) pp perm) := by
        cases hav with
        | new => exact h.mapNew he hi hj hd hpt hq hperm
        | shared hk hdata hpp =>
            exact h.share he hi hj hd hpt hq hperm hk hdata hpp
      exact ⟨_, storePte_of (unmapOld_absent hq),
        h.stored he hd hva hpt rfl rfl ho.separate fun _ => ho⟩
  | some q =>
      have htq : target v.mem dirs (.pte e (pdx va) (ptx va)) = some q :=
        (target_pte hd hpt).trans hq
      by_cases hqp : q = pp
      · subst hqp
        refine ⟨_, storePte_of (unmapOld_same hq (lt_pow (h.user hslot htq))),
          ?_⟩
        rw [install_same]
        cases hav with
        | new =>
            exact absurd htq ((h.not_out (List.mem_cons_self ..)).2 _ hslot)
        | shared hk hdata hpp =>
            have ho := h.remap he hi hj hd hpt hq hperm
            exact h.stored he hd hva hpt rfl rfl ho.separate fun _ => ho
      · refine ⟨_,
          storePte_of (unmapOld_other hpt hlt hq (h.lt (h.user hslot htq))
          (lt_pow (hav.user h)) hqp),
          h.stored he hd hva hpt PhysMem.setEntry_setEntry rfl
          (h.separate_setPte he hi hj hd hpt hq PhysMem.setEntry_setEntry rfl
          ?_) fun hfit => ?_⟩
        · change Tree L (target ((v.mem.setEntry pt (ptx va) 0).setEntry pt
            (ptx va) _) dirs)
          rw [PhysMem.setEntry_setEntry]
          exact h.tree_setPte hav he hi hj hd hpt hperm
        -- the old page is unmapped first
        have h₁ := h.unmap he hi hj hd hpt hq (hfit q htq hqp)
        have hpt₁ : (v.mem.setEntry pt (ptx va) 0).link d (pdx va) = some pt :=
          (link_setPte h.tree he hi hd hpt he hd).trans hpt
        have hnone : (v.mem.setEntry pt (ptx va) 0).link pt (ptx va) =
            none := by
          rw [PhysMem.link_setEntry_self, mapped_zero]
        cases hav with
        | new => exact h₁.mapNew he hi hj hd hpt₁ hnone hperm
        | @shared _ k hk hdata hpp =>
            refine h₁.share he hi hj hd hpt₁ hnone hperm hk hdata ?_
            refine (target_setPte h.tree he hi hd hpt hk).trans ?_
            rw [if_neg, hpp]
            rintro rfl
            exact hqp (Option.some.inj (htq.symm.trans hpp))

/-- The change that a new page table makes. -/
theorem addTable_frame (h : Owned L dirs out v) (he : e < L.ndirs)
    (hi : i < pdxUTOP)
    (hd : dirs e = some d) (hfirst : v.pageFreeList.first = some pp) :
    Frame L dirs e v.mem (v.addTable d i pp).mem := by
  obtain ⟨hu, hfresh, -⟩ := h.first hfirst
  have hdata : ∀ e', ¬NodeOf L v.mem dirs e' pp := fun e' ⟨k, hk, _, _, hp⟩ =>
    hfresh k hk hp
  have hzero : Frame L dirs e v.mem (v.mem.zeroPage pp) :=
    frame_of_data hu hdata h.dir_lt fun q hq => PhysMem.zeroPage_of_ne hq
  refine hzero.trans
    (frame_setPde (h.tree.congr fun k hk => target_of_ne hk fun p hp =>
    PhysMem.zeroPage_of_ne fun hpp => hdata _ (hpp ▸ hp)) he hi hd)

/-- `page_insert` under the invariant: it inserts the page, or there is no free
page for the page table and nothing changes. -/
theorem pageInsert (h : Owned L dirs out v)
    (hav : Avail L dirs v.mem pp out out')
    (he : e < L.ndirs) (hd : dirs e = some d) (hva : va < UTOP)
    (hperm : perm < 0x1000#32) :
    (∃ v', Jos.pageInsert d pp va perm v = .ret (.ok ()) v'
      ∧ Stored L dirs out' (ReplaceFits L dirs e pp va v.mem) e va
        (page2pa pp ||| perm ||| PTE_P) v v')
    ∨ (v.mem.link d (pdx va) = none ∧ v.pageFreeList.first = none
      ∧ Jos.pageInsert d pp va perm v = .ret (.error (-E_NO_MEM)) v) := by
  have hi := pdx_lt_of_lt_UTOP hva
  cases hpt : v.mem.link d (pdx va) with
  | some pt =>
      have hlt : pt < v.npage :=
        h.lt (h.tree.user_of_nodeOf (nodeOf_pde he hi hd hpt))
      rw [pageInsert_some (pgdirWalk_table hpt hlt)]
      exact .inl (h.storePte hav he hd hva hperm hpt)
  | none =>
      cases hfirst : v.pageFreeList.first with
      | none =>
          exact .inr ⟨rfl, rfl, pageInsert_noMem (mapped_eq_none.mp hpt) hfirst⟩
      | some t =>
          obtain ⟨hu, hfresh, hout⟩ := h.first hfirst
          rw [pageInsert_some (pgdirWalk_new hpt hfirst (lt_pow hu) (h.lt hu))]
          have h₁ := h.addTable he hi hd hpt hfirst
          have hw := mapped_table (lt_pow hu)
          have hpte : ∀ e' i j, e' < L.ndirs → i < pdxUTOP → j < NPTENTRIES →
              pteAt (v.addTable d (pdx va) t).mem dirs e' i j =
                pteAt v.mem dirs e' i j :=
            fun e' i j he' hi' hj' =>
              pteAt_addTable h.tree he hd hpt hw hfresh he' hi' hj'
          have hlink : (v.addTable d (pdx va) t).mem.link d (pdx va) = some t :=
            PhysMem.link_setEntry_self.trans hw
          have hav₁ := hav.addTable h he hd hpt hfirst
          have hfit₁ :
              ReplaceFits L dirs e pp va (v.addTable d (pdx va) t).mem := by
            intro q hq
            rw [target_pte hd hlink, PhysMem.link, ← pteAt_table hd hlink,
              hpte e _ _ he hi (ptx_lt va), pteAt_noTable hd hpt,
              mapped_zero] at hq
            cases hq
          obtain ⟨v', hv', hins⟩ := h₁.storePte hav₁ he hd hva hperm hlink
          refine .inl ⟨v', hv', fun _ => hins.owned hfit₁, hins.separate,
            hins.npage,
            (h.addTable_frame he hi hd hfirst).trans hins.frame,
            fun e' i j he' hi' hj' => ?_, hins.table, fun d' i hd' hi' =>
            ?_, fun q hq => ?_⟩
          · rw [hins.pte e' i j he' hi' hj', hpte e' i j he' hi' hj']
          · have hne : i ≠ pdx va := hi'.elim id fun hl he => hl <| by
              rw [he, ← Option.some.inj (hd.symm.trans hd'), hpt]
            have hdt : d' ≠ t := fun h =>
              hfresh (.dir e) (mem_slots.mpr he) (h ▸ hd')
            rw [hins.pdes d' i hd' (.inl hne)]
            exact (PhysMem.entry_setEntry_ne (.inr hne)).trans
              (PhysMem.entry_zeroPage_ne hdt)
          · have hd' : q ≠ d := fun hqd => hq (hqd ▸ nodeOf_dir he hd)
            have ht' : q ≠ t := fun hqt =>
              hq (hqt ▸ nodeOf_pde he hi hd (hins.tables hd hlink))
            rw [hins.data q hq]
            exact (PhysMem.setEntry_of_ne hd').trans
              (PhysMem.zeroPage_of_ne ht')

/-- The directory entry of a page table that `page_insert` adds. -/
theorem pageInsert_newTable (h : Owned L dirs out v)
    (hav : Avail L dirs v.mem pp out out')
    (he : e < L.ndirs) (hd : dirs e = some d) (hva : va < UTOP)
    (hperm : perm < 0x1000#32)
    (hpt : v.mem.link d (pdx va) = none) {v' : Vm}
    (hret : Jos.pageInsert d pp va perm v = .ret (.ok ()) v') :
    ∃ t, v'.mem.entry d (pdx va) = page2pa t ||| PTE_U ||| PTE_W ||| PTE_P := by
  have hi := pdx_lt_of_lt_UTOP hva
  cases hfirst : v.pageFreeList.first with
  | none =>
      rw [pageInsert_noMem (mapped_eq_none.mp hpt) hfirst] at hret
      cases hret
  | some t =>
      obtain ⟨hu, hfresh, hout⟩ := h.first hfirst
      rw [pageInsert_some (pgdirWalk_new hpt hfirst (lt_pow hu)
        (h.lt hu))] at hret
      have h₁ := h.addTable he hi hd hpt hfirst
      have hlink : (v.addTable d (pdx va) t).mem.link d (pdx va) = some t :=
        PhysMem.link_setEntry_self.trans (mapped_table (lt_pow hu))
      obtain ⟨v'', hv'', hst⟩ :=
        h₁.storePte (hav.addTable h he hd hpt hfirst) he hd hva hperm hlink
      cases hret.symm.trans hv''
      refine ⟨t, (hst.pdes d _ hd (.inr (hlink ▸ nofun))).trans ?_⟩
      exact PhysMem.entry_setEntry_self

/-- `page_remove` at a mapped address. -/
theorem pageRemove (h : Owned L dirs out v) (he : e < L.ndirs)
    (hd : dirs e = some d)
    (hva : va < UTOP) (hpp : target v.mem dirs (.pte e (pdx va) (ptx va)) =
      some pp) :
    ∃ v', Jos.pageRemove d va v = .ret () v'
      ∧ Stored L dirs out (Countable L dirs v.mem pp) e va 0 v v' := by
  have hi := pdx_lt_of_lt_UTOP hva
  have hj : ptx va < NPTENTRIES := ptx_lt va
  obtain ⟨pt, hpt, hlink⟩ := table_of_target hd hpp
  have hlt := h.lt (h.tree.user_of_nodeOf (nodeOf_pde he hi hd hpt))
  have hslot : Slot.pte e (pdx va) (ptx va) ∈ L.slots :=
    mem_slots.mpr ⟨he, hi, hj⟩
  have hltp := h.lt (h.user hslot hpp)
  refine ⟨_, pageRemove_mapped hpt hlt hlink hltp,
    h.stored he hd hva hpt rfl rfl
    (h.separate_setPte he hi hj hd hpt hlink rfl rfl ?_)
    (h.unmap he hi hj hd hpt hlink)⟩
  have ht : ∀ l ∈ L.slots, target (v.mem.setEntry pt (ptx va) 0) dirs l
      = if l = .pte e (pdx va) (ptx va) then none else target v.mem dirs l :=
    fun l hl => by
    rw [← mapped_zero]
    exact target_setPte h.tree he hi hd hpt hl
  exact h.tree.clear ((ht _ hslot).trans (if_pos rfl)) fun l hl hne =>
    (ht l hl).trans (if_neg hne)

/-- The contents of a page that is no directory and no table do not matter. -/
theorem setData (h : Owned L dirs out v)
    (hdata : ∀ e', ¬NodeOf L v.mem dirs e' p)
    {m' : PhysMem} (hm : ∀ q, q ≠ p → m' q = v.mem q) :
    Owned L dirs out { v with mem := m' } :=
  h.congr rfl rfl rfl rfl fun _ hk => target_of_ne hk fun q hq =>
    hm q fun hqp => hdata _ (hqp ▸ hq)

end Owned

end

end Jos
