import Jos.Kern.Effect
import Jos.Vm.Ops

/-!
# The memory calls under the invariant

What the memory parts of `sys_page_alloc`, `sys_page_map`, `env_setup_vm` and
`env_free` do when the allocator is consistent. The exception is a
`sys_page_map` that finds no page for a page table: it frees the page, which
stays mapped.
-/

namespace Jos

open Slot (target)

section

variable {L : Layout} {dirs : Nat → Option Nat} {out out' : List Nat} {v : Vm}
  {e d i j p q pt pp : Nat} {va perm w : Word} {k : Slot}

namespace Owned

/-! ## New pages -/

/-- `v'` is `v` after a new page `pp`, of zeros, was mapped at `va` for `e`. -/
structure Alloced (L : Layout) (dirs : Nat → Option Nat) (out : List Nat)
    (e pp : Nat)
    (va perm : Word) (v v' : Vm) : Prop where
  owned : Owned L dirs out v'
  user : L.User pp
  frame : Frame L dirs e v.mem v'.mem
  pte : ∀ e' i j, e' < L.ndirs → i < pdxUTOP → j < NPTENTRIES →
    pteAt v'.mem dirs e' i j
    = if e' = e ∧ i = pdx va ∧ j = ptx va then page2pa pp ||| perm ||| PTE_P
      else pteAt v.mem dirs e' i j
  fresh : ∀ k ∈ L.slots, target v.mem dirs k ≠ some pp
  zero : ∀ i < PGSIZE, v'.mem pp i = 0
  data : ∀ q, q ≠ pp → ¬NodeOf L v'.mem dirs e q → v'.mem q = v.mem q

/-- `v'` is `v` after a new page `pp`, of zeros, was mapped at `va` for `e`,
whatever becomes of the page that was mapped there. -/
structure NewPage (L : Layout) (dirs : Nat → Option Nat) (out : List Nat)
    (e pp : Nat)
    (va perm : Word) (v v' : Vm) : Prop where
  owned : (∀ q, target v.mem dirs (.pte e (pdx va) (ptx va)) = some q →
    Countable L dirs v.mem q) →
    Owned L dirs out v'
  tree : Tree L (target v'.mem dirs)
  npage : v'.npage = v.npage
  user : L.User pp
  frame : Frame L dirs e v.mem v'.mem
  pte : ∀ e' i j, e' < L.ndirs → i < pdxUTOP → j < NPTENTRIES →
    pteAt v'.mem dirs e' i j
    = if e' = e ∧ i = pdx va ∧ j = ptx va then page2pa pp ||| perm ||| PTE_P
      else pteAt v.mem dirs e' i j
  pdes : ∀ d i, dirs e = some d → (i ≠ pdx va ∨ v.mem.link d i ≠ none) →
    v'.mem.entry d i = v.mem.entry d i
  newTable : ∀ d, dirs e = some d → v.mem.link d (pdx va) = none →
    ∃ t, v'.mem.entry d (pdx va) = page2pa t ||| PTE_U ||| PTE_W ||| PTE_P
  fresh : ∀ k ∈ L.slots, target v.mem dirs k ≠ some pp
  zero : ∀ i < PGSIZE, v'.mem pp i = 0
  data : ∀ q, q ≠ pp → ¬NodeOf L v'.mem dirs e q → v'.mem q = v.mem q

/-- `sys_page_alloc` on a checked address: a new page is mapped, or there are
not enough free pages and nothing changes. -/
theorem pageAllocAt_newPage (h : Owned L dirs out v) (he : e < L.ndirs)
    (hd : dirs e = some d)
    (hva : va < UTOP) (hperm : perm < 0x1000#32) :
    (∃ v' pp, Jos.pageAllocAt d va perm v = .ret 0 v'
      ∧ NewPage L dirs out e pp va perm v v')
    ∨ (Jos.pageAllocAt d va perm v = .ret (-E_NO_MEM) v
      ∧ ∀ pp, v.pageFreeList.first = some pp →
        v.mem.link d (pdx va) = none ∧ (v.take pp).pageFreeList.first =
          none) := by
  have hi := pdx_lt_of_lt_UTOP hva
  cases hfirst : v.pageFreeList.first with
  | none =>
      refine .inr ⟨?_, fun _ h => by cases h⟩
      rw [Jos.pageAllocAt, Prog.bind_ret (pageAlloc_none hfirst)]
      rfl
  | some pp =>
      obtain ⟨hu, hfresh, -⟩ := h.first hfirst
      have hout := h.take hfirst
      rw [Jos.pageAllocAt, Prog.bind_ret (pageAlloc_some hfirst)]
      simp only
      rcases hout.pageInsert .new he hd hva hperm with
        ⟨v', hv', hst⟩ | ⟨hnone, hnofree, hv'⟩
      · have hslot : Slot.pte e (pdx va) (ptx va) ∈ L.slots :=
          mem_slots.mpr ⟨he, hi, ptx_lt va⟩
        have htarget : target v'.mem dirs (.pte e (pdx va) (ptx va)) =
            some pp := by
          rw [target, hst.pte e _ _ he hi (ptx_lt va), if_pos ⟨rfl, rfl, rfl⟩,
            mapped_page2pa (lt_pow hu) hperm]
        have htree := hst.separate.tree
        have hlt : ∀ q, L.User q → q < v'.npage := fun q hq =>
          hst.npage.symm ▸ h.lt hq
        obtain ⟨pt, hpt, hpp⟩ := table_of_target hd htarget
        have hlookup := pageLookup_mapped hpt
          (hlt _ (htree.user_of_nodeOf (nodeOf_pde he hi hd hpt)))
          hpp (hlt _ hu)
        have hdata := htree.not_nodeOf hslot Slot.not_node htarget
        have hm : ∀ q, q ≠ pp → v'.mem.zeroPage pp q = v'.mem q :=
          fun q hq => PhysMem.zeroPage_of_ne hq
        have hnode : ∀ e', ∀ q, NodeOf L v'.mem dirs e' q →
            v'.mem.zeroPage pp q = v'.mem q :=
          fun e' q hq => hm q fun hqp => hdata e' (hqp ▸ hq)
        have hdir : ∀ d', dirs e = some d' → d' ≠ pp := fun d' hd' hdp =>
          hdata e (hdp ▸ nodeOf_dir he hd')
        refine .inl ⟨{ v' with mem := v'.mem.zeroPage pp }, pp, ?_, ?_⟩
        · change (Jos.pageInsert d pp va perm >>= _) (v.take pp) = _
          rw [Prog.bind_ret hv']
          simp only
          rw [Prog.bind_ret hlookup]
          simp only
          rw [Prog.bind_ret (page2kva_apply (lt_pow hu) (hlt _ hu))]
          rfl
        constructor
        case owned => exact fun hfit =>
          (hst.owned fun q hq _ => hfit q hq).setData hdata hm
        case tree => exact htree.congr fun k hk =>
          target_of_ne hk fun q hq => hnode _ q hq
        case npage => exact hst.npage
        case user => exact hu
        case frame => exact hst.frame.trans (frame_of_data hu hdata h.dir_lt hm)
        case pte =>
          exact fun e' i j he' hi' hj' =>
            (pteAt_of_ne he' hi' (hnode e')).trans (hst.pte e' i j he' hi' hj')
        case pdes =>
          exact fun d' i hd' hi' =>
            (PhysMem.entry_zeroPage_ne (hdir d' hd')).trans
              (hst.pdes d' i hd' hi')
        case newTable =>
          intro d' hd' hnone
          obtain rfl : d = d' := Option.some.inj (hd.symm.trans hd')
          obtain ⟨t, ht⟩ :=
            hout.pageInsert_newTable .new he hd hva hperm hnone hv'
          exact ⟨t, (PhysMem.entry_zeroPage_ne (hdir d hd)).trans ht⟩
        case fresh => exact hfresh
        case zero =>
          intro i hi'
          simp only [PhysMem.zeroPage, Function.update_self]
          exact Bytes.fill_of_mem ⟨Nat.zero_le _, by omega⟩
        case data =>
          intro q hq hqn
          refine (hm q hq).trans (hst.data q fun hn => hqn ?_)
          obtain ⟨k, hk, hkn, hke, hkq⟩ := hn
          exact ⟨k, hk, hkn, hke, (target_of_ne hk (hnode k.env)).trans hkq⟩
      · refine .inr ⟨?_, fun q hq => ?_⟩
        · change (Jos.pageInsert d pp va perm >>= _) (v.take pp) = _
          rw [Prog.bind_ret hv']
          change Outcome.ret (-E_NO_MEM) ((v.take pp).give pp) = _
          rw [h.give_take hfirst]
        · obtain rfl := Option.some.inj hq
          exact ⟨hnone, hnofree⟩

/-- `sys_page_alloc` on a checked address under the invariant: a new page is
mapped, or there are not enough free pages and nothing changes. -/
theorem pageAllocAt (h : Owned L dirs out v) (he : e < L.ndirs)
    (hd : dirs e = some d)
    (hva : va < UTOP) (hperm : perm < 0x1000#32)
    (hfit : ∀ q, target v.mem dirs (.pte e (pdx va) (ptx va)) = some q →
      Countable L dirs v.mem q) :
    (∃ v' pp, Jos.pageAllocAt d va perm v = .ret 0 v'
      ∧ Alloced L dirs out e pp va perm v v')
    ∨ (Jos.pageAllocAt d va perm v = .ret (-E_NO_MEM) v
      ∧ (v.pageFreeList.first = none ∨ v.mem.link d (pdx va) = none)) := by
  rcases h.pageAllocAt_newPage he hd hva hperm with
    ⟨v', pp, hv', hn⟩ | ⟨hv', hno⟩
  · exact .inl ⟨v', pp, hv', hn.owned hfit, hn.user, hn.frame, hn.pte, hn.fresh,
      hn.zero, hn.data⟩
  · refine .inr ⟨hv', ?_⟩
    cases hfirst : v.pageFreeList.first with
    | none => exact .inl rfl
    | some pp => exact .inr (hno pp hfirst).1

/-! ## Mapping a page again -/

/-- `sys_page_map` on checked arguments under the invariant: the page is mapped
at `dstva` too, the call fails and nothing changes, or there is no page for a
page table and the page, which is still mapped at `srcva`, is put on the free
list. -/
theorem pageMapAt (h : Owned L dirs out v) {es ds : Nat} {srcva : Word}
    (hes : es < L.ndirs)
    (hds : dirs es = some ds) (hsrcva : srcva < UTOP) (he : e < L.ndirs)
    (hd : dirs e = some d)
    (hva : va < UTOP) (hperm : perm < 0x1000#32) :
    (∃ v' pp, Jos.pageMapAt ds srcva d va perm v = .ret (.ok ()) v'
      ∧ target v.mem dirs (.pte es (pdx srcva) (ptx srcva)) = some pp
      ∧ (perm &&& PTE_W ≠ 0 → pteAt v.mem dirs es (pdx srcva) (ptx srcva) &&&
        PTE_W ≠ 0)
      ∧ Stored L dirs out (ReplaceFits L dirs e pp va v.mem) e va
        (page2pa pp ||| perm ||| PTE_P) v v')
    ∨ (Jos.pageMapAt ds srcva d va perm v = .ret (.error (-E_INVAL)) v
      ∧ ∀ pp, target v.mem dirs (.pte es (pdx srcva) (ptx srcva)) = some pp →
        perm &&& PTE_W ≠ 0 ∧ pteAt v.mem dirs es (pdx srcva) (ptx srcva) &&&
          PTE_W = 0)
    ∨ (∃ pp, Jos.pageMapAt ds srcva d va perm v =
      .ret (.error (-E_NO_MEM)) (v.give pp)
      ∧ target v.mem dirs (.pte es (pdx srcva) (ptx srcva)) = some pp
      ∧ (perm &&& PTE_W ≠ 0 → pteAt v.mem dirs es (pdx srcva) (ptx srcva) &&&
        PTE_W ≠ 0)
      ∧ v.mem.link d (pdx va) = none ∧ v.pageFreeList.first = none) := by
  have hi := pdx_lt_of_lt_UTOP hsrcva
  cases hpt : v.mem.link ds (pdx srcva) with
  | none =>
      refine .inr (.inl ⟨?_, fun pp hpp => ?_⟩)
      · rw [Jos.pageMapAt, Prog.bind_ret (pageLookup_none hpt)]
        rfl
      · rw [target_pte_none hds hpt] at hpp
        cases hpp
  | some pt =>
      have hlt := h.lt (h.tree.user_of_nodeOf (nodeOf_pde hes hi hds hpt))
      cases hpp : v.mem.link pt (ptx srcva) with
      | none =>
          refine .inr (.inl ⟨?_, fun pp hpp' => ?_⟩)
          · rw [Jos.pageMapAt, Prog.bind_ret (pageLookup_absent hpt hlt hpp)]
            rfl
          · rw [target_pte hds hpt, hpp] at hpp'
            cases hpp'
      | some pp =>
          have hslot : Slot.pte es (pdx srcva) (ptx srcva) ∈ L.slots :=
            mem_slots.mpr ⟨hes, hi, ptx_lt srcva⟩
          have htarget := (target_pte hds hpt).trans hpp
          have hltp := h.lt (h.user hslot htarget)
          rw [Jos.pageMapAt, Prog.bind_ret (pageLookup_mapped hpt hlt hpp hltp)]
          simp only
          rw [Prog.ask_bind]
          by_cases hw : perm &&& PTE_W ≠ 0
            ∧ v.mem.entry pt (ptx srcva) &&& PTE_W = 0
          · refine .inr (.inl ⟨?_, fun _ _ => ?_⟩)
            · rw [if_pos hw, Prog.pure_apply]
            · rwa [pteAt_table hds hpt]
          · rw [if_neg hw]
            have hwrite : perm &&& PTE_W ≠ 0 →
                pteAt v.mem dirs es (pdx srcva) (ptx srcva) &&& PTE_W ≠ 0 :=
              fun hpw he0 =>
              hw ⟨hpw, by rwa [pteAt_table hds hpt] at he0⟩
            rcases h.pageInsert (.shared hslot Slot.not_node htarget) he hd hva
              hperm with
              ⟨v', hv', hst⟩ | ⟨hnone, hfirst, hv'⟩
            · refine .inl ⟨v', pp, ?_, htarget, hwrite, hst⟩
              rw [Prog.bind_ret hv']
              rfl
            · refine .inr (.inr ⟨pp, ?_, htarget, hwrite, hnone, hfirst⟩)
              rw [Prog.bind_ret hv']
              rfl

/-! ## Page directories -/

/-- A page directory as `env_setup_vm` makes it: nothing below `UTOP`, and the
kernel's entries above, with the two that map the directory itself. -/
theorem initPgdir_entry {boot : Nat} (hboot : v.bootPgdir = boot)
    (hi : i < NPDENTRIES) :
    (initPgdir d v).mem.entry d i
      = if i = pdx UVPT then page2pa d ||| PTE_P ||| PTE_U
        else if i = pdx VPT then page2pa d ||| PTE_P ||| PTE_W
        else if i < pdxUTOP then 0 else v.mem.entry boot i := by
  have hi : i < 1024 := hi
  simp only [initPgdir]
  by_cases hu : i = pdx UVPT
  · rw [if_pos hu, hu, PhysMem.entry_setEntry_self]
  rw [if_neg hu, PhysMem.entry_setEntry_ne (.inr hu)]
  by_cases hv : i = pdx VPT
  · rw [if_pos hv, hv, PhysMem.entry_setEntry_self]
  rw [if_neg hv, PhysMem.entry_setEntry_ne (.inr hv)]
  simp only [PhysMem.entry, Function.update_self]
  by_cases hlow : i < pdxUTOP
  · rw [if_pos hlow]
    exact Bytes.load32_fill_zero ⟨Nat.zero_le _, by omega⟩
  · rw [if_neg hlow, Bytes.load32_fill_of_ne (.inr (by omega)), hboot]
    exact Bytes.load32_congr_copy ⟨Nat.zero_le _, by simp only [PGSIZE]; omega⟩

/-- The memory after `env_setup_vm` took page `d` for the directory. -/
def newPgdir (d : Nat) (v : Vm) : Vm :=
  initPgdir d { v.take d with
    ppRef := Function.update v.ppRef d (v.ppRef d + 1) }

theorem initPgdir_of_ne (hq : q ≠ d) : (initPgdir d v).mem q = v.mem q := by
  simp only [initPgdir]
  rw [PhysMem.setEntry_of_ne hq, PhysMem.setEntry_of_ne hq,
    Function.update_of_ne hq]

/-- Below `UTOP` a new page directory is empty. -/
theorem newPgdir_link (hi : i < pdxUTOP) :
    (newPgdir d v).mem.link d i = none := by
  have hi' : i < 955 := hi
  have hlow := initPgdir_entry (v := v) (d := d) rfl (i := i)
    (by show i < 1024; omega)
  have hpu : pdx UVPT = 957 := by decide
  have hpv : pdx VPT = 959 := by decide
  rw [if_neg (by omega), if_neg (by omega), if_pos hi] at hlow
  change mapped ((initPgdir d v).mem.entry d i) = none
  rw [hlow, mapped_zero]

/-- `env_setup_vm` under the invariant, for an environment that is not live. -/
theorem setupPgdir (h : Owned L dirs out v) (he : e < L.ndirs)
    (hnone : dirs e = none) :
    (∃ d, v.pageFreeList.first = some d
      ∧ Jos.setupPgdir v = .ret (.ok (d, page2pa d)) (newPgdir d v)
      ∧ Owned L (Function.update dirs e (some d)) out (newPgdir d v) ∧ L.User d
      ∧ ∀ k ∈ L.slots, target v.mem dirs k ≠ some d)
    ∨ (Jos.setupPgdir v = .ret (.error (-E_NO_MEM)) v ∧ v.pageFreeList.first =
      none) := by
  cases hfirst : v.pageFreeList.first with
  | none =>
      refine .inr ⟨?_, rfl⟩
      rw [Jos.setupPgdir, Prog.bind_ret (pageAlloc_none hfirst)]
      rfl
  | some d =>
      obtain ⟨hu, hfresh, -⟩ := h.first hfirst
      have hout := h.take hfirst
      refine .inl ⟨d, rfl, ?_,
        hout.addDir he hnone rfl rfl rfl rfl (fun q hq => initPgdir_of_ne hq)
        fun i hi => newPgdir_link hi, hu, hfresh⟩
      rw [Jos.setupPgdir, Prog.bind_ret (pageAlloc_some hfirst)]
      simp only
      rw [Prog.bind_ret (page2kva_apply (lt_pow hu) (by exact h.lt hu)),
        Prog.ask_bind]
      rfl

/-- What the page tables refer to when there is a new page directory. -/
theorem target_newPgdir (hnone : dirs e = none)
    (hfresh : ∀ k ∈ L.slots, target v.mem dirs k ≠ some d) {k : Slot}
    (hk : k ∈ L.slots) :
    target (newPgdir d v).mem (Function.update dirs e (some d)) k
      = if k = .dir e then some d else target v.mem dirs k :=
  target_addDir (fun _ hq => initPgdir_of_ne hq) (fun _ hi => newPgdir_link hi)
    hfresh hnone hk

end Owned

/-! ## Freeing an address space -/

/-- The loop of `env_free` is at directory index `n`, and so far only references
of `e` have gone away. -/
structure Freeing (L : Layout) (dirs : Nat → Option Nat) (out : List Nat)
    (e d : Nat)
    (m₀ : PhysMem) (n : Nat) (v : Vm) : Prop where
  owned : Owned L dirs out v
  frame : Frame L dirs e m₀ v.mem
  fits : Fits L dirs v.mem
  empty : ∀ i < n, v.mem.link d i = none

/-- `page_remove` of every page in the table at directory index `i`. -/
theorem wp_freeTable {m₀ : PhysMem} (he : e < L.ndirs) (hd : dirs e = some d)
    (hi : i < pdxUTOP)
    (h : Freeing L dirs out e d m₀ i v) (hpt : v.mem.link d i = some pt) :
    Prog.wp (Prog.forUp NPTENTRIES fun pteno => do
        let v ← Prog.ask
        if present (v.mem.entry pt pteno) then
          pageRemove d (pgaddr i pteno) : VmM Unit)
      (fun _ v' => Freeing L dirs out e d m₀ i v' ∧ v'.mem.link d i = some pt
        ∧ ∀ j < NPTENTRIES, v'.mem.link pt j = none)
      (fun _ => False) (fun _ _ => False) v := by
  refine Prog.wp_forUp (fun n v' => Freeing L dirs out e d m₀ i v'
    ∧ v'.mem.link d i = some pt
    ∧ ∀ j < n, v'.mem.link pt j = none) ⟨h, hpt, fun j hj =>
    absurd hj (Nat.not_lt_zero j)⟩ ?_
  rintro j v' hj ⟨h', hpt', hempty⟩
  have hj : j < 1024 := hj
  have hnext : v'.mem.link pt j = none → ∀ j' < j + 1, v'.mem.link pt j' =
      none := by
    intro hnone j' hj'
    rcases Nat.lt_succ_iff_lt_or_eq.mp hj' with hlt | rfl
    · exact hempty j' hlt
    · exact hnone
  simp only [Prog.wp_bind, Prog.wp_ask]
  refine Prog.wp_ite _ (fun hp => ?_) fun hp =>
    Prog.wp_pure_intro ⟨h', hpt', hnext (mapped_of_absent hp)⟩
  have hpp : v'.mem.link pt j = some (ppn (v'.mem.entry pt j)) :=
    mapped_of_present hp
  have hd1024 : i < 1024 := by rw [pdxUTOP_eq] at hi; omega
  have hpdx : pdx (pgaddr i j) = i := pdx_pgaddr hd1024 hj
  have hptx : ptx (pgaddr i j) = j := ptx_pgaddr hd1024 hj
  have hslot : Slot.pte e i j ∈ L.slots := mem_slots.mpr ⟨he, hi, hj⟩
  have htarget := (target_pte hd hpt').trans hpp
  have huser := h'.owned.user hslot htarget
  rw [← hpdx] at hpt'
  have hlt := h'.owned.lt (h'.owned.tree.user_of_nodeOf
    (nodeOf_pde he (hpdx.symm ▸ hi) hd hpt'))
  refine Prog.wp_ret (pageRemove_mapped hpt' hlt (hptx.symm ▸ hpp)
    (h'.owned.lt huser)) ?_
  rw [hpdx] at hpt'
  rw [hptx]
  have hstored := fun k (hk : k ∈ L.slots) =>
    target_setPte (j := j) (w := 0) h'.owned.tree he hi hd hpt' hk
  have hlink : ∀ i', (v'.mem.setEntry pt j 0).link d i' = v'.mem.link d i' :=
    fun i' => link_setPte h'.owned.tree he hi hd hpt' he hd
  refine ⟨⟨h'.owned.unmap he hi hj hd hpt' hpp (h'.fits _ huser),
    h'.frame.trans (frame_setPte h'.owned.tree he hi hd hpt'),
    h'.fits.mono fun k hk p hkp => ?_,
    fun i' hi' => (hlink i').trans (h'.empty i' hi')⟩, (hlink i).trans hpt',
    fun j' hj' => ?_⟩
  · replace hkp := (hstored k hk).symm.trans hkp
    split at hkp
    · rw [mapped_zero] at hkp
      cases hkp
    · exact hkp
  · rcases Nat.lt_succ_iff_lt_or_eq.mp hj' with hlt' | rfl
    · exact (PhysMem.link_setEntry_ne (.inr (by omega))).trans (hempty j' hlt')
    · exact PhysMem.link_setEntry_self.trans mapped_zero

/-- `env_free` unmaps everything below `UTOP`. -/
theorem wp_freeUserPages (h : Owned L dirs out v) (he : e < L.ndirs)
    (hd : dirs e = some d)
    (hfits : Fits L dirs v.mem) :
    Prog.wp (freeUserPages d)
      (fun _ v' => Freeing L dirs out e d v.mem pdxUTOP v')
      (fun _ => False) (fun _ _ => False) v := by
  refine Prog.wp_forUp (Freeing L dirs out e d v.mem)
    ⟨h, .refl, hfits, fun i hi => absurd hi (Nat.not_lt_zero i)⟩ ?_
  intro i v' hi h'
  have hnext : ∀ v'' : Vm, v''.mem.link d i = none →
      (∀ i', i' ≠ i → v''.mem.link d i' = v'.mem.link d i') →
      ∀ i' < i + 1, v''.mem.link d i' = none := by
    intro v'' hnone hsame i' hi'
    rcases Nat.lt_succ_iff_lt_or_eq.mp hi' with hlt | rfl
    · rw [hsame i' (by omega), h'.empty i' hlt]
    · exact hnone
  simp only [Prog.wp_bind, Prog.wp_ask]
  refine Prog.wp_ite _ (fun hp => ?_) fun hp => Prog.wp_pure_intro
    ⟨h'.owned, h'.frame, h'.fits, hnext v' (mapped_of_absent hp) fun _ _ => rfl⟩
  have hpt : v'.mem.link d i = some (ppn (v'.mem.entry d i)) :=
    mapped_of_present hp
  have hltp :=
    h'.owned.lt (h'.owned.tree.user_of_nodeOf (nodeOf_pde he hi hd hpt))
  simp only [Prog.wp_bind]
  refine Prog.wp_ret (kaddr_pteAddr hpt hltp) ?_
  refine Prog.wp_imp (wp_freeTable he hd hi h' hpt) ?_ (fun _ h => h)
    fun _ _ h => h
  rintro _ v'' ⟨h'', hpt'', hempty⟩
  simp only [setPte, Prog.wp_update]
  refine Prog.wp_ret (pa2page_pteAddr hpt (h''.owned.lt
    (h''.owned.tree.user_of_nodeOf (nodeOf_pde he hi hd hpt'')))) ?_
  refine Prog.wp_ret pageDecref_apply ?_
  refine ⟨h''.owned.dropTable he hi hd hpt'' hempty,
    h''.frame.trans (frame_setPde h''.owned.tree he hi hd),
    h''.fits.mono fun k hk p hkp => ?_,
    fun i' hi' => ?_⟩
  · replace hkp :=
      (target_dropTable h''.owned.tree he hd hpt'' hempty hk).symm.trans hkp
    split at hkp
    · cases hkp
    · exact hkp
  · change (v''.mem.setEntry d i 0).link d i' = none
    rcases Nat.lt_succ_iff_lt_or_eq.mp hi' with hlt | rfl
    · rw [PhysMem.link_setEntry_ne (.inr (by omega)), h''.empty i' hlt]
    · exact PhysMem.link_setEntry_self.trans mapped_zero

/-- The part of `env_free` that concerns memory, under the invariant: the page
directory and all that is only mapped through it is freed. -/
theorem Owned.freeVm (h : Owned L dirs out v) (hd : dirs e = some d)
    (hfits : Fits L dirs v.mem) :
    ∃ v', Jos.freeVm d (page2pa d) v = .ret () v'
      ∧ Owned L (Function.update dirs e none) out v'
      ∧ Frame L dirs e v.mem v'.mem := by
  have he := h.dir_lt e d hd
  obtain ⟨_, v', hv', hf⟩ := (wp_freeUserPages h he hd hfits).exists_ret
  have hu := hf.owned.tree.user_of_nodeOf (nodeOf_dir he hd)
  refine ⟨_, ?_, hf.owned.dropDir hd hf.empty, hf.frame⟩
  rw [Jos.freeVm, Prog.bind_ret hv',
    Prog.bind_ret (pa2page_page2pa (lt_pow hu) (hf.owned.lt hu))]
  exact pageDecref_apply

end

end Jos
