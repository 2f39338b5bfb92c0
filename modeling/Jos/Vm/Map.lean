import Jos.Kern.Small
import Jos.Vm.Calls

/-!
# Page tables as a map

`page_lookup` reads a map from directories and virtual pages to pages with
flags, which `page_insert` and `page_remove` change at one place. The two
windows that a directory has on itself are an exception: where `page_insert`
adds a page table, they come to show it.
-/

namespace Jos

open Slot (target)

/-- What `page_lookup` yields, when it returns: a page and its flags, or
nothing. -/
def lookup (d : Nat) (va : Word) (v : Vm) : Option (Option (Nat × Word)) :=
  match pageLookup d va v with
  | .ret (some pp, some pte) v' =>
      some (some (pp, v'.mem.entry pte.1 pte.2 &&& 0xFFF#32))
  | .ret _ _ => some none
  | _ => none

/-- At `UTOP` and above, directories refer to pages of the kernel's, and to
themselves in the windows at `VPT` and `UVPT`. -/
def Windowed (L : Layout) (dirs : Nat → Option Nat) (m : PhysMem) : Prop :=
  ∀ e d, dirs e = some d → ∀ i, pdxUTOP ≤ i → i < NPDENTRIES →
    ∀ q, m.link d i = some q →
    ¬L.User q ∨ ((i = pdx VPT ∨ i = pdx UVPT) ∧ q = d)

/-- The two addresses are in one virtual page. -/
def SamePage (va va' : Word) : Prop := pdx va = pdx va' ∧ ptx va = ptx va'

/-- In the windows, `va'` shows the page table for `va`. -/
def Shows (va' va : Word) : Prop :=
  (pdx va' = pdx VPT ∨ pdx va' = pdx UVPT) ∧ ptx va' = pdx va

section

variable {L : Layout} {dirs : Nat → Option Nat} {out out' : List Nat}
  {v v' : Vm}
  {e d p pp pt : Nat} {va va' perm w : Word} {fits : Prop}

/-! ## What a lookup depends on -/

theorem checkedPage_stop {msg : String} (hp : mapped w = some p)
    (hle : v.npage ≤ p) :
    checkedPage msg (pteAddr w) v = .stop (.panic msg) v := by
  unfold checkedPage
  rw [Prog.ask_bind, ppn_pteAddr, (mapped_eq_some.mp hp).2, if_pos hle]
  rfl

theorem lookup_eq : lookup d va v = match v.mem.link d (pdx va) with
    | none => some none
    | some pt =>
        if v.npage ≤ pt then none
        else match v.mem.link pt (ptx va) with
          | none => some none
          | some pp =>
              if v.npage ≤ pp then none
              else some (some (pp, v.mem.entry pt (ptx va) &&& 0xFFF#32)) := by
  cases hpt : v.mem.link d (pdx va) with
  | none => rw [lookup, pageLookup_none hpt]
  | some pt =>
      by_cases hlt : v.npage ≤ pt
      · have hwalk : pgdirWalk d va false v
            = .stop (.panic "KADDR called with invalid pa %08lx") v := by
          rw [pgdirWalk, Prog.ask_bind, if_pos (mapped_eq_some.mp hpt).1]
          exact Prog.bind_stop (checkedPage_stop hpt hlt)
        simp only
        rw [if_pos hlt, lookup, pageLookup, Prog.bind_stop hwalk]
      · have hlt' := Nat.lt_of_not_le hlt
        simp only
        rw [if_neg hlt]
        cases hpp : v.mem.link pt (ptx va) with
        | none => rw [lookup, pageLookup_absent hpt hlt' hpp]
        | some pp =>
            by_cases hltp : v.npage ≤ pp
            · have hstop : pageLookup d va v
                  = .stop (.panic "pa2page called with invalid pa") v := by
                rw [pageLookup, Prog.bind_ret (pgdirWalk_table hpt hlt')]
                simp only
                rw [Prog.ask_bind, if_pos (mapped_eq_some.mp hpp).1]
                exact Prog.bind_stop (checkedPage_stop hpp hltp)
              simp only
              rw [if_pos hltp, lookup, hstop]
            · simp only
              rw [if_neg hltp, lookup,
                pageLookup_mapped hpt hlt' hpp (Nat.lt_of_not_le hltp)]

/-- A lookup depends on the directory's entry and the table's. -/
theorem lookup_congr (hn : v'.npage = v.npage)
    (hd : v'.mem.entry d (pdx va) = v.mem.entry d (pdx va))
    (hpt : ∀ pt, v.mem.link d (pdx va) = some pt →
      v'.mem.entry pt (ptx va) = v.mem.entry pt (ptx va)) :
      lookup d va v' = lookup d va v := by
  have hlink : v'.mem.link d (pdx va) = v.mem.link d (pdx va) :=
    congrArg mapped hd
  rw [lookup_eq, lookup_eq, hlink, hn]
  cases hl : v.mem.link d (pdx va) with
  | none => rfl
  | some pt =>
      have hentry := hpt pt hl
      have hlink' : v'.mem.link pt (ptx va) = v.mem.link pt (ptx va) :=
        congrArg mapped hentry
      simp only [hlink', hentry]

/-- Below `UTOP`, a lookup reads the page-table entry. -/
theorem lookup_of_tree (ht : Tree L (target v.mem dirs))
    (hn : v.npage = L.npage)
    (he : e < L.ndirs) (hd : dirs e = some d) (hi : pdx va < pdxUTOP) :
    lookup d va v =
      some ((mapped (pteAt v.mem dirs e (pdx va) (ptx va))).map fun p =>
      (p, pteAt v.mem dirs e (pdx va) (ptx va) &&& 0xFFF#32)) := by
  have hlt : ∀ p, L.User p → ¬v.npage ≤ p := fun p hp =>
    Nat.not_le_of_lt (hn ▸ L.managed_lt p hp.1)
  rw [lookup_eq]
  cases hpt : v.mem.link d (pdx va) with
  | none =>
      rw [pteAt_noTable hd hpt, mapped_zero]
      rfl
  | some pt =>
      simp only
      rw [if_neg (hlt pt (ht.user_of_nodeOf (nodeOf_pde he hi hd hpt))),
        pteAt_table hd hpt]
      cases hpp : v.mem.link pt (ptx va) with
      | none =>
          rw [show mapped (v.mem.entry pt (ptx va)) = none from hpp]
          rfl
      | some pp =>
          have hslot : Slot.pte e (pdx va) (ptx va) ∈ L.slots :=
            mem_slots.mpr ⟨he, hi, ptx_lt va⟩
          have hu := ht.user _ hslot pp ((target_pte hd hpt).trans hpp)
          rw [show mapped (v.mem.entry pt (ptx va)) = some pp from hpp]
          simp only
          rw [if_neg (hlt pp hu)]
          rfl

/-! ## What a store changes -/

/-- At the address of the store, a lookup yields what was stored. -/
theorem Stored.lookup_self (hst : Stored L dirs out' fits e va w v v')
    (hn : v.npage = L.npage)
    (he : e < L.ndirs) (hd : dirs e = some d) (hva : va < UTOP) :
    lookup d va v' = some ((mapped w).map fun p => (p, w &&& 0xFFF#32)) := by
  have hi := pdx_lt_of_lt_UTOP hva
  rw [lookup_of_tree hst.separate.tree (hst.npage.trans hn) he hd hi,
    hst.pte e _ _ he hi (ptx_lt va), if_pos ⟨rfl, rfl, rfl⟩]

/-- Every other lookup yields what it did, but for the windows on a new page
table. -/
theorem Stored.lookup_other (hst : Stored L dirs out' fits e va w v v')
    (h : Owned L dirs out v)
    (hw : Windowed L dirs v.mem) {e' d' : Nat} (hd' : dirs e' = some d')
    (hne : ¬(e' = e ∧ SamePage va' va))
    (hshow : ¬(e' = e ∧ Shows va' va ∧ v.mem.link d' (pdx va) = none)) :
    lookup d' va' v' = lookup d' va' v := by
  have he' := h.dir_lt e' d' hd'
  by_cases hi : pdx va' < pdxUTOP
  · rw [lookup_of_tree hst.separate.tree (hst.npage.trans h.npage) he' hd' hi,
      lookup_of_tree h.tree h.npage he' hd' hi,
      hst.pte e' _ _ he' hi (ptx_lt va'),
      if_neg fun hs => hne ⟨hs.1, hs.2⟩]
  have hupper := Nat.le_of_not_lt hi
  have hother : e' ≠ e → v'.mem d' = v.mem d' := fun hee =>
    hst.frame.other e' d' hee (nodeOf_dir he' hd')
  refine lookup_congr hst.npage ?_ fun pt hpt => ?_
  · by_cases hee : e' = e
    · exact hst.frame.upper d' (hee ▸ hd') _ hupper
    · exact PhysMem.entry_congr (hother hee)
  · rcases hw e' d' hd' _ hupper (pdx_lt va') pt hpt with hu | ⟨hwin, rfl⟩
    · exact PhysMem.entry_congr (hst.frame.kernel pt hu)
    · by_cases hee : e' = e
      · refine hst.pdes pt _ (hee ▸ hd') ?_
        by_contra hno
        rw [not_or, not_not, not_not] at hno
        exact hshow ⟨hee, ⟨hwin, hno.1⟩, hno.1 ▸ hno.2⟩
      · exact PhysMem.entry_congr (hother hee)

/-- The entries above `UTOP` stay. -/
theorem Stored.windowed (hst : Stored L dirs out' fits e va w v v')
    (h : Owned L dirs out v)
    (hw : Windowed L dirs v.mem) : Windowed L dirs v'.mem := by
  intro e' d' hd' i hi hlt q hq
  have he' := h.dir_lt e' d' hd'
  have hentry : v'.mem.entry d' i = v.mem.entry d' i := by
    by_cases hee : e' = e
    · exact hst.frame.upper d' (hee ▸ hd') i hi
    · exact PhysMem.entry_congr (hst.frame.other e' d' hee (nodeOf_dir he' hd'))
  rw [PhysMem.link, hentry] at hq
  exact hw e' d' hd' i hi hlt q hq

/-- The flags of the entry that `page_insert` stores. -/
theorem flags_page2pa (hperm : perm < 0x1000#32) :
    (page2pa pp ||| perm ||| PTE_P) &&& 0xFFF#32 = perm ||| PTE_P := by
  have hmask : ∀ x : Word, (x &&& 0xFFF#32).toNat = x.toNat % 4096 := pgoff_eq
  have hlow : page2pa pp &&& 0xFFF#32 = 0 := by
    apply BitVec.eq_of_toNat_eq
    change _ = 0
    rw [hmask]
    simp only [page2pa, BitVec.toNat_shiftLeft, BitVec.toNat_ofNat,
      Nat.shiftLeft_eq]
    omega
  have hflags : (perm ||| PTE_P) &&& 0xFFF#32 = perm ||| PTE_P := by
    apply BitVec.eq_of_toNat_eq
    rw [hmask]
    exact Nat.mod_eq_of_lt (or_P_lt hperm)
  rw [BitVec.or_assoc, BitVec.and_comm, BitVec.and_or_distrib_left,
    BitVec.and_comm, hlow,
    BitVec.and_comm, hflags]
  exact BitVec.zero_or

end

/-- The page tables as a map, in every state of the allocator and for every
address below `UTOP`. `page_insert` changes the lookup of this address, except
that the windows show a new page table, or fails and changes nothing;
`page_remove` of a mapped address unmaps it and changes no other lookup. The
tables stay separate, and the allocator consistent unless the counter of the
page that was unmapped had wrapped. -/
theorem page_table_map {L : Layout} {dirs : Nat → Option Nat}
    {out : List Nat} {v : Vm}
    {e d : Nat} {va : Word} (h : Owned L dirs out v)
    (hw : Windowed L dirs v.mem)
    (hd : dirs e = some d) (hva : va < UTOP) :
    (∀ pp perm out', Avail L dirs v.mem pp out out' → perm < 0x1000#32 →
      (∃ v', pageInsert d pp va perm v = .ret (.ok ()) v'
        ∧ lookup d va v' = some (some (pp, perm ||| PTE_P))
        ∧ (∀ e' d' va', dirs e' = some d' → ¬(e' = e ∧ SamePage va' va) →
          ¬(e' = e ∧ Shows va' va ∧ v.mem.link d' (pdx va) = none) →
          lookup d' va' v' = lookup d' va' v)
        ∧ Separate L dirs v' ∧ Windowed L dirs v'.mem
        ∧ (ReplaceFits L dirs e pp va v.mem → Owned L dirs out' v'))
      ∨ pageInsert d pp va perm v = .ret (.error (-E_NO_MEM)) v)
    ∧ ((∃ p f, lookup d va v = some (some (p, f))) →
      ∃ v', pageRemove d va v = .ret () v'
        ∧ lookup d va v' = some none
        ∧ (∀ e' d' va', dirs e' = some d' → ¬(e' = e ∧ SamePage va' va) →
          lookup d' va' v' = lookup d' va' v)
        ∧ Separate L dirs v' ∧ Windowed L dirs v'.mem
        ∧ ((∀ q, target v.mem dirs (.pte e (pdx va) (ptx va)) = some q →
          Countable L dirs v.mem q) → Owned L dirs out v')) := by
  have he := h.dir_lt e d hd
  refine ⟨fun pp perm out' hav hperm => ?_, fun ⟨p, f, hp⟩ => ?_⟩
  · rcases h.pageInsert hav he hd hva hperm with ⟨v', hv', hst⟩ | ⟨-, -, hv'⟩
    · refine .inl ⟨v', hv', ?_,
        fun e' d' va' hd' hne hshow => hst.lookup_other h hw hd' hne hshow,
        hst.separate, hst.windowed h hw, hst.owned⟩
      rw [hst.lookup_self h.npage he hd hva,
        mapped_page2pa (Owned.lt_pow (hav.user h)) hperm,
        flags_page2pa hperm]
      rfl
    · exact .inr hv'
  · obtain ⟨q, hq⟩ : ∃ q, target v.mem dirs (.pte e (pdx va) (ptx va)) =
        some q := by
      rw [lookup_of_tree h.tree h.npage he hd (pdx_lt_of_lt_UTOP hva),
        Option.some_inj,
        Option.map_eq_some_iff] at hp
      obtain ⟨q, hq, -⟩ := hp
      exact ⟨q, hq⟩
    obtain ⟨v', hv', hst⟩ := h.pageRemove he hd hva hq
    obtain ⟨pt, hpt, -⟩ := table_of_target hd hq
    refine ⟨v', hv', ?_, fun e' d' va' hd' hne =>
      hst.lookup_other h hw hd' hne ?_,
      hst.separate, hst.windowed h hw, fun hfit => hst.owned (hfit q hq)⟩
    · rw [hst.lookup_self h.npage he hd hva, mapped_zero]
      rfl
    · rintro ⟨rfl, -, hnone⟩
      rw [Option.some.inj (hd'.symm.trans hd), hpt] at hnone
      cases hnone

/-! ## A concrete directory -/

/-- The small kernel's memory with three free pages. -/
def mapLayout : Layout where
  npage := 407
  ndirs := NENV
  bootPgdir := 300
  managed p := 404 ≤ p ∧ p < 407
  hold _ := 0
  npage_le := by decide
  managed_lt _ h := h.2

/-- Page 404 is the directory of environment 0, and page 405 is handed out. -/
def mapVm : Vm := (Owned.newPgdir 404 (smallVm 3)).take 405

def mapDirs : Nat → Option Nat := Function.update (fun _ => none) 0 (some 404)

theorem mapVm_owned : Owned mapLayout mapDirs [405] mapVm := by
  have h₀ : Owned mapLayout (fun _ => none) [] (smallVm 3) := by
    refine .of_noDirs rfl rfl (fun p hp => ?_) ⟨_, Queue.rep_range 404 3,
      fun p => ?_⟩
    · have hp' : ¬(400 ≤ p ∧ p < 404) := by
        have := hp.1
        omega
      exact if_neg hp'
    · simp [List.mem_range'_1, mapLayout]
  rcases h₀.setupPgdir (e := 0) (by decide) rfl with
    ⟨d, hd, -, h₁, -⟩ | ⟨-, hno⟩
  · obtain rfl : 404 = d := Option.some.inj hd
    exact h₁.take rfl
  · cases hno

theorem mapVm_windowed : Windowed mapLayout mapDirs mapVm.mem := by
  intro e d hd i hi hlt q hq
  obtain rfl : 404 = d := by
    by_cases he : e = 0
    · rw [he] at hd
      exact Option.some.inj hd
    · rw [mapDirs, Function.update_of_ne he] at hd
      cases hd
  have hboot : ((smallVm 3).take 404).bootPgdir = 300 := rfl
  have hentry := Owned.initPgdir_entry (d := 404) hboot hlt
  change mapped ((Owned.newPgdir 404 (smallVm 3)).mem.entry 404 i) =
    some q at hq
  rw [show (Owned.newPgdir 404 (smallVm 3)).mem.entry 404 i = _ from hentry,
    if_neg (Nat.not_lt_of_le hi)] at hq
  have hself : ∀ f : Word, f < 0x1000#32 →
      mapped (page2pa 404 ||| PTE_P ||| f) = some 404 := by
    intro f hf
    rw [BitVec.or_assoc, BitVec.or_comm PTE_P, ← BitVec.or_assoc]
    exact mapped_page2pa (by decide) hf
  split at hq
  · rename_i hu
    rw [hself _ (by decide)] at hq
    exact .inr ⟨.inr hu, (Option.some.inj hq).symm⟩
  · split at hq
    · rename_i hv
      rw [hself _ (by decide)] at hq
      exact .inr ⟨.inl hv, (Option.some.inj hq).symm⟩
    · rw [show ((smallVm 3).take 404).mem.entry 300 i = 0#32 by
        simp [PhysMem.entry, Bytes.load32, Vm.take, smallVm]] at hq
      cases hq

/-- A page is inserted where there is no page table, and the table appears in
the window. -/
theorem page_table_map_window : ¬∀ L dirs out out' v v' e d pp va va' perm,
    Owned L dirs out v → Windowed L dirs v.mem → dirs e = some d → va < UTOP →
    Avail L dirs v.mem pp out out' → perm < 0x1000#32 →
    pageInsert d pp va perm v = .ret (.ok ()) v' → ¬SamePage va' va →
    lookup d va' v' = lookup d va' v := by
  intro h
  have hrun : ((pageInsert 404 405 UTEXT (PTE_U ||| PTE_W) mapVm).returned.any
      fun x => decide (x.1 = .ok () ∧
      lookup 404 (UVPT + 0x2000#32) x.2 ≠
        lookup 404 (UVPT + 0x2000#32) mapVm)) = true := by decide +kernel
  obtain ⟨⟨r, v'⟩, hret, hrun⟩ := (Option.any_eq_true _ _).mp hrun
  obtain ⟨rfl, hne⟩ := of_decide_eq_true hrun
  have hv' := Outcome.returned_eq_some.mp hret
  exact hne (h mapLayout mapDirs [405] [] mapVm v' 0 404 405 UTEXT
    (UVPT + 0x2000#32) (PTE_U ||| PTE_W) mapVm_owned
    mapVm_windowed rfl (by decide) .new (by decide) hv'
    (by unfold SamePage; decide))

theorem page_table_map_small :
    ∃ v', pageInsert 404 405 UTEXT (PTE_U ||| PTE_W) mapVm
      = .ret (.ok ()) v'
    ∧ lookup 404 UTEXT v' = some (some (405, PTE_U ||| PTE_W ||| PTE_P)) := by
  have hmap := (page_table_map mapVm_owned mapVm_windowed
    (show mapDirs 0 = some 404 from rfl) (by decide : UTEXT < UTOP)).1 405
    (PTE_U ||| PTE_W) [] .new (by decide)
  rcases hmap with ⟨v', hv', hlookup, -⟩ | hno
  · exact ⟨v', hv', hlookup⟩
  · have hrun : (pageInsert 404 405 UTEXT (PTE_U ||| PTE_W) mapVm).returned.map
        Prod.fst = some (.ok ()) := by
      decide +kernel
    rw [hno] at hrun
    cases Option.some.inj hrun

end Jos
