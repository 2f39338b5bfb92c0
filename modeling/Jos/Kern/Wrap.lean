import Jos.Kern.PageCalls
import Jos.Kern.Small

/-!
# The width of the reference counter

`pp_ref` has 16 bits, and nothing stops `sys_page_map` from mapping a page more
often than that. `page_ref_width` says when the counter is right; in
`page_ref_wraps` one environment maps one page 65536 times.
-/

namespace Jos

open Slot (target)

/-- A successful `sys_page_map` of page `p`. -/
structure MapStep (p : Nat) (s : Kern) (a : MapCall) (s' : Kern) : Prop where
  live : s.Live a.c
  source : ∀ src, s.resolve a.c a.srcenvid true = .ok src →
    target s.vm.mem s.dirs (.pte src (pdx a.srcva) (ptx a.srcva)) = some p
  ret : a.run (s.switch a.c) = .ret 0 s'

/-- The arguments of `sys_page_unmap`, called by `c`. -/
structure UnmapCall where
  c : Nat
  envid : Word
  va : Word

/-- A successful `sys_page_unmap` of page `p`. -/
structure UnmapStep (p : Nat) (s : Kern) (a : UnmapCall) (s' : Kern) :
    Prop where
  live : s.Live a.c
  mapped : ∀ e, s.resolve a.c a.envid true = .ok e →
    target s.vm.mem s.dirs (.pte e (pdx a.va) (ptx a.va)) = some p
  ret : sysPageUnmap a.envid a.va (s.switch a.c) = .ret 0 s'

/-- The allocator is consistent, page `p` is mapped, and the counters of all
other pages are exact. -/
structure SharedInv (L : Layout) (p : Nat) (s : Kern) : Prop where
  pages : PagesOk L s
  data : ∃ k ∈ L.slots, ¬k.Node ∧ target s.vm.mem s.dirs k = some p
  others : ∀ q, L.User q → q ≠ p → Countable L s.dirs s.vm.mem q

section

variable {L : Layout} {p : Nat} {s s' : Kern}

theorem SharedInv.mapStep {a : MapCall} (h : SharedInv L p s)
    (hstep : MapStep p s a s') :
    SharedInv L p s' := by
  obtain ⟨r, v, hret, hres⟩ := (h.pages.switch a.c).sysPageMap hstep.live rfl
  rw [hstep.ret] at hret
  obtain ⟨rfl, rfl⟩ : 0 = r ∧ s' = (s.switch a.c).withVm v := by
    cases hret
    exact ⟨rfl, rfl⟩
  generalize hr : (0 : Word) = r at hres
  cases hres with
  | failed hr' => exact absurd hr.symm hr'
  | freed => exact absurd hr (by decide)
  | @mapped src dst pp v hnames hsrc hdst hpp hw hst =>
      obtain rfl : pp = p :=
        Option.some.inj (hpp.symm.trans (hstep.source src hnames.src))
      have hva := hnames.dstva.1
      have hslot : Slot.pte dst (pdx a.dstva) (ptx a.dstva) ∈ L.slots :=
        mem_slots.mpr ⟨h.pages.lt hdst, pdx_lt_of_lt_UTOP hva, ptx_lt _⟩
      have ho := hst.owned fun q hq hne =>
        h.others q (h.pages.owned.user hslot hq) hne
      obtain ⟨k, hk, -, hkp⟩ := h.data
      have hw : mapped (page2pa pp ||| a.perm ||| PTE_P) = some pp :=
        mapped_page2pa (Owned.lt_pow (h.pages.owned.user hk hkp))
          (validPerm_lt hnames.perm)
      refine ⟨(h.pages.switch a.c).withVm ho, ⟨_, hslot, nofun, ?_⟩,
        fun q hq hne => ?_⟩
      · change mapped (pteAt v.mem s.dirs dst _ _) = some pp
        have hpte := hst.pte dst _ _ (h.pages.lt hdst) (pdx_lt_of_lt_UTOP hva)
          (ptx_lt a.dstva)
        rw [if_pos ⟨rfl, rfl, rfl⟩] at hpte
        exact (congrArg mapped hpte).trans hw
      · exact hst.countable ho (fun he =>
          hne (Option.some.inj (hw.symm.trans he)).symm)
          (h.others q hq hne)

/-- An unmapping of a page whose counter is exact. -/
theorem PagesOk.unmapStep {a : UnmapCall} (h : PagesOk L s)
    (hp : Countable L s.dirs s.vm.mem p)
    (hstep : UnmapStep p s a s') :
    PagesOk L s' ∧ Countable L s'.dirs s'.vm.mem p := by
  obtain ⟨v, rfl, hv⟩ := (h.switch a.c).sysPageUnmap hstep.live rfl hstep.ret
  rcases hv with rfl | ⟨e, pp, he, hlive, hva, hpp, hst⟩
  · exact ⟨h.switch a.c, hp⟩
  · obtain rfl : pp = p := Option.some.inj (hpp.symm.trans (hstep.mapped e he))
    have ho := hst.owned hp
    exact ⟨(h.switch a.c).withVm ho,
      hst.countable ho (mapped_zero ▸ nofun) hp⟩

end

/-- The reference counter of a page `p`, in every run of successful
`sys_page_map` calls of it: it is the number of page-table entries that map the
page if and only if that is at most 65535, and then unmapping some of them never
frees the page. -/
theorem page_ref_width {L : Layout} {p : Nat} {s t : Kern} (h : SharedInv L p s)
    (hrun : Runs (MapStep p) (fun _ _ => True) s t) :
    ((t.vm.ppRef p).toNat = mapCount NENV t.vm.mem t.dirs p
      ↔ mapCount NENV t.vm.mem t.dirs p ≤ 65535)
    ∧ (mapCount NENV t.vm.mem t.dirs p ≤ 65535 → ∀ u,
      Runs (UnmapStep p) (fun _ _ => True) t u →
      0 < mapCount NENV u.vm.mem u.dirs p →
      ∀ xs, u.vm.pageFreeList.Rep xs → p ∉ xs) := by
  have ht : SharedInv L p t :=
    hrun.invariant (fun _ _ _ h _ hstep => h.mapStep hstep) h
  obtain ⟨k, hk, hdata, hkp⟩ := ht.data
  have hcount := pageRefs_eq_mapCount ht.pages.owned.tree hk hdata hkp
  have hu := ht.pages.owned.user hk hkp
  obtain ⟨xs, hrep, -, hc⟩ := ht.pages.owned.pool
  have href : t.vm.ppRef p =
      BitVec.ofNat 16 (mapCount L.ndirs t.vm.mem t.dirs p) := by
    rw [← hcount, hc.cnt_eq p hu.1, hu.2, Nat.add_zero]
    rfl
  rw [ht.pages.ndirs] at hcount href
  refine ⟨?_, fun hle u hunmap hpos ys hys hmem => ?_⟩
  · have hlt := (t.vm.ppRef p).isLt
    constructor
    · omega
    · intro hle
      rw [href, BitVec.toNat_ofNat]
      omega
  · have hfit : Countable L t.dirs t.vm.mem p := by
      unfold Countable
      rw [hu.2, ht.pages.ndirs]
      omega
    have hinv : PagesOk L u ∧ Countable L u.dirs u.vm.mem p :=
      hunmap.invariant (I := fun u => PagesOk L u
        ∧ Countable L u.dirs u.vm.mem p)
        (fun _ _ _ h _ hstep => h.1.unmapStep h.2 hstep) ⟨ht.pages, hfit⟩
    obtain ⟨zs, hrep', -, hc'⟩ := hinv.1.owned.pool
    have hfree := Owned.not_target hc' (hys.unique hrep' ▸ hmem : p ∈ [] ++ zs)
    rw [mapCount] at hpos
    obtain ⟨l, hl⟩ := Finset.card_pos.mp hpos
    rw [Finset.mem_filter, Finset.mem_filter] at hl
    exact hfree.2 l (hinv.1.slots_eq ▸ hl.1.1) hl.2

/-! ## One page, mapped 65536 times -/

/-- The virtual page at which the page is mapped for the `k`-th time. -/
def wrapVa (k : Nat) : Word := UTEXT + BitVec.ofNat 32 (k * PGSIZE)

/-- The call of environment 2 that does it. -/
def wrapCall (k : Nat) : MapCall := ⟨2, 0, UTEXT, 0, wrapVa k, PTE_U ||| PTE_P⟩

def wrapLayout : Layout := smallLayout 5000 (by decide)

/-- Environment 2 maps page `p` at `n + 1` virtual pages from `UTEXT` on, and
nothing else is mapped. -/
structure WrapInv (p n : Nat) (s : Kern) : Prop where
  pages : PagesOk wrapLayout s
  dirs : s.dirs = (smallKern 5000).dirs
  pte : ∀ e i j, e < NENV → i < pdxUTOP → j < NPTENTRIES →
    mapped (pteAt s.vm.mem s.dirs e i j)
      = if e = 2 ∧ 2048 ≤ i * 1024 + j ∧ i * 1024 + j < 2049 + n then
      some p else none

section

variable {p n k : Nat} {s : Kern}

theorem wrapVa_spec (hk : k ≤ 65536) :
    userPage (wrapVa k) ∧ pdx (wrapVa k) = (2048 + k) / 1024
    ∧ ptx (wrapVa k) = (2048 + k) % 1024 := by
  have hva : (wrapVa k).toNat = (2048 + k) * 4096 := by
    have ht : UTEXT.toNat = 2048 * 4096 := by decide
    rw [wrapVa, BitVec.toNat_add, BitVec.toNat_ofNat, ht]
    simp only [PGSIZE]
    omega
  refine ⟨⟨?_, ?_⟩, ?_, ?_⟩
  · rw [BitVec.lt_def, hva]
    have hu : UTOP.toNat = 4005560320 := by decide
    omega
  · rw [hva]
    simp only [PGSIZE]
    omega
  · rw [pdx_eq, hva]
    omega
  · rw [ptx_eq, hva]
    omega

theorem smallKern_pte {e i j : Nat} :
    mapped (pteAt (smallKern k).vm.mem (smallKern k).dirs e i j) = none := by
  cases hp : mapped (pteAt (smallKern k).vm.mem (smallKern k).dirs e i j) with
  | none => rfl
  | some p =>
      obtain ⟨_, -, hl, -⟩ := smallKern_target (l := .pte e i j) hp
      cases hl

/-- The state after environment 2 has allocated the page. -/
theorem exists_wrapInv : ∃ p s, WrapInv p 0 s := by
  have h := smallKern_pagesOk (k := 5000) (by decide)
  have hlive : (smallKern 5000).Live 2 := smallKern_live.mpr (by decide)
  have hfit : ∀ q, Slot.target (smallKern 5000).vm.mem (smallKern 5000).dirs
      (.pte 2 (pdx UTEXT) (ptx UTEXT)) = some q →
      Countable (smallLayout 5000 (by decide)) (smallKern 5000).dirs
        (smallKern 5000).vm.mem q := by
    intro q hq
    cases smallKern_pte.symm.trans hq
  rcases h.owned.pageAllocAt (h.lt hlive) hlive.dirs (by decide)
    (show PTE_U ||| PTE_P < 0x1000#32 by decide) hfit with
    ⟨v, p, -, hal⟩ | ⟨hno, -⟩
  · refine ⟨p, (smallKern 5000).withVm v, h.withVm hal.owned, rfl,
      fun e i j he hi hj => ?_⟩
    have hpd : pdx UTEXT = 2 := by decide
    have hpt : ptx UTEXT = 0 := by decide
    have hj : j < 1024 := hj
    change mapped (pteAt v.mem (smallKern 5000).dirs e i j) = _
    rw [hal.pte e i j (h.ndirs ▸ he) hi hj, hpd, hpt]
    split
    · rw [if_pos (by omega), mapped_page2pa (Owned.lt_pow hal.user) (by decide)]
    · rw [if_neg (by omega), smallKern_pte]
  · have hrun : (Jos.pageAllocAt ((smallKern 5000).envs 2).envPgdir UTEXT
        (PTE_U ||| PTE_P)
        (smallKern 5000).vm).returned.map Prod.fst = some 0 := by decide +kernel
    rw [hno] at hrun
    exact absurd (Option.some.inj hrun) (by decide)

theorem WrapInv.live (h : WrapInv p n s) :
    s.Live 2 ∧ (s.envs 2).envPgdir = 402 := by
  refine dirs_eq_some.mp ?_
  rw [h.dirs, smallKern_dirs]
  rfl

/-- The page that environment 2 maps for the `k + 1`-th time is page `p`. -/
theorem WrapInv.target (h : WrapInv p n s) (hk : k ≤ n) (hn : n ≤ 65536) :
    Slot.target s.vm.mem s.dirs
      (.pte 2 ((2048 + k) / 1024) ((2048 + k) % 1024)) = some p := by
  have hi : (2048 + k) / 1024 < pdxUTOP := by
    rw [pdxUTOP_eq]
    omega
  have hj : (2048 + k) % 1024 < 1024 := Nat.mod_lt _ (by decide)
  exact (h.pte 2 _ _ (by decide) hi hj).trans (if_pos (by omega))

/-- There are pages for the page tables. -/
theorem WrapInv.first (h : WrapInv p n s) : s.vm.pageFreeList.first ≠ none := by
  refine h.pages.owned.first_ne_none (Finset.Ico 400 5404)
    (Finset.Ico 400 404 ∪ {p} ∪ (Finset.range 4 ×ˢ Finset.range 955).image
      fun x => (s.vm.mem.link (400 + x.1) x.2).getD 0)
    (fun q hq => ⟨Finset.mem_Ico.mp hq, rfl⟩) (fun l hl q hq => ?_) ?_
  · rw [h.dirs] at hq
    have hdir : ∀ e d, (smallKern 5000).dirs e = some d →
        e < 4 ∧ d = 400 + e := by
      intro e d hd
      rw [smallKern_dirs] at hd
      split at hd
      · exact ⟨‹_›, (Option.some.inj hd).symm⟩
      · cases hd
    simp only [Finset.mem_union, Finset.mem_Ico, Finset.mem_singleton,
      Finset.mem_image,
      Finset.mem_product, Finset.mem_range, Prod.exists]
    rw [mem_slots] at hl
    cases l with
    | dir e =>
        obtain ⟨he, rfl⟩ := hdir e q hq
        exact .inl (.inl (by omega))
    | pde e i =>
        obtain ⟨d, hd, hlink⟩ := Option.bind_eq_some_iff.mp hq
        obtain ⟨he, rfl⟩ := hdir e d hd
        exact .inr ⟨e, i, ⟨he, hl.2⟩, by rw [hlink]; rfl⟩
    | pte e i j =>
        rw [← h.dirs] at hq
        have hpte := (h.pte e i j hl.1 hl.2.1 hl.2.2).symm.trans hq
        split at hpte
        · exact .inl (.inr (Option.some.inj hpte).symm)
        · cases hpte
  · refine Nat.lt_of_le_of_lt (Finset.card_union_le _ _) ?_
    have h₁ := Finset.card_union_le (Finset.Ico 400 404) {p}
    have h₂ := Finset.card_image_le (s := Finset.range 4 ×ˢ Finset.range 955)
      (f := fun x => (s.vm.mem.link (400 + x.1) x.2).getD 0)
    rw [Finset.card_product, Finset.card_range, Finset.card_range] at h₂
    rw [Nat.card_Ico, Finset.card_singleton] at h₁
    rw [Nat.card_Ico]
    omega

theorem WrapInv.step (h : WrapInv p n s) (hn : n < 65536) :
    ∃ s', MapStep p s (wrapCall (n + 1)) s' ∧ WrapInv p (n + 1) s' := by
  obtain ⟨hlive, -⟩ := h.live
  obtain ⟨hva, hpdx, hptx⟩ := wrapVa_spec (k := n + 1) (by omega)
  have hpd : pdx UTEXT = 2 := by decide
  have hpt : ptx UTEXT = 0 := by decide
  have hsrc : Slot.target s.vm.mem s.dirs (.pte 2 (pdx UTEXT) (ptx UTEXT)) =
      some p := by
    rw [hpd, hpt]
    exact h.target (k := 0) (Nat.zero_le n) (by omega)
  have hread : (PTE_U ||| PTE_P) &&& PTE_W = 0 := by decide
  have hperm : validPerm (PTE_U ||| PTE_P) := by decide
  have hnames : (wrapCall (n + 1)).Names (s.switch 2) 2 2 :=
    ⟨resolve_zero, resolve_zero, (by decide : userPage UTEXT), hva, hperm⟩
  have hself : ∀ src, (s.switch 2).resolve 2 0 true = .ok src → src = 2 :=
    fun src hr =>
    Except.ok.inj (hr.symm.trans resolve_zero)
  obtain ⟨r, v, hret, hres⟩ :=
    (h.pages.switch 2).sysPageMap (a := wrapCall (n + 1)) hlive rfl
  have hmap : ∀ s', (wrapCall (n + 1)).run (s.switch 2) = .ret 0 s' →
      MapStep p s (wrapCall (n + 1)) s' := fun s' hs' =>
    ⟨hlive, fun src hr => (hself src hr).symm ▸ hsrc, hs'⟩
  cases hres with
  | failed _ hno => exact absurd hread (hno 2 2 p hnames hsrc).1
  | freed _ _ _ _ hfail => exact absurd hfail.full h.first
  | @mapped src dst pp v hnames' _ _ hpp _ hst =>
      obtain rfl := hself src hnames'.src
      obtain rfl := hself dst hnames'.dst
      obtain rfl : pp = p := Option.some.inj (hpp.symm.trans hsrc)
      have hu := h.pages.owned.user
        (mem_slots.mpr ⟨h.pages.lt hlive, by decide, ptx_lt UTEXT⟩ :
        Slot.pte 2 (pdx UTEXT) (ptx UTEXT) ∈ wrapLayout.slots) hsrc
      have hnone : Slot.target s.vm.mem s.dirs
          (.pte 2 (pdx (wrapVa (n + 1))) (ptx (wrapVa (n + 1)))) = none := by
        have hi := pdx_lt_of_lt_UTOP hva.1
        rw [Slot.target, h.pte 2 _ _ (by decide) hi (ptx_lt _), hpdx, hptx,
          if_neg (by omega)]
      have ho := hst.owned fun q hq _ => by
        cases hnone.symm.trans hq
      refine ⟨_, hmap _ hret, (h.pages.switch 2).withVm ho, h.dirs,
        fun e i j he hi hj => ?_⟩
      have hpte := hst.pte e i j (h.pages.ndirs ▸ he) hi hj
      have hj : j < 1024 := hj
      change mapped (pteAt v.mem s.dirs e i j) = _
      rw [show pteAt v.mem s.dirs e i j = _ from hpte]
      change mapped (if e = 2 ∧ i = pdx (wrapVa (n + 1))
        ∧ j = ptx (wrapVa (n + 1)) then _ else _) = _
      rw [hpdx, hptx]
      split
      · rw [if_pos (by omega)]
        exact mapped_page2pa (Owned.lt_pow hu) (validPerm_lt hperm)
      · refine (h.pte e i j he hi hj).trans ?_
        by_cases hold : e = 2 ∧ 2048 ≤ i * 1024 + j ∧ i * 1024 + j < 2049 + n
        · rw [if_pos hold, if_pos (by omega)]
        · rw [if_neg hold, if_neg (by omega)]

theorem WrapInv.shared (h : WrapInv p n s) (hn : n ≤ 65536) :
    SharedInv wrapLayout p s := by
  have hmapped := h.target (k := 0) (Nat.zero_le n) hn
  have hslot : Slot.pte 2 ((2048 + 0) / 1024) ((2048 + 0) % 1024) ∈
      wrapLayout.slots :=
    mem_slots.mpr ⟨(by decide : 2 < NENV), by decide, by decide⟩
  refine ⟨h.pages, ⟨_, hslot, nofun, hmapped⟩, fun q hq hqp => ?_⟩
  by_cases hnode : ∃ k ∈ wrapLayout.slots, k.Node
    ∧ Slot.target s.vm.mem s.dirs k = some q
  · obtain ⟨k, hk, hkn, hkq⟩ := hnode
    exact h.pages.owned.countable_node hk hkn hkq
  · have hzero : pageRefs wrapLayout.ndirs s.vm.mem s.dirs q = 0 := by
      refine refCount_eq_zero.mpr fun k hk hkq => ?_
      have hv := mem_slots.mp hk
      cases k with
      | dir e => exact hnode ⟨_, hk, trivial, hkq⟩
      | pde e i => exact hnode ⟨_, hk, trivial, hkq⟩
      | pte e i j =>
          have hpte := (h.pte e i j hv.1 hv.2.1 hv.2.2).symm.trans hkq
          split at hpte
          · exact hqp (Option.some.inj hpte).symm
          · cases hpte
    unfold Countable
    rw [hzero, hq.2]
    decide

theorem WrapInv.mapCount (h : WrapInv p n s) (hn : n ≤ 65536) :
    n + 1 ≤ Jos.mapCount NENV s.vm.mem s.dirs p := by
  have hsub : (Finset.range (n + 1)).image
        (fun k => Slot.pte 2 ((2048 + k) / 1024) ((2048 + k) % 1024))
      ⊆ (((slots NENV).filter fun k => ¬k.Node).filter
        fun k => Slot.target s.vm.mem s.dirs k = some p) := by
    intro l hl
    obtain ⟨k, hk, rfl⟩ := Finset.mem_image.mp hl
    have hk := Finset.mem_range.mp hk
    have hi : (2048 + k) / 1024 < pdxUTOP := by
      rw [pdxUTOP_eq]
      omega
    have hj : (2048 + k) % 1024 < 1024 := Nat.mod_lt _ (by decide)
    refine Finset.mem_filter.mpr
      ⟨Finset.mem_filter.mpr ⟨mem_slots.mpr ?_, nofun⟩,
      h.target (by omega) hn⟩
    exact ⟨(by decide : 2 < NENV), hi, hj⟩
  have hcard := Finset.card_le_card hsub
  rw [Finset.card_image_of_injOn fun a _ b _ hab => ?_,
    Finset.card_range] at hcard
  · exact hcard
  · simp only [Slot.pte.injEq, true_and] at hab
    omega

end

/-- Mapping one page 65536 times makes its counter zero. -/
theorem page_ref_wraps :
    ¬∀ L p s t, SharedInv L p s → Runs (MapStep p) (fun _ _ => True) s t →
    (t.vm.ppRef p).toNat = mapCount NENV t.vm.mem t.dirs p := by
  intro hclaim
  obtain ⟨p, s, hs⟩ := exists_wrapInv
  have hrun : ∀ n ≤ 65536, ∃ t, Runs (MapStep p) (fun _ _ => True) s t
      ∧ WrapInv p n t := by
    intro n
    induction n with
    | zero => exact fun _ => ⟨s, .refl s, hs⟩
    | succ n ih =>
        intro hn
        obtain ⟨t, hrun, ht⟩ := ih (by omega)
        obtain ⟨u, hstep, hu⟩ := ht.step (by omega)
        exact ⟨u, hrun.tail trivial hstep, hu⟩
  obtain ⟨t, hrun, ht⟩ := hrun 65535 (by omega)
  have hcount := ht.mapCount (by omega)
  have hlt := (t.vm.ppRef p).isLt
  rw [hclaim wrapLayout p s t (hs.shared (Nat.zero_le _)) hrun] at hlt
  omega

/-- A page that is mapped once has the counter 1. -/
theorem page_ref_width_small :
    ∃ p s, SharedInv wrapLayout p s ∧ (s.vm.ppRef p).toNat = 1 := by
  obtain ⟨p, s, hs⟩ := exists_wrapInv
  have hshared := hs.shared (Nat.zero_le _)
  have honly : ∀ k ∈ (slots NENV).filter fun k => ¬k.Node,
      target s.vm.mem s.dirs k = some p → k = .pte 2 2 0 := by
    intro k hk hkp
    rw [Finset.mem_filter, mem_slots] at hk
    cases k with
    | dir e => exact absurd trivial hk.2
    | pde e i => exact absurd trivial hk.2
    | pte e i j =>
        have hj : j < 1024 := hk.1.2.2
        have hpte := (hs.pte e i j hk.1.1 hk.1.2.1 hk.1.2.2).symm.trans hkp
        split at hpte
        · obtain ⟨rfl, rfl, rfl⟩ : e = 2 ∧ i = 2 ∧ j = 0 := by omega
          rfl
        · cases hpte
  have hone : mapCount NENV s.vm.mem s.dirs p = 1 :=
    Nat.le_antisymm (refCount_le_one fun k hk l hl hkp hlp =>
      (honly k hk hkp).trans (honly l hl hlp).symm) (hs.mapCount
        (Nat.zero_le _))
  have hwidth := (page_ref_width hshared (.refl s)).1.mpr (by omega)
  exact ⟨p, s, hshared, hwidth.trans hone⟩

end Jos
