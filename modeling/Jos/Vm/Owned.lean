import Jos.Vm.Slots

/-!
# The page allocator's invariant

`Owned` is the invariant that the functions of kern/pmap.c and kern/env.c keep:
every page that `page_init` put on the free list has as many references as its
counter says, modulo the width of the counter, and is free if it has none. `out`
are pages that `page_alloc` has handed out and that nothing refers to yet. The
lemmas of this file are the changes these functions make, one at a time; each
also says, as a `Frame`, that other environments' directories and tables stay as
they are.
-/

namespace Jos

open Slot (target)

/-- The page allocator is consistent when the live environments have the page
directories `dirs`, and the pages `out` have been handed out but are not
used. -/
structure Owned (L : Layout) (dirs : Nat → Option Nat) (out : List Nat)
    (v : Vm) : Prop where
  npage : v.npage = L.npage
  boot : v.bootPgdir = L.bootPgdir
  dir_lt : ∀ e d, dirs e = some d → e < L.ndirs
  pool : ∃ xs, v.pageFreeList.Rep xs ∧ (out ++ xs).Nodup
    ∧ Counted L.slots L.hold L.managed (target v.mem dirs) v.ppRef (out ++ xs)
  tree : Tree L (target v.mem dirs)

/-- Page `p` has at most as many references as its counter can count. -/
def Countable (L : Layout) (dirs : Nat → Option Nat) (m : PhysMem)
    (p : Nat) : Prop :=
  pageRefs L.ndirs m dirs p + L.hold p < 2 ^ 16

/-- No page has more references than its counter can count. -/
def Fits (L : Layout) (dirs : Nat → Option Nat) (m : PhysMem) : Prop :=
  ∀ p, L.User p → Countable L dirs m p

/-- Memory changed from `m` to `m'`, but neither the kernel's pages nor the
directories and tables of environments other than `e`, nor the kernel part of
`e`'s directory. -/
structure Frame (L : Layout) (dirs : Nat → Option Nat) (e : Nat)
    (m m' : PhysMem) : Prop where
  kernel : ∀ p, ¬L.User p → m' p = m p
  other : ∀ e' p, e' ≠ e → NodeOf L m dirs e' p → m' p = m p
  upper : ∀ d, dirs e = some d → ∀ i, pdxUTOP ≤ i → m'.entry d i = m.entry d i

section

variable {L : Layout} {dirs : Nat → Option Nat} {out : List Nat} {v : Vm}
  {m m' m'' : PhysMem}
  {e d i j p q pt pp : Nat} {w perm : Word} {k : Slot}

/-! ## Frames -/

theorem Frame.refl : Frame L dirs e m m :=
  ⟨fun _ _ => rfl, fun _ _ _ _ => rfl, fun _ _ _ _ => rfl⟩

/-- Other environments refer to the same pages. -/
theorem Frame.target_eq (h : Frame L dirs e m m') (hk : k ∈ L.slots)
    (hne : k.env ≠ e) :
    target m' dirs k = target m dirs k :=
  target_of_ne hk fun p hp => h.other k.env p hne hp

theorem Frame.nodeOf (h : Frame L dirs e m m') {e' : Nat} (hne : e' ≠ e)
    (hp : NodeOf L m dirs e' p) : NodeOf L m' dirs e' p := by
  obtain ⟨k, hk, hn, rfl, hp⟩ := hp
  exact ⟨k, hk, hn, rfl, (h.target_eq hk hne).trans hp⟩

theorem Frame.trans (h : Frame L dirs e m m') (h' : Frame L dirs e m' m'') :
    Frame L dirs e m m'' where
  kernel p hp := (h'.kernel p hp).trans (h.kernel p hp)
  other e' p hne hp := (h'.other e' p hne (h.nodeOf hne hp)).trans
    (h.other e' p hne hp)
  upper d hd i hi := (h'.upper d hd i hi).trans (h.upper d hd i hi)

/-- A change of a page that is no directory and no table. -/
theorem frame_of_data (hp : L.User p) (hdata : ∀ e', ¬NodeOf L m dirs e' p)
    (hdir : ∀ e d, dirs e = some d → e < L.ndirs)
    (hm : ∀ q, q ≠ p → m' q = m q) :
    Frame L dirs e m m' where
  kernel q hq := hm q fun h => hq (h ▸ hp)
  other e' q _ hq := hm q fun h => hdata e' (h ▸ hq)
  upper d hd _ _ := PhysMem.entry_congr (hm d fun h =>
    hdata e (h ▸ nodeOf_dir (hdir e d hd) hd))

theorem frame_setPte (ht : Tree L (target m dirs)) (he : e < L.ndirs)
    (hi : i < pdxUTOP)
    (hd : dirs e = some d) (hpt : m.link d i = some pt) :
    Frame L dirs e m (m.setEntry pt j w) where
  kernel _ hq := PhysMem.setEntry_of_ne fun h =>
    hq (h ▸ ht.user_of_nodeOf (nodeOf_pde he hi hd hpt))
  other _ _ hne hq := PhysMem.setEntry_of_ne fun h =>
    hne (ht.nodeOf_inj (h ▸ hq) (nodeOf_pde he hi hd hpt))
  upper _ hd' _ _ := PhysMem.entry_setEntry_ne
    (.inl (ht.dir_ne_table he hi hd hpt he hd'))

theorem frame_setPde (ht : Tree L (target m dirs)) (he : e < L.ndirs)
    (hi : i < pdxUTOP)
    (hd : dirs e = some d) : Frame L dirs e m (m.setEntry d i w) where
  kernel _ hq := PhysMem.setEntry_of_ne fun h =>
    hq (h ▸ ht.user_of_nodeOf (nodeOf_dir he hd))
  other _ _ hne hq := PhysMem.setEntry_of_ne fun h =>
    hne (ht.nodeOf_inj (h ▸ hq) (nodeOf_dir he hd))
  upper _ _ _ hi' := PhysMem.entry_setEntry_ne (.inr (by omega))

/-- References that only go away leave the counters able to count. -/
theorem Fits.mono {dirs' : Nat → Option Nat} (h : Fits L dirs m)
    (hsub : ∀ k ∈ L.slots, ∀ p, target m' dirs' k = some p →
      target m dirs k = some p) :
    Fits L dirs' m' := by
  intro p hp
  have hle : pageRefs L.ndirs m' dirs' p ≤ pageRefs L.ndirs m dirs p :=
    refCount_mono fun k hk => hsub k hk p
  have := h p hp
  unfold Countable at this ⊢
  omega

/-! ## What the invariant says -/

namespace Owned

/-- Before there are page directories, only the kernel refers to pages. -/
theorem of_noDirs (hn : v.npage = L.npage) (hb : v.bootPgdir = L.bootPgdir)
    (href : ∀ p, L.managed p → v.ppRef p = BitVec.ofNat 16 (L.hold p))
    (hfree : ∃ xs, v.pageFreeList.Rep xs ∧ ∀ p, p ∈ xs ↔
      L.managed p ∧ L.hold p = 0) :
    Owned L (fun _ => none) [] v := by
  have hnone : ∀ k p, target v.mem (fun _ => none) k ≠ some p :=
    fun k p hk => by
    rw [target_none] at hk
    cases hk
  have hcount : ∀ p, refCount L.slots (target v.mem fun _ => none) p = 0 :=
    fun p => refCount_eq_zero.mpr fun k _ => hnone k p
  obtain ⟨xs, hrep, hmem⟩ := hfree
  refine ⟨hn, hb, nofun, ⟨xs, hrep, hrep.nodup, fun p hp => ?_, fun p => ?_⟩,
    fun k _ p hp => absurd hp (hnone k p), fun k _ l _ p _ hp =>
    absurd hp (hnone k p)⟩
  · rw [hcount, Nat.zero_add]
    exact href p hp
  · rw [hcount, Nat.zero_add]
    exact hmem p

/-- A free page, or one handed out, is not referred to. -/
theorem not_target {xs : List Nat}
    (hc : Counted L.slots L.hold L.managed (target v.mem dirs) v.ppRef
      (out ++ xs))
    (hp : p ∈ out ++ xs) : L.User p ∧ ∀ k ∈ L.slots, target v.mem dirs k ≠
      some p := by
  obtain ⟨hok, h0⟩ := (hc.free_iff p).mp hp
  exact ⟨⟨hok, by omega⟩, refCount_eq_zero.mp (by omega)⟩

theorem not_out (h : Owned L dirs out v) (hp : p ∈ out) :
    L.User p ∧ ∀ k ∈ L.slots, target v.mem dirs k ≠ some p := by
  obtain ⟨xs, -, -, hc⟩ := h.pool
  exact not_target hc (List.mem_append_left _ hp)

/-- The first free page. -/
theorem first (h : Owned L dirs out v)
    (hfirst : v.pageFreeList.first = some p) :
    L.User p ∧ (∀ k ∈ L.slots, target v.mem dirs k ≠ some p) ∧ p ∉ out := by
  obtain ⟨xs, hrep, hnd, hc⟩ := h.pool
  have hx : p ∈ xs := by
    rw [hrep.first_eq] at hfirst
    exact List.mem_of_head? hfirst
  obtain ⟨hu, ht⟩ := not_target hc (List.mem_append_right _ hx)
  exact ⟨hu, ht, fun hp => (List.nodup_append.mp hnd).2.2 p hp p hx rfl⟩

/-- With more pages for users than pages referred to, some page is free. -/
theorem first_ne_none (h : Owned L dirs [] v) (ps used : Finset Nat)
    (hps : ∀ p ∈ ps, L.User p)
    (hused : ∀ k ∈ L.slots, ∀ p, target v.mem dirs k = some p → p ∈ used)
    (hcard : used.card < ps.card) : v.pageFreeList.first ≠ none := by
  obtain ⟨p, hp, hnot⟩ := Finset.exists_mem_notMem_of_card_lt_card hcard
  obtain ⟨xs, hrep, -, hc⟩ := h.pool
  have hzero : refCount L.slots (target v.mem dirs) p = 0 :=
    refCount_eq_zero.mpr fun k hk hkp => hnot (hused k hk p hkp)
  have hx : p ∈ xs :=
    (hc.free_iff p).mpr ⟨(hps p hp).1, by rw [hzero, (hps p hp).2]⟩
  rw [hrep.first_eq]
  intro hnil
  rw [List.head?_eq_none_iff.mp hnil] at hx
  cases hx

theorem lt (h : Owned L dirs out v) (hp : L.User p) : p < v.npage :=
  h.npage ▸ L.managed_lt p hp.1

theorem lt_pow (hp : L.User p) : p < 2 ^ 20 :=
  Nat.lt_of_lt_of_le (L.managed_lt p hp.1) L.npage_le

theorem user (h : Owned L dirs out v) (hk : k ∈ L.slots)
    (hp : target v.mem dirs k = some p) :
    L.User p := h.tree.user k hk p hp

/-- A change that affects neither the slots nor the counters. -/
theorem congr (h : Owned L dirs out v) {v' : Vm} (hn : v'.npage = v.npage)
    (hb : v'.bootPgdir = v.bootPgdir)
    (hr : v'.ppRef = v.ppRef) (hl : v'.pageFreeList = v.pageFreeList)
    (ht : ∀ k ∈ L.slots, target v'.mem dirs k = target v.mem dirs k) :
    Owned L dirs out v' where
  npage := hn.trans h.npage
  boot := hb.trans h.boot
  dir_lt := h.dir_lt
  pool := by
    obtain ⟨xs, hrep, hnd, hc⟩ := h.pool
    exact ⟨xs, hl ▸ hrep, hnd, hr ▸ hc.congr ht⟩
  tree := h.tree.congr ht

end Owned

/-- A counter of a page that is referred to from one place. -/
theorem Owned.countable_node (h : Owned L dirs out v) (hk : k ∈ L.slots)
    (hn : k.Node)
    (hp : target v.mem dirs k = some p) : Countable L dirs v.mem p := by
  have hle : pageRefs L.ndirs v.mem dirs p ≤ 1 := by
    refine refCount_le_one fun a ha b hb hpa hpb => ?_
    rw [h.tree.node k hk a ha p hn hp hpa, h.tree.node k hk b hb p hn hp hpb]
  have := (h.user hk hp).2
  unfold Countable
  omega

/-! ## The changes -/

/-- `pp` is taken off the free list. -/
def Vm.take (pp : Nat) (v : Vm) : Vm :=
  { v with pageFreeList := v.pageFreeList.remove pp }

/-- `pp` is put on the free list. -/
def Vm.give (pp : Nat) (v : Vm) : Vm :=
  { v with pageFreeList := v.pageFreeList.insertHead pp }

/-- `page_decref(pp)`. -/
def Vm.decref (pp : Nat) (v : Vm) : Vm :=
  { v with
    ppRef := Function.update v.ppRef pp (v.ppRef pp - 1)
    pageFreeList :=
      if v.ppRef pp - 1 = 0 then v.pageFreeList.insertHead pp else
        v.pageFreeList }

/-- `*pte = x`. -/
def Vm.setPte (pte : Nat × Nat) (x : Word) (v : Vm) : Vm :=
  { v with mem := v.mem.setEntry pte.1 pte.2 x }

/-- One more reference to `pp`, by the entry `pte`. -/
def Vm.install (pte : Nat × Nat) (pp : Nat) (perm : Word) (v : Vm) : Vm :=
  { v with
    mem := v.mem.setEntry pte.1 pte.2 (page2pa pp ||| perm ||| PTE_P)
    ppRef := Function.update v.ppRef pp (v.ppRef pp + 1) }

/-- `page_alloc` and what `pgdir_walk` does with the page table `pp`. -/
def Vm.addTable (d i pp : Nat) (v : Vm) : Vm :=
  { v with
    mem := (v.mem.zeroPage pp).setEntry d i
      (page2pa pp ||| PTE_U ||| PTE_W ||| PTE_P)
    ppRef := Function.update v.ppRef pp 1
    pageFreeList := v.pageFreeList.remove pp }

/-- The flags of a page table's directory entry. -/
theorem mapped_table (hp : p < 2 ^ 20) :
    mapped (page2pa p ||| PTE_U ||| PTE_W ||| PTE_P) = some p := by
  rw [BitVec.or_assoc (page2pa p)]
  exact mapped_page2pa hp (by decide)

namespace Owned

theorem take (h : Owned L dirs out v)
    (hfirst : v.pageFreeList.first = some pp) :
    Owned L dirs (pp :: out) (v.take pp) := by
  obtain ⟨xs, hrep, hnd, hc⟩ := h.pool
  obtain ⟨ys, rfl⟩ := hrep.eq_cons hfirst
  refine ⟨h.npage, h.boot, h.dir_lt,
    ⟨ys, Queue.rep_removeFirst hrep, ?_, ?_⟩, h.tree⟩
  · exact (List.nodup_middle).mp hnd
  · refine ⟨hc.cnt_eq, fun a => Iff.trans ?_ (hc.free_iff a)⟩
    simp only [List.cons_append, List.mem_cons, List.mem_append]
    tauto

/-- Handing a page out and putting it back changes nothing. -/
theorem give_take (h : Owned L dirs out v)
    (hfirst : v.pageFreeList.first = some pp) :
    (v.take pp).give pp = v := by
  obtain ⟨xs, hrep, -, -⟩ := h.pool
  cases xs with
  | nil =>
      rw [hrep.first_eq] at hfirst
      cases hfirst
  | cons x ys =>
      rw [hrep.first_eq] at hfirst
      cases hfirst
      simp [Vm.take, Vm.give, Queue.insertHead_remove hrep]

/-- An empty slot comes to refer to a page that was handed out. -/
theorem adopt (h : Owned L dirs (pp :: out) v) {v' : Vm}
    {dirs' : Nat → Option Nat}
    {c : BitVec 16} (hk : k ∈ L.slots)
    (hnone : target v.mem dirs k = none) (hn : v'.npage = v.npage)
    (hb : v'.bootPgdir = v.bootPgdir)
    (hdir : ∀ e d, dirs' e = some d → e < L.ndirs)
    (hr : v'.ppRef = Function.update v.ppRef pp c) (hc : c = 1)
    (hl : v'.pageFreeList = v.pageFreeList)
    (ht : ∀ l ∈ L.slots, target v'.mem dirs' l = if l = k then some pp else
      target v.mem dirs l) :
    Owned L dirs' out v' := by
  obtain ⟨xs, hrep, hnd, hcnt⟩ := h.pool
  obtain ⟨hu, hfresh⟩ := h.not_out (List.mem_cons_self ..)
  have hself : target v'.mem dirs' k = some pp := by rw [ht k hk, if_pos rfl]
  have hag : ∀ l ∈ L.slots, l ≠ k →
      target v'.mem dirs' l = target v.mem dirs l :=
    fun l hlk hne => by rw [ht l hlk, if_neg hne]
  refine ⟨hn.trans h.npage, hb.trans h.boot, hdir,
    ⟨xs, hl ▸ hrep, (List.nodup_cons.mp hnd).2, ?_⟩, ?_⟩
  · rw [hr]
    refine hcnt.adopt hk hnone hself hag (List.mem_cons_self ..)
      (fun b => ?_) hc
    have := (List.nodup_cons.mp hnd).1
    simp only [List.cons_append, List.mem_cons]
    constructor
    · exact fun hb => ⟨.inr hb, fun hbp => this (hbp ▸ hb)⟩
    · exact fun hb => hb.1.resolve_left hb.2
  · exact h.tree.install hself hag hu fun l hlk hlp => absurd hlp (hfresh l hlk)

/-- The counter of a page that was handed out is zero. -/
theorem ppRef_out (h : Owned L dirs out v) (hp : pp ∈ out) :
    v.ppRef pp = 0 := by
  obtain ⟨xs, -, -, hc⟩ := h.pool
  obtain ⟨hok, h0⟩ := (hc.free_iff pp).mp (List.mem_append_left _ hp)
  rw [hc.cnt_eq pp hok, h0]
  rfl

/-- An empty entry comes to refer to one more data page. -/
theorem share (h : Owned L dirs out v) (he : e < L.ndirs) (hi : i < pdxUTOP)
    (hj : j < NPTENTRIES) (hd : dirs e = some d)
    (hpt : v.mem.link d i = some pt)
    (hnone : v.mem.link pt j = none) (hperm : perm < 0x1000#32)
    (hk : k ∈ L.slots)
    (hdata : ¬k.Node) (hpp : target v.mem dirs k = some pp) :
    Owned L dirs out (v.install (pt, j) pp perm) := by
  obtain ⟨xs, hrep, hnd, hc⟩ := h.pool
  have hu := h.user hk hpp
  have hslot : Slot.pte e i j ∈ L.slots := mem_slots.mpr ⟨he, hi, hj⟩
  have ht : ∀ l ∈ L.slots, target (v.install (pt, j) pp perm).mem dirs l
      = if l = .pte e i j then some pp else target v.mem dirs l := by
    intro l hl
    rw [← mapped_page2pa (lt_pow hu) hperm]
    exact target_setPte h.tree he hi hd hpt hl
  have hself : target (v.install (pt, j) pp perm).mem dirs (.pte e i j) =
      some pp := by
    rw [ht _ hslot, if_pos rfl]
  have hag : ∀ l ∈ L.slots, l ≠ .pte e i j →
      target (v.install (pt, j) pp perm).mem dirs l = target v.mem dirs l :=
    fun l hl hne => by rw [ht l hl, if_neg hne]
  refine ⟨h.npage, h.boot, h.dir_lt, ⟨xs, hrep, hnd, ?_⟩, ?_⟩
  · refine hc.share hslot ((target_pte hd hpt).trans hnone) hself hag ?_
    have := refCount_pos hk hpp
    omega
  · exact h.tree.install hself hag hu fun l hl hlp =>
      ⟨nofun, fun hn => hdata (h.tree.node l hl k hk pp hn hlp hpp ▸ hn)⟩

/-- A slot is cleared and what it referred to loses a reference. -/
theorem drop (h : Owned L dirs out v) {v' : Vm} {dirs' : Nat → Option Nat}
    (hk : k ∈ L.slots)
    (hpp : target v.mem dirs k = some pp) (hfit : Countable L dirs v.mem pp)
    (hn : v'.npage = v.npage) (hb : v'.bootPgdir = v.bootPgdir)
    (hdir : ∀ e d, dirs' e = some d → e < L.ndirs)
    (hr : v'.ppRef = (v.decref pp).ppRef)
    (hl : v'.pageFreeList = (v.decref pp).pageFreeList)
    (ht : ∀ l ∈ L.slots, target v'.mem dirs' l = if l = k then none else
      target v.mem dirs l) :
    Owned L dirs' out v' := by
  obtain ⟨xs, hrep, hnd, hc⟩ := h.pool
  have hself : target v'.mem dirs' k = none := by rw [ht k hk, if_pos rfl]
  have hag : ∀ l ∈ L.slots, l ≠ k →
      target v'.mem dirs' l = target v.mem dirs l :=
    fun l hlk hne => by rw [ht l hlk, if_neg hne]
  have hdrop := hc.drop hk hpp hself hag (h.user hk hpp).1 hfit
  have hnot : pp ∉ out ++ xs := fun hmem => (not_target hc hmem).2 k hk hpp
  refine ⟨hn.trans h.npage, hb.trans h.boot, hdir, ?_, h.tree.clear hself hag⟩
  rw [hr, hl]
  simp only [Vm.decref]
  by_cases hz : v.ppRef pp - 1 = 0
  · rw [if_pos hz] at hdrop ⊢
    refine ⟨pp :: xs, Queue.rep_insertHead hrep fun hx => hnot
      (List.mem_append_right _ hx),
      (List.nodup_middle).mpr (List.nodup_cons.mpr ⟨hnot, hnd⟩), hdrop.cnt_eq,
      fun a => ?_⟩
    rw [← hdrop.free_iff]
    simp only [List.mem_cons, List.mem_append]
    tauto
  · rw [if_neg hz] at hdrop ⊢
    exact ⟨xs, hrep, hnd, hdrop⟩

/-- `page_remove` at a mapped address. -/
theorem unmap (h : Owned L dirs out v) (he : e < L.ndirs) (hi : i < pdxUTOP)
    (hj : j < NPTENTRIES) (hd : dirs e = some d)
    (hpt : v.mem.link d i = some pt)
    (hpp : v.mem.link pt j = some pp) (hfit : Countable L dirs v.mem pp) :
    Owned L dirs out ((v.decref pp).setPte (pt, j) 0) :=
  h.drop (k := .pte e i j) (mem_slots.mpr ⟨he, hi, hj⟩)
    ((target_pte hd hpt).trans hpp) hfit rfl rfl h.dir_lt rfl rfl
    fun _ hl => by
      rw [← mapped_zero]
      exact target_setPte h.tree he hi hd hpt hl

/-- A page already mapped is mapped again with other permissions. -/
theorem remap (h : Owned L dirs out v) (he : e < L.ndirs) (hi : i < pdxUTOP)
    (hj : j < NPTENTRIES) (hd : dirs e = some d)
    (hpt : v.mem.link d i = some pt)
    (hpp : v.mem.link pt j = some pp) (hperm : perm < 0x1000#32) :
    Owned L dirs out (v.setPte (pt, j) (page2pa pp ||| perm ||| PTE_P)) := by
  have hslot : target v.mem dirs (.pte e i j) = some pp :=
    (target_pte hd hpt).trans hpp
  refine h.congr rfl rfl rfl rfl fun l hl => ?_
  have hu := h.user (k := .pte e i j) (mem_slots.mpr ⟨he, hi, hj⟩) hslot
  refine (target_setPte h.tree he hi hd hpt hl).trans ?_
  rw [mapped_page2pa (lt_pow hu) hperm]
  by_cases hk : l = .pte e i j
  · rw [if_pos hk, hk, hslot]
  · rw [if_neg hk]

/-- A page table is added. -/
theorem addTable (h : Owned L dirs out v) (he : e < L.ndirs) (hi : i < pdxUTOP)
    (hd : dirs e = some d) (hnone : v.mem.link d i = none)
    (hfirst : v.pageFreeList.first = some pp) :
    Owned L dirs out (v.addTable d i pp) := by
  obtain ⟨hu, hfresh, -⟩ := h.first hfirst
  exact (h.take hfirst).adopt (k := .pde e i) (mem_slots.mpr ⟨he, hi⟩)
    ((target_pde hd).trans hnone) rfl rfl h.dir_lt rfl rfl rfl fun l hl =>
    target_addTable h.tree he hd hnone (mapped_table (lt_pow hu)) hfresh hl

/-- A new page is mapped. -/
theorem mapNew (h : Owned L dirs (pp :: out) v) (he : e < L.ndirs)
    (hi : i < pdxUTOP)
    (hj : j < NPTENTRIES) (hd : dirs e = some d)
    (hpt : v.mem.link d i = some pt)
    (hnone : v.mem.link pt j = none) (hperm : perm < 0x1000#32) :
    Owned L dirs out (v.install (pt, j) pp perm) := by
  obtain ⟨hu, -⟩ := h.not_out (List.mem_cons_self ..)
  refine h.adopt (k := .pte e i j) (mem_slots.mpr ⟨he, hi, hj⟩)
    ((target_pte hd hpt).trans hnone) rfl rfl h.dir_lt rfl ?_ rfl fun l hl => ?_
  · rw [h.ppRef_out (List.mem_cons_self ..)]
    rfl
  · rw [← mapped_page2pa (lt_pow hu) hperm]
    exact target_setPte h.tree he hi hd hpt hl

/-- An empty page table is given up. -/
theorem dropTable (h : Owned L dirs out v) (he : e < L.ndirs) (hi : i < pdxUTOP)
    (hd : dirs e = some d) (hpt : v.mem.link d i = some pt)
    (hempty : ∀ j < NPTENTRIES, v.mem.link pt j = none) :
    Owned L dirs out ((v.setPte (d, i) 0).decref pt) := by
  have hslot : Slot.pde e i ∈ L.slots := mem_slots.mpr ⟨he, hi⟩
  have hpp := (target_pde hd).trans hpt
  exact h.drop hslot hpp (h.countable_node hslot trivial hpp) rfl rfl
    h.dir_lt rfl rfl
    fun l hl => target_dropTable h.tree he hd hpt hempty hl

/-- A page directory with nothing below `UTOP` is given up. -/
theorem dropDir (h : Owned L dirs out v) (hd : dirs e = some d)
    (hempty : ∀ i < pdxUTOP, v.mem.link d i = none) :
    Owned L (Function.update dirs e none) out (v.decref d) := by
  have hslot : Slot.dir e ∈ L.slots := mem_slots.mpr (h.dir_lt e d hd)
  refine h.drop hslot hd (h.countable_node hslot trivial hd) rfl rfl
    (fun e' d' hd' => ?_) rfl rfl
    fun l hl => target_dropDir hd hempty hl
  by_cases he' : e' = e
  · rw [he', Function.update_self] at hd'
    cases hd'
  · rw [Function.update_of_ne he'] at hd'
    exact h.dir_lt e' d' hd'

/-- A page that was handed out becomes a page directory with nothing below
`UTOP`. -/
theorem addDir (h : Owned L dirs (d :: out) v) {v' : Vm} (he : e < L.ndirs)
    (hnone : dirs e = none) (hn : v'.npage = v.npage)
    (hb : v'.bootPgdir = v.bootPgdir)
    (hr : v'.ppRef = Function.update v.ppRef d (v.ppRef d + 1))
    (hl : v'.pageFreeList = v.pageFreeList)
    (hm : ∀ q, q ≠ d → v'.mem q = v.mem q)
    (hempty : ∀ i < pdxUTOP, v'.mem.link d i = none) :
    Owned L (Function.update dirs e (some d)) out v' := by
  obtain ⟨-, hfresh⟩ := h.not_out (List.mem_cons_self ..)
  refine h.adopt (k := .dir e) (mem_slots.mpr he) hnone hn hb
    (fun e' d' hd' => ?_) hr ?_ hl
    fun l hl => target_addDir hm hempty hfresh hnone hl
  · by_cases he' : e' = e
    · exact he' ▸ he
    · rw [Function.update_of_ne he'] at hd'
      exact h.dir_lt e' d' hd'
  · rw [h.ppRef_out (List.mem_cons_self ..)]
    rfl

end Owned

end

end Jos
