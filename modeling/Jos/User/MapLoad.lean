import Jos.User.Region

/-!
# What `mmap` loads

The loop over the pages compares its index, which goes up, with the number of
pages that are left, which goes down, so that about half of the pages are
loaded. One page is loaded as it should be.
-/

namespace Jos

/-- The bytes of a file, and how many there are. -/
structure FileData where
  bytes : Nat → BitVec 8
  size : Nat

/-- The position of `fd` after the calls of a trace. -/
def cursor (fd : Word) : Trace → Option Nat
  | [] => none
  | (.seek fd' offset, a) :: T =>
      if fd' = fd ∧ ¬a.ret.slt 0 then some offset.toNat else cursor fd T
  | (.read fd' _ _, a) :: T =>
      if fd' = fd ∧ ¬a.ret.slt 0 then (cursor fd T).map (· + a.ret.toNat) else
        cursor fd T
  | _ :: T => cursor fd T

/-- `fd` is open on the file: what is inside of the file can be read, a page at
most at a time. -/
structure OpenOn (h : Host) (fd : Word) (F : FileData) : Prop where
  seek : ∀ T offset, ¬(h T (.seek fd offset)).ret.slt 0
  read : ∀ T va (n : Word) pos, cursor fd T = some pos → n.toNat ≤ PGSIZE →
    pos + n.toNat ≤ F.size →
    (h T (.read fd va n)).ret = n ∧ ∀ i < n.toNat,
    (h T (.read fd va n)).data i = F.bytes (pos + i)

namespace Mmap

/-- The pages of the mapping are mapped, and hold the bytes of the file from
`offset` on. -/
structure Loads (M : Nat → Bool) (F : FileData) (p t : Proc)
    (start length offset : Word) : Prop where
  mapped : ∃ added, t.trace = added ++ p.trace ∧ ∀ k < sizePages length,
    mappedIn M added (ppn start + k)
  bytes : ∀ k < length.toNat, t.mem (start + BitVec.ofNat 32 k) =
    F.bytes (offset.toNat + k)

/-- A protection for reading and writing. -/
structure ReadWrite (prot : Word) : Prop where
  access : prot &&& PROT_NONE = 0
  read : prot &&& PROT_READ ≠ 0
  write : prot &&& PROT_WRITE ≠ 0

/-- Permissions with which a process can store to a page. -/
structure Storable (perm : Word) : Prop where
  user : perm &&& (PTE_P ||| PTE_U) = PTE_P ||| PTE_U
  write : perm &&& (PTE_W ||| PTE_COW) ≠ 0

/-- From `u` to `t` a page has been mapped at `st`, and `n` bytes of the file
from `pos` on have been read into it. -/
structure PageLoaded (F : FileData) (fd st perm n : Word) (pos : Nat)
    (u t : Proc) : Prop where
  trace : ∃ a b c, t.trace = (.read fd st n, a) :: (.pageAlloc 0 st perm, b) ::
    (.pageref st, c) :: u.trace ∧
    a.ret = n ∧ ¬n.slt 0 ∧ ¬b.ret.slt 0
  bytes : ∀ k < n.toNat, t.mem (st + BitVec.ofNat 32 k) = F.bytes (pos + k)

section

variable {h : Host} {M : Nat → Bool} {F : FileData} {p q t u : Proc}
  {start length prot mode fd offset st perm : Word} {i n pos : Nat}
  {A : Proc → Prop} {E : UserStop → Proc → Prop}

theorem ReadWrite.storable (hprot : ReadWrite prot) (mode : Word) :
    Storable (permOf prot mode) := by
  have hperm : permOf prot mode =
      PTE_W ||| PTE_U ||| (if mode &&& MAP_SHARED ≠ 0 then PTE_SHARED else
        0) ||| PTE_P := by
    rw [permOf, if_neg (not_not.mpr hprot.access), if_pos hprot.write,
      if_pos hprot.read]
  rw [hperm]
  split <;> exact ⟨by decide, by decide⟩

/-! ## What is mapped -/

theorem mapsAfter_alloc {a : Answer} (ha : ¬a.ret.slt 0) :
    mapsAfter (.pageAlloc 0 start perm, a) M (ppn start) = true := by
  show (if (0 : Word) = 0 ∧ ¬a.ret.slt 0 then
    Function.update M (ppn start) true else M) (ppn start) = true
  rw [if_pos ⟨rfl, ha⟩, Function.update_self]

/-- The calls from `p` to `t` have mapped no pages but those for which `P`
holds. -/
def MapsOnly (P : Nat → Prop) : Proc → Proc → Prop :=
  Prog.Added Proc.trace fun x => ∀ M k, mapsAfter x M k → M k ∨ P k

theorem MapsOnly.mapped {P : Nat → Prop} (hmaps : MapsOnly P p t) :
    ∃ added, t.trace = added ++ p.trace ∧ ∀ k, mappedIn M added k →
    M k ∨ P k := by
  obtain ⟨added, htrace, hall⟩ := hmaps
  refine ⟨added, htrace, ?_⟩
  clear htrace
  induction added with
  | nil => exact fun k hk => .inl hk
  | cons x added ih =>
      intro k hk
      rcases hall x List.mem_cons_self _ k hk with hk | hk
      · exact ih (fun y hy => hall y (List.mem_cons_of_mem _ hy)) k hk
      · exact .inr hk

theorem MapsOnly.frame (P : Nat → Prop) :
    CallFrame h (fun va => P (ppn va)) (MapsOnly P) where
  toFrame := Prog.Added.frame
  call c p hc := .cons rfl fun M k hk => .inl <| by
    cases c <;> first | exact hk | exact hc.elim
  alloc va perm p hva := .cons rfl fun M k hk => by
    change (if _ then Function.update M (ppn va) true else M) k = true at hk
    split_ifs at hk with hok
    · by_cases heq : k = ppn va
      · exact .inr (heq ▸ hva)
      · rw [Function.update_of_ne heq] at hk
        exact .inl hk
    · exact .inl hk
  mem _ _ _ _ _ _ := .of_same rfl

/-! ## A turn of the loop -/

theorem PageLoaded.cursor {n : Word} (hpage : PageLoaded F fd st perm n pos u t)
    (hcur : Jos.cursor fd u.trace = some pos) :
    Jos.cursor fd t.trace = some (pos + n.toNat) := by
  obtain ⟨a, b, c, htrace, ha, hpos, -⟩ := hpage.trace
  have hread : Jos.cursor fd t.trace =
      (Jos.cursor fd u.trace).map (· + a.ret.toNat) := by
    rw [htrace]
    exact if_pos ⟨rfl, by rwa [ha]⟩
  rw [hread, hcur, ha]
  rfl

theorem PageLoaded.truthful {n : Word}
    (hpage : PageLoaded F fd st perm n pos u t)
    (htrue : Truthful h M u.trace) :
    Truthful h (Function.update M (ppn st) true) t.trace := by
  obtain ⟨a, b, c, htrace, -, -, hb⟩ := hpage.trace
  have halloc := ((htrue.asked (c := .pageref st) (a := c)).asked
    (c := .pageAlloc 0 st perm) (a := b)).asked
    (c := .read fd st n) (a := a)
  rw [htrace]
  change Truthful h (if (0 : Word) = 0 ∧ ¬b.ret.slt 0 then
    Function.update M (ppn st) true else M) _ at halloc
  rwa [if_pos ⟨rfl, hb⟩] at halloc

theorem minWord_PGSZ_ok : ¬(minWord PGSZ length).slt 0 := by
  have hle := @minWord_le_left PGSZ length
  have hP : PGSZ.toNat = 4096 := rfl
  rw [BitVec.slt_iff_toInt_lt, toInt_of_nonneg (by omega),
    show (0 : Word).toInt = 0 from rfl]
  omega

/-- Stores to a new page go through. -/
theorem canStore_page {pages : Nat → Word} (hperm : Storable perm)
    (halign : st = page2pa (ppn st))
    {k : Nat} (hk : k < PGSIZE) (hbelow : st.toNat + k < UTOP.toNat)
    (hpages : q.pages = Function.update pages (ppn st) perm) :
    q.CanStore (st + BitVec.ofNat 32 k) := by
  have hU : UTOP.toNat = 0xEEC00000 := rfl
  have hnum := ppn_eq st
  have hnat := congrArg BitVec.toNat halign
  rw [page2pa_toNat (by omega)] at hnat
  rw [PGSIZE] at hk
  have hadd : (st + BitVec.ofNat 32 k).toNat = st.toNat + k := by
    rw [BitVec.toNat_add, BitVec.toNat_ofNat]
    omega
  have hpage : ppn (st + BitVec.ofNat 32 k) = ppn st := by
    rw [ppn_eq, ppn_eq, hadd]
    omega
  refine ⟨by rw [BitVec.lt_def, hadd]; exact hbelow, ?_⟩
  rw [hpages, hpage, Function.update_self]
  exact ⟨hperm.user, hperm.write⟩

/-- A turn at a page that is not mapped: it is loaded. -/
theorem wp_loadTurn {Q : Unit → Proc → Prop} (hi : i < pagesOf length)
    (hfree : (h u.trace (.pageref st)).ret = 0)
    (halloc : ∀ T, ¬(h T (.pageAlloc 0 st perm)).ret.slt 0)
    (hperm : Storable perm) (halign : st = page2pa (ppn st))
    (hbelow : st.toNat + (minWord PGSZ length).toNat ≤ UTOP.toNat)
    (hopen : OpenOn h fd F)
    (hcur : cursor fd u.trace = some pos)
    (hin : pos + (minWord PGSZ length).toNat ≤ F.size)
    (hrest : ∀ t, PageLoaded F fd st perm (minWord PGSZ length) pos u t →
      Prog.wp (loadLoop h perm fd n (i + 1) (st + PGSZ) (length - PGSZ))
        Q A E t) :
    Prog.wp (loadLoop h perm fd (n + 1) i st length) Q A E u := by
  have hnum : (minWord PGSZ length).toNat ≤ PGSIZE := minWord_le_left
  rw [loadLoop, if_pos hi]
  apply Prog.wp_bind_intro
  refine wp_call (Prog.wp_ite _ (fun _ => ?_) fun hne => absurd hfree hne)
  generalize hv : u.asked (.pageref st) (h u.trace (.pageref st)) = v
  -- the new page
  have hok := halloc v.trace
  apply Prog.wp_bind_intro
  rw [allocPage]
  apply Prog.wp_bind_intro
  refine wp_call ?_
  rw [if_pos ⟨by simpa using hok, rfl⟩]
  apply Prog.wp_bind_intro
  refine Prog.wp_update_intro (Prog.wp_pure_intro ?_)
  apply Prog.wp_bind_intro
  refine wp_panicOn (fun hbad => absurd hbad hok) fun _ => ?_
  generalize hw :
    ({ v.asked (.pageAlloc 0 st perm) (h v.trace (.pageAlloc 0 st perm)) with
    mem := putBytes _ st PGSIZE fun _ => 0 } : Proc) = w
  have hcur' : cursor fd w.trace = some pos := by
    rw [← hw, ← hv]
    exact hcur
  have hpages : w.pages = Function.update u.pages (ppn st) perm := by
    rw [← hw, ← hv]
    exact pagesAfter_alloc (by rw [hv]; exact hok)
  -- what is read
  obtain ⟨hall, hdata⟩ := hopen.read w.trace st _ pos hcur' hnum hin
  apply Prog.wp_bind_intro
  rw [readFile]
  apply Prog.wp_bind_intro
  refine wp_call ?_
  rw [hall, Nat.min_self, if_pos (by simpa using minWord_PGSZ_ok)]
  apply Prog.wp_bind_intro
  refine Prog.wp_ret (fill_ret fun k hk =>
    canStore_page hperm halign (by omega) (by omega) hpages)
    (Prog.wp_pure_intro ?_)
  apply Prog.wp_bind_intro
  refine wp_panicOn (fun hbad => absurd hbad minWord_PGSZ_ok) fun _ =>
    hrest _ ⟨?_, fun k hk => ?_⟩
  · have htrace :
        w.trace = (.pageAlloc 0 st perm, h v.trace (.pageAlloc 0 st perm)) ::
        (.pageref st, h u.trace (.pageref st)) :: u.trace := by
      rw [← hw, ← hv]
      rfl
    exact ⟨_, _, _, congrArg _ htrace, hall, minWord_PGSZ_ok, hok⟩
  · have hlt := (minWord PGSZ length).isLt
    have hoff : (st + BitVec.ofNat 32 k - st).toNat = k := by
      rw [BitVec.add_comm, BitVec.add_sub_cancel, BitVec.toNat_ofNat]
      omega
    change putBytes _ st (minWord PGSZ length).toNat _
      (st + BitVec.ofNat 32 k) = _
    rw [putBytes, hoff, if_pos hk, hdata k hk]

/-! ## The loop -/

/-- What the loop over the pages of a mapping can count on. -/
structure Loadable (h : Host) (F : FileData) (fd perm start length : Word)
    (offset : Nat) : Prop where
  align : start = page2pa (ppn start)
  below : ppn start + sizePages length ≤ ppn UTOP
  alloc : ∀ T va, ¬(h T (.pageAlloc 0 va perm)).ret.slt 0
  perm : Storable perm
  file : OpenOn h fd F
  inside : offset + length.toNat ≤ F.size

/-- The address of page `i` of a mapping below `UTOP`. -/
theorem Loadable.page (hload : Loadable h F fd perm start length pos)
    (hi : i < sizePages length) :
    (start + BitVec.ofNat 32 i * PGSZ).toNat = start.toNat + 4096 * i ∧
      ppn (start + BitVec.ofNat 32 i * PGSZ) = ppn start + i ∧
      start + BitVec.ofNat 32 i * PGSZ = page2pa (ppn start + i) := by
  have hP : PGSZ.toNat = 4096 := rfl
  have hU : ppn UTOP = 0xEEC00 := rfl
  have hbelow := hload.below
  have hnum := ppn_eq start
  have hnat := congrArg BitVec.toNat hload.align
  rw [page2pa_toNat (by omega)] at hnat
  have hadd : (start + BitVec.ofNat 32 i * PGSZ).toNat =
      start.toNat + 4096 * i := by
    rw [BitVec.toNat_add, BitVec.toNat_mul, BitVec.toNat_ofNat, hP]
    omega
  have hppn : ppn (start + BitVec.ofNat 32 i * PGSZ) = ppn start + i := by
    rw [ppn_eq, hadd]
    omega
  refine ⟨hadd, hppn, BitVec.eq_of_toNat_eq ?_⟩
  rw [hadd, page2pa_toNat (by omega)]
  omega

theorem Loadable.pages (hload : Loadable h F fd perm start length pos) :
    pagesOf length = sizePages length := by
  have hU : ppn UTOP = 0xEEC00 := rfl
  have hbelow := hload.below
  rw [pagesOf_eq]
  rw [sizePages, PGSIZE] at hbelow ⊢
  omega

/-- A turn has a page of the mapping, and reads what the file has there; the
turns after it have whole pages before them. -/
theorem wp_loadPage {len : Word} {Q : Unit → Proc → Prop}
    (hload : Loadable h F fd perm start length pos)
    (hi : i < sizePages length - i) (hlen : pagesOf len = sizePages length - i)
    (hbytes : len.toNat + 4096 * i = length.toNat)
    (htrue : Truthful h M u.trace)
    (hfree : M (ppn start + i) = false)
    (hcur : cursor fd u.trace = some (pos + 4096 * i))
    (hrest : ∀ t, PageLoaded F fd (start + BitVec.ofNat 32 i * PGSZ) perm
      (minWord PGSZ len) (pos + 4096 * i) u t →
      Prog.wp (loadLoop h perm fd n (i + 1)
        (start + BitVec.ofNat 32 (i + 1) * PGSZ) (len - PGSZ)) Q A E t) :
    Prog.wp (loadLoop h perm fd (n + 1) i (start + BitVec.ofNat 32 i * PGSZ)
      len) Q A E u := by
  obtain ⟨haddr, hppn, hpage⟩ := hload.page (i := i) (by omega)
  have hU : UTOP.toNat = 4096 * ppn UTOP := rfl
  have hbelow := hload.below
  have hnum := ppn_eq start
  have hnat := congrArg BitVec.toNat hload.align
  have hinside := hload.inside
  have hle : (minWord PGSZ len).toNat ≤ 4096 := minWord_le_left
  have hle' := @minWord_le_right PGSZ len
  rw [page2pa_toNat (by have : ppn UTOP = 0xEEC00 := rfl; omega)] at hnat
  rw [← hppn] at hpage
  refine wp_loadTurn (by omega) ((htrue.pageref _).mpr ?_)
    (fun T => hload.alloc T _) hload.perm hpage
    (by omega) hload.file hcur (by omega) fun t ht => ?_
  · rw [hppn, hfree]
    exact Bool.false_ne_true
  · have hnext : start + BitVec.ofNat 32 i * PGSZ + PGSZ =
        start + BitVec.ofNat 32 (i + 1) * PGSZ := by
      rw [BitVec.ofNat_add, BitVec.add_mul, BitVec.add_assoc]
      rfl
    rw [hnext]
    exact hrest t ht

/-- The loop comes to its end: the pages that it gets to can be mapped, and the
file has bytes for them. -/
theorem wp_loadLoop {len : Word} (hload : Loadable h F fd perm start length pos)
    (hlen : pagesOf len = sizePages length - i)
    (hmore : i < sizePages length - i →
      len.toNat + 4096 * i = length.toNat ∧ cursor fd u.trace = some
      (pos + 4096 * i))
    (htrue : Truthful h M u.trace)
    (hfree : ∀ k < sizePages length, i ≤ k → M (ppn start + k) = false) :
    Prog.wp (loadLoop h perm fd n i (start + BitVec.ofNat 32 i * PGSZ) len)
      (fun _ _ => True)
      (fun _ => False) (fun _ _ => False) u := by
  induction n generalizing i len u M with
  | zero => exact Prog.wp_pure_intro trivial
  | succ n ih =>
      by_cases hi : i < sizePages length - i
      · obtain ⟨hbytes, hcur⟩ := hmore hi
        refine wp_loadPage hload hi hlen hbytes htrue
          (hfree i (by omega) le_rfl) hcur fun t ht => ?_
        obtain ⟨-, hppn, -⟩ := hload.page (i := i) (by omega)
        refine ih (by rw [pagesOf_sub (by omega), hlen]; omega) (fun hi' => ?_)
          (ht.truthful htrue)
          fun k hk hik => ?_
        · -- there are pages behind this one, so that it is a whole one
          have hP : PGSZ.toNat = 4096 := rfl
          have hsize : 4096 * (sizePages length - 1) < length.toNat := by
            rw [sizePages, PGSIZE]
            rw [sizePages, PGSIZE] at hi
            omega
          have hfull : minWord PGSZ len = PGSZ := by
            rw [minWord, if_pos]
            rw [BitVec.le_def, hP]
            omega
          refine ⟨?_, ?_⟩
          · rw [BitVec.toNat_sub_of_le (by rw [BitVec.le_def, hP]; omega), hP]
            omega
          · rw [ht.cursor hcur, hfull, hP]
            exact congrArg some (by omega)
        · rw [Function.update_of_ne (by rw [hppn]; omega)]
          exact hfree k hk (by omega)
      · rw [loadLoop, if_neg (by omega)]
        exact Prog.wp_pure_intro trivial

/-- One page is mapped, and the file is read into it. -/
theorem wp_load_page (hload : Loadable h F fd perm start length offset.toNat)
    (h0 : length ≠ 0)
    (hle : length.toNat ≤ PGSIZE) (htrue : Truthful h M p.trace)
    (hfree : M (ppn start) = false) :
    Prog.wp (load h perm start length fd offset) (fun _ t =>
      (∃ added, t.trace = added ++ p.trace ∧ mappedIn M added (ppn start)) ∧
      ∀ k < length.toNat, t.mem (start + BitVec.ofNat 32 k) =
        F.bytes (offset.toNat + k))
      (fun _ => False) (fun _ _ => False) p := by
  have hone : sizePages length = 1 := by
    have hpos := sizePages_pos h0
    rw [sizePages, PGSIZE] at hpos ⊢
    rw [PGSIZE] at hle
    omega
  have hmin : minWord PGSZ length = length := by
    rw [minWord]
    split_ifs with hge
    · exact BitVec.eq_of_toNat_eq (Nat.le_antisymm (BitVec.le_def.mp hge) hle)
    · rfl
  have hstart : start + BitVec.ofNat 32 0 * PGSZ = start :=
    BitVec.add_zero start
  rw [load]
  apply Prog.wp_bind_intro
  refine wp_call ?_
  have hloop := @wp_loadPage h M F
    (p.asked (.seek fd offset) (h p.trace (.seek fd offset))) start length fd
    perm 0 (NPAGES - 1) offset.toNat (fun _ => False) (fun _ _ => False) length
    (fun _ t => (∃ added, t.trace = added ++ p.trace ∧
    mappedIn M added (ppn start)) ∧
      ∀ k < length.toNat, t.mem (start + BitVec.ofNat 32 k) =
      F.bytes (offset.toNat + k))
    hload (by omega) (by rw [hload.pages]; rfl) rfl
    (htrue.asked (c := .seek fd offset)) hfree
    (if_pos ⟨rfl, hload.file.seek _ _⟩) fun t ht => ?_
  · rwa [hstart] at hloop
  · have hpast : ¬0 + 1 < pagesOf (length - PGSZ) := by
      rw [pagesOf_sub (pagesOf_pos h0 hle), hload.pages]
      omega
    rw [show NPAGES - 1 = (NPAGES - 2) + 1 from rfl, loadLoop, if_neg hpast]
    rw [hstart, hmin] at ht
    obtain ⟨a, b, c, htrace, -, -, hb⟩ := ht.trace
    exact Prog.wp_pure_intro
      ⟨⟨[_, _, _, _], htrace, mapsAfter_alloc hb⟩, ht.bytes⟩

/-- `mmap` of a file at a given address: it passes the tests, and loads. -/
theorem mmap_of_load (hstart : start ≠ 0) (hmode : mode &&& MAP_ANONYMOUS = 0)
    (hmap : Mappable h prot mode fd p.trace)
    (hload : load h (permOf prot mode) start length fd offset
      (p.asked (.fdLookup fd) (h p.trace (.fdLookup fd))) = .ret () u) :
    ∃ t, mmap h start length prot mode fd offset p = .ret start t ∧
    t.trace = u.trace ∧ t.mem = u.mem := by
  rw [mmap, Prog.bind_ret (refuses_file hmode hmap), if_neg Bool.false_ne_true,
    choose, if_pos hstart,
    Prog.bind_ret (f := pure (some start)) rfl]
  dsimp only
  rw [mapAt, if_pos hmode, Prog.bind_ret hload]
  exact ⟨_, rfl, rfl, rfl⟩

/-- `mmap` of a range of a file, for reading and writing, returns its address;
and it has loaded the range exactly if that is one page, or less. -/
theorem mmap_loads_iff (h0 : length ≠ 0) (hstart : start ≠ 0)
    (halign : start = page2pa (ppn start))
    (hfits : ppn start + sizePages length ≤ ppn UTOP)
    (htrue : Truthful h M p.trace)
    (hfree : ∀ k < sizePages length, M (ppn start + k) = false)
    (hopen : OpenOn h fd F)
    (hin : offset.toNat + length.toNat ≤ F.size)
    (hmode : mode &&& MAP_ANONYMOUS = 0)
    (hmap : Mappable h prot mode fd p.trace) (hprot : ReadWrite prot)
    (halloc : ∀ T va, ¬(h T (.pageAlloc 0 va (permOf prot mode))).ret.slt 0) :
    ∃ t, mmap h start length prot mode fd offset p = .ret start t ∧
      (Loads M F p t start length offset ↔ length.toNat ≤ PGSIZE) := by
  have hload : Loadable h F fd (permOf prot mode) start length offset.toNat :=
    ⟨halign, hfits, halloc, hprot.storable mode, hopen, hin⟩
  have hpos := sizePages_pos h0
  have hU : ppn UTOP = 0xEEC00 := rfl
  have hnum := ppn_eq start
  have hnat := congrArg BitVec.toNat halign
  rw [page2pa_toNat (by omega)] at hnat
  generalize ha : h p.trace (.fdLookup fd) = a
  have hlookup : Truthful h M (p.asked (.fdLookup fd) a).trace :=
    htrue.asked (c := .fdLookup fd)
  by_cases hle : length.toNat ≤ PGSIZE
  · -- one page
    have hone : sizePages length = 1 := by
      rw [sizePages, PGSIZE] at hpos ⊢
      rw [PGSIZE] at hle
      omega
    obtain ⟨_, u, hrun, ⟨added, hadded, hmapped⟩, hbytes⟩ :=
      (wp_load_page hload h0 hle hlookup (hfree 0 hpos)).exists_ret
    obtain ⟨t, ht, htrace, hmem⟩ := mmap_of_load hstart hmode hmap (ha ▸ hrun)
    refine ⟨t, ht, iff_of_true
      ⟨⟨added ++ [(.fdLookup fd, a)], ?_, fun k hk => ?_⟩, fun k hk => ?_⟩ hle⟩
    · rw [htrace, hadded, List.append_assoc]
      rfl
    · rw [mappedIn_append, show k = 0 by omega]
      exact hmapped
    · rw [hmem]
      exact hbytes k hk
  · -- more pages, and the last of them is not among those that are loaded
    have hreturns : Prog.wp (load h (permOf prot mode) start length fd offset)
        (fun _ _ => True) (fun _ => False)
        (fun _ _ => False) (p.asked (.fdLookup fd) a) := by
      rw [load]
      apply Prog.wp_bind_intro
      refine wp_call ?_
      have hloop :=
        @wp_loadLoop h M F ((p.asked (.fdLookup fd) a).asked (.seek fd offset)
        (h (p.asked (.fdLookup fd) a).trace (.seek fd offset))) start length fd
        (permOf prot mode) 0 NPAGES offset.toNat
        length hload hload.pages (fun _ => ⟨rfl, if_pos ⟨rfl, hopen.seek _ _⟩⟩)
        (hlookup.asked (c := .seek fd offset)) fun k hk _ => hfree k hk
      rwa [show start + BitVec.ofNat 32 0 * PGSZ = start from
        BitVec.add_zero start] at hloop
    obtain ⟨_, u, hrun, -⟩ := hreturns.exists_ret
    obtain ⟨t, ht, htrace, -⟩ := mmap_of_load hstart hmode hmap (ha ▸ hrun)
    refine ⟨t, ht, iff_of_false ?_ hle⟩
    rintro ⟨⟨added, hadded, hmapped⟩, -⟩
    have hkeeps :=
      (MapsOnly.frame (h := h) fun k => ∃ j, 2 * j < pagesOf length ∧
      k = ppn (start + BitVec.ofNat 32 j * PGSZ)).load start (fun j hj =>
      ⟨j, hj, rfl⟩)
      (permOf prot mode) fd offset (p.asked (.fdLookup fd) a)
    rw [hrun] at hkeeps
    obtain ⟨added', hadded', hmaps⟩ := MapsOnly.mapped hkeeps
    have heq : added = added' ++ [(.fdLookup fd, a)] := by
      refine (List.append_left_inj p.trace).mp ?_
      rw [← hadded, htrace, List.append_assoc]
      exact hadded'
    have hlast := hmapped (sizePages length - 1) (by omega)
    rw [heq, mappedIn_append] at hlast
    rcases hmaps _ hlast with hbefore | ⟨j, hj, hpage⟩
    · change M (ppn start + (sizePages length - 1)) = true at hbefore
      rw [hfree _ (by omega)] at hbefore
      cases hbefore
    · rw [hload.pages] at hj
      obtain ⟨-, hppn, -⟩ := hload.page (i := j) (by omega)
      rw [hppn] at hpage
      rw [sizePages, PGSIZE] at hpage hj
      rw [PGSIZE] at hle
      omega

end

/-! ## One byte of a file -/

/-- A file that is open at every descriptor, in an address space where the pages
of `M` are mapped. -/
def openHost (M : Nat → Bool) (F : FileData) : Host := fun T c =>
  match c with
  | .pageref va => ⟨if mappedIn M T (ppn va) then 1 else 0, fun _ => 0, 0⟩
  | .read fd _ n => ⟨n, fun i => F.bytes ((cursor fd T).getD 0 + i), 0⟩
  | _ => ⟨0, fun _ => 0, O_RDWR⟩

theorem openHost_truthful (M : Nat → Bool) (F : FileData) :
    Truthful (openHost M F) M [] := by
  intro added va
  rw [List.append_nil]
  show (if mappedIn M added (ppn va) then (1 : Word) else 0) = 0 ↔ _
  split_ifs with hmapped
  · exact iff_of_false (by decide) (not_not.mpr hmapped)
  · exact iff_of_true rfl hmapped

theorem openHost_open (M : Nat → Bool) (F : FileData) (fd : Word) :
    OpenOn (openHost M F) fd F where
  seek _ _ := (by decide : ¬(0 : Word).slt 0)
  read T va n pos hpos _ _ := by
    refine ⟨rfl, fun i _ => ?_⟩
    show F.bytes ((cursor fd T).getD 0 + i) = _
    rw [hpos]
    rfl

/-- A file of one byte. -/
def oneByte : FileData := ⟨fun _ => 0x41, 1⟩

theorem mmap_loads_one :
    ∃ t, mmap (openHost (fun _ => false) oneByte) 0x600000 1
      (PROT_READ ||| PROT_WRITE) MAP_PRIVATE 0 0 mappedOne = .ret 0x600000 t ∧
    (Loads (fun _ => false) oneByte mappedOne t 0x600000 1 0 ↔
      (1 : Word).toNat ≤ PGSIZE) := by
  have hmap : Mappable (openHost (fun _ => false) oneByte)
      (PROT_READ ||| PROT_WRITE) MAP_PRIVATE 0
      mappedOne.trace := by
    rw [Mappable, if_neg (by decide)]
    exact ⟨(by decide : ¬(0 : Word).slt 0),
      (by decide : ¬Denies (PROT_READ ||| PROT_WRITE) O_RDWR)⟩
  exact mmap_loads_iff (by decide) (by decide) (by decide) (by decide)
    (openHost_truthful _ _) (fun _ _ => rfl)
    (openHost_open _ _ _) (by decide) (by decide) hmap
    ⟨by decide, by decide, by decide⟩
    fun _ _ => (by decide : ¬(0 : Word).slt 0)

end Mmap

end Jos
