import Jos.Kern.Check
import Jos.Lib.Walk
import Jos.Monitor.Perm

/-!
# The monitor's listings

`mon_showmappings`, `mon_dump_contents_pa` and `mon_dump_contents_va` of
kern/monitor.c. Each goes over the range of its two arguments with a loop whose
bound is included. What a command prints is returned, line by line. The monitor
runs in the address space `cr3`.
-/

namespace Jos

namespace Dump

/-- What is shown of a page: the page and the entry, if there are. -/
structure Mapping where
  va : Word
  page : Option Nat
  pte : Option Word

def showPage (now : Word) : MonM (List Mapping × Word) := do
  let v ← Prog.ask
  let (pp, pte) ← inKernel (pageLookup v.bootPgdir now)
  match pte with
  | some pte => pure ([⟨now, pp, some (v.mem.entry pte.1 pte.2)⟩],
      now + BitVec.ofNat 32 PGSIZE)
  | none => pure ([⟨now, none, none⟩], now + BitVec.ofNat 32 PGSIZE)

def monShowmappings (argc : Nat) (argv : Nat → Bytes) :
    MonM (Word × List Mapping) := do
  if argc ≠ 3 then
    pure (-E_INVAL, [])
  else
    let start ← inScan (atox (argv 1))
    let last ← inScan (atox (argv 2))
    let shown ← whileLe .endless showPage (roundUpPage last) NADDR
        (roundDownPage start)
    pure (0, shown)

/-- `*(uint32_t *) a` -/
def loadWord (cr3 a : Word) : MonM Word := do
  let b ← inKernel (kload cr3 a 4)
  pure (b.load32 0)

def dumpPa (cr3 now : Word) : MonM (List (Word × Word) × Word) := do
  let _ ← inKernel (kaddr now)
  let w ← loadWord cr3 (now + KERNBASE)
  pure ([(now, w)], now + 1)

def monDumpContentsPa (cr3 : Word) (argc : Nat) (argv : Nat → Bytes) :
    MonM (Word × List (Word × Word)) := do
  if argc ≠ 3 then
    pure (-E_INVAL, [])
  else
    let start ← inScan (atox (argv 1))
    let last ← inScan (atox (argv 2))
    let lines ← whileLe .endless (dumpPa cr3) last NADDR start
    pure (0, lines)

/-- What `dump_contents_va` prints. -/
inductive Line where
  /-- The head of the words of a page. -/
  | page (now : Word)
  | word (a w : Word)
  /-- There is no page. -/
  | none (now : Word)

/-- `for (next = now; next <= end && next < stop; next++)`. -/
def dumpWords (cr3 last stop : Word) : Nat → Word → MonM (List Line × Word)
  | 0, _ => Prog.halt .endless
  | n + 1, next =>
      if next ≤ last ∧ next < stop then do
        let w ← loadWord cr3 next
        let (words, next') ← dumpWords cr3 last stop n (next + 1)
        pure (.word next w :: words, next')
      else
        pure ([], next)

/-- One turn of the outer loop. -/
def dumpPage (cr3 : Word) (pgdir : Nat) (last now : Word) :
    MonM (List Line × Word) := do
  let (_, pte) ← inKernel (pageLookup pgdir now)
  match pte with
  | some _ =>
      let (words, next) ← dumpWords cr3 last (roundUpPage (now + 1)) NADDR now
      pure (.page now :: words, next)
  | none => pure ([.none now], roundUpPage (now + 1))

def dumpRange (cr3 : Word) (pgdir : Nat) (start last : Word) :
    MonM (Word × List Line) := do
  let lines ← whileLe .endless (dumpPage cr3 pgdir last) last NADDR start
  pure (0, lines)

/-- `envPgdir` is the `env_pgdir` of what `envid2env` finds. -/
def monDumpContentsVa (envPgdir : Word → Option Nat) (cr3 : Word) (argc : Nat)
    (argv : Nat → Bytes) :
    MonM (Word × List Line) := do
  if argc ≠ 3 ∧ argc ≠ 4 then
    pure (-E_INVAL, [])
  else if argc = 4 then
    let envid ← inScan (atox (argv 1))
    let start ← inScan (atox (argv 2))
    let last ← inScan (atox (argv 3))
    match envPgdir envid with
    | some pgdir => dumpRange cr3 pgdir start last
    | none => Prog.halt (.kernel .nullPointer)
  else
    let start ← inScan (atox (argv 1))
    let last ← inScan (atox (argv 2))
    let v ← Prog.ask
    dumpRange cr3 v.bootPgdir start last

/-! ## What the commands are to print -/

/-- The addresses of `[start, last]`, in order. -/
def addressesOf (start last : Word) : List Word :=
  (List.range' start.toNat (last.toNat + 1 - start.toNat)).map (BitVec.ofNat 32)

/-- The pages that `[start, last]` meets, in order. -/
def pagesOf (start last : Word) : List Word :=
  if start ≤ last then (List.range' (ppn start) (ppn last + 1 - ppn start)).map
    page2pa else []

/-- What is to be shown of the page at `a`. -/
def mappingOf (v : Vm) (d : Nat) (a : Word) : Mapping :=
  match v.mem.link d (pdx a) with
  | none => ⟨a, none, none⟩
  | some pt => ⟨a, v.mem.link pt (ptx a), some (v.mem.entry pt (ptx a))⟩

/-- The word at `a`. -/
def wordAt (v : Vm) (cr3 a : Word) : Word :=
  (shownByte v.mem cr3 (a + 3)).getD 0 ++
    (shownByte v.mem cr3 (a + 2)).getD 0 ++
    (shownByte v.mem cr3 (a + 1)).getD 0 ++ (shownByte v.mem cr3 a).getD 0

/-- The addresses from `now` up to the end of its page, or `last`. -/
def segment (last now : Word) : List Word :=
  (List.range' now.toNat (min (last.toNat + 1) (roundUpPage (now + 1)).toNat -
    now.toNat)).map (BitVec.ofNat 32)

/-- The addresses that a line is about. -/
def Line.covers (last : Word) : Line → List Word
  | .page _ => []
  | .word a _ => [a]
  | .none now => segment last now

/-- What a line says is so. -/
def Line.Right (v : Vm) (cr3 : Word) (d : Nat) : Line → Prop
  | .page now => (v.mem.link d (pdx now)).isSome
  | .word a w => w = wordAt v cr3 a ∧ (v.mem.link d (pdx a)).isSome
  | .none now => v.mem.link d (pdx now) = .none

/-- `showmappings` shows the pages that the range meets, each once and in
order. -/
def Shows (argv : Nat → Bytes) (v : Vm) (start last : Word) : Prop :=
  monShowmappings 3 argv v =
    .ret (0, (pagesOf start last).map (mappingOf v v.bootPgdir)) v

/-- `dump_contents_pa` prints the words at the addresses of the range, each once
and in order. -/
def DumpsPa (cr3 : Word) (argv : Nat → Bytes) (v : Vm)
    (start last : Word) : Prop :=
  monDumpContentsPa cr3 3 argv v =
    .ret (0, (addressesOf start last).map fun a =>
    (a, wordAt v cr3 (a + KERNBASE))) v

/-- `dump_contents_va` accounts for the addresses of the range, each once and in
order. -/
def DumpsVa (envPgdir : Word → Option Nat) (cr3 : Word) (argc : Nat)
    (argv : Nat → Bytes) (v : Vm) (d : Nat)
    (start last : Word) : Prop :=
  ∃ lines, monDumpContentsVa envPgdir cr3 argc argv v = .ret (0, lines) v ∧
    lines.flatMap (Line.covers last) = addressesOf start last ∧ ∀ x ∈ lines,
    x.Right v cr3 d

/-! ## What they need for that -/

/-- `page_lookup` comes back: page tables and pages are inside of memory. -/
def LookupOk (v : Vm) (d : Nat) (a : Word) : Prop :=
  ∀ pt, v.mem.link d (pdx a) = some pt → pt < v.npage ∧
    ¬v.Strays (v.mem.entry pt (ptx a))

/-- The four bytes from `a` on are mapped. -/
def Readable (v : Vm) (cr3 a : Word) : Prop :=
  ∀ i < 4, (translate v.mem cr3 (a + BitVec.ofNat 32 i)).isSome

/-- The address can be dumped, or is reported. -/
def AddressOk (v : Vm) (cr3 : Word) (d : Nat) (a : Word) : Prop :=
  LookupOk v d a ∧ ((v.mem.link d (pdx a)).isSome → Readable v cr3 a)

/-- The last address is the first of its page, and not of the last page; or the
range is empty and the loop does not begin. -/
def ShowBounds (start last : Word) : Prop :=
  if start ≤ last then roundDownPage last = last ∧ last ≠ 0xFFFFF000 else
    roundUpPage last < roundDownPage start

section

variable {v : Vm} {d n k : Nat} {a b now start last stop cr3 : Word}
  {argv : Nat → Bytes} {as : List Word}

/-! ## Lookups and loads -/

theorem inKernel_ret {α : Type} {f : VmM α} {r : α} {t : Vm}
    (h : f v = .ret r t) : inKernel f v = .ret r t := by
  rw [inKernel, Prog.mapStop, h]

theorem inKernel_stop {α : Type} {f : VmM α} {e : Stop} {t : Vm}
    (h : f v = .stop e t) :
    inKernel f v = .stop (.kernel e) t := by
  rw [inKernel, Prog.mapStop, h]

theorem lookup_ret (h : LookupOk v d a) : inKernel (pageLookup d a) v =
    match v.mem.link d (pdx a) with
    | none => .ret (none, none) v
    | some pt => .ret (v.mem.link pt (ptx a), some (pt, ptx a)) v := by
  cases hpt : v.mem.link d (pdx a) with
  | none => exact inKernel_ret (pageLookup_none hpt)
  | some pt =>
      obtain ⟨hlt, hstrays⟩ := h pt hpt
      cases hpp : v.mem.link pt (ptx a) with
      | none => exact inKernel_ret (hpp ▸ pageLookup_absent hpt hlt hpp)
      | some pp =>
          obtain ⟨hpres, hppn⟩ := mapped_eq_some.mp hpp
          have hltp : pp < v.npage := by
            by_contra hge
            exact hstrays ⟨hpres, by omega⟩
          exact inKernel_ret (hpp ▸ pageLookup_mapped hpt hlt hpp hltp)

theorem lookup_bad (h : ¬LookupOk v d a) (r : Option Nat × Option (Nat × Nat))
    (t : Vm) :
    inKernel (pageLookup d a) v ≠ .ret r t := by
  rw [LookupOk] at h
  push Not at h
  obtain ⟨pt, hpt, hbad⟩ := h
  obtain ⟨hpres, hppn⟩ := mapped_eq_some.mp hpt
  have hstop : ∃ e, pageLookup d a v = .stop e v := by
    by_cases hlt : pt < v.npage
    · obtain ⟨hpres', hppn'⟩ := hbad hlt
      refine ⟨.panic "pa2page called with invalid pa", ?_⟩
      rw [pageLookup, Prog.bind_ret (pgdirWalk_table hpt hlt)]
      simp only
      rw [Prog.ask_bind, if_pos hpres', pa2page, Prog.bind_stop]
      rw [checkedPage, Prog.ask_bind, if_pos (by rw [ppn_pteAddr]; exact hppn')]
      rfl
    · refine ⟨.panic "KADDR called with invalid pa %08lx", ?_⟩
      have hwalk : pgdirWalk d a false v =
          .stop (.panic "KADDR called with invalid pa %08lx") v := by
        rw [pgdirWalk, Prog.ask_bind, if_pos hpres, kaddr, Prog.bind_stop]
        rw [checkedPage, Prog.ask_bind, if_pos (by rw [ppn_pteAddr]; omega)]
        rfl
      rw [pageLookup, Prog.bind_stop hwalk]
  obtain ⟨e, hstop⟩ := hstop
  rw [inKernel_stop hstop]
  intro hret
  cases hret

theorem loadWord_ret (h : Readable v cr3 a) :
    loadWord cr3 a v = .ret (wordAt v cr3 a) v := by
  rw [Readable] at h
  obtain ⟨b, hb⟩ : ∃ b, kload cr3 a 4 v = .ret b v :=
    ⟨_, by rw [kload, Prog.ask_bind, if_pos h]; rfl⟩
  have hbyte : ∀ k < 4, (shownByte v.mem cr3 (a + BitVec.ofNat 32 k)).getD 0 =
      b k := fun k hk => by
    rw [kload_shown hb hk]
    rfl
  have h0 : (shownByte v.mem cr3 a).getD 0 = b 0 := by
    have h := hbyte 0 (by decide)
    rwa [show a + BitVec.ofNat 32 0 = a from BitVec.add_zero a] at h
  rw [loadWord, Prog.bind_ret (inKernel_ret hb), wordAt,
    show a + 3 = a + BitVec.ofNat 32 3 from rfl, hbyte 3 (by decide),
      show a + 2 = a + BitVec.ofNat 32 2 from rfl,
    hbyte 2 (by decide), show a + 1 = a + BitVec.ofNat 32 1 from rfl,
    hbyte 1 (by decide), h0]
  rfl

theorem loadWord_bad (h : ¬Readable v cr3 a) (r : Word) (t : Vm) :
    loadWord cr3 a v ≠ .ret r t := by
  rw [Readable] at h
  have hstop : kload cr3 a 4 v = .stop .kernelFault v := by
    rw [kload, Prog.ask_bind, if_neg h]
    rfl
  rw [loadWord, Prog.bind_stop (inKernel_stop hstop)]
  exact nofun

/-! ## The pages -/

theorem showPage_turns : Turns showPage (LookupOk v v.bootPgdir)
      (fun a => [mappingOf v v.bootPgdir a])
    (· + BitVec.ofNat 32 PGSIZE) v where
  ret a h := by
    have hlookup := lookup_ret h
    rw [showPage, Prog.ask_bind, mappingOf]
    cases hpt : v.mem.link v.bootPgdir (pdx a) with
    | none =>
        rw [hpt] at hlookup
        rw [Prog.bind_ret hlookup]
        rfl
    | some pt =>
        rw [hpt] at hlookup
        rw [Prog.bind_ret hlookup]
        rfl
  bad a h r t hret := by
    rw [showPage, Prog.ask_bind] at hret
    obtain ⟨x, u, hx, -⟩ := Prog.bind_eq_ret.mp hret
    exact lookup_bad h _ _ hx

theorem page2pa_le_iff {i j : Nat} (hi : i < 2 ^ 20) (hj : j < 2 ^ 20) :
    page2pa i ≤ page2pa j ↔ i ≤ j := by
  rw [BitVec.le_def, page2pa_toNat hi, page2pa_toNat hj]
  omega

theorem page2pa_next {i : Nat} (hi : i + 1 < 2 ^ 20) :
    page2pa i + BitVec.ofNat 32 PGSIZE = page2pa (i + 1) := by
  apply BitVec.eq_of_toNat_eq
  rw [BitVec.toNat_add, page2pa_toNat (by omega), page2pa_toNat hi,
    BitVec.toNat_ofNat, PGSIZE]
  omega

/-- From page to page, up to one that is not the last of all. -/
theorem walk_pages {m : Nat} (hm : m + 1 < 2 ^ 20) (hk : k ≤ m + 1)
    (hn : m + 1 - k < n) :
    walk (· + BitVec.ofNat 32 PGSIZE) (page2pa m) n (page2pa k) =
      some ((List.range' k (m + 1 - k)).map page2pa) := by
  obtain ⟨j, hj⟩ : ∃ j, m + 1 - k = j := ⟨_, rfl⟩
  rw [hj] at hn ⊢
  induction j generalizing k n with
  | zero =>
      obtain ⟨n, rfl⟩ := Nat.exists_eq_succ_of_ne_zero (Nat.ne_of_gt hn)
      exact walk_stop fun hle => by
        rw [page2pa_le_iff (by omega) (by omega)] at hle
        omega
  | succ j ih =>
      obtain ⟨n, rfl⟩ :=
        Nat.exists_eq_succ_of_ne_zero (Nat.ne_of_gt (Nat.zero_lt_of_lt hn))
      rw [walk_step ((page2pa_le_iff (by omega) (by omega)).mpr (by omega)),
        page2pa_next (by omega),
        ih (by omega) (by omega) (by omega)]
      rfl

theorem roundDownPage_eq : roundDownPage a = page2pa (ppn a) := by
  have hlt := a.isLt
  apply BitVec.eq_of_toNat_eq
  rw [roundDownPage_toNat, page2pa_toNat (by rw [ppn_eq]; omega),
    ppn_eq, PGSIZE]

theorem ppn_lt : ppn a < 2 ^ 20 := by
  have hlt := a.isLt
  rw [ppn_eq]
  omega

theorem roundUpPage_toNat :
    (roundUpPage a).toNat = (a.toNat + 4095) % 2 ^ 32 / 4096 * 4096 := by
  rw [roundUpPage, roundDownPage_toNat, PGSIZE, BitVec.toNat_sub,
    BitVec.toNat_add, BitVec.toNat_ofNat,
    show (1 : Word).toNat = 1 from rfl]
  have hlt := a.isLt
  omega

theorem mem_pagesOf {p : Word} (h : p ∈ pagesOf start last) :
    start ≤ last ∧ ∃ k, ppn start ≤ k ∧ k ≤ ppn last ∧ p = page2pa k := by
  rw [pagesOf] at h
  split_ifs at h with hle
  · obtain ⟨k, hk, rfl⟩ := List.mem_map.mp h
    rw [List.mem_range'_1] at hk
    exact ⟨hle, k, hk.1, by omega, rfl⟩
  · exact absurd h List.not_mem_nil

theorem page_mem_pagesOf (hstart : start ≤ a) (hlast : a ≤ last) :
    page2pa (ppn a) ∈ pagesOf start last := by
  rw [BitVec.le_def] at hstart hlast
  rw [pagesOf, if_pos (by rw [BitVec.le_def]; omega)]
  refine List.mem_map.mpr ⟨ppn a, ?_, rfl⟩
  rw [List.mem_range'_1, ppn_eq, ppn_eq, ppn_eq]
  omega

/-- From one page to the next, short of an aligned bound. -/
theorem next_aligned (ha : a.toNat % 4096 = 0) (hb : b.toNat % 4096 = 0)
    (hlt : a < b) :
    (a + BitVec.ofNat 32 PGSIZE).toNat % 4096 = 0 ∧
    a + BitVec.ofNat 32 PGSIZE ≤ b := by
  have hblt := b.isLt
  rw [BitVec.lt_def] at hlt
  rw [BitVec.le_def, BitVec.toNat_add, BitVec.toNat_ofNat, PGSIZE]
  omega

/-- Going from page to page, the loop does not get past the last one. -/
theorem walk_top (ha : a.toNat % 4096 = 0) (hb : b = 0xFFFFF000) :
    walk (· + BitVec.ofNat 32 PGSIZE) b n a = none := by
  refine walk_endless (P := fun a => a.toNat % 4096 = 0) (fun a ha => ?_)
    (fun a ha => ?_) ha
  · have hlt := a.isLt
    rw [hb, BitVec.le_def, show (0xFFFFF000 : Word).toNat = 0xFFFFF000 from rfl]
    omega
  · rw [BitVec.toNat_add, BitVec.toNat_ofNat, PGSIZE]
    omega

/-- Which bounds make `showmappings` visit the pages of the range. -/
theorem walk_show : walk (· + BitVec.ofNat 32 PGSIZE) (roundUpPage last) NADDR
      (roundDownPage start) =
    some (pagesOf start last) ↔ ShowBounds start last := by
  have hlast := last.isLt
  have hbound := roundUpPage_toNat (a := last)
  have hstart := roundDownPage_toNat (w := start)
  have hdown := roundDownPage_toNat (w := last)
  rw [PGSIZE] at hstart hdown
  rw [ShowBounds]
  split_ifs with hle
  · have hnat := BitVec.le_def.mp hle
    constructor
    · intro hwalk
      have htop := walk_le hwalk _
        (page_mem_pagesOf hle (BitVec.le_def.mpr (Nat.le_refl _)))
      rw [← roundDownPage_eq, BitVec.le_def] at htop
      -- the bound is visited, and it is a page of the range
      have hmem : roundUpPage last ∈ pagesOf start last := by
        refine walk_last (P := fun a => a.toNat % 4096 = 0)
          (fun a ha hne hale => ?_) (by omega)
          (BitVec.le_def.mpr (by omega)) hwalk
        exact next_aligned ha (by omega) (BitVec.lt_of_le_ne hale hne)
      obtain ⟨-, k, -, hk, hpage⟩ := mem_pagesOf hmem
      have hklt := ppn_lt (a := last)
      have hpagenat := congrArg BitVec.toNat hpage
      rw [page2pa_toNat (by omega)] at hpagenat
      rw [ppn_eq] at hk
      have haligned : roundDownPage last = last :=
        BitVec.eq_of_toNat_eq (by omega)
      refine ⟨haligned, fun hlasteq => ?_⟩
      have hup : roundUpPage last = 0xFFFFF000 := by
        rw [hlasteq]
        rfl
      rw [walk_top (by omega) hup] at hwalk
      cases hwalk
    · rintro ⟨haligned, hne⟩
      have hself := congrArg BitVec.toNat haligned
      have hne' : last.toNat ≠ 0xFFFFF000 :=
        fun h => hne (BitVec.eq_of_toNat_eq h)
      have hup : roundUpPage last = page2pa (ppn last) := by
        rw [← roundDownPage_eq]
        exact BitVec.eq_of_toNat_eq (by omega)
      have hnum := ppn_eq last
      have hnum' := ppn_eq start
      rw [hup, roundDownPage_eq, pagesOf, if_pos hle]
      exact walk_pages (by omega) (by omega) (by rw [NADDR]; omega)
  · rw [pagesOf, if_neg hle]
    exact walk_eq_nil (n := NADDR - 1)

theorem mappingOf_va : (mappingOf v d a).va = a := by
  rw [mappingOf]
  cases v.mem.link d (pdx a) <;> rfl

/-- `page_lookup` is about pages. -/
theorem lookupOk_page : LookupOk v d (page2pa (ppn a)) ↔ LookupOk v d a := by
  have hpage := page2pa_toNat (ppn_lt (a := a))
  have hnum := ppn_eq a
  have hpdx : pdx (page2pa (ppn a)) = pdx a := by
    rw [pdx_eq, pdx_eq]
    omega
  have hptx : ptx (page2pa (ppn a)) = ptx a := by
    rw [ptx_eq, ptx_eq]
    omega
  rw [LookupOk, LookupOk, hpdx, hptx]

theorem pagesOf_lookupOk : (∀ p ∈ pagesOf start last, LookupOk v d p) ↔
      ∀ a, start ≤ a → a ≤ last → LookupOk v d a := by
  constructor
  · intro h a hstart hlast
    exact lookupOk_page.mp (h _ (page_mem_pagesOf hstart hlast))
  · intro h p hp
    obtain ⟨hle, k, hk, hk', rfl⟩ := mem_pagesOf hp
    rw [BitVec.le_def] at hle
    have hlast := last.isLt
    have hnum := ppn_eq start
    have hnum' := ppn_eq last
    have hpage := page2pa_toNat (show k < 2 ^ 20 by omega)
    -- the first address of the page that is in the range
    obtain ⟨a, ha⟩ : ∃ a : Word, a = if k * 4096 < start.toNat then start else
        page2pa k := ⟨_, rfl⟩
    have hrange : start ≤ a ∧ a ≤ last ∧ ppn a = k := by
      rw [ppn_eq, BitVec.le_def, BitVec.le_def]
      split_ifs at ha <;> subst ha <;> omega
    rw [← hrange.2.2]
    exact lookupOk_page.mpr (h a hrange.1 hrange.2.1)

/-- A command returns 0 with its lines. -/
theorem lines_iff {α : Type} {f : MonM (List α)} {l : List α} :
    (f >>= fun l => pure ((0 : Word), l)) v = .ret (0, l) v ↔
    f v = .ret l v := by
  constructor
  · intro h
    obtain ⟨l', t, hf, hpure⟩ := Prog.bind_eq_ret.mp h
    cases hpure
    exact hf
  · intro h
    rw [Prog.bind_ret h]
    rfl

theorem inScan_value {f : ScanM Word} {log : List Nat} (h : f [] = .ret a log) :
    inScan f v = .ret a v := by
  rw [inScan, Prog.zoom_apply, h]

/-- `showmappings` shows the pages of the range exactly for these bounds, and
where each page can be looked up. -/
theorem shows_iff {log₁ log₂ : List Nat}
    (hstart : atox (argv 1) [] = .ret start log₁)
    (hlast : atox (argv 2) [] = .ret last log₂) : Shows argv v start last ↔
      ShowBounds start last ∧ ∀ a, start ≤ a → a ≤ last →
      LookupOk v v.bootPgdir a := by
  have hrun : ∀ l, monShowmappings 3 argv v = .ret (0, l) v ↔
      whileLe .endless showPage (roundUpPage last) NADDR
        (roundDownPage start) v = .ret l v := by
    intro l
    rw [monShowmappings, if_neg (by decide),
      Prog.bind_ret (inScan_value hstart), Prog.bind_ret (inScan_value hlast)]
    exact lines_iff
  rw [Shows, hrun, whileLe_ret_iff showPage_turns, ← walk_show,
    ← pagesOf_lookupOk]
  constructor
  · rintro ⟨as, has, hok, hlines, -⟩
    have hsame : pagesOf start last = as := by
      have hva := congrArg (List.map Mapping.va) hlines
      rw [← List.map_eq_flatMap, List.map_map, List.map_map] at hva
      simpa [Function.comp_def, mappingOf_va] using hva
    rw [hsame]
    exact ⟨has, hok⟩
  · rintro ⟨hwalk, hok⟩
    exact ⟨_, hwalk, hok, List.map_eq_flatMap, rfl⟩

/-! ## Physical addresses -/

theorem mem_addressesOf : a ∈ addressesOf start last ↔
      start ≤ a ∧ a ≤ last := by
  have hlt := a.isLt
  have hllt := last.isLt
  rw [addressesOf, List.mem_map, BitVec.le_def, BitVec.le_def]
  constructor
  · rintro ⟨i, hi, rfl⟩
    rw [List.mem_range'_1] at hi
    rw [BitVec.toNat_ofNat, Nat.mod_eq_of_lt (by omega)]
    omega
  · rintro ⟨hstart, hlast⟩
    refine ⟨a.toNat, ?_, by rw [BitVec.ofNat_toNat, BitVec.setWidth_eq]⟩
    rw [List.mem_range'_1]
    omega

theorem addressesOf_empty (h : ¬start ≤ last) :
    addressesOf start last = [] := by
  rw [BitVec.le_def] at h
  rw [addressesOf, show last.toNat + 1 - start.toNat = 0 by omega]
  rfl

theorem addressesOf_cons (h : start ≤ last) (htop : last ≠ 0xFFFFFFFF) :
    addressesOf start last = start :: addressesOf (start + 1) last := by
  have hllt := last.isLt
  have htop' : last.toNat ≠ 0xFFFFFFFF :=
    fun h => htop (BitVec.eq_of_toNat_eq h)
  rw [BitVec.le_def] at h
  have hnext : (start + 1).toNat = start.toNat + 1 := by
    rw [BitVec.toNat_add, show (1 : Word).toNat = 1 from rfl]
    omega
  rw [addressesOf, addressesOf, hnext, show last.toNat + 1 - start.toNat =
    last.toNat - start.toNat + 1 by omega,
    show last.toNat + 1 - (start.toNat + 1) = last.toNat - start.toNat by omega,
      List.range'_succ, List.map_cons,
    BitVec.ofNat_toNat, BitVec.setWidth_eq]

/-- From address to address, up to one that is not the last of all. -/
theorem walk_upTo (htop : last ≠ 0xFFFFFFFF)
    (hn : last.toNat + 1 - start.toNat < n) :
    walk (· + 1) last n start = some (addressesOf start last) := by
  have hllt := last.isLt
  have htop' : last.toNat ≠ 0xFFFFFFFF :=
    fun h => htop (BitVec.eq_of_toNat_eq h)
  induction n generalizing start with
  | zero => exact absurd hn (Nat.not_lt_zero _)
  | succ n ih =>
      by_cases hle : start ≤ last
      · have hnat := BitVec.le_def.mp hle
        have hnext : (start + 1).toNat = start.toNat + 1 := by
          rw [BitVec.toNat_add, show (1 : Word).toNat = 1 from rfl]
          omega
        rw [walk_step hle, ih (by omega), addressesOf_cons hle htop]
        rfl
      · rw [walk_stop hle, addressesOf_empty hle]

theorem walk_addresses :
    walk (· + 1) last NADDR start = some (addressesOf start last) ↔
    (start ≤ last → last ≠ 0xFFFFFFFF) := by
  by_cases htop : last = 0xFFFFFFFF
  · subst htop
    have hall : ∀ a : Word, a ≤ 0xFFFFFFFF := fun a => by
      have hlt := a.isLt
      rw [BitVec.le_def, show (0xFFFFFFFF : Word).toNat = 0xFFFFFFFF from rfl]
      omega
    rw [walk_endless (P := fun _ => True) (fun a _ => hall a)
      (fun _ _ => trivial) trivial]
    exact iff_of_false nofun fun h => h (hall start) rfl
  · have hllt := last.isLt
    have htop' : last.toNat ≠ 0xFFFFFFFF :=
      fun h => htop (BitVec.eq_of_toNat_eq h)
    exact iff_of_true (walk_upTo htop (by rw [NADDR]; omega)) fun _ => htop

theorem dumpPa_turns : Turns (dumpPa cr3)
      (fun a => ppn a < v.npage ∧ Readable v cr3 (a + KERNBASE))
    (fun a => [(a, wordAt v cr3 (a + KERNBASE))]) (· + 1) v where
  ret a h := by
    have hkaddr : kaddr a v = .ret (ppn a) v := by
      rw [kaddr, checkedPage, Prog.ask_bind, if_neg (Nat.not_le.mpr h.1)]
      rfl
    rw [dumpPa, Prog.bind_ret (inKernel_ret hkaddr),
      Prog.bind_ret (loadWord_ret h.2)]
    rfl
  bad a h r t hret := by
    by_cases hpage : ppn a < v.npage
    · have hkaddr : kaddr a v = .ret (ppn a) v := by
        rw [kaddr, checkedPage, Prog.ask_bind, if_neg (Nat.not_le.mpr hpage)]
        rfl
      rw [dumpPa, Prog.bind_ret (inKernel_ret hkaddr)] at hret
      obtain ⟨w, u, hw, -⟩ := Prog.bind_eq_ret.mp hret
      exact loadWord_bad (fun hread => h ⟨hpage, hread⟩) _ _ hw
    · have hkaddr : kaddr a v =
          .stop (.panic "KADDR called with invalid pa %08lx") v := by
        rw [kaddr, checkedPage, Prog.ask_bind, if_pos (Nat.not_lt.mp hpage)]
        rfl
      rw [dumpPa, Prog.bind_stop (inKernel_stop hkaddr)] at hret
      cases hret

/-- `dump_contents_pa` prints the words of the range exactly where the range
does not end with the last of all addresses, and each address is in memory and
can be read. -/
theorem dumpsPa_iff {log₁ log₂ : List Nat}
    (hstart : atox (argv 1) [] = .ret start log₁)
    (hlast : atox (argv 2) [] = .ret last log₂) :
    DumpsPa cr3 argv v start last ↔
      (start ≤ last → last ≠ 0xFFFFFFFF) ∧
        ∀ a, start ≤ a → a ≤ last → ppn a < v.npage ∧
        Readable v cr3 (a + KERNBASE) := by
  have hrun : ∀ l, monDumpContentsPa cr3 3 argv v = .ret (0, l) v ↔
      whileLe .endless (dumpPa cr3) last NADDR start v = .ret l v := by
    intro l
    rw [monDumpContentsPa, if_neg (by decide),
      Prog.bind_ret (inScan_value hstart), Prog.bind_ret (inScan_value hlast)]
    exact lines_iff
  have hall : (∀ a ∈ addressesOf start last, ppn a < v.npage ∧
      Readable v cr3 (a + KERNBASE)) ↔
      ∀ a, start ≤ a → a ≤ last → ppn a < v.npage ∧
      Readable v cr3 (a + KERNBASE) :=
    ⟨fun h a hs hl => h a (mem_addressesOf.mpr ⟨hs, hl⟩), fun h a ha =>
      h a (mem_addressesOf.mp ha).1 (mem_addressesOf.mp ha).2⟩
  rw [DumpsPa, hrun, whileLe_ret_iff dumpPa_turns, ← walk_addresses, ← hall]
  constructor
  · rintro ⟨as, has, hok, hlines, -⟩
    have hsame : addressesOf start last = as := by
      have haddr := congrArg (List.map Prod.fst) hlines
      rw [← List.map_eq_flatMap, List.map_map, List.map_map] at haddr
      simpa [Function.comp_def] using haddr
    rw [hsame]
    exact ⟨has, hok⟩
  · rintro ⟨hwalk, hok⟩
    exact ⟨_, hwalk, hok, List.map_eq_flatMap, rfl⟩

end

end Dump

end Jos
