import Jos.Kern.State

/-!
# Page allocation and page tables

The functions of kern/pmap.c. A page-table entry pointer `pte_t *` is the
page of its table and its index there; `NULL` is `none`. `int` results that
report an error are `Except Word`.

The TLB is not modelled: `tlb_invalidate` has no effect here.
-/

namespace Jos

/-! ## Physical pages -/

/-- `KADDR(pa)`, and `pa2page(pa)` when `msg` is its panic: the page of `pa`. -/
def checkedPage (msg : String) (pa : Word) : VmM Nat := do
  let v ← Prog.ask
  if v.npage ≤ ppn pa then
    Prog.halt (.panic msg)
  else
    pure (ppn pa)

/-- `KADDR(pa)`. -/
def kaddr (pa : Word) : VmM Nat :=
  checkedPage "KADDR called with invalid pa %08lx" pa

/-- `pa2page(pa)`. -/
def pa2page (pa : Word) : VmM Nat :=
  checkedPage "pa2page called with invalid pa" pa

/-- `page2kva(pp)`. -/
def page2kva (pp : Nat) : VmM Nat := kaddr (page2pa pp)

/-- Initialise the `pages` array and the free list. `lowerlimit` is
`PPN(IOPHYSMEM)` and `upperlimit` the first page after what `boot_alloc` gave
out. -/
def pageInit (lowerlimit upperlimit : Nat) : VmM Unit := do
  Prog.update fun v => { v with pageFreeList := v.pageFreeList.init }
  let v ← Prog.ask
  Prog.forUp v.npage fun i =>
    if i = 0 ∨ (lowerlimit ≤ i ∧ i < upperlimit) then
      Prog.update fun v => { v with ppRef := Function.update v.ppRef i 1 }
    else
      Prog.update fun v => { v with
        ppRef := Function.update v.ppRef i 0
        pageFreeList := v.pageFreeList.insertHead i }

/-- Take a page off the free list. Neither its contents nor its reference
count are touched. -/
def pageAlloc : VmM (Except Word Nat) := do
  let v ← Prog.ask
  match v.pageFreeList.first with
  | some pp =>
      Prog.update fun v => { v with pageFreeList := v.pageFreeList.remove pp }
      pure (.ok pp)
  | none => pure (.error (-E_NO_MEM))

/-- Put a page on the free list, whatever its reference count. -/
def pageFree (pp : Nat) : VmM Unit :=
  Prog.update fun v => { v with pageFreeList := v.pageFreeList.insertHead pp }

/-- `pp->pp_ref = c`. -/
def setPpRef (pp : Nat) (c : BitVec 16) : VmM Unit :=
  Prog.update fun v => { v with ppRef := Function.update v.ppRef pp c }

/-- Drop one reference, and free the page if it was the last. -/
def pageDecref (pp : Nat) : VmM Unit := do
  let v ← Prog.ask
  setPpRef pp (v.ppRef pp - 1)
  if v.ppRef pp - 1 = 0 then
    pageFree pp

/-! ## Page tables -/

/-- Store through a page-table entry pointer. -/
def setPte (pte : Nat × Nat) (x : Word) : VmM Unit :=
  Prog.update fun v => { v with mem := v.mem.setEntry pte.1 pte.2 x }

/-- The entry for `va`, in a page table allocated now if `create` asks for
it. -/
def pgdirWalk (pgdir : Nat) (va : Word) (create : Bool) :
    VmM (Option (Nat × Nat)) := do
  let v ← Prog.ask
  let pde := v.mem.entry pgdir (pdx va)
  if present pde then
    let pt ← kaddr (pteAddr pde)
    pure (some (pt, ptx va))
  else if create then
    match ← pageAlloc with
    | .error _ => pure none
    | .ok pp =>
        setPpRef pp 1
        let kva ← page2kva pp
        Prog.update fun v => { v with mem := v.mem.zeroPage kva }
        let pde := page2pa pp ||| PTE_U ||| PTE_W ||| PTE_P
        setPte (pgdir, pdx va) pde
        let pt ← kaddr (pteAddr pde)
        pure (some (pt, ptx va))
  else
    pure none

/-- The page mapped at `va`, and the entry pointer that `pte_store` receives. -/
def pageLookup (pgdir : Nat) (va : Word) :
    VmM (Option Nat × Option (Nat × Nat)) := do
  match ← pgdirWalk pgdir va false with
  | none => pure (none, none)
  | some pte =>
      let v ← Prog.ask
      if present (v.mem.entry pte.1 pte.2) then
        let pp ← pa2page (pteAddr (v.mem.entry pte.1 pte.2))
        pure (some pp, some pte)
      else
        pure (none, some pte)

/-- Unmap the page at `va`. The test is on the entry pointer: a page table
with an empty entry leads to `page_decref(NULL)`. -/
def pageRemove (pgdir : Nat) (va : Word) : VmM Unit := do
  match ← pageLookup pgdir va with
  | (_, none) => pure ()
  | (none, some _) => Prog.halt .nullPointer
  | (some pp, some pte) =>
      pageDecref pp
      setPte pte 0

/-- What `page_insert` does about the page mapped at `va` so far. Inserting the
same page again only takes back the reference that is about to be counted. -/
def unmapOld (pgdir pp : Nat) (va : Word) (pte : Nat × Nat) : VmM Unit := do
  let v ← Prog.ask
  if present (v.mem.entry pte.1 pte.2) then
    if pteAddr (v.mem.entry pte.1 pte.2) ≠ page2pa pp then
      pageRemove pgdir va
    else
      setPpRef pp (v.ppRef pp - 1)

/-- Map page `pp` at `va` with permissions `perm | PTE_P`. -/
def pageInsert (pgdir pp : Nat) (va perm : Word) : VmM (Except Word Unit) := do
  match ← pgdirWalk pgdir va true with
  | none => pure (.error (-E_NO_MEM))
  | some pte =>
      unmapOld pgdir pp va pte
      setPte pte (page2pa pp ||| perm ||| PTE_P)
      let v ← Prog.ask
      setPpRef pp (v.ppRef pp + 1)
      pure (.ok ())

/-- Map `[la, la + PGSIZE * n)` to `[pa, pa + PGSIZE * n)`, without counting. -/
def bootMapSegment (pgdir : Nat) (la : Word) (n : Nat) (pa perm : Word) :
    VmM Unit :=
  Prog.forUp n fun i => do
    match ← pgdirWalk pgdir (la + BitVec.ofNat 32 (i * PGSIZE)) true with
    | none => Prog.halt .nullPointer
    | some pte =>
        setPte pte ((pa + BitVec.ofNat 32 (i * PGSIZE)) ||| perm ||| PTE_P)

/-! ## Memory that user programs name -/

/-- The loop of `user_mem_check`: `i` is the address to test. -/
def userMemCheckLoop (pgdir : Nat) (stop perm : Word) :
    Nat → Word → VmM (Except Word Unit)
  | 0, _ => pure (.ok ())
  | fuel + 1, i => do
      if i < stop then
        let pte ← pgdirWalk pgdir i false
        let v ← Prog.ask
        -- without a table there is no PTE_P, as in an empty entry
        let pte := pte.elim 0 fun pte => v.mem.entry pte.1 pte.2
        if ULIM ≤ i ∨ pte &&& perm ≠ perm then
          pure (.error i)
        else
          userMemCheckLoop pgdir stop perm fuel (pteAddr i + 0x1000#32)
      else
        pure (.ok ())

/-- Whether the user may access `[va, va + len)`; the error is the address
stored in `user_mem_check_addr`. No page is tested twice, so the loop ends
within as many steps as there are pages. -/
def userMemCheck (pgdir : Nat) (va len perm : Word) : VmM (Except Word Unit) :=
  userMemCheckLoop pgdir (va + len) (perm ||| PTE_P ||| PTE_U) (2 ^ 20 + 1) va

/-! ## With and without memory -/

section

variable {v : Vm} {pgdir pp : Nat} {va perm : Word}

theorem pageAlloc_some (h : v.pageFreeList.first = some pp) :
    pageAlloc v = .ret (.ok pp)
      { v with pageFreeList := v.pageFreeList.remove pp } := by
  rw [pageAlloc, Prog.ask_bind, h]
  rfl

theorem pageAlloc_none (h : v.pageFreeList.first = none) :
    pageAlloc v = .ret (.error (-E_NO_MEM)) v := by
  rw [pageAlloc, Prog.ask_bind, h]
  rfl

/-- Without a page for the page table, nothing is done. -/
theorem pgdirWalk_noMem (hpde : ¬present (v.mem.entry pgdir (pdx va)))
    (h : v.pageFreeList.first = none) :
    pgdirWalk pgdir va true v = .ret none v := by
  rw [pgdirWalk, Prog.ask_bind, if_neg hpde, if_pos rfl,
    Prog.bind_ret (pageAlloc_none h)]
  rfl

theorem pageInsert_noMem (hpde : ¬present (v.mem.entry pgdir (pdx va)))
    (h : v.pageFreeList.first = none) :
    pageInsert pgdir pp va perm v = .ret (.error (-E_NO_MEM)) v := by
  rw [pageInsert, Prog.bind_ret (pgdirWalk_noMem hpde h)]
  rfl

end

/-! ## What only reads -/

theorem kaddr_reads (pa : Word) : VmReads (kaddr pa) :=
  Prog.Reads.ask.bind fun _ =>
    (Prog.Reads.halt (by decide)).ite (Prog.Reads.pure _)

theorem pa2page_reads (pa : Word) : VmReads (pa2page pa) :=
  Prog.Reads.ask.bind fun _ =>
    (Prog.Reads.halt (by decide)).ite (Prog.Reads.pure _)

theorem pgdirWalk_reads (pgdir : Nat) (va : Word) :
    VmReads (pgdirWalk pgdir va false) :=
  Prog.Reads.ask.bind fun _ =>
    ((kaddr_reads ..).bind fun _ => Prog.Reads.pure _).ite (Prog.Reads.pure _)

theorem pageLookup_reads (pgdir : Nat) (va : Word) :
    VmReads (pageLookup pgdir va) := by
  refine (pgdirWalk_reads ..).bind fun pte => ?_
  cases pte with
  | none => exact Prog.Reads.pure _
  | some pte =>
      exact Prog.Reads.ask.bind fun v =>
        ((pa2page_reads ..).bind fun _ => Prog.Reads.pure _).ite
          (Prog.Reads.pure _)

theorem userMemCheck_reads (pgdir : Nat) (va len perm : Word) :
    VmReads (userMemCheck pgdir va len perm) := by
  have key : ∀ (stop perm : Word) (fuel : Nat) (i : Word),
      VmReads (userMemCheckLoop pgdir stop perm fuel i) := by
    intro stop perm fuel
    induction fuel with
    | zero => exact fun _ => Prog.Reads.pure _
    | succ fuel ih =>
        exact fun i => Prog.Reads.ite ((pgdirWalk_reads ..).bind fun _ =>
          Prog.Reads.ask.bind fun _ =>
            (Prog.Reads.pure _).ite (ih _)) (Prog.Reads.pure _)
  exact key ..

/-! ## Nothing here leaves its caller -/

theorem pageAlloc_stays : VmStays pageAlloc := by
  refine Prog.Stays.ask.bind fun v => ?_
  cases v.pageFreeList.first with
  | none => exact Prog.Stays.pure _
  | some pp => exact (Prog.Stays.update _).bind fun _ => Prog.Stays.pure _

theorem pageFree_stays (pp : Nat) : VmStays (pageFree pp) := Prog.Stays.update _

theorem setPpRef_stays (pp : Nat) (c : BitVec 16) : VmStays (setPpRef pp c) :=
  Prog.Stays.update _

theorem setPte_stays (pte : Nat × Nat) (x : Word) : VmStays (setPte pte x) :=
  Prog.Stays.update _

theorem pageDecref_stays (pp : Nat) : VmStays (pageDecref pp) :=
  Prog.Stays.ask.bind fun _ => (setPpRef_stays ..).bind fun _ =>
    (pageFree_stays pp).ite (Prog.Stays.pure _)

theorem pgdirWalk_stays (pgdir : Nat) (va : Word) (create : Bool) :
    VmStays (pgdirWalk pgdir va create) := by
  refine Prog.Stays.ask.bind fun v =>
    Prog.Stays.ite ?_ (Prog.Stays.ite ?_ (Prog.Stays.pure _))
  · exact (kaddr_reads _).stays.bind fun _ => Prog.Stays.pure _
  · refine pageAlloc_stays.bind fun r => ?_
    cases r with
    | error e => exact Prog.Stays.pure _
    | ok pp =>
        exact (setPpRef_stays ..).bind fun _ =>
          (kaddr_reads _).stays.bind fun _ =>
          (Prog.Stays.update _).bind fun _ => (setPte_stays ..).bind fun _ =>
            (kaddr_reads _).stays.bind fun _ => Prog.Stays.pure _

theorem pageLookup_stays (pgdir : Nat) (va : Word) :
    VmStays (pageLookup pgdir va) :=
  (pageLookup_reads pgdir va).stays

theorem pageRemove_stays (pgdir : Nat) (va : Word) :
    VmStays (pageRemove pgdir va) := by
  refine (pageLookup_stays ..).bind fun r => ?_
  rcases r with ⟨_ | pp, _ | pte⟩
  · exact Prog.Stays.pure _
  · exact Prog.Stays.halt (by decide)
  · exact Prog.Stays.pure _
  · exact (pageDecref_stays pp).bind fun _ => setPte_stays ..

theorem unmapOld_stays (pgdir pp : Nat) (va : Word) (pte : Nat × Nat) :
    VmStays (unmapOld pgdir pp va pte) :=
  Prog.Stays.ask.bind fun _ =>
    ((pageRemove_stays ..).ite (setPpRef_stays ..)).ite (Prog.Stays.pure _)

theorem pageInsert_stays (pgdir pp : Nat) (va perm : Word) :
    VmStays (pageInsert pgdir pp va perm) := by
  refine (pgdirWalk_stays ..).bind fun pte => ?_
  cases pte with
  | none => exact Prog.Stays.pure _
  | some pte =>
      exact (unmapOld_stays ..).bind fun _ => (setPte_stays ..).bind fun _ =>
        Prog.Stays.ask.bind fun _ => (setPpRef_stays ..).bind fun _ =>
          Prog.Stays.pure _

end Jos
