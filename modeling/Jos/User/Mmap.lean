import Jos.Fs.Client
import Jos.Fs.File
import Jos.User.Host

/-!
# Memory-mapped files

lib/mmap.c. `mmap` chooses an address if it is given none, loads the file's
pages there and records the mapping; `munmap` writes the pages of a shared
mapping back and takes an entry off the table.
-/

namespace Jos

def PROT_READ : Word := 0x0002#32
def PROT_WRITE : Word := 0x0004#32
def PROT_NONE : Word := 0x0008#32
def MAP_SHARED : Word := 0x0002#32
def MAP_PRIVATE : Word := 0x0004#32
def MAP_ANONYMOUS : Word := 0x0100#32
def MAP_FAILED : Word := -1
def PTE_SHARED : Word := 0x400#32

/-- `PGSIZE` as a word. -/
def PGSZ : Word := BitVec.ofNat 32 PGSIZE

/-- `ROUNDUP(length, PGSIZE)/PGSIZE`. -/
def pagesOf (length : Word) : Nat := (roundUpPage length).toNat / PGSIZE

section

variable {length : Word} {i : Nat}

/-- A size in pages: rounding up wraps for the last sizes there are. -/
theorem pagesOf_eq : pagesOf length = (length.toNat + 4095) % 2 ^ 32 /
      4096 := by
  have hsum : (length + BitVec.ofNat 32 PGSIZE - 1).toNat =
      (length.toNat + 4095) % 2 ^ 32 := by
    have hlt := length.isLt
    simp only [PGSIZE]
    rw [BitVec.toNat_sub, BitVec.toNat_add, BitVec.toNat_ofNat,
      show (1 : Word).toNat = 1 from rfl]
    omega
  rw [pagesOf, roundUpPage, roundDownPage_toNat, hsum]
  simp only [PGSIZE]
  omega

theorem lt_of_lt_pagesOf (hi : i < pagesOf length) :
    4096 * i < length.toNat := by
  rw [pagesOf_eq] at hi
  have hlt := length.isLt
  omega

/-- A turn of a loop over the pages leaves one page less, also where the size
wraps. -/
theorem pagesOf_sub (hpos : 0 < pagesOf length) :
    pagesOf (length - PGSZ) = pagesOf length - 1 := by
  have hP : PGSZ.toNat = 4096 := rfl
  have hlt := length.isLt
  rw [pagesOf_eq] at hpos
  rw [pagesOf_eq, pagesOf_eq, BitVec.toNat_sub, hP]
  omega

theorem pagesOf_le_one (hle : length.toNat ≤ PGSIZE) : pagesOf length ≤ 1 := by
  simp only [PGSIZE] at hle
  rw [pagesOf_eq]
  omega

theorem pagesOf_pos (h0 : length ≠ 0) (hle : length.toNat ≤ PGSIZE) :
    0 < pagesOf length := by
  have hne : length.toNat ≠ 0 := fun hz => h0 (BitVec.eq_of_toNat_eq hz)
  simp only [PGSIZE] at hle
  rw [pagesOf_eq]
  omega

end

namespace Mmap

/-! ## The table -/

/-- An access to an array of the table at index `i`. -/
def touch (i : Int) : ProcM Unit :=
  Prog.update fun p =>
    { p with maps := { p.maps with touched := i :: p.maps.touched } }

/-- Read an array at index `i`. -/
def getRow (i : Int) : ProcM MapRow := do
  touch i
  let p ← Prog.ask
  pure (p.maps.row i)

/-- Store to the arrays at index `i`. -/
def putRow (i : Int) (x : MapRow) : ProcM Unit := do
  touch i
  Prog.update fun p =>
  { p with maps := { p.maps with row := Function.update p.maps.row i x } }

def setCnt (n : Int) : ProcM Unit :=
  Prog.update fun p => { p with maps := { p.maps with cnt := n } }

/-! ## `mmap` -/

/-- The permissions that a mapping gets. -/
def permOf (prot mode : Word) : Word :=
  if prot &&& PROT_NONE ≠ 0 then
    PTE_P
  else
    (if prot &&& PROT_WRITE ≠ 0 then PTE_W else 0) |||
    (if prot &&& PROT_READ ≠ 0 then PTE_U else 0) |||
      (if mode &&& MAP_SHARED ≠ 0 then PTE_SHARED else 0) ||| PTE_P

/-- A descriptor in mode `omode` does not allow the protection. -/
def Denies (prot omode : Word) : Prop :=
  prot &&& PROT_READ ≠ 0 ∧ omode ≠ O_RDONLY ∧ omode ≠ O_RDWR ∨
    prot &&& PROT_WRITE ≠ 0 ∧ omode ≠ O_WRONLY ∧ omode ≠ O_RDWR

instance (prot omode : Word) : Decidable (Denies prot omode) := by
  unfold Denies
  infer_instance

/-- The tests that come before anything is mapped: the mapping is refused. -/
def refuses (h : Host) (prot mode fd : Word) : ProcM Bool := do
  if mode &&& MAP_ANONYMOUS ≠ 0 then
    pure (decide (fd ≠ -1))
  else
    let a ← call h (.fdLookup fd)
    panicOn a.ret "lib/mmap.c/mmap(): fd_lookup: %e"
    pure (decide (Denies prot a.omode))

/-- The search for an address, at `st`, with `n` bytes left before the stack. -/
def searchLoop (h : Host) (length : Word) :
    Nat → Word → Word → ProcM (Option Word)
  | 0, _, _ => pure none
  | n + 1, st, cnt => do
      let a ← call h (.pageref st)
      let cnt := if a.ret = 0 then cnt + 1 else 0
      if length ≤ cnt * PGSZ then
        pure (some (st - (cnt - 1) * PGSZ))
      else
        searchLoop h length n (st + 1) cnt

/-- The address of the mapping. -/
def choose (h : Host) (start length : Word) : ProcM (Option Word) :=
  if start ≠ 0 then
    pure (some start)
  else
    searchLoop h length (USTACKTOP - PGSZ - UTEXT).toNat UTEXT 0

/-- Load the pages from `st` on; `n` is how often the loop can still turn. -/
def loadLoop (h : Host) (perm fd : Word) : Nat → Nat → Word → Word → ProcM Unit
  | 0, _, _, _ => pure ()
  | n + 1, i, st, length => do
      if i < pagesOf length then
        let a ← call h (.pageref st)
        if a.ret = 0 then
          let r ← allocPage h 0 st perm
          panicOn r "lib/mmap.c/mmap(): sys_page_alloc: %e"
        let r ← readFile h fd st (minWord PGSZ length)
        panicOn r "lib/mmap.c/mmap(): read: %e"
        loadLoop h perm fd n (i + 1) (st + PGSZ) (length - PGSZ)

/-- A size has fewer pages than this, so that a loop over its pages turns no
more often. -/
def NPAGES : Nat := 2 ^ 20

/-- Load the file from `offset` on. -/
def load (h : Host) (perm ret length fd offset : Word) : ProcM Unit := do
  let _ ← call h (.seek fd offset)
  loadLoop h perm fd NPAGES 0 ret length

/-- Record a mapping. -/
def record (x : MapRow) : ProcM Unit := do
  let p ← Prog.ask
  putRow p.maps.cnt x
  setCnt (p.maps.cnt + 1)

/-- The part of `mmap` with the address at hand. -/
def mapAt (h : Host) (ret length prot mode fd offset : Word) : ProcM Word := do
  if mode &&& MAP_ANONYMOUS = 0 then
    load h (permOf prot mode) ret length fd offset
  record ⟨ret, mode, fd, offset⟩
  pure ret

def mmap (h : Host) (start length prot mode fd offset : Word) : ProcM Word := do
  if ← refuses h prot mode fd then
    pure MAP_FAILED
  else
    match ← choose h start length with
    | none => pure MAP_FAILED
    | some ret => mapAt h ret length prot mode fd offset

/-! ## `munmap` -/

/-- The first index from `i` on, of the `n` that are left, with a mapping at
`start`, or the one behind them. -/
def findRow (start : Word) : Nat → Int → ProcM Int
  | 0, i => pure i
  | n + 1, i => do
      let x ← getRow i
      if x.start = start then
        pure i
      else
        findRow start n (i + 1)

/-- The mapping is neither anonymous nor private. -/
def MapRow.Shared (x : MapRow) : Prop :=
  x.mode &&& MAP_ANONYMOUS = 0 ∧ x.mode &&& MAP_PRIVATE = 0

instance (x : MapRow) : Decidable (MapRow.Shared x) := by
  unfold MapRow.Shared
  infer_instance

/-- Write the pages from `st` on back. The descriptor is that of the mapping
with the page's number. The loop leaves its index. -/
def writeLoop (h : Host) : Nat → Nat → Word → Word → ProcM Nat
  | 0, i, _, _ => pure i
  | n + 1, i, st, length => do
      if i < pagesOf length then
        let x ← getRow i
        let a ← call h (.write x.fd st (minWord length PGSZ))
        panicOn a.ret "lib/mmap.c/munmap(): write: %e"
        writeLoop h n (i + 1) (st + PGSZ) (length - PGSZ)
      else
        pure i

/-- Write a shared mapping back; the index that is left. -/
def writeBack (h : Host) (i : Int) (start length : Word) : ProcM Int := do
  let x ← getRow i
  if MapRow.Shared x then
    let x ← getRow i
    let _ ← call h (.seek x.fd x.offset)
    let j ← writeLoop h NPAGES 0 start length
    pure j
  else
    pure i

/-- Move the `n` entries behind `i` one down. -/
def shiftRows : Nat → Int → ProcM Unit
  | 0, _ => pure ()
  | n + 1, i => do
      let x ← getRow (i + 1)
      putRow i x
      shiftRows n (i + 1)

def munmap (h : Host) (start length : Word) : ProcM Word := do
  let p ← Prog.ask
  let i ← findRow start p.maps.cnt.toNat 0
  let i ← writeBack h i start length
  shiftRows (p.maps.cnt - 1 - i).toNat i
  setCnt (p.maps.cnt - 1)
  pure 0

/-! ## `mmap` but for the table -/

/-- `mmap` up to where it records the mapping: the address, if there is to be
one. -/
def prepare (h : Host) (start length prot mode fd offset : Word) :
    ProcM (Option Word) := do
  if ← refuses h prot mode fd then
    pure none
  else
    match ← choose h start length with
    | none => pure none
    | some ret => do
        if mode &&& MAP_ANONYMOUS = 0 then
          load h (permOf prot mode) ret length fd offset
        pure (some ret)

section

variable {h : Host} {start length prot mode fd offset : Word}
  {R : Proc → Proc → Prop}

theorem mmap_eq : mmap h start length prot mode fd offset = (do
    match ← prepare h start length prot mode fd offset with
    | none => pure MAP_FAILED
    | some ret => do
        record ⟨ret, mode, fd, offset⟩
        pure ret) := by
  funext p
  simp only [mmap, prepare, mapAt, Prog.bind_apply]
  cases refuses h prot mode fd p with
  | away q | stop e q => rfl
  | ret b q =>
      cases b with
      | true => rfl
      | false =>
          simp only [Bool.false_eq_true, if_false, Prog.bind_apply]
          cases choose h start length q with
          | away q' | stop e q' => rfl
          | ret o q' =>
              cases o with
              | none => rfl
              | some ret =>
                  by_cases hanon : mode &&& MAP_ANONYMOUS = 0
                  · simp only [hanon, if_true, Prog.bind_apply]
                    cases load h (permOf prot mode) ret length fd offset
                      q' <;> rfl
                  · simp only [hanon, if_false]
                    rfl

/-- `mmap` at a given address is there or nowhere. -/
theorem mmap_ret {r : Word} {p t : Proc} (hstart : start ≠ 0)
    (hret : mmap h start length prot mode fd offset p = .ret r t) :
    r = start ∨ r = MAP_FAILED := by
  have hwp : Prog.wp (mmap h start length prot mode fd offset)
      (fun r _ => r = start ∨ r = MAP_FAILED)
      (fun _ => True) (fun _ _ => True) p := by
    apply Prog.wp_bind_intro
    refine Prog.wp_of_runs (fun b q _ => ?_) (fun _ _ => trivial)
      fun _ _ _ => trivial
    refine Prog.wp_ite _ (fun _ => Prog.wp_pure_intro (.inr rfl)) fun _ => ?_
    rw [choose, if_pos hstart]
    have hrecord :
        Prog.wp (do record ⟨start, mode, fd, offset⟩; pure start : ProcM Word)
        (fun r _ => r = start ∨ r = MAP_FAILED) (fun _ => True)
          (fun _ _ => True) q := Prog.wp_ret rfl (.inl rfl)
    refine Prog.wp_bind_intro
      (Prog.wp_pure_intro (Prog.wp_ite _ (fun _ => ?_) fun _ => hrecord))
    apply Prog.wp_bind_intro
    exact Prog.wp_of_runs (fun _ _ _ => Prog.wp_ret rfl (.inl rfl))
      (fun _ _ => trivial) fun _ _ _ => trivial
  exact hwp.ret hret

/-! ## What `mmap` leaves alone -/

/-- The calls that `mmap` makes, but for a page. -/
def Quiet : Call → Prop
  | .fdLookup _ | .pageref _ | .seek _ _ | .read _ _ _ => True
  | _ => False

/-- A relation between processes that those calls keep, and new pages and stores
to a page where `V` holds of its address. -/
structure CallFrame (h : Host) (V : Word → Prop) (R : Proc → Proc → Prop) : Prop
    extends Prog.Frame R where
  call : ∀ c p, Quiet c → R p (p.asked c (h p.trace c))
  alloc : ∀ va perm p, V va →
    R p (p.asked (.pageAlloc 0 va perm) (h p.trace (.pageAlloc 0 va perm)))
  mem : ∀ p va n data, V va → n ≤ PGSIZE →
    R p { p with mem := putBytes p.mem va n data }

theorem minWord_le_right {a b : Word} : (minWord a b).toNat ≤ b.toNat := by
  unfold minWord
  split
  · assumption
  · exact le_rfl

theorem minWord_le_left {a b : Word} : (minWord a b).toNat ≤ a.toNat := by
  unfold minWord
  split
  · exact le_rfl
  · rename_i hgt
    exact Nat.le_of_not_le hgt

namespace CallFrame

variable {V : Word → Prop} (hR : CallFrame h V R)
include hR

theorem quiet {c : Call} (hc : Quiet c) : Prog.Keeps R (Jos.call h c) :=
  fun p => hR.call c p hc

theorem panicOn (r : Word) (msg : String) : Prog.Keeps R (panicOn r msg) :=
  .ite (.halt hR.refl _) (.pure hR.refl _)

theorem allocPage {va : Word} (hva : V va) (perm : Word) :
    Prog.Keeps R (allocPage h 0 va perm) := by
  have hcall : Prog.Keeps R (Jos.call h (.pageAlloc 0 va perm)) :=
    fun p => hR.alloc va perm p hva
  refine .bind hR.trans hcall fun a => ?_
  split
  · exact .bind hR.trans (.update fun _ => hR.mem _ _ _ _ hva le_rfl) fun _ =>
      .pure hR.refl _
  · exact .pure hR.refl _

theorem readFile {va n : Word} (hva : V va) (hn : n.toNat ≤ PGSIZE)
    (fd : Word) :
    Prog.Keeps R (readFile h fd va n) := by
  refine .bind hR.trans (hR.quiet trivial) fun a => ?_
  split
  · refine .bind hR.trans (Keeps.fill hR.toFrame fun p i hi => ?_) fun _ =>
      .pure hR.refl _
    exact hR.mem p va i a.data hva ((hi.trans (min_le_right _ _)).trans hn)
  · exact .pure hR.refl _

theorem refuses (prot mode fd : Word) :
    Prog.Keeps R (refuses h prot mode fd) := by
  refine .ite (.pure hR.refl _) ?_
  exact .bind hR.trans (hR.quiet trivial) fun _ =>
    .bind hR.trans (hR.panicOn _ _) fun _ => .pure hR.refl _

theorem searchLoop (n : Nat) (st cnt : Word) :
    Prog.Keeps R (searchLoop h length n st cnt) := by
  induction n generalizing st cnt with
  | zero => exact .pure hR.refl _
  | succ n ih =>
      exact .bind hR.trans (hR.quiet trivial) fun _ =>
        .ite (.pure hR.refl _) (ih _ _)

/-- Of `N` pages only the first half is loaded. -/
theorem loadLoop {N : Nat} {perm : Word} {n i : Nat}
    (hV : ∀ j, 2 * j < N → V (start + BitVec.ofNat 32 j * PGSZ))
    (hlen : pagesOf length = N - i) :
    Prog.Keeps R (loadLoop h perm fd n i (start + BitVec.ofNat 32 i * PGSZ)
      length) := by
  induction n generalizing i length with
  | zero => exact .pure hR.refl _
  | succ n ih =>
      rw [Mmap.loadLoop]
      by_cases hi : i < pagesOf length
      · rw [if_pos hi]
        have hva := hV i (by omega)
        have hnext : start + BitVec.ofNat 32 i * PGSZ + PGSZ
            = start + BitVec.ofNat 32 (i + 1) * PGSZ := by
          rw [BitVec.ofNat_add, BitVec.add_mul, BitVec.add_assoc]
          rfl
        have hrest := @ih (length - PGSZ) (i + 1)
          (by rw [pagesOf_sub (by omega), hlen]; omega)
        rw [← hnext] at hrest
        have hread : Prog.Keeps R (do
            let r ← Jos.readFile h fd (start + BitVec.ofNat 32 i * PGSZ)
                (minWord PGSZ length)
            Jos.panicOn r "lib/mmap.c/mmap(): read: %e"
            Mmap.loadLoop h perm fd n (i + 1)
              (start + BitVec.ofNat 32 i * PGSZ + PGSZ)
              (length - PGSZ) : ProcM Unit) :=
          .bind hR.trans (hR.readFile hva minWord_le_left _) fun _ =>
            .bind hR.trans (hR.panicOn _ _) fun _ => hrest
        refine .bind hR.trans (hR.quiet trivial) fun a => ?_
        split
        · exact .bind hR.trans (hR.allocPage hva _) fun _ =>
            .bind hR.trans (hR.panicOn _ _) fun _ => hread
        · exact hread
      · rw [if_neg hi]
        exact .pure hR.refl _

theorem load (ret : Word)
    (hV : ∀ j, 2 * j < pagesOf length → V (ret + BitVec.ofNat 32 j * PGSZ))
    (perm fd offset : Word) :
    Prog.Keeps R (load h perm ret length fd offset) := by
  refine .bind hR.trans (hR.quiet trivial) fun _ => ?_
  have hloop : Prog.Keeps R
      (Mmap.loadLoop h perm fd NPAGES 0 (ret + BitVec.ofNat 32 0 * PGSZ)
        length) :=
    hR.loadLoop hV rfl
  rwa [show ret + BitVec.ofNat 32 0 * PGSZ = ret from
    BitVec.add_zero ret] at hloop

/-- Pages are mapped at the address of the mapping, which is the given one if
there is one. -/
theorem prepare (start length : Word) (hV : ∀ ret, (start ≠ 0 → ret = start) →
      ∀ j, 2 * j < pagesOf length → V (ret + BitVec.ofNat 32 j * PGSZ))
      (prot mode fd offset : Word) :
    Prog.Keeps R (prepare h start length prot mode fd offset) := by
  have hload : ∀ ret, (start ≠ 0 → ret = start) → Prog.Keeps R (do
      if mode &&& MAP_ANONYMOUS = 0 then
        Mmap.load h (permOf prot mode) ret length fd offset
      pure (some ret) : ProcM (Option Word)) := by
    intro ret hret
    split
    · exact .bind hR.trans (hR.load _ (hV ret hret) _ _ _) fun _ =>
        .pure hR.refl _
    · exact .pure hR.refl _
  refine .bind hR.trans (hR.refuses _ _ _) fun b => ?_
  split
  · exact .pure hR.refl _
  · rw [choose]
    split
    · exact hload start fun _ => rfl
    · rename_i hstart
      refine .bind hR.trans (hR.searchLoop _ _ _) fun o => ?_
      cases o with
      | none => exact .pure hR.refl _
      | some ret => exact hload ret fun hne => absurd hne hstart

/-- A relation that does not look at the table either. -/
theorem mmap (start length : Word) (hmaps : ∀ p m, R p { p with maps := m })
  (hV : ∀ ret, (start ≠ 0 → ret = start) →
      ∀ j, 2 * j < pagesOf length →
      V (ret + BitVec.ofNat 32 j * PGSZ)) (prot mode fd offset : Word) :
    Prog.Keeps R (mmap h start length prot mode fd offset) := by
  have hrecord : ∀ x, Prog.Keeps R (record x) := fun x p => hmaps p _
  rw [mmap_eq]
  refine .bind hR.trans (hR.prepare _ _ hV _ _ _ _) fun o => ?_
  cases o with
  | none => exact .pure hR.refl _
  | some ret => exact .bind hR.trans (hrecord _) fun _ => .pure hR.refl _

/-- A page, or less, of a file at a given address. -/
theorem mmapPage (hmaps : ∀ p m, R p { p with maps := m }) (hstart : start ≠ 0)
  (hva : V start)
    (hle : length.toNat ≤ PGSIZE) (prot mode fd offset : Word) :
    Prog.Keeps R (Mmap.mmap h start length prot mode fd offset) := by
  refine hR.mmap _ _ hmaps (fun ret hret j hj => ?_) _ _ _ _
  have hone := pagesOf_le_one hle
  obtain rfl : j = 0 := by omega
  rw [hret hstart]
  exact (BitVec.add_zero start).symm ▸ hva

end CallFrame

end

end Mmap

end Jos
