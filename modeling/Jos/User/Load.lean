import Jos.User.Share

/-!
# Loading a program

`load_icode` maps pages for the segments of an ELF image and stores the segments
through the page directory of the new environment. `segment_alloc` rounds the
start of a segment down and its length up, each by itself, so that a segment
that is not aligned may lack its last page.
-/

namespace Jos

open Slot (target)

/-! ## The image -/

def ELF_MAGIC : Word := 0x464C457F#32
def ELF_PROG_LOAD : Word := 1

/-- The fields of `struct Proghdr` that are read. -/
structure Proghdr where
  pType : Word
  pOffset : Word
  pVa : Word
  pFilesz : Word
  pMemsz : Word

def eEntry (binary : Bytes) : Word := binary.load32 24
def ePhoff (binary : Bytes) : Word := binary.load32 28
def ePhnum (binary : Bytes) : BitVec 16 := binary 45 ++ binary 44

/-- Program header `i` of the image. -/
def proghdr (binary : Bytes) (i : Nat) : Proghdr :=
  let ph := (ePhoff binary).toNat + 32 * i
  { pType := binary.load32 ph
    pOffset := binary.load32 (ph + 4)
    pVa := binary.load32 (ph + 8)
    pFilesz := binary.load32 (ph + 16)
    pMemsz := binary.load32 (ph + 20) }

/-! ## The loader -/

/-- The body of the loop of `segment_alloc`. -/
def segmentPage (pgdir : Nat) (la : Word) : VmM Unit := do
  match ← pageAlloc with
  | .error _ => Prog.halt (.panic "segment alloc: page alloc fails %e")
  | .ok p =>
      match ← pageInsert pgdir p la (PTE_U ||| PTE_W) with
      | .error _ => Prog.halt (.panic "segment alloc: page insert fails %e")
      | .ok () => pure ()

/-- Map new pages, of any contents, from `ROUNDDOWN(va)` on. -/
def segmentAlloc (pgdir : Nat) (va len : Word) : VmM Unit :=
  let la := roundDownPage va
  let laEnd := la + roundUpPage len
  Prog.forUp ((laEnd.toNat - la.toNat) / PGSIZE) fun i =>
    segmentPage pgdir (la + BitVec.ofNat 32 (i * PGSIZE))

/-- Store `x 0`, ..., `x (n - 1)` from `va` on. -/
def storeBytes (cr3 va : Word) (n : Nat) (x : Nat → BitVec 8) : VmM Unit :=
  Prog.forUp n fun i => kstore8 cr3 (va + BitVec.ofNat 32 i) (x i)

/-- Load a segment into the address space that is in use. The image is part of
the kernel, which is mapped in all of them. -/
def loadSegment (pgdir : Nat) (cr3 : Word) (binary : Bytes) (ph : Proghdr) :
    VmM Unit := do
  segmentAlloc pgdir ph.pVa ph.pMemsz
  storeBytes cr3 ph.pVa ph.pFilesz.toNat fun i => binary (ph.pOffset.toNat + i)
  storeBytes cr3 (ph.pVa + ph.pFilesz) (ph.pMemsz - ph.pFilesz).toNat fun _ => 0

/-- Load the image into the new environment `e`. -/
def loadIcode (e : Nat) (binary : Bytes) : K Unit := do
  if binary.load32 0 ≠ ELF_MAGIC then
    Prog.halt (.panic "load icode: binary's magic is not elf magic")
  else
    Prog.update fun s => s.lcr3 (s.envs e).envCr3
    Prog.forUp (ePhnum binary).toNat fun i => do
      if (proghdr binary i).pType = ELF_PROG_LOAD then
        let s ← Prog.ask
        inVm (loadSegment (s.envs e).envPgdir s.cr3 binary (proghdr binary i))
    Prog.update fun s => s.lcr3 s.vm.bootCr3
    Prog.update fun s => s.setEnv e fun env =>
      { env with envTf := { env.envTf with tfEip := eEntry binary } }
    let s ← Prog.ask
    inVm (segmentAlloc (s.envs e).envPgdir (USTACKTOP - BitVec.ofNat 32 PGSIZE)
    (BitVec.ofNat 32 PGSIZE))

/-- Create an environment for the image. -/
def envCreate (binary : Bytes) : K Unit := do
  match ← envAlloc 0 with
  | .error _ => Prog.halt (.panic "env create: env alloc fails %e")
  | .ok e => loadIcode e binary

/-! ## What a program header describes -/

namespace Proghdr

variable (ph : Proghdr)

/-- Page `n` intersects the segment. -/
def Touches (n : Nat) : Prop :=
  n * PGSIZE < ph.pVa.toNat + ph.pMemsz.toNat ∧ ph.pVa.toNat < (n + 1) * PGSIZE
    ∧ 0 < ph.pMemsz.toNat

/-- The number of pages that `segment_alloc` maps. -/
def pages : Nat := (ph.pMemsz.toNat + (PGSIZE - 1)) / PGSIZE

/-- Rounding the length covers the offset of the start in its page. -/
def Covered : Prop :=
  ph.pMemsz.toNat = 0 ∨ ph.pVa.toNat % PGSIZE + ph.pMemsz.toNat ≤
    ph.pages * PGSIZE

/-- `segment_alloc` maps page `n` for the segment. -/
def Allocates (n : Nat) : Prop :=
  ph.pVa.toNat / PGSIZE ≤ n ∧ n < ph.pVa.toNat / PGSIZE + ph.pages

/-- Byte `i` of the segment. -/
def content (binary : Bytes) (i : Nat) : BitVec 8 :=
  if i < ph.pFilesz.toNat then binary (ph.pOffset.toNat + i) else 0

/-- The segment keeps to the limits that the loader relies on. -/
structure Fits : Prop where
  file : ph.pFilesz.toNat ≤ ph.pMemsz.toNat
  below : ph.pVa.toNat + ph.pMemsz.toNat ≤
    (USTACKTOP - BitVec.ofNat 32 PGSIZE).toNat

variable {ph} {n i : Nat}

theorem Allocates.touches (h : ph.Allocates n) : ph.Touches n := by
  simp only [Allocates, pages, Touches, PGSIZE] at *
  omega

theorem touches_of_lt (hi : i < ph.pMemsz.toNat) :
    ph.Touches ((ph.pVa.toNat + i) / PGSIZE) := by
  simp only [Touches, PGSIZE]
  omega

/-- Every byte of the segment lies in a page that is mapped for it. -/
theorem covered_iff : ph.Covered ↔ ∀ i < ph.pMemsz.toNat,
      ph.Allocates ((ph.pVa.toNat + i) / PGSIZE) := by
  simp only [Covered, Allocates, PGSIZE]
  constructor
  · intro h i hi
    omega
  · intro h
    by_cases h0 : ph.pMemsz.toNat = 0
    · exact .inl h0
    · have hlast := h (ph.pMemsz.toNat - 1) (by omega)
      exact .inr (by omega)

end Proghdr

/-! ## An address space while it is loaded -/

section

variable {L : Layout} {dirs : Nat → Option Nat} {v v' : Vm} {m : PhysMem}
  {e d k n p : Nat} {va cr3 : Word}
  {M : Nat → Prop} {B : Nat → Option (BitVec 8)} {A : Vm → Prop} {x : BitVec 8}

/-- The pages `M` of `e` are new ones that the user may write, the bytes `B`
have been stored in them, and memory is left for all page tables and `k`
pages. -/
structure Loading (L : Layout) (dirs : Nat → Option Nat) (e d k : Nat)
    (M : Nat → Prop)
    (B : Nat → Option (BitVec 8)) (v : Vm) : Prop where
  owned : Owned L dirs [] v
  opened : Opened v.mem dirs
  mapped : ∀ n < pdxUTOP * 1024, M n → ∃ p < 2 ^ 20,
    pteNo v.mem dirs e n = copyPte p
  absent : ∀ n < pdxUTOP * 1024, ¬M n → pteNo v.mem dirs e n = 0
  apart : ∀ n < pdxUTOP * 1024, ∀ n' < pdxUTOP * 1024, ∀ p < 2 ^ 20,
    pteNo v.mem dirs e n = copyPte p →
    pteNo v.mem dirs e n' = copyPte p → n = n'
  bytes : ∀ a x, B a = some x → a / PGSIZE < pdxUTOP * 1024 ∧ M (a / PGSIZE)
    ∧ v.mem (ppn (pteNo v.mem dirs e (a / PGSIZE))) (a % PGSIZE) = x
  spare : Spare L dirs v.mem d (pdxUTOP + k)

/-- What the kernel reaches below `UTOP`. -/
theorem translate_below (hd : dirs e = some d) (hlt : d < 2 ^ 20) :
    translate m (page2pa d) va =
      if present (pteAt m dirs e (pdx va) (ptx va)) = true then
      some (ppn (pteAt m dirs e (pdx va) (ptx va)),
        m.entry d (pdx va) &&& pteAt m dirs e (pdx va) (ptx va))
    else none := by
  unfold translate
  simp only [ppn_page2pa hlt]
  by_cases hp : present (m.entry d (pdx va)) = true
  · rw [pteAt_table hd (mapped_of_present hp)]
    exact if_congr (and_iff_right hp) rfl rfl
  · rw [pteAt_noTable hd (mapped_of_absent hp), if_neg fun h => hp h.1,
      if_neg (by decide)]

/-- The entry of a page that the loader maps. -/
theorem copyPte_eq : page2pa p ||| (PTE_U ||| PTE_W) ||| PTE_P = copyPte p := by
  rw [copyPte, BitVec.or_assoc,
    BitVec.or_assoc (page2pa p) (PTE_U ||| PTE_P ||| PTE_W)]
  exact congrArg (page2pa p ||| ·) (by decide)

theorem copyPte_flags {b : Word} (hb : Flag b)
    (h : (PTE_U ||| PTE_P ||| PTE_W) &&& b ≠ 0) : copyPte p &&& b ≠ 0 := by
  rw [copyPte, hb.or_iff, hb.page2pa_or]
  exact .inl h

namespace Loading

theorem congr {M' : Nat → Prop} (h : Loading L dirs e d k M B v)
    (hM : ∀ n, M n ↔ M' n) :
    Loading L dirs e d k M' B v := by
  obtain rfl : M = M' := funext fun n => propext (hM n)
  exact h

/-- `segment_alloc` maps one more page. -/
theorem segmentPage (h : Loading L dirs e d (k + 1) M B v) (he : e < L.ndirs)
    (hd : dirs e = some d)
    (hva : va < UTOP) (hM : ¬M (ppn va)) :
    ∃ v', Jos.segmentPage d va v = .ret () v'
      ∧ Loading L dirs e d k (fun n => M n ∨ n = ppn va) B v' := by
  have hi := pdx_lt_of_lt_UTOP hva
  have hn := ppn_lt_of_lt_UTOP hva
  have hperm : PTE_U ||| PTE_W < 0x1000#32 := by decide
  obtain ⟨pp, hfirst⟩ :=
    Option.ne_none_iff_exists'.mp (h.owned.first_of_free (n := k) h.spare.free)
  obtain ⟨hu, hfresh, -⟩ := h.owned.first hfirst
  have hout := h.owned.take hfirst
  have hlt : pp < 2 ^ 20 := Owned.lt_pow hu
  rcases hout.pageInsert .new he hd hva hperm with
    ⟨v', hret, hst⟩ | ⟨hnone, hno, -⟩
  · have hstep : Jos.segmentPage d va v = .ret () v' := by
      rw [Jos.segmentPage, Prog.bind_ret (pageAlloc_some hfirst)]
      change (Jos.pageInsert d pp va (PTE_U ||| PTE_W) >>= _) (v.take pp) = _
      rw [Prog.bind_ret hret]
      rfl
    have hopen := hout.pageInsert_opened h.opened .new he hd hva hperm hret hst
    have hold : target v.mem dirs (.pte e (pdx va) (ptx va)) = none := by
      rw [target, pteAt_eq_pteNo, h.absent _ hn hM, mapped_zero]
    rw [copyPte_eq] at hst
    have howned : Owned L dirs [] v' :=
      hst.owned fun q hq _ => by cases hold.symm.trans hq
    have hpte : ∀ n < pdxUTOP * 1024, pteNo v'.mem dirs e n
        = if n = ppn va then copyPte pp else pteNo v.mem dirs e n := by
      intro n hn
      rw [hst.pteNo he hn]
      exact if_congr (and_iff_right rfl) rfl rfl
    have hslot : ∀ n < pdxUTOP * 1024, Slot.pte e (n / 1024) (n % 1024) ∈
        L.slots :=
      fun n hn => mem_slots.mpr ⟨he, pageNo_lt hn⟩
    have hused : ∀ n < pdxUTOP * 1024, pteNo v.mem dirs e n ≠ copyPte pp := by
      intro n hn hpp
      refine hfresh _ (hslot n hn) ?_
      rw [target, ← pteNo, hpp, mapped_copyPte hlt]
    refine ⟨v', hstep, ?_⟩
    constructor
    case owned => exact howned
    case opened => exact hopen
    case mapped =>
      intro n hn hM'
      rw [hpte n hn]
      split
      · exact ⟨pp, hlt, rfl⟩
      · rename_i hne
        exact h.mapped n hn (hM'.resolve_right hne)
    case absent =>
      intro n hn hM'
      rw [not_or] at hM'
      rw [hpte n hn, if_neg hM'.2]
      exact h.absent n hn hM'.1
    case apart =>
      intro n hn n' hn' p hp hnp hnp'
      rw [hpte n hn] at hnp
      rw [hpte n' hn'] at hnp'
      split at hnp <;> split at hnp'
      · rename_i h₁ h₂
        rw [h₁, h₂]
      · exact absurd (hnp'.trans hnp.symm) (hused n' hn')
      · exact absurd (hnp.trans hnp'.symm) (hused n hn)
      · exact h.apart n hn n' hn' p hp hnp hnp'
    case bytes =>
      intro a x hx
      obtain ⟨ha, hMa, hbyte⟩ := h.bytes a x hx
      have hne : a / PGSIZE ≠ ppn va := fun hne => hM (hne ▸ hMa)
      obtain ⟨p, hp, hap⟩ := h.mapped _ ha hMa
      refine ⟨ha, .inl hMa, ?_⟩
      have htarget : target v'.mem dirs
          (.pte e (a / PGSIZE / 1024) (a / PGSIZE % 1024)) = some p := by
        rw [target, ← pteNo, hpte _ ha, if_neg hne, hap, mapped_copyPte hp]
      have hppn : ppn (copyPte p) = p :=
        (mapped_eq_some.mp (mapped_copyPte hp)).2
      rw [hap, hppn] at hbyte
      rw [hpte _ ha, if_neg hne, hap, hppn, hst.data p
        (howned.tree.not_nodeOf (hslot _ ha) Slot.not_node htarget e)]
      exact hbyte
    case spare =>
      refine Spare.stored_take {pp} ?_ hst hd hva (fun p hp hne => ?_)
        (Nat.le_add_right ..)
      · rw [Finset.card_singleton, Nat.add_assoc]
        exact h.spare
      · rw [mapped_copyPte hlt] at hp
        exact absurd (Finset.mem_singleton.mpr (Option.some.inj hp).symm) hne
  · exact absurd hno (h.owned.room_of_free (n := k)
      (h.spare.free_table hi hnone) hfirst)

section Store

variable (he : e < L.ndirs) (hd : dirs e = some d)
include he hd

/-- A change of a data page. -/
theorem setData (h : Loading L dirs e d k M B v) {B' : Nat → Option (BitVec 8)}
    (hdata : ∀ e', ¬NodeOf L v.mem dirs e' p) (hm : ∀ q, q ≠ p → m q = v.mem q)
    (hB : ∀ a x, B' a = some x → a / PGSIZE < pdxUTOP * 1024 ∧ M (a / PGSIZE)
      ∧ m (ppn (pteNo v.mem dirs e (a / PGSIZE))) (a % PGSIZE) = x) :
    Loading L dirs e d k M B' { v with mem := m } := by
  have hsame : ∀ n < pdxUTOP * 1024, pteNo m dirs e n = pteNo v.mem dirs e n :=
    fun n hn =>
    pteAt_of_ne he (pageNo_lt hn).1 fun q hq => hm q fun hqp =>
      hdata e (hqp ▸ hq)
  constructor
  case owned => exact h.owned.setData hdata hm
  case opened => exact ((h.owned.shaped h.opened).setData hdata hm).opened
  case mapped =>
    intro n hn hM
    rw [hsame n hn]
    exact h.mapped n hn hM
  case absent =>
    intro n hn hM
    rw [hsame n hn]
    exact h.absent n hn hM
  case apart =>
    intro n hn n' hn' q hq
    rw [hsame n hn, hsame n' hn']
    exact h.apart n hn n' hn' q hq
  case bytes =>
    intro a x hx
    obtain ⟨ha, hMa, hbyte⟩ := hB a x hx
    refine ⟨ha, hMa, ?_⟩
    rw [hsame _ ha]
    exact hbyte
  case spare => exact h.spare.setData he hd hdata hm

/-- A byte is stored where a page is mapped, and only there. -/
theorem wp_kstore8 (h : Loading L dirs e d k M B v) (hva : va < UTOP) :
    Prog.wp (kstore8 (page2pa d) va x)
      (fun _ v' => M (ppn va) ∧ Loading L dirs e d k M
        (Function.update B va.toNat (some x)) v') A
      (fun r _ => r = .kernelFault ∧ ¬M (ppn va)) v := by
  have hn := ppn_lt_of_lt_UTOP hva
  have hdlt : d < 2 ^ 20 := (h.owned.shaped h.opened).dir_pow hd
  have htr : translate v.mem (page2pa d) va = _ := translate_below hd hdlt
  rw [pteAt_eq_pteNo] at htr
  by_cases hM : M (ppn va)
  · obtain ⟨p, hp, hpte⟩ := h.mapped _ hn hM
    have hmap : Jos.mapped (copyPte p) = some p := mapped_copyPte hp
    rw [hpte, if_pos (mapped_eq_some.mp hmap).1,
      (mapped_eq_some.mp hmap).2] at htr
    have hslot : Slot.pte e (ppn va / 1024) (ppn va % 1024) ∈ L.slots :=
      mem_slots.mpr ⟨he, pageNo_lt hn⟩
    have htarget : target v.mem dirs (.pte e (ppn va / 1024) (ppn va % 1024)) =
        some p := by
      rw [target, ← pteNo, hpte, hmap]
    have hdata := h.owned.tree.not_nodeOf hslot Slot.not_node htarget
    obtain ⟨pt, hpt, -⟩ := table_of_target hd htarget
    have hw : v.mem.entry d (pdx va) &&& copyPte p &&& PTE_W ≠ 0 := by
      have hpd : v.mem.link d (pdx va) = some pt := by
        rwa [← (pageNo_iff.mpr (Eq.refl (ppn va))).1]
      refine flag_W.and_iff.mpr ⟨?_, copyPte_flags flag_W (by decide)⟩
      exact (h.opened.table e d _ hd (pdx_lt_of_lt_UTOP hva)
        (mapped_eq_some.mp hpd).1).2
    unfold kstore8
    apply Prog.wp_ask_bind
    rw [htr]
    refine Prog.wp_ite _ (fun hno => absurd hno hw) fun _ =>
      Prog.wp_update_intro ⟨hM, ?_⟩
    refine h.setData he hd hdata (fun q hq => Function.update_of_ne hq _ _)
      fun a y hy => ?_
    by_cases ha : a = va.toNat
    · subst ha
      rw [Function.update_self] at hy
      obtain rfl := Option.some.inj hy
      rw [PGSIZE, ← ppn_eq, ← pgoff_eq, hpte, (mapped_eq_some.mp hmap).2,
        Function.update_self,
        Function.update_self]
      exact ⟨hn, hM, rfl⟩
    · rw [Function.update_of_ne ha] at hy
      obtain ⟨han, hMa, hbyte⟩ := h.bytes a y hy
      obtain ⟨q, hq, haq⟩ := h.mapped _ han hMa
      rw [haq, (mapped_eq_some.mp (mapped_copyPte hq)).2] at hbyte ⊢
      refine ⟨han, hMa, ?_⟩
      by_cases hqp : q = p
      · subst hqp
        -- another byte of the same page
        have hpage := h.apart _ han _ hn q hq haq hpte
        have hoff : a % PGSIZE ≠ pgoff va := by
          simp only [PGSIZE, ppn_eq, pgoff_eq] at hpage ⊢
          omega
        rw [Function.update_self, Function.update_of_ne hoff]
        exact hbyte
      · rw [Function.update_of_ne hqp]
        exact hbyte
  · rw [h.absent _ hn hM, if_neg (by decide)] at htr
    unfold kstore8
    apply Prog.wp_ask_bind
    rw [htr]
    exact Prog.wp_halt_intro ⟨rfl, hM⟩

/-- Bytes are stored if all their pages are mapped, and else the processor
faults. -/
theorem wp_storeBytes (h : Loading L dirs e d k M B v) {f : Nat → BitVec 8}
    (hva : va.toNat + n ≤ UTOP.toNat) :
    Prog.wp (storeBytes (page2pa d) va n f)
      (fun _ v' => (∀ i < n, M ((va.toNat + i) / PGSIZE))
        ∧ Loading L dirs e d k M
        (within va.toNat (va.toNat + n)
          (fun a => some (f (a - va.toNat))) B) v') A
      (fun r _ => r = .kernelFault ∧ ∃ i < n,
        ¬M ((va.toNat + i) / PGSIZE)) v := by
  refine Prog.wp_forUp (fun j v' => (∀ i < j, M ((va.toNat + i) / PGSIZE))
    ∧ Loading L dirs e d k M
    (within va.toNat (va.toNat + j) (fun a => some (f (a - va.toNat))) B)
    v') ?_ ?_
  · refine ⟨fun i hi => absurd hi (Nat.not_lt_zero i), ?_⟩
    rwa [Nat.add_zero, within_self]
  · rintro j v' hj ⟨hmapped, h'⟩
    have hto : (va + BitVec.ofNat 32 j).toNat = va.toNat + j := by
      have hlt : UTOP.toNat < 2 ^ 32 := UTOP.isLt
      rw [BitVec.toNat_add, BitVec.toNat_ofNat]
      omega
    have hbelow : va + BitVec.ofNat 32 j < UTOP := by
      rw [BitVec.lt_def, hto]
      omega
    have hpage : ppn (va + BitVec.ofNat 32 j) = (va.toNat + j) / PGSIZE := by
      rw [ppn_eq, hto, PGSIZE]
    refine Prog.wp_imp (h'.wp_kstore8 he hd hbelow) ?_ (fun _ h => h) ?_
    · rintro - v'' ⟨hM, h''⟩
      refine ⟨fun i hi => ?_, ?_⟩
      · rcases Nat.lt_succ_iff_lt_or_eq.mp hi with hlt | rfl
        · exact hmapped i hlt
        · rwa [← hpage]
      · have hsucc := within_succ (f := fun a => some (f (a - va.toNat)))
          (g := B) (Nat.le_add_right va.toNat j)
        rw [Nat.add_sub_cancel_left, Nat.add_assoc] at hsucc
        rwa [hto, hsucc] at h''
    · rintro r _ ⟨rfl, hM⟩
      rw [hpage] at hM
      exact ⟨rfl, j, hj, hM⟩

end Store

/-- The number of pages for `len` bytes. -/
theorem roundUpPage_toNat {len : Word} (hlen : len.toNat ≤ UTOP.toNat) :
    (roundUpPage len).toNat = (len.toNat + (PGSIZE - 1)) / PGSIZE * PGSIZE := by
  have hU : UTOP.toNat = 0xEEC00000 := rfl
  have hsum : (len + BitVec.ofNat 32 PGSIZE - 1).toNat =
      len.toNat + (PGSIZE - 1) := by
    simp only [PGSIZE]
    rw [BitVec.toNat_sub, BitVec.toNat_add, BitVec.toNat_ofNat,
      show (1 : Word).toNat = 1 from rfl]
    omega
  rw [roundUpPage, roundDownPage_toNat, hsum]

/-- `segment_alloc` maps the pages from the one of `va` on. -/
theorem segmentAlloc {len : Word} (h : Loading L dirs e d (k + n) M B v)
    (he : e < L.ndirs)
    (hd : dirs e = some d) (hn : n = (len.toNat + (PGSIZE - 1)) / PGSIZE)
    (hlen : len.toNat ≤ UTOP.toNat)
    (hva : va.toNat / PGSIZE + n ≤ pdxUTOP * 1024)
    (hM : ∀ i < n, ¬M (va.toNat / PGSIZE + i)) :
    ∃ v', Jos.segmentAlloc d va len v = .ret () v'
      ∧ Loading L dirs e d k (fun i => M i ∨ va.toNat / PGSIZE ≤ i
        ∧ i < va.toNat / PGSIZE + n) B v' := by
  have hN : pdxUTOP = 955 := rfl
  have hla : (roundDownPage va).toNat = _ := roundDownPage_toNat
  have hsize := roundUpPage_toNat hlen
  rw [← hn] at hsize
  simp only [PGSIZE] at *
  have hcount : ((roundDownPage va + roundUpPage len).toNat -
      (roundDownPage va).toNat) / PGSIZE = n := by
    rw [BitVec.toNat_add, hla, hsize, PGSIZE]
    omega
  suffices hwp : Prog.wp (Jos.segmentAlloc d va len)
      (fun _ => Loading L dirs e d k (fun i => M i
      ∨ va.toNat / 4096 ≤ i ∧ i < va.toNat / 4096 + n) B) (fun _ =>
        False) (fun _ _ => False) v by
    obtain ⟨_, v', hret, h'⟩ := hwp.exists_ret
    exact ⟨v', hret, h'⟩
  unfold Jos.segmentAlloc
  simp only [hcount]
  refine Prog.wp_imp
    (Prog.wp_forUp (fun i => Loading L dirs e d (k + (n - i)) (fun j => M j
    ∨ va.toNat / 4096 ≤ j ∧ j < va.toNat / 4096 + i) B) ?_ ?_) (fun _ v' h' =>
    ?_) (fun _ h => h) fun _ _ h => h
  · rw [Nat.sub_zero, Nat.add_zero]
    exact h.congr fun j => (or_iff_left (by omega)).symm
  · intro i v' hi h'
    have hto : (roundDownPage va + BitVec.ofNat 32 (i * PGSIZE)).toNat =
        (va.toNat / 4096 + i) * 4096 := by
      rw [BitVec.toNat_add, BitVec.toNat_ofNat, hla, PGSIZE]
      omega
    have hpage : ppn (roundDownPage va + BitVec.ofNat 32 (i * PGSIZE)) =
        va.toNat / 4096 + i := by
      rw [ppn_eq, hto]
      omega
    have hbelow : roundDownPage va + BitVec.ofNat 32 (i * PGSIZE) < UTOP := by
      rw [BitVec.lt_def, hto, show UTOP.toNat = 0xEEC00000 from rfl]
      omega
    have hnew : ¬(M (va.toNat / 4096 + i)
        ∨ va.toNat / 4096 ≤ va.toNat / 4096 + i ∧ va.toNat / 4096 + i <
          va.toNat / 4096 + i) :=
      not_or.mpr ⟨hM i hi, by omega⟩
    rw [show k + (n - i) = k + (n - (i + 1)) + 1 by omega] at h'
    obtain ⟨v'', hret, h''⟩ := h'.segmentPage he hd hbelow (hpage.symm ▸ hnew)
    refine Prog.wp_ret hret (h''.congr fun j => ?_)
    rw [hpage, or_assoc]
    exact or_congr_right (by omega)
  · rwa [Nat.sub_self, Nat.add_zero] at h'

/-- A segment is loaded if the pages that are mapped for it cover it, and else
the processor faults. -/
theorem wp_loadSegment {ph : Proghdr} {binary : Bytes}
    (h : Loading L dirs e d (k + ph.pages) M B v)
    (he : e < L.ndirs) (hd : dirs e = some d) (hf : ph.Fits)
    (hM : ∀ n, ph.Touches n → ¬M n) :
    Prog.wp (loadSegment d (page2pa d) binary ph)
      (fun _ v' => ph.Covered ∧ Loading L dirs e d k
        (fun n => M n ∨ ph.Allocates n)
        (within ph.pVa.toNat (ph.pVa.toNat + ph.pMemsz.toNat)
          (fun a => some (ph.content binary (a - ph.pVa.toNat))) B) v') A
      (fun r _ => r = .kernelFault ∧ ¬ph.Covered) v := by
  have hbelow := hf.below
  have hfile := hf.file
  have hS : (USTACKTOP - BitVec.ofNat 32 PGSIZE).toNat = 0xEEBFD000 := rfl
  have hU : UTOP.toNat = 0xEEC00000 := rfl
  have hN : pdxUTOP = 955 := rfl
  rw [hS] at hbelow
  have halloc : ∃ v₁, Jos.segmentAlloc d ph.pVa ph.pMemsz v = .ret () v₁ ∧ _ :=
    h.segmentAlloc he hd rfl (by omega)
      (by simp only [Proghdr.pages, PGSIZE]; omega)
      fun i hi => hM _ (Proghdr.Allocates.touches
      ⟨Nat.le_add_right .., Nat.add_lt_add_left hi _⟩)
  obtain ⟨v₁, hret, h₁⟩ := halloc
  have hfault : ∀ i < ph.pMemsz.toNat, ¬(M ((ph.pVa.toNat + i) / PGSIZE)
      ∨ ph.Allocates ((ph.pVa.toNat + i) / PGSIZE)) → ¬ph.Covered :=
    fun i hi hno hcov =>
    hno (.inr (Proghdr.covered_iff.mp hcov i hi))
  unfold loadSegment
  apply Prog.wp_bind_intro
  refine Prog.wp_ret hret ?_
  apply Prog.wp_bind_intro
  refine Prog.wp_imp (h₁.wp_storeBytes he hd
    (show ph.pVa.toNat + _ ≤ UTOP.toNat by omega)) ?_ (fun _ h => h) ?_
  · rintro - v₂ ⟨hfirst, h₂⟩
    have hva : (ph.pVa + ph.pFilesz).toNat =
        ph.pVa.toNat + ph.pFilesz.toNat := by
      rw [BitVec.toNat_add]
      omega
    have hsize : (ph.pMemsz - ph.pFilesz).toNat =
        ph.pMemsz.toNat - ph.pFilesz.toNat :=
      BitVec.toNat_sub_of_le hfile
    refine Prog.wp_imp (h₂.wp_storeBytes he hd
      (show (ph.pVa + ph.pFilesz).toNat + _ ≤ UTOP.toNat by omega)) ?_
      (fun _ h => h) ?_
    · rintro - v₃ ⟨hrest, h₃⟩
      refine ⟨Proghdr.covered_iff.mpr fun i hi => ?_, ?_⟩
      · refine Or.resolve_left ?_ (hM _ (Proghdr.touches_of_lt hi))
        by_cases hif : i < ph.pFilesz.toNat
        · exact hfirst i hif
        · have := hrest (i - ph.pFilesz.toNat) (by omega)
          rwa [hva, show ph.pVa.toNat + ph.pFilesz.toNat +
            (i - ph.pFilesz.toNat) = ph.pVa.toNat + i by omega] at this
      · have hjoin : within ph.pVa.toNat (ph.pVa.toNat + ph.pMemsz.toNat)
            (fun a => some (ph.content binary (a - ph.pVa.toNat))) B
            = within (ph.pVa + ph.pFilesz).toNat
              ((ph.pVa + ph.pFilesz).toNat + (ph.pMemsz - ph.pFilesz).toNat)
              (fun _ => some 0)
                (within ph.pVa.toNat (ph.pVa.toNat + ph.pFilesz.toNat)
                (fun a => some (binary (ph.pOffset.toNat + (a - ph.pVa.toNat))))
                  B) := by
          rw [hva, hsize]
          funext a
          simp only [within, Proghdr.content]
          split_ifs <;> first | rfl | omega
        rwa [hjoin]
    · rintro r _ ⟨rfl, i, hi, hno⟩
      refine ⟨rfl, hfault (ph.pFilesz.toNat + i) (by omega) ?_⟩
      rwa [hva, Nat.add_assoc] at hno
  · rintro r _ ⟨rfl, i, hi, hno⟩
    exact ⟨rfl, hfault i (by omega) hno⟩

/-- The user reaches the pages that are mapped. -/
theorem userAccess (h : Loading L dirs e d k M B v) (hd : dirs e = some d)
    (hva : va < UTOP) (hM : M (ppn va))
    (write : Bool) : Jos.userAccess v.mem (page2pa d) va write =
      some (ppn (pteNo v.mem dirs e (ppn va))) := by
  obtain ⟨p, hp, hpte⟩ := h.mapped _ (ppn_lt_of_lt_UTOP hva) hM
  rw [(h.owned.shaped h.opened).userAccess hd hva, pteAt_eq_pteNo, hpte, if_pos]
  exact ⟨(mapped_eq_some.mp (mapped_copyPte hp)).1,
    copyPte_flags flag_U (by decide),
    fun _ => copyPte_flags flag_W (by decide)⟩

end Loading

end

/-! ## `load_icode` -/

/-- Program header `i` is that of a segment to be loaded. -/
def IsSegment (binary : Bytes) (i : Nat) : Prop :=
  i < (ePhnum binary).toNat ∧ (proghdr binary i).pType = ELF_PROG_LOAD

/-- The number of pages for the segments among the first `n` program headers. -/
def imagePages (binary : Bytes) : Nat → Nat
  | 0 => 0
  | n + 1 => imagePages binary n
      + if (proghdr binary n).pType = ELF_PROG_LOAD then
      (proghdr binary n).pages else 0

/-- An ELF image whose segments lie below the stack, in pages of their own. -/
structure ImageOk (binary : Bytes) : Prop where
  magic : binary.load32 0 = ELF_MAGIC
  fits : ∀ i, IsSegment binary i → (proghdr binary i).Fits
  apart : ∀ i j n, IsSegment binary i → IsSegment binary j →
    (proghdr binary i).Touches n →
    (proghdr binary j).Touches n → i = j

/-- Environment `e` is as `env_alloc` leaves it, and memory is left for its page
tables and `k` pages. -/
structure Fresh (L : Layout) (s : Kern) (e k : Nat) : Prop where
  pages : PagesOk L s
  live : s.Live e
  opened : Opened s.vm.mem s.dirs
  empty : ∀ n < pdxUTOP * 1024, pteNo s.vm.mem s.dirs e n = 0
  free : FreeAtLeast L s.dirs s.vm.mem (pdxUTOP + k)

/-- Environment `e` has the program of the image in its memory. -/
structure Loaded (t : Kern) (e : Nat) (binary : Bytes) : Prop where
  page : ∀ i, IsSegment binary i → ∀ n, (proghdr binary i).Touches n →
    ∀ va, ppn va = n → ∃ p, userAccess t.vm.mem
      (t.envs e).envCr3 va true = some p
  byte : ∀ i, IsSegment binary i → ∀ k < (proghdr binary i).pMemsz.toNat, ∃ p,
    userAccess t.vm.mem (t.envs e).envCr3
      ((proghdr binary i).pVa + BitVec.ofNat 32 k) false = some p
      ∧ t.vm.mem p (pgoff ((proghdr binary i).pVa + BitVec.ofNat 32 k))
        = if k < (proghdr binary i).pFilesz.toNat then
        binary ((proghdr binary i).pOffset.toNat + k) else 0
  stack : ∃ p, userAccess t.vm.mem (t.envs e).envCr3
    (USTACKTOP - BitVec.ofNat 32 PGSIZE) true = some p
  entry : (t.envs e).envTf.tfEip = eEntry binary

section

variable {L : Layout} {s : Kern} {e k : Nat} {binary : Bytes} {v : Vm}
  {va : Word} {M : Nat → Prop}
  {B : Nat → Option (BitVec 8)} {A : Kern → Prop}

/-- The segments among the first `n` program headers are loaded. -/
structure LoadedUpTo (L : Layout) (s : Kern) (e : Nat) (binary : Bytes)
    (n : Nat) (v : Vm) : Prop where
  covered : ∀ i < n, IsSegment binary i → (proghdr binary i).Covered
  loading : ∃ k B, k + imagePages binary n =
    imagePages binary (ePhnum binary).toNat + 1
    ∧ Loading L s.dirs e (s.envs e).envPgdir k
        (fun m => ∃ i < n, IsSegment binary i
          ∧ (proghdr binary i).Allocates m) B v
    ∧ ∀ i < n, IsSegment binary i → ∀ j < (proghdr binary i).pMemsz.toNat,
        B ((proghdr binary i).pVa.toNat + j) =
          some ((proghdr binary i).content binary j)

theorem imagePages_mono {n n' : Nat} (h : n ≤ n') :
    imagePages binary n ≤ imagePages binary n' := by
  induction h with
  | refl => exact Nat.le_refl _
  | step _ ih => exact Nat.le_trans ih (Nat.le_add_right ..)

theorem Fresh.loadedUpTo
    (h : Fresh L s e (imagePages binary (ePhnum binary).toNat + 1)) :
    LoadedUpTo L s e binary 0 s.vm where
  covered i hi := absurd hi (Nat.not_lt_zero i)
  loading := by
    refine ⟨_, fun _ => none, rfl, ?_, fun i hi =>
      absurd hi (Nat.not_lt_zero i)⟩
    constructor
    case owned => exact h.pages.owned
    case opened => exact h.opened
    case mapped => exact fun n _ ⟨i, hi, _⟩ => absurd hi (Nat.not_lt_zero i)
    case absent => exact fun n hn _ => h.empty n hn
    case apart =>
      intro n hn n' _ p hp hnp
      rw [h.empty n hn] at hnp
      have hmap := mapped_copyPte hp
      rw [← hnp, mapped_zero] at hmap
      cases hmap
    case bytes => exact fun _ _ => nofun
    case spare => exact ⟨_, h.free, Nat.le_add_right ..⟩

/-- One round of the loop over the program headers. -/
theorem LoadedUpTo.wp_segment {n : Nat} (h : LoadedUpTo L s e binary n v)
    (hok : ImageOk binary)
    (he : e < L.ndirs) (hd : s.dirs e = some (s.envs e).envPgdir)
    (hn : IsSegment binary n) {A : Vm → Prop} :
    Prog.wp (loadSegment (s.envs e).envPgdir (page2pa (s.envs e).envPgdir)
      binary (proghdr binary n))
      (fun _ v' => LoadedUpTo L s e binary (n + 1) v') A
      (fun r _ => r = .kernelFault ∧ ¬(proghdr binary n).Covered) v := by
  obtain ⟨k, B, hk, hload, hbytes⟩ := h.loading
  have hstep : imagePages binary (n + 1) =
      imagePages binary n + (proghdr binary n).pages := by
    rw [imagePages, if_pos hn.2]
  have hmono : imagePages binary (n + 1) ≤
      imagePages binary (ePhnum binary).toNat := imagePages_mono hn.1
  obtain ⟨k', rfl⟩ : ∃ k', k = k' + (proghdr binary n).pages :=
    ⟨k - (proghdr binary n).pages, by omega⟩
  have hnew : ∀ m, (proghdr binary n).Touches m →
      ¬∃ i < n, IsSegment binary i ∧ (proghdr binary i).Allocates m := by
    rintro m hm ⟨i, hi, hseg, halloc⟩
    exact absurd (hok.apart i n m hseg hn halloc.touches hm) (Nat.ne_of_lt hi)
  refine Prog.wp_imp (hload.wp_loadSegment he hd (hok.fits n hn) hnew) ?_
    (fun _ h => h) fun _ _ h => h
  rintro - v' ⟨hcov, h'⟩
  refine ⟨fun i hi hseg => ?_, k', _, by omega, h'.congr fun m => ?_,
    fun i hi hseg j hj => ?_⟩
  · rcases Nat.lt_succ_iff_lt_or_eq.mp hi with hlt | rfl
    · exact h.covered i hlt hseg
    · exact hcov
  · constructor
    · rintro (⟨i, hi, hseg⟩ | hm)
      · exact ⟨i, Nat.lt_succ_of_lt hi, hseg⟩
      · exact ⟨n, Nat.lt_succ_self n, hn, hm⟩
    · rintro ⟨i, hi, hseg, hm⟩
      rcases Nat.lt_succ_iff_lt_or_eq.mp hi with hlt | rfl
      · exact .inl ⟨i, hlt, hseg, hm⟩
      · exact .inr hm
  · rcases Nat.lt_succ_iff_lt_or_eq.mp hi with hlt | rfl
    · -- the byte is not in the new segment
      rw [within, if_neg, hbytes i hlt hseg j hj]
      rintro ⟨hge, hle⟩
      have htouch : (proghdr binary n).Touches (((proghdr binary n).pVa.toNat
          + ((proghdr binary i).pVa.toNat + j - (proghdr binary n).pVa.toNat)) /
            PGSIZE) :=
        Proghdr.touches_of_lt (by omega)
      rw [Nat.add_sub_cancel' hge] at htouch
      exact absurd (hok.apart i n _ hseg hn (Proghdr.touches_of_lt hj) htouch)
        (Nat.ne_of_lt hlt)
    · rw [within, if_pos ⟨Nat.le_add_right .., Nat.add_lt_add_left hj _⟩,
        Nat.add_sub_cancel_left]

theorem LoadedUpTo.skip {n : Nat} (h : LoadedUpTo L s e binary n v)
    (hn : (proghdr binary n).pType ≠ ELF_PROG_LOAD) :
    LoadedUpTo L s e binary (n + 1) v := by
  obtain ⟨k, B, hk, hload, hbytes⟩ := h.loading
  have hlt : ∀ i < n + 1, IsSegment binary i → i < n := by
    intro i hi hseg
    rcases Nat.lt_succ_iff_lt_or_eq.mp hi with hlt | rfl
    · exact hlt
    · exact absurd hseg.2 hn
  refine ⟨fun i hi hseg => h.covered i (hlt i hi hseg) hseg, k, B, ?_,
    hload.congr fun m => ?_,
    fun i hi hseg => hbytes i (hlt i hi hseg) hseg⟩
  · rw [imagePages, if_neg hn]
    exact hk
  · constructor
    · rintro ⟨i, hi, hseg⟩
      exact ⟨i, Nat.lt_succ_of_lt hi, hseg⟩
    · rintro ⟨i, hi, hseg, hm⟩
      exact ⟨i, hlt i hi hseg, hseg, hm⟩

/-- The loop over the program headers. -/
theorem Fresh.wp_segments
    (h : Fresh L s e (imagePages binary (ePhnum binary).toNat + 1))
    (hok : ImageOk binary) :
    Prog.wp (Prog.forUp (ePhnum binary).toNat fun i => do
        if (proghdr binary i).pType = ELF_PROG_LOAD then
          let s ← Prog.ask
          inVm (loadSegment (s.envs e).envPgdir s.cr3 binary
          (proghdr binary i)) : K Unit)
      (fun _ t => ∃ v, t = (s.lcr3 (s.envs e).envCr3).withVm v
        ∧ LoadedUpTo L s e binary (ePhnum binary).toNat v) A
      (fun r _ => r = .kernelFault ∧ ∃ i, IsSegment binary i
        ∧ ¬(proghdr binary i).Covered)
      (s.lcr3 (s.envs e).envCr3) := by
  refine Prog.wp_forUp (fun n t => ∃ v, t = (s.lcr3 (s.envs e).envCr3).withVm v
    ∧ LoadedUpTo L s e binary n v) ⟨s.vm, rfl, h.loadedUpTo⟩ ?_
  rintro n _ hn ⟨v, rfl, hv⟩
  refine Prog.wp_ite _ (fun htype => ?_) fun htype =>
    Prog.wp_pure_intro ⟨v, rfl, hv.skip htype⟩
  apply Prog.wp_ask_bind
  simp only [inVm, Prog.wp_zoom]
  have hcr3 : (s.lcr3 (s.envs e).envCr3).cr3 = page2pa (s.envs e).envPgdir :=
    h.pages.cr3 e h.live
  refine Prog.wp_imp (hcr3 ▸ hv.wp_segment hok (h.pages.lt h.live) h.live.dirs
    ⟨hn, htype⟩) ?_ (fun _ h => h) ?_
  · exact fun _ v' hv' => ⟨v', rfl, hv'⟩
  · exact fun r _ hr => ⟨hr.1, n, ⟨hn, htype⟩, hr.2⟩

/-- The page below `USTACKTOP`. -/
theorem stackPage_toNat :
    (USTACKTOP - BitVec.ofNat 32 PGSIZE).toNat = 0xEEBFD * PGSIZE := rfl

/-- What the loader leaves is the program. -/
theorem LoadedUpTo.loaded {t : Kern} {d : Nat} (hd : s.dirs e = some d)
    (hok : ImageOk binary)
    (hcov : ∀ i, IsSegment binary i → (proghdr binary i).Covered)
    (hbytes : ∀ i < (ePhnum binary).toNat, IsSegment binary i →
      ∀ j < (proghdr binary i).pMemsz.toNat,
      B ((proghdr binary i).pVa.toNat + j) = some
      ((proghdr binary i).content binary j))
    (h : Loading L s.dirs e d k
      (fun m => (∃ i < (ePhnum binary).toNat, IsSegment binary i
      ∧ (proghdr binary i).Allocates m) ∨ m = 0xEEBFD) B t.vm)
    (hcr3 : (t.envs e).envCr3 = page2pa d)
    (hentry : (t.envs e).envTf.tfEip = eEntry binary) :
    Loaded t e binary := by
  have hU : UTOP.toNat = 0xEEC00000 := rfl
  have hS := stackPage_toNat
  simp only [PGSIZE] at hS
  constructor
  case page =>
    rintro i hseg n htouch va rfl
    have hbelow := (hok.fits i hseg).below
    -- a byte of the segment that lies in the page
    obtain ⟨j, hj, hpage⟩ : ∃ j < (proghdr binary i).pMemsz.toNat,
        ((proghdr binary i).pVa.toNat + j) / PGSIZE = ppn va := by
      obtain ⟨hlow, hhigh, hpos⟩ := htouch
      simp only [PGSIZE] at hlow hhigh ⊢
      by_cases hstart : (proghdr binary i).pVa.toNat ≤ ppn va * 4096
      · exact ⟨ppn va * 4096 - (proghdr binary i).pVa.toNat, by omega, by omega⟩
      · exact ⟨0, hpos, by omega⟩
    have hva : va < UTOP := by
      rw [ppn_eq, PGSIZE] at hpage
      rw [PGSIZE, hS] at hbelow
      rw [BitVec.lt_def, hU]
      omega
    rw [hcr3]
    exact ⟨_, h.userAccess hd hva (.inl
      ⟨i, hseg.1, hseg, hpage ▸ Proghdr.covered_iff.mp (hcov i hseg) j hj⟩) _⟩
  case byte =>
    intro i hseg j hj
    have hbelow := (hok.fits i hseg).below
    rw [PGSIZE, hS] at hbelow
    have hto : ((proghdr binary i).pVa + BitVec.ofNat 32 j).toNat =
        (proghdr binary i).pVa.toNat + j := by
      rw [BitVec.toNat_add, BitVec.toNat_ofNat]
      omega
    have hva : (proghdr binary i).pVa + BitVec.ofNat 32 j < UTOP := by
      rw [BitVec.lt_def, hto]
      omega
    obtain ⟨-, hM, hbyte⟩ := h.bytes _ _ (hbytes i hseg.1 hseg j hj)
    rw [← hto, PGSIZE, ← ppn_eq] at hM
    rw [← hto, PGSIZE, ← ppn_eq, ← pgoff_eq] at hbyte
    rw [hcr3]
    exact ⟨_, h.userAccess hd hva hM _, hbyte⟩
  case stack =>
    rw [hcr3]
    exact ⟨_, h.userAccess hd (by decide) (.inr (by decide)) _⟩
  case entry => exact hentry

/-- `load_icode` loads the image if its segments are covered, and else the
processor faults. -/
theorem Fresh.wp_loadIcode
    (h : Fresh L s e (imagePages binary (ePhnum binary).toNat + 1))
    (hok : ImageOk binary) :
    Prog.wp (loadIcode e binary)
      (fun _ t => (∀ i, IsSegment binary i → (proghdr binary i).Covered)
        ∧ Loaded t e binary) A
      (fun r _ => r = .kernelFault ∧ ∃ i, IsSegment binary i
        ∧ ¬(proghdr binary i).Covered) s := by
  have hd := h.live.dirs
  unfold loadIcode
  refine Prog.wp_ite _ (fun hno => absurd hok.magic hno) fun _ => ?_
  apply Prog.wp_update_bind
  apply Prog.wp_bind_intro
  refine Prog.wp_imp (h.wp_segments hok) ?_ (fun _ h => h) fun _ _ h => h
  rintro - _ ⟨v, rfl, hv⟩
  obtain ⟨k, B, hk, hload, hbytes⟩ := hv.loading
  have hcov : ∀ i, IsSegment binary i → (proghdr binary i).Covered :=
    fun i hseg => hv.covered i hseg.1 hseg
  obtain rfl : k = 0 + 1 := by omega
  apply Prog.wp_update_bind
  apply Prog.wp_update_bind
  apply Prog.wp_ask_bind
  -- the stack lies above the segments
  have hstack : ∀ i < 1, ¬∃ j < (ePhnum binary).toNat, IsSegment binary j
      ∧ (proghdr binary j).Allocates
        ((USTACKTOP - BitVec.ofNat 32 PGSIZE).toNat / PGSIZE + i) := by
    rintro i hi ⟨j, -, hseg, halloc⟩
    have hbelow := (hok.fits j hseg).below
    have htouch := halloc.touches.1
    rw [stackPage_toNat] at hbelow htouch
    simp only [PGSIZE] at hbelow htouch
    omega
  obtain ⟨v', hret, h'⟩ :=
    hload.segmentAlloc (n := 1) (h.pages.lt h.live) hd (by decide)
    (show (BitVec.ofNat 32 PGSIZE).toNat ≤ UTOP.toNat by decide)
    (by decide) hstack
  simp only [inVm, Prog.wp_zoom, Kern.setEnv_envs_self]
  refine Prog.wp_ret hret ⟨hcov, LoadedUpTo.loaded hd hok hcov hbytes
    (h'.congr fun m => or_congr_right ?_) ?_ ?_⟩
  · rw [stackPage_toNat, Nat.mul_div_cancel _ (by decide)]
    omega
  · rw [Kern.withVm_envs, Kern.setEnv_envs_self]
    exact h.pages.cr3 e h.live
  · rw [Kern.withVm_envs, Kern.setEnv_envs_self]

/-- `load_icode` puts the program that the image describes into the address
space of a new environment exactly when the pages that `segment_alloc` maps
cover every segment. -/
theorem loadIcode_loads
    (h : Fresh L s e (imagePages binary (ePhnum binary).toNat + 1))
    (hok : ImageOk binary) :
    (∃ t, loadIcode e binary s = .ret () t ∧ Loaded t e binary)
      ↔ ∀ i, IsSegment binary i → (proghdr binary i).Covered := by
  have hspec := h.wp_loadIcode hok (A := fun _ => False)
  constructor
  · rintro ⟨t, hret, -⟩
    exact (hspec.ret hret).1
  · intro hcov
    cases hret : loadIcode e binary s with
    | ret _ t => exact ⟨t, rfl, (hspec.ret hret).2⟩
    | away t => exact (hspec.away hret).elim
    | stop r t =>
        obtain ⟨-, i, hseg, hno⟩ := hspec.stop hret
        exact absurd (hcov i hseg) hno

/-- `env_alloc` makes an empty address space. -/
theorem PagesOk.fresh (h : PagesOk L s) (ho : Opened s.vm.mem s.dirs)
    (hfirst : s.envFreeList.first = some e)
    (hfree : FreeAtLeast L s.dirs s.vm.mem (pdxUTOP + k + 1)) :
    ∃ t, Jos.envAlloc 0 s = .ret (.ok e) t ∧ Fresh L t e k := by
  obtain ⟨he, hbfree, -⟩ := h.env.alloced hfirst 0 (0, 0) s.vm
  have hnone : s.dirs e = none := if_neg fun hl => hl.2 hbfree
  rcases h.owned.setupPgdir (h.ndirs ▸ he) hnone with
    ⟨d, -, hd, -, -, hfresh⟩ | ⟨-, hno⟩
  case inr => exact absurd hno (h.owned.first_of_free hfree)
  have hdirs : (s.alloced e 0 (d, page2pa d) (Owned.newPgdir d s.vm)).dirs =
      Function.update s.dirs e (some d) :=
    dirs_alloced he
  refine ⟨_, envAlloc_ret hfirst hd, ?_, ⟨he, ?_⟩, ?_, fun n hn => ?_, ?_⟩
  · rcases h.alloced hfirst 0 with ⟨d', hd', hok⟩ | herr
    · obtain ⟨rfl, -⟩ :=
        Prod.mk.inj (Except.ok.inj (Outcome.ret.inj (hd.symm.trans hd')).1)
      exact hok
    · cases hd.symm.trans herr
  · rw [Kern.alloced_envs_self]
    exact nofun
  · rw [hdirs]
    exact ho.newPgdir h.owned.dir_lt hfresh
  · have hd' : (s.alloced e 0 (d, page2pa d) (Owned.newPgdir d s.vm)).dirs e =
        some d := by
      rw [hdirs, Function.update_self]
    exact pteAt_noTable hd' (Owned.newPgdir_link (pageNo_lt hn).1)
  · rw [hdirs]
    exact hfree.newPgdir hnone hfresh

/-- `env_create` makes an environment with the program, if its segments are
covered. -/
theorem envCreate_loads (h : PagesOk L s) (ho : Opened s.vm.mem s.dirs)
    (hfirst : s.envFreeList.first = some e)
    (hfree : FreeAtLeast L s.dirs s.vm.mem
      (pdxUTOP + (imagePages binary (ePhnum binary).toNat + 1) + 1))
    (hok : ImageOk binary) (hcov : ∀ i, IsSegment binary i →
      (proghdr binary i).Covered) :
    ∃ t, envCreate binary s = .ret () t ∧ Loaded t e binary := by
  obtain ⟨u, halloc, hu⟩ := h.fresh ho hfirst hfree
  have hspec := hu.wp_loadIcode hok (A := fun _ => False)
  have hcreate : envCreate binary s = loadIcode e binary u := by
    rw [envCreate, Prog.bind_ret halloc]
  rw [hcreate]
  cases hret : loadIcode e binary u with
  | ret _ t => exact ⟨t, rfl, (hspec.ret hret).2⟩
  | away t => exact (hspec.away hret).elim
  | stop r t =>
      obtain ⟨-, i, hseg, hno⟩ := hspec.stop hret
      exact absurd (hcov i hseg) hno

end

/-! ## A small instance -/

/-- An image of one segment of `memsz` bytes in the middle of a page, four of
them in the file. -/
def smallImage (memsz : Word) : Bytes :=
  let file : Bytes := fun _ => 0
  let file :=
    (((file.store32 0 ELF_MAGIC).store32 24 UTEXT).store32 28 52).store32 44 1
  let file := ((file.store32 52 ELF_PROG_LOAD).store32 56 84).store32 60
    (UTEXT + 0x800#32)
  ((file.store32 68 4).store32 72 memsz).store32 84 0x11223344#32

theorem smallImage_proghdr (memsz : Word) : proghdr (smallImage memsz) 0
    = { pType := ELF_PROG_LOAD, pOffset := 84, pVa := UTEXT +
    0x800#32, pFilesz := 4, pMemsz := memsz } := by
  have hoff : ePhoff (smallImage memsz) = 52 := by
    simp (disch := omega) only [ePhoff, smallImage, Bytes.load32_store32,
      Bytes.load32_store32_of_ne]
  unfold proghdr
  simp only [hoff, show (52 : Word).toNat = 52 from rfl, Nat.mul_zero,
    Nat.add_zero, Nat.reduceAdd]
  simp (disch := omega) only [smallImage, Bytes.load32_store32,
    Bytes.load32_store32_of_ne]

theorem smallImage_phnum (memsz : Word) :
    (ePhnum (smallImage memsz)).toNat = 1 := by
  simp (disch := omega) only [ePhnum, smallImage, Bytes.store32_of_ne]
  rfl

theorem smallImage_segment {memsz : Word} {i : Nat} :
    IsSegment (smallImage memsz) i ↔ i = 0 := by
  rw [IsSegment, smallImage_phnum]
  constructor
  · rintro ⟨hi, -⟩
    omega
  · rintro rfl
    refine ⟨Nat.one_pos, ?_⟩
    rw [smallImage_proghdr]

theorem smallImage_ok {memsz : Word} (h4 : 4 ≤ memsz.toNat)
    (hle : memsz.toNat ≤ PTSIZE) :
    ImageOk (smallImage memsz) := by
  constructor
  case magic => simp (disch := omega) only [smallImage, Bytes.load32_store32,
    Bytes.load32_store32_of_ne]
  case fits =>
    intro i hi
    rw [smallImage_segment.mp hi, smallImage_proghdr]
    refine ⟨h4, ?_⟩
    rw [stackPage_toNat]
    simp only [PTSIZE, PGSIZE] at hle ⊢
    have hva : (UTEXT + 0x800#32).toNat = 0x800800 := rfl
    omega
  case apart => exact fun i j n hi hj _ _ =>
    (smallImage_segment.mp hi).trans (smallImage_segment.mp hj).symm

/-- The small kernel has an environment for the image. -/
theorem smallUserKern_fresh {memsz : Word} (hle : memsz.toNat ≤ PGSIZE) :
    Fresh (smallLayout 1000 (by decide))
    (smallUserKern 1000) 2 (imagePages (smallImage memsz)
      (ePhnum (smallImage memsz)).toNat + 1) := by
  have h := smallUserKern_inUser (k := 1000) (by decide)
  have hpages :
      imagePages (smallImage memsz) (ePhnum (smallImage memsz)).toNat ≤ 1 := by
    rw [smallImage_phnum, imagePages,
      imagePages, smallImage_proghdr, if_pos rfl]
    simp only [Proghdr.pages, PGSIZE] at hle ⊢
    omega
  refine ⟨h.pages, h.live, h.opened, fun n hn => smallUserKern_pte hn,
    (smallUserKern_free (k := 1000) (by decide)).mono ?_⟩
  have hN : pdxUTOP = 955 := rfl
  omega

/-- A segment that ends where its page ends is loaded. -/
theorem loadIcode_loads_small :
    ∃ t, loadIcode 2 (smallImage 0x800#32) (smallUserKern 1000) = .ret () t
    ∧ Loaded t 2 (smallImage 0x800#32) := by
  refine (loadIcode_loads (smallUserKern_fresh (by decide))
    (smallImage_ok (by decide) (by decide))).mpr
    fun i hi => ?_
  rw [smallImage_segment.mp hi, smallImage_proghdr]
  exact .inr (by decide)

/-- A segment of the length of a page that starts in the middle of one lacks its
second page. -/
theorem loadIcode_faults : ∃ L s e binary,
      Fresh L s e (imagePages binary (ePhnum binary).toNat + 1) ∧ ImageOk binary
    ∧ ¬∃ t, loadIcode e binary s = .ret () t ∧ Loaded t e binary := by
  have hfresh := smallUserKern_fresh (show (0x1000#32).toNat ≤ PGSIZE by decide)
  have hok : ImageOk (smallImage 0x1000#32) :=
    smallImage_ok (by decide) (by decide)
  refine ⟨_, _, 2, _, hfresh, hok, ?_⟩
  rintro ⟨t, hret, -⟩
  have hcov := ((hfresh.wp_loadIcode hok (A := fun _ => False)).ret hret).1 0
    (smallImage_segment.mpr rfl)
  rw [smallImage_proghdr, Proghdr.Covered] at hcov
  revert hcov
  decide

end Jos
