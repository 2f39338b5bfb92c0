import Jos.Kern.Small
import Jos.Vm.Space
import Jos.Monitor.Number

/-!
# The monitor's permission commands

The nine commands of kern/monitor.c that set, clear and change a bit of the
entry for an address in `boot_pgdir`. They differ in an operator and a mask, and
each is `monPerm` with its own.

The set commands apply `&=` like the clear commands, without the complement, so
that they clear every other bit of the entry; `mon_change_present` flips
`PTE_U`. All nine go through `page_lookup`, which panics when the entry maps a
page behind the end of memory, as the last entries above `KERNBASE` do.
-/

namespace Jos

/-- A command of the monitor. -/
abbrev MonM (α : Type) : Type := Prog Vm MonStop α

def inKernel {α : Type} (f : VmM α) : MonM α := Prog.mapStop MonStop.kernel f

def inScan {α : Type} (f : ScanM α) : MonM α :=
  Prog.zoom (fun _ => []) (fun _ v => v) f

/-- A command that replaces the entry `w` for its argument by `f w`. -/
def monPerm (f : Word → Word) (argc : Nat) (argv : Nat → Bytes) :
    MonM Word := do
  if argc ≠ 2 then
    pure (-E_INVAL)
  else
    let va ← inScan (atox (argv 1))
    let v ← Prog.ask
    let (_, pte) ← inKernel (pageLookup v.bootPgdir va)
    match pte with
    | some pte => do
        let v ← Prog.ask
        inKernel (setPte pte (f (v.mem.entry pte.1 pte.2)))
        pure 0
    | none => pure 0

def monSetUser (argc : Nat) (argv : Nat → Bytes) : MonM Word :=
  monPerm (· &&& PTE_U) argc argv
def monSetWritable (argc : Nat) (argv : Nat → Bytes) : MonM Word :=
  monPerm (· &&& PTE_W) argc argv
def monSetPresent (argc : Nat) (argv : Nat → Bytes) : MonM Word :=
  monPerm (· &&& PTE_P) argc argv
def monClearUser (argc : Nat) (argv : Nat → Bytes) : MonM Word :=
  monPerm (· &&& ~~~PTE_U) argc argv
def monClearWritable (argc : Nat) (argv : Nat → Bytes) : MonM Word :=
  monPerm (· &&& ~~~PTE_W) argc argv
def monClearPresent (argc : Nat) (argv : Nat → Bytes) : MonM Word :=
  monPerm (· &&& ~~~PTE_P) argc argv
def monChangeUser (argc : Nat) (argv : Nat → Bytes) : MonM Word :=
  monPerm (· ^^^ PTE_U) argc argv
def monChangeWritable (argc : Nat) (argv : Nat → Bytes) : MonM Word :=
  monPerm (· ^^^ PTE_W) argc argv

/-- It flips the same bit as `monChangeUser`. -/
def monChangePresent (argc : Nat) (argv : Nat → Bytes) : MonM Word :=
  monPerm (· ^^^ PTE_U) argc argv

/-- What a command's name says it does. -/
inductive PermOp where
  | set | clear | change
deriving DecidableEq

/-- The bit that it names. -/
inductive PermBit where
  | user | writable | present
deriving DecidableEq

def PermBit.mask : PermBit → Word
  | .user => PTE_U
  | .writable => PTE_W
  | .present => PTE_P

/-- The entry `w` with the bit set, cleared or flipped. -/
def PermOp.apply (op : PermOp) (bit w : Word) : Word :=
  match op with
  | .set => w ||| bit
  | .clear => w &&& ~~~bit
  | .change => w ^^^ bit

/-- The command with this name. -/
def permCommand : PermOp → PermBit → Nat → (Nat → Bytes) → MonM Word
  | .set, .user => monSetUser
  | .set, .writable => monSetWritable
  | .set, .present => monSetPresent
  | .clear, .user => monClearUser
  | .clear, .writable => monClearWritable
  | .clear, .present => monClearPresent
  | .change, .user => monChangeUser
  | .change, .writable => monChangeWritable
  | .change, .present => monChangePresent

/-- What it does to the entry. -/
def permCode : PermOp → PermBit → Word → Word
  | .set, bit => (· &&& bit.mask)
  | .clear, bit => (· &&& ~~~bit.mask)
  | .change, .present => (· ^^^ PTE_U)
  | .change, bit => (· ^^^ bit.mask)

theorem permCommand_eq (op : PermOp) (bit : PermBit) :
    permCommand op bit = monPerm (permCode op bit) := by
  cases op <;> cases bit <;> rfl

/-- The entry for `va` is in page `pt`. -/
structure Vm.HasPte (v : Vm) (va : Word) (pt : Nat) : Prop where
  link : v.mem.link v.bootPgdir (pdx va) = some pt
  lt : pt < v.npage

/-- `v` with the entry for `va` in page `pt` replaced. -/
def Vm.putPte (v : Vm) (pt : Nat) (va x : Word) : Vm :=
  { v with mem := v.mem.setEntry pt (ptx va) x }

/-- The entry maps a page behind the end of memory. -/
def Vm.Strays (v : Vm) (w : Word) : Prop := present w ∧ v.npage ≤ ppn w

/-- The command changes its bit of the entry for `va` and nothing else. Once
more, it changes nothing if it sets or clears, and undoes the change if it
flips. -/
structure PermObeys (op : PermOp) (bit : PermBit) (argv : Nat → Bytes) (v : Vm)
    (pt : Nat) (va : Word) : Prop where
  once : permCommand op bit 2 argv v =
    .ret 0 (v.putPte pt va (op.apply bit.mask (v.mem.entry pt (ptx va))))
  twice : permCommand op bit 2 argv
    (v.putPte pt va (op.apply bit.mask (v.mem.entry pt (ptx va)))) =
    .ret 0 (if op = .change then v else
      v.putPte pt va (op.apply bit.mask (v.mem.entry pt (ptx va))))

/-- The command's operator does to the entry what its name says: `&=` sets the
bit of no entry but the one that has it and no other. -/
def PermOp.Fits : PermOp → PermBit → Word → Prop
  | .set, bit, w => w = bit.mask
  | .clear, _, _ => True
  | .change, bit, _ => bit ≠ .present

/-! ## Flipping bits of an entry -/

section

variable {w x b : Word} {v : Vm} {va : Word} {pt : Nat} {argv : Nat → Bytes}
  {f : Word → Word} {log : List Nat}
  {op : PermOp} {bit : PermBit}

theorem clear_eq_xor : w &&& ~~~b = w ^^^ (w &&& b) := by
  ext i hi
  simp only [BitVec.getElem_and, BitVec.getElem_not, BitVec.getElem_xor]
  cases w[i] <;> cases b[i] <;> rfl

/-- Bits other than `PTE_P` and the address do not tell what an entry maps. -/
theorem mapped_xor (hP : x &&& PTE_P = 0) (haddr : x >>> 12 = 0) :
    mapped (w ^^^ x) = mapped w := by
  have hxor : (w ^^^ x) &&& PTE_P = w &&& PTE_P := by
    have hdist : (w ^^^ x) &&& PTE_P = (w &&& PTE_P) ^^^ (x &&& PTE_P) := by
      ext i hi
      simp [Bool.and_xor_distrib_right]
    rw [hdist, hP]
    simp
  have hppn : (w ^^^ x) >>> 12 = w >>> 12 := by
    rw [BitVec.ushiftRight_xor_distrib, haddr]
    simp
  simp [mapped, present, ppn, hxor, hppn]

theorem mapped_clear (hP : b &&& PTE_P = 0) (haddr : b >>> 12 = 0) :
    mapped (w &&& ~~~b) = mapped w := by
  rw [clear_eq_xor]
  refine mapped_xor ?_ ?_
  · rw [BitVec.and_assoc, hP]
    simp
  · rw [BitVec.ushiftRight_and_distrib, haddr]
    simp

theorem not_present_clear : ¬present (w &&& ~~~PTE_P) := by
  simp [present, BitVec.and_assoc, PTE_P]

/-- `&=` sets the bit where it is set and nothing else is. -/
theorem and_eq_or : w &&& b = w ||| b ↔ w = b := by
  constructor
  · intro h
    ext i hi
    have hbit := congrArg (fun y : Word => y[i]) h
    simp only [BitVec.getElem_and, BitVec.getElem_or] at hbit
    revert hbit
    cases w[i] <;> cases b[i] <;> simp
  · rintro rfl
    simp

/-- Flipping `PTE_U` is not flipping another bit. -/
theorem xor_eq_apply (bit : PermBit) : w ^^^ PTE_U = w ^^^ bit.mask ↔
      bit = .user := by
  rw [BitVec.xor_right_inj]
  cases bit <;> decide

/-- Where the command's operator fits, it is the one that its name says, and it
fits once more. -/
theorem PermOp.Fits.code_eq (h : op.Fits bit w) :
    permCode op bit w = op.apply bit.mask w := by
  cases op with
  | set => exact and_eq_or.mpr h
  | clear => rfl
  | change =>
      cases bit with
      | present => exact absurd rfl h
      | user | writable => rfl

/-- Where it does not, it is not. -/
theorem PermOp.Fits.of_code_eq (h : permCode op bit w = op.apply bit.mask w) :
    op.Fits bit w := by
  cases op with
  | set => exact and_eq_or.mp h
  | clear => trivial
  | change =>
      cases bit with
      | present => exact absurd ((xor_eq_apply .present).mp h) (by decide)
      | user | writable => exact nofun

/-- The change that a fitting command makes leaves alone what the entry maps, or
clears `PTE_P`. -/
theorem PermOp.Fits.mapped_apply (h : op.Fits bit w) :
    mapped (op.apply bit.mask w) = mapped w ∨ op = .clear ∧
    ¬present (op.apply bit.mask w) := by
  cases op with
  | set =>
      obtain rfl : w = bit.mask := h
      exact .inl (by simp [PermOp.apply])
  | clear =>
      cases bit with
      | user | writable => exact .inl (mapped_clear (by decide) (by decide))
      | present => exact .inr ⟨rfl, not_present_clear⟩
  | change =>
      cases bit with
      | user | writable => exact .inl (mapped_xor (by decide) (by decide))
      | present => exact absurd rfl h

/-! ## The commands -/

theorem inScan_ret (h : atox (argv 1) [] = .ret va log) :
    inScan (atox (argv 1)) v = .ret va v := by
  simp [inScan, Prog.zoom, h]

/-- A command on an entry that maps no page behind the end of memory. -/
theorem monPerm_ret (hva : atox (argv 1) [] = .ret va log)
    (hpt : v.HasPte va pt)
    (hw : ¬v.Strays (v.mem.entry pt (ptx va))) :
    monPerm f 2 argv v = .ret 0
      (v.putPte pt va (f (v.mem.entry pt (ptx va)))) := by
  have hlookup : ∃ pp, pageLookup v.bootPgdir va v =
      .ret (pp, some (pt, ptx va)) v := by
    cases hpp : v.mem.link pt (ptx va) with
    | none => exact ⟨none, pageLookup_absent hpt.link hpt.lt hpp⟩
    | some pp =>
        obtain ⟨hpres, hppn⟩ := mapped_eq_some.mp hpp
        have hlt : pp < v.npage := by
          by_contra hge
          exact hw ⟨hpres, by omega⟩
        exact ⟨some pp, pageLookup_mapped hpt.link hpt.lt hpp hlt⟩
  obtain ⟨pp, hlookup⟩ := hlookup
  simp [monPerm, Prog.bind_apply, inScan_ret hva, Prog.ask, inKernel,
    Prog.mapStop, hlookup, setPte, Prog.update,
    Vm.putPte]

/-- A command on an address that has no entry. -/
theorem monPerm_denied (hva : atox (argv 1) [] = .ret va log)
    (hpt : v.mem.link v.bootPgdir (pdx va) = none) :
    monPerm f 2 argv v = .ret 0 v := by
  simp [monPerm, Prog.bind_apply, inScan_ret hva, Prog.ask, inKernel,
    Prog.mapStop, pageLookup_none hpt]

/-- `page_lookup` panics on an entry that maps a page behind the end of
memory. -/
theorem monPerm_strays (hva : atox (argv 1) [] = .ret va log)
    (hpt : v.HasPte va pt)
    (hw : v.Strays (v.mem.entry pt (ptx va))) :
    ∃ r, monPerm f 2 argv v = .stop r v := by
  have hstop : pageLookup v.bootPgdir va v =
      .stop (.panic "pa2page called with invalid pa") v := by
    rw [pageLookup, Prog.bind_ret (pgdirWalk_table hpt.link hpt.lt)]
    simp only
    rw [Prog.ask_bind, if_pos hw.1, pa2page, Prog.bind_stop]
    rw [checkedPage, Prog.ask_bind, if_pos (by rw [ppn_pteAddr]; exact hw.2)]
    rfl
  refine ⟨.kernel (.panic "pa2page called with invalid pa"), ?_⟩
  simp [monPerm, Prog.bind_apply, inScan_ret hva, Prog.ask, inKernel,
    Prog.mapStop, hstop]

/-! ## What a command does twice -/

theorem Vm.putPte_putPte {x y : Word} :
    (v.putPte pt va x).putPte pt va y = v.putPte pt va y := by
  simp [Vm.putPte, PhysMem.setEntry_setEntry]

theorem Vm.putPte_entry : v.putPte pt va (v.mem.entry pt (ptx va)) = v := by
  simp [Vm.putPte, PhysMem.setEntry_entry]

/-- The page table is still there after the change, unless the entry is the
table's own and is not present any more. -/
theorem Vm.HasPte.putPte (h : v.HasPte va pt)
    (hx : mapped x = mapped (v.mem.entry pt (ptx va)) ∨ ¬present x) :
    (v.putPte pt va x).HasPte va pt ∨
    mapped x ≠ mapped (v.mem.entry pt (ptx va)) ∧
      (v.putPte pt va x).mem.link v.bootPgdir (pdx va) = none := by
  by_cases hself : v.bootPgdir = pt ∧ pdx va = ptx va
  · -- the window at `VPT`: the entry is the one that refers to the page table
    have hlink : (v.putPte pt va x).mem.link v.bootPgdir (pdx va) =
        mapped x := by
      rw [hself.1, hself.2]
      exact PhysMem.link_setEntry_self
    have hown := h.link
    rw [hself.1, hself.2] at hown
    rcases hx with hx | hx
    · exact .inl ⟨hlink.trans (hx.trans hown), h.lt⟩
    · rw [mapped_of_absent hx] at hlink ⊢
      refine .inr ⟨fun hnone => ?_, hlink⟩
      cases hnone.trans hown
  · refine .inl ⟨?_, h.lt⟩
    have hne : v.bootPgdir ≠ pt ∨ pdx va ≠ ptx va := by
      by_contra hcon
      exact hself ⟨by_contra fun hn => hcon (.inl hn), by_contra fun hn =>
        hcon (.inr hn)⟩
    have hentry := PhysMem.entry_setEntry_ne (m := v.mem) (v := x) hne
    have hlink : (v.putPte pt va x).mem.link v.bootPgdir (pdx va) =
        v.mem.link v.bootPgdir (pdx va) :=
      congrArg mapped hentry
    exact hlink.trans h.link

/-- A fitting operator, once more. -/
theorem PermOp.Fits.code_apply (h : op.Fits bit w) :
    permCode op bit (op.apply bit.mask w) = if op = .change then w else
    op.apply bit.mask w := by
  cases op with
  | set =>
      obtain rfl : w = bit.mask := h
      simp [permCode, PermOp.apply]
  | clear => simp [permCode, PermOp.apply, BitVec.and_assoc]
  | change =>
      have hback : ∀ b : Word, w ^^^ b ^^^ b = w := fun b => by
        rw [BitVec.xor_assoc, BitVec.xor_self, BitVec.xor_zero]
      cases bit with
      | present => exact absurd rfl h
      | user | writable => simp [permCode, PermOp.apply, PermBit.mask, hback]

/-- A permission command obeys its name if and only if the entry maps no page
behind the end of memory, and the operator of the command does to it what the
name says. -/
theorem monPerm_obeys (hva : atox (argv 1) [] = .ret va log)
    (hpt : v.HasPte va pt) :
    PermObeys op bit argv v pt va ↔
      ¬v.Strays (v.mem.entry pt (ptx va)) ∧
      op.Fits bit (v.mem.entry pt (ptx va)) := by
  constructor
  · rintro ⟨honce, -⟩
    rw [permCommand_eq] at honce
    by_cases hw : v.Strays (v.mem.entry pt (ptx va))
    · obtain ⟨r, hstop⟩ := monPerm_strays (f := permCode op bit) hva hpt hw
      rw [hstop] at honce
      cases honce
    · rw [monPerm_ret hva hpt hw] at honce
      injection honce with _ hstate
      have hentry := congrArg (fun u : Vm => u.mem.entry pt (ptx va)) hstate
      simp only [Vm.putPte, PhysMem.entry_setEntry_self] at hentry
      exact ⟨hw, PermOp.Fits.of_code_eq hentry⟩
  · rintro ⟨hw, hfits⟩
    refine ⟨by rw [permCommand_eq, monPerm_ret hva hpt hw, hfits.code_eq], ?_⟩
    rw [permCommand_eq]
    have hkept := hfits.mapped_apply
    rcases hpt.putPte (hkept.imp_right And.right) with hpt' | ⟨hne, hnone⟩
    · have hentry : (v.putPte pt va
          (op.apply bit.mask (v.mem.entry pt (ptx va)))).mem.entry pt (ptx va) =
          op.apply bit.mask (v.mem.entry pt (ptx va)) :=
        PhysMem.entry_setEntry_self
      have hw' :
          ¬(v.putPte pt va (op.apply bit.mask (v.mem.entry pt (ptx va)))).Strays
          (op.apply bit.mask (v.mem.entry pt (ptx va))) := by
        rintro ⟨hpres, hppn⟩
        rcases hkept with hsame | ⟨-, habs⟩
        · rw [mapped_of_present hpres] at hsame
          obtain ⟨hpresw, hppnw⟩ := mapped_eq_some.mp hsame.symm
          exact hw ⟨hpresw, hppnw ▸ hppn⟩
        · exact habs hpres
      rw [monPerm_ret hva hpt' (by rwa [hentry]), hentry, hfits.code_apply,
        Vm.putPte_putPte]
      split
      · rw [Vm.putPte_entry]
      · rfl
    · -- the entry was the page table's own and is not present any more: the command is denied
      have hclear := (hkept.resolve_left hne).1
      rw [monPerm_denied hva hnone, if_neg (by rw [hclear]; decide)]

end

/-! ## Two entries -/

/-- A small machine whose boot directory, in page 1, has a page table in page 2
with the entry `w` for address 0. -/
def entryVm (w : Word) : Vm :=
  { smallVm 0 with
    mem := ((smallVm 0).mem.setEntry 1 0
      (page2pa 2 ||| PTE_W ||| PTE_P)).setEntry 2 0 w
    bootPgdir := 1 }

/-- The command line `command 0x0`. -/
def zeroArgument (_ : Nat) : Bytes := strOf [0x30, 0x78, 0x30]

theorem zeroArgument_value :
    atox (zeroArgument 1) [] = .ret 0 [3, 2, 1, 0, 0] := by decide +kernel

theorem entryVm_hasPte (w : Word) : (entryVm w).HasPte 0 2 where
  link := by
    have hne : (entryVm w).mem.entry 1 0 = page2pa 2 ||| PTE_W ||| PTE_P :=
      (PhysMem.entry_setEntry_ne (.inl (by decide))).trans
        PhysMem.entry_setEntry_self
    exact (congrArg mapped hne).trans (by decide)
  lt := by simp [entryVm, smallVm]

theorem monPerm_obeys_clear :
    PermObeys .clear .writable zeroArgument (entryVm 0x3007) 2 0 := by
  refine (monPerm_obeys zeroArgument_value (entryVm_hasPte _)).mpr
    ⟨fun hstray => ?_, trivial⟩
  exact absurd hstray.2 (by decide +kernel)

/-- `set_user` on an entry for a page of the kernel unmaps the page. -/
theorem set_user_unmaps :
    ¬∀ (op : PermOp) (bit : PermBit) (argv : Nat → Bytes) (v : Vm) (pt : Nat)
      (va : Word) (log : List Nat),
      atox (argv 1) [] = .ret va log → v.HasPte va pt →
      PermObeys op bit argv v pt va := by
  intro h
  have honce := (h .set .user zeroArgument (entryVm 0x3003) 2 0 _
    zeroArgument_value (entryVm_hasPte _)).once
  have hentry : (permCommand .set .user 2 zeroArgument
      (entryVm 0x3003)).state.mem.entry 2 0 = 0 := by decide +kernel
  rw [honce] at hentry
  revert hentry
  decide +kernel

end Jos
