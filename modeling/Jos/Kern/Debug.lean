import Jos.Kern.Stab
import Jos.Kern.Check

/-!
# Where an address is in a program

`debuginfo_eip` of kern/kdebug.c. A user program brings its own stabs: the
record at `USTABDATA` points at the table and at the strings. What the log of a
search shows is which ranges `user_mem_check` has accepted, and which bytes have
been read.

The check of the table is given the number of its entries for the number of its
bytes. The first entry that is looked at is the middle one, and lies behind the
range that has been checked.
-/

namespace Jos

def N_FUN : BitVec 8 := 0x24
def N_SLINE : BitVec 8 := 0x44
def N_SO : BitVec 8 := 0x64
def N_SOL : BitVec 8 := 0x84
def N_PSYM : BitVec 8 := 0xA0

def USTABDATA : Word := 0x200000#32

/-- `struct UserStabData`. -/
structure UserStabData where
  stabs : Word
  stabEnd : Word
  stabstr : Word
  stabstrEnd : Word

/-- `struct Eipdebuginfo`. A name is a pointer, or the text `"<unknown>"`. -/
structure Eipdebuginfo where
  eipFile : Option Word
  eipLine : Word
  eipFnName : Option Word
  eipFnNamelen : Word
  eipFnAddr : Word
  eipFnNarg : Word

namespace Debug

/-- A range that `user_mem_check` accepts, or a byte that is read. -/
inductive Event where
  | accept (va len : Word)
  | read (va : Word)

/-- The memory, and what has happened so far, the last event first. -/
structure Look where
  vm : Vm
  log : List Event

inductive LookStop where
  | kernel (e : Stop)
  /-- A search has not ended. -/
  | endless

abbrev LookM (α : Type) : Type := Prog Look LookStop α

/-- The page directory of `curenv`, the table of the kernel itself, and the
difference of two pointers to stabs, which C leaves open unless they are a
multiple of 12 bytes apart. -/
structure Setting where
  pgdir : Nat
  kern : UserStabData
  diff : Word → Word → Int

/-! ## Memory -/

def readByte (x : Setting) (va : Word) : LookM (BitVec 8) := do
  Prog.update fun s => { s with log := .read va :: s.log }
  let s ← Prog.ask
  match shownByte s.vm.mem (page2pa x.pgdir) va with
  | some b => pure b
  | none => Prog.halt (.kernel .kernelFault)

def readHalf (x : Setting) (va : Word) : LookM (BitVec 16) := do
  let b₀ ← readByte x va
  let b₁ ← readByte x (va + 1)
  pure (b₁ ++ b₀)

def readWord (x : Setting) (va : Word) : LookM Word := do
  let b₀ ← readByte x va
  let b₁ ← readByte x (va + 1)
  let b₂ ← readByte x (va + 2)
  let b₃ ← readByte x (va + 3)
  pure (b₃ ++ b₂ ++ b₁ ++ b₀)

/-- `user_mem_check(curenv, va, len, PTE_U) >= 0`. -/
def check (x : Setting) (va len : Word) : LookM Bool := do
  let r ← Prog.zoom Look.vm (fun v s => { s with vm := v })
    (Prog.mapStop .kernel (userMemCheck x.pgdir va len PTE_U))
  match r with
  | .ok () =>
      Prog.update fun s => { s with log := .accept va len :: s.log }
      pure true
  | .error _ => pure false

/-- `&stabs[i]`. -/
def stabAt (stabs : Word) (i : Int) : Word := stabs + 12 * BitVec.ofInt 32 i

def nType (x : Setting) (stabs : Word) (i : Int) : LookM (BitVec 8) :=
  readByte x (stabAt stabs i + 4)

def nValue (x : Setting) (stabs : Word) (i : Int) : LookM Word :=
  readWord x (stabAt stabs i + 8)

/-- The table at `stabs`, for `stab_binsearch`. -/
def reader (x : Setting) (stabs : Word) : StabReader Look LookStop :=
  ⟨nType x stabs, nValue x stabs⟩

/-! ## `debuginfo_eip` -/

/-- `*info` to begin with. -/
def unknownInfo (addr : Word) : Eipdebuginfo := ⟨none, 0, none, 9, addr, 0⟩

/-- The record of the user program. -/
def readUsd (x : Setting) : LookM UserStabData := do
  let stabs ← readWord x USTABDATA
  let stabEnd ← readWord x (USTABDATA + 4)
  let stabstr ← readWord x (USTABDATA + 8)
  let stabstrEnd ← readWord x (USTABDATA + 12)
  pure ⟨stabs, stabEnd, stabstr, stabstrEnd⟩

/-- The number of entries between the pointers of the record. -/
def Setting.entries (x : Setting) (usd : UserStabData) : Int :=
  x.diff usd.stabEnd usd.stabs

/-- The checks of what the record points at. -/
def checkUsd (x : Setting) (usd : UserStabData) :
    LookM (Option UserStabData) := do
  if ← check x usd.stabs (BitVec.ofInt 32 (x.entries usd)) then
    if ← check x usd.stabstr (usd.stabstrEnd - usd.stabstr) then
      pure (some usd)
    else
      pure none
  else
    pure none

/-- The relevant tables, if they may be read. -/
def findStabs (x : Setting) (addr : Word) : LookM (Option UserStabData) := do
  if ULIM ≤ addr then
    pure (some x.kern)
  else if ← check x USTABDATA 16 then
    let usd ← readUsd x
    checkUsd x usd
  else
    pure none

/-- The string that entry `i` names, if that is in the string table. -/
def nameOf (x : Setting) (usd : UserStabData) (i : Int) :
    LookM (Option Word) := do
  let strx ← readWord x (stabAt usd.stabs i)
  if strx < usd.stabstrEnd - usd.stabstr then
    pure (some (usd.stabstr + strx))
  else
    pure none

/-- `strfind(s, c)`; a string that never ends has no address to return. -/
def strfind (x : Setting) (c : BitVec 8) : Nat → Word → LookM Word
  | 0, _ => Prog.leave
  | n + 1, s => do
      let b ← readByte x s
      if b ≠ 0 then
        if b = c then
          pure s
        else
          strfind x c n (s + 1)
      else
        pure s

/-- The length of a function's name, up to the colon. -/
def nameLength (x : Setting) : Option Word → LookM Word
  | none => pure 9
  | some name => do
      let colon ← strfind x 0x3A (2 ^ 32) name
      pure (colon - name)

/-- Go back from entry `l` to the one for the source file, `n` steps at most. -/
def seekFile (x : Setting) (stabs : Word) (lfile : Int) : Nat → Int → LookM Int
  | 0, l => pure l
  | n + 1, l => do
      if lfile ≤ l then
        let type ← nType x stabs l
        if type = N_SOL then
          pure l
        else if type = N_SO then
          let v ← nValue x stabs l
          if v ≠ 0 then
            pure l
          else
            seekFile x stabs lfile n (l - 1)
        else
          seekFile x stabs lfile n (l - 1)
      else
        pure l

/-- Count the parameters from entry `l` on, `n` entries at most. -/
def countParams (x : Setting) (stabs : Word) (rfun : Int) :
    Nat → Int → Word → LookM Word
  | 0, _, narg => pure narg
  | n + 1, l, narg => do
      if l < rfun then
        let type ← nType x stabs l
        if type = N_PSYM then
          countParams x stabs rfun n (l + 1) (narg + 1)
        else
          pure narg
      else
        pure narg

/-- The source file of the line, if entry `l` is in the file `lfile`. -/
def fileOf (x : Setting) (usd : UserStabData) (lfile l : Int) :
    LookM (Option Word) :=
  if lfile ≤ l then nameOf x usd l else pure none

/-- The number of parameters, if there is a function. -/
def paramsOf (x : Setting) (stabs : Word) (lfun rfun : Int) : LookM Word :=
  if lfun < rfun then countParams x stabs rfun (rfun - lfun).toNat
    (lfun + 1) 0 else pure 0

/-- The part of `debuginfo_eip` that has found the line `lline`, in the function
`[lfun, rfun]`. -/
def finish (x : Setting) (usd : UserStabData) (lfile lfun rfun lline : Int)
    (info : Eipdebuginfo) :
    LookM (Word × Eipdebuginfo) := do
  let desc ← readHalf x (stabAt usd.stabs lline + 6)
  let l ← seekFile x usd.stabs lfile (lline - lfile + 1).toNat lline
  let file ← fileOf x usd lfile l
  let narg ← paramsOf x usd.stabs lfun rfun
  pure (0, { info with eipLine := desc.setWidth 32, eipFile := file, eipFnNarg := narg })

/-- The part that looks for the line in `[lline, rline]`. -/
def searchLine (x : Setting) (usd : UserStabData)
    (lfile lfun rfun lline rline : Int) (addr : Word)
    (info : Eipdebuginfo) : LookM (Word × Eipdebuginfo) := do
  let line ← (reader x usd.stabs).binsearch .endless lline rline N_SLINE addr
  if line.1 > line.2 then
    pure (-1, info)
  else
    finish x usd lfile lfun rfun line.1 info

/-- The part that looks for the function in the file `[lfile, rfile]`. -/
def searchFun (x : Setting) (usd : UserStabData) (lfile rfile : Int)
    (addr : Word) : LookM (Word × Eipdebuginfo) := do
  let fn ← (reader x usd.stabs).binsearch .endless lfile rfile N_FUN addr
  if fn.1 ≤ fn.2 then
    let name ← nameOf x usd fn.1
    let fnAddr ← nValue x usd.stabs fn.1
    let len ← nameLength x name
    searchLine x usd lfile fn.1 fn.2 fn.1 fn.2 (addr - fnAddr)
      { unknownInfo addr with eipFnName := name, eipFnNamelen := len, eipFnAddr := fnAddr }
  else
    searchLine x usd lfile fn.1 fn.2 lfile rfile addr (unknownInfo addr)

/-- The part that looks for the file in all of the table. -/
def searchFile (x : Setting) (usd : UserStabData) (addr : Word) :
    LookM (Word × Eipdebuginfo) := do
  let file ← (reader x usd.stabs).binsearch .endless 0
      (x.entries usd - 1) N_SO addr
  if file.1 = 0 then
    pure (-1, unknownInfo addr)
  else
    searchFun x usd file.1 file.2 addr

/-- The part with tables that may be read. -/
def searchStabs (x : Setting) (usd : UserStabData) (addr : Word) :
    LookM (Word × Eipdebuginfo) := do
  if usd.stabstrEnd ≤ usd.stabstr then
    pure (-1, unknownInfo addr)
  else
    let last ← readByte x (usd.stabstrEnd - 1)
    if last ≠ 0 then
      pure (-1, unknownInfo addr)
    else
      searchFile x usd addr

def debuginfoEip (x : Setting) (addr : Word) : LookM (Word × Eipdebuginfo) := do
  match ← findStabs x addr with
  | none => pure (-1, unknownInfo addr)
  | some usd => searchStabs x usd addr

/-! ## What is read -/

/-- A byte of the range. -/
def InRange (a va len : Word) : Prop := (a - va).toNat < len.toNat

/-- Each byte lies in a range that has been accepted before it is read. -/
def Checked : List Event → Prop
  | [] => True
  | .accept _ _ :: log => Checked log
  | .read a :: log => (∃ va len, .accept va len ∈ log ∧ InRange a va len) ∧
      Checked log

/-- `debuginfo_eip` reads nothing that has not been checked. -/
def ReadsChecked (x : Setting) (v : Vm) (addr : Word) : Prop :=
  Checked (debuginfoEip x addr ⟨v, []⟩).state.log

/-- `user_mem_check` accepts the range. -/
def Accepts (x : Setting) (v : Vm) (va len : Word) : Prop :=
  userMemCheck x.pgdir va len PTE_U v = .ret (.ok ()) v

/-- The word at `va`, if it can be read. -/
def wordAt (x : Setting) (v : Vm) (va : Word) : Option Word := do
  let b₀ ← shownByte v.mem (page2pa x.pgdir) va
  let b₁ ← shownByte v.mem (page2pa x.pgdir) (va + 1)
  let b₂ ← shownByte v.mem (page2pa x.pgdir) (va + 2)
  let b₃ ← shownByte v.mem (page2pa x.pgdir) (va + 3)
  some (b₃ ++ b₂ ++ b₁ ++ b₀)

/-- The record of the user program is `usd`. -/
structure HasUsd (x : Setting) (v : Vm) (usd : UserStabData) : Prop where
  stabs : wordAt x v USTABDATA = some usd.stabs
  stabEnd : wordAt x v (USTABDATA + 4) = some usd.stabEnd
  stabstr : wordAt x v (USTABDATA + 8) = some usd.stabstr
  stabstrEnd : wordAt x v (USTABDATA + 12) = some usd.stabstrEnd

/-- The record is `usd`, and nothing about it keeps its table from being
searched. -/
structure Searched (x : Setting) (v : Vm) (usd : UserStabData) :
    Prop extends HasUsd x v usd where
  record_ok : Accepts x v USTABDATA 16
  stabs_ok : Accepts x v usd.stabs (BitVec.ofInt 32 (x.entries usd))
  stabstr_ok : Accepts x v usd.stabstr (usd.stabstrEnd - usd.stabstr)
  nonempty : usd.stabstr < usd.stabstrEnd
  nul : shownByte v.mem (page2pa x.pgdir) (usd.stabstrEnd - 1) = some 0
  entry : 0 < x.entries usd

/-- A byte of the record or of the strings: their checks are right. -/
def InOther (usd : UserStabData) (a : Word) : Prop :=
  InRange a USTABDATA 16 ∨ InRange a usd.stabstr (usd.stabstrEnd - usd.stabstr)

/-- The record and the strings lie over all entries, and three more in front of
them. -/
def Covered (x : Setting) (usd : UserStabData) : Prop :=
  ∀ i, -3 ≤ i → i < x.entries usd → ∀ k < 12,
    InOther usd (stabAt usd.stabs i + BitVec.ofNat 32 k)

/-- The byte of the table that is read first. -/
def firstRead (x : Setting) (usd : UserStabData) : Word :=
  stabAt usd.stabs (mid 0 (x.entries usd - 1)) + 4

section

variable {x : Setting} {usd : UserStabData} {A : Word → Prop} {s s₀ t : Look}
  {va : Word} {stabs : Word}

/-- From `s` to `t` only bytes in `A` have been read, and no range has been
checked. -/
structure ReadsIn (A : Word → Prop) (s t : Look) : Prop where
  vm : t.vm = s.vm
  log : ∃ added, t.log = added ++ s.log ∧ ∀ ev ∈ added, ∃ va,
    ev = .read va ∧ A va

theorem ReadsIn.refl (s : Look) : ReadsIn A s s := ⟨rfl, [], rfl, nofun⟩

theorem ReadsIn.trans (s t u : Look) (hst : ReadsIn A s t)
    (htu : ReadsIn A t u) : ReadsIn A s u := by
  obtain ⟨hvm, l, hl, hin⟩ := hst
  obtain ⟨hvm', l', hl', hin'⟩ := htu
  refine ⟨hvm'.trans hvm, l' ++ l, by rw [hl', hl, List.append_assoc],
    fun ev hev => ?_⟩
  rcases List.mem_append.mp hev with hev | hev
  · exact hin' ev hev
  · exact hin ev hev

/-- What is read is checked if all of `A` has been accepted. -/
theorem ReadsIn.checked (hst : ReadsIn A s t) (hs : Checked s.log)
    (hA : ∀ a, A a → ∃ va len, .accept va len ∈ s.log ∧ InRange a va len) :
    Checked t.log := by
  obtain ⟨-, l, hl, hin⟩ := hst
  rw [hl]
  clear hl
  induction l with
  | nil => exact hs
  | cons ev l ih =>
      obtain ⟨a, rfl, ha⟩ := hin ev List.mem_cons_self
      obtain ⟨va, len, hacc, hrange⟩ := hA a ha
      exact ⟨⟨va, len, List.mem_append_right _ hacc, hrange⟩, ih fun ev hev =>
        hin ev (List.mem_cons_of_mem _ hev)⟩

theorem ReadsIn.one (hva : A va) :
    ReadsIn A s { s with log := .read va :: s.log } := by
  refine ⟨rfl, [.read va], rfl, fun ev hev =>
    ⟨va, List.mem_singleton.mp hev, hva⟩⟩

/-- A byte is read, or a fault is the end. -/
theorem wp_readByte (hva : A va) (hs : ReadsIn A s₀ s) :
    Prog.wp (readByte x va) (fun b t => ReadsIn A s₀ t ∧
      shownByte s₀.vm.mem (page2pa x.pgdir) va = some b)
      (fun _ => False) (fun _ t => ReadsIn A s₀ t ∧
        shownByte s₀.vm.mem (page2pa x.pgdir) va = none) s := by
  have hone := hs.trans _ _ _ (.one hva)
  refine Prog.wp_update_bind (Prog.wp_ask_bind ?_)
  simp only
  rw [← hs.vm]
  cases hb : shownByte s.vm.mem (page2pa x.pgdir) va with
  | none => exact Prog.wp_halt_intro ⟨hone, rfl⟩
  | some b => exact Prog.wp_pure_intro ⟨hone, rfl⟩

theorem readByte_keeps (hva : A va) :
    Prog.Keeps (ReadsIn A) (readByte x va) := fun s =>
  (Prog.wp_imp (wp_readByte hva (.refl s)) (fun _ _ h => h.1)
    (fun _ h => h.elim) fun _ _ h => h.1).state

theorem readHalf_keeps (hva : ∀ k < 2, A (va + BitVec.ofNat 32 k)) :
    Prog.Keeps (ReadsIn A) (readHalf x va) := by
  have h0 : A va := by simpa using hva 0 (by decide)
  exact .bind .trans (readByte_keeps h0) fun _ =>
    .bind .trans (readByte_keeps (hva 1 (by decide))) fun _ => .pure .refl _

theorem readWord_keeps (hva : ∀ k < 4, A (va + BitVec.ofNat 32 k)) :
    Prog.Keeps (ReadsIn A) (readWord x va) := by
  have h0 : A va := by simpa using hva 0 (by decide)
  exact .bind .trans (readByte_keeps h0) fun _ =>
    .bind .trans (readByte_keeps (hva 1 (by decide))) fun _ =>
    .bind .trans (readByte_keeps (hva 2 (by decide))) fun _ =>
      .bind .trans (readByte_keeps (hva 3 (by decide))) fun _ => .pure .refl _

/-- A word is read, or a fault is the end. -/
theorem wp_readWord (hva : ∀ k < 4, A (va + BitVec.ofNat 32 k))
    (hs : ReadsIn A s₀ s) :
    Prog.wp (readWord x va) (fun w t => ReadsIn A s₀ t ∧
      wordAt x s₀.vm va = some w)
      (fun _ => False) (fun _ t => ReadsIn A s₀ t ∧ wordAt x s₀.vm va =
        none) s := by
  have h0 : A va := by simpa using hva 0 (by decide)
  refine Prog.wp_bind_intro
    (Prog.wp_imp (wp_readByte h0 hs) (fun b₀ t₀ ⟨ht₀, hb₀⟩ => ?_) (fun _ h => h)
    fun _ _ h => ⟨h.1, by rw [wordAt, h.2]; rfl⟩)
  refine Prog.wp_bind_intro (Prog.wp_imp (wp_readByte (hva 1 (by decide)) ht₀)
    (fun b₁ t₁ ⟨ht₁, hb₁⟩ => ?_)
    (fun _ h => h) fun _ _ h => ⟨h.1, by rw [wordAt, hb₀, h.2]; rfl⟩)
  refine Prog.wp_bind_intro (Prog.wp_imp (wp_readByte (hva 2 (by decide)) ht₁)
    (fun b₂ t₂ ⟨ht₂, hb₂⟩ => ?_)
    (fun _ h => h) fun _ _ h => ⟨h.1, by rw [wordAt, hb₀, hb₁, h.2]; rfl⟩)
  refine Prog.wp_bind_intro (Prog.wp_imp (wp_readByte (hva 3 (by decide)) ht₂)
    (fun b₃ t₃ ⟨ht₃, hb₃⟩ => ?_)
    (fun _ h => h) fun _ _ h => ⟨h.1, by rw [wordAt, hb₀, hb₁, hb₂, h.2]; rfl⟩)
  exact Prog.wp_pure_intro ⟨ht₃, by rw [wordAt, hb₀, hb₁, hb₂, hb₃]; rfl⟩

end

/-! ## Which entries are searched -/

/-- Looking at entries from `lo` up to `hi` keeps `R`. -/
structure Within {σ ε : Type} (stabs : StabReader σ ε) (R : σ → σ → Prop)
    (lo hi : Int) : Prop where
  refl : ∀ s, R s s
  trans : ∀ s t u, R s t → R t u → R s u
  nType : ∀ i, lo ≤ i → i < hi → Prog.Keeps R (stabs.nType i)
  nValue : ∀ i, lo ≤ i → i < hi → Prog.Keeps R (stabs.nValue i)

/-- A search in `[left, right]`: `r` and `*region_right` are the same, and do
not go far below `left`. -/
structure Bounded (left right : Int) (s : Search) : Prop where
  l_ge : left ≤ s.l
  r_eq : s.r = s.regionRight
  r_le : s.r ≤ right
  left_ge : left ≤ s.regionLeft
  any : s.anyMatches = true → left - 1 ≤ s.r
  none : s.anyMatches = false → s.regionLeft = left

theorem mid_between {l r : Int} (h : l ≤ r) : l ≤ mid l r ∧ mid l r ≤ r := by
  rcases le_or_gt 0 (l + r) with hpos | hneg
  · rw [mid, Int.tdiv_eq_ediv_of_nonneg hpos]
    omega
  · have hmid : mid l r = -(-(l + r) / 2) := by
      rw [← Int.tdiv_eq_ediv_of_nonneg (by omega), Int.neg_tdiv, neg_neg, mid]
    omega

section

variable {σ ε : Type} {stabs : StabReader σ ε} {R : σ → σ → Prop}
  {lo hi left right : Int} {type : BitVec 8} {s s₀ : σ}
  {e : ε}

theorem Within.wp_seekType (h : Within stabs R lo hi) {n : Nat} {m : Int}
    (hlo : lo ≤ m - n + 1) (hhi : m < hi)
    (hs : R s₀ s) :
    Prog.wp (stabs.seekType type n m) (fun j t => R s₀ t ∧ m - n ≤ j ∧ j ≤ m)
      (R s₀) (fun _ => R s₀) s := by
  induction n generalizing m s with
  | zero => exact Prog.wp_pure_intro ⟨hs, by omega, le_rfl⟩
  | succ n ih =>
      refine Prog.wp_bind_intro ((h.nType m (by omega) hhi).wp
        (fun b t ht => ?_) (fun t ht => h.trans _ _ _ hs ht)
        fun _ t ht => h.trans _ _ _ hs ht)
      have hst := h.trans _ _ _ hs ht
      refine Prog.wp_ite _ (fun _ => ?_) fun _ =>
        Prog.wp_pure_intro ⟨hst, by omega, le_rfl⟩
      refine Prog.wp_imp (ih (by omega) (by omega) hst)
        (fun j u hj => ⟨hj.1, ?_, ?_⟩) (fun _ h => h) fun _ _ h => h
      · have := hj.2.1
        omega
      · have := hj.2.2
        omega

theorem Within.wp_probe (h : Within stabs R lo hi) (hlo : lo ≤ left)
    (hhi : right < hi) {x : Search}
    (hx : Bounded left right x) (hlr : x.l ≤ x.r) (hs : R s₀ s) :
    Prog.wp (stabs.probe type x) (fun y t => R s₀ t ∧ Bounded left right y)
      (R s₀) (fun _ => R s₀) s := by
  obtain ⟨hl, hr, hrr, hleft, hany, hnone⟩ := hx
  have hmid := mid_between hlr
  refine Prog.wp_bind_intro (Prog.wp_imp
    (h.wp_seekType (m := mid x.l x.r) (n := (mid x.l x.r - x.l + 1).toNat)
    (by omega) (by omega) hs) (fun m t hm => ?_) (fun _ h => h) fun _ _ h => h)
  obtain ⟨ht, hge, hle⟩ := hm
  refine Prog.wp_ite _ (fun _ => ?_) fun hlm => ?_
  · refine Prog.wp_pure_intro ⟨ht, ?_, hr, hrr, hleft, hany, hnone⟩
    change left ≤ mid x.l x.r + 1
    omega
  refine Prog.wp_bind_intro ((h.nValue m (by omega) (by omega)).wp
    (fun v u hu => ?_) (fun u hu => h.trans _ _ _ ht hu)
    fun _ u hu => h.trans _ _ _ ht hu)
  have hsu := h.trans _ _ _ ht hu
  refine Prog.wp_ite _ (fun _ => ?_) fun _ =>
    Prog.wp_ite _ (fun _ => ?_) fun _ => ?_ <;>
    refine Prog.wp_pure_intro ⟨hsu, ?_⟩
  · refine ⟨?_, hr, hrr, by simp only; omega,
      fun _ => by simp only; omega, nofun⟩
    change left ≤ mid x.l x.r + 1
    omega
  · exact ⟨hl, rfl, by simp only; omega, hleft,
      fun _ => by simp only; omega, nofun⟩
  · exact ⟨by simp only; omega, hr, hrr, by simp only; omega,
      fun _ => by simp only; omega, nofun⟩

theorem Within.wp_loop (h : Within stabs R lo hi) (hlo : lo ≤ left)
    (hhi : right < hi) {n : Nat} {x : Search}
    (hx : Bounded left right x) (hs : R s₀ s) :
    Prog.wp (stabs.loop e type n x) (fun y t => R s₀ t ∧ Bounded left right y)
      (R s₀) (fun _ => R s₀) s := by
  induction n generalizing x s with
  | zero => exact Prog.wp_halt_intro hs
  | succ n ih =>
      refine Prog.wp_ite _ (fun hlr => ?_) fun _ => Prog.wp_pure_intro ⟨hs, hx⟩
      exact Prog.wp_bind_intro (Prog.wp_imp (h.wp_probe hlo hhi hx hlr hs)
        (fun y t hy => ih hy.2 hy.1) (fun _ h => h)
        fun _ _ h => h)

/-- A search looks at entries of the region, and its result is not far from
there. -/
theorem Within.wp_binsearch (h : Within stabs R lo hi) (hlo : lo ≤ left)
    (hhi : right < hi) {addr : Word} (hs : R s₀ s) :
    Prog.wp (stabs.binsearch e left right type addr)
      (fun y t => R s₀ t ∧ left - 1 ≤ y.1 ∧ (y.1 ≤ y.2 → y.2 ≤ right) ∧
        (y.1 ≤ y.2 ∨ y.1 = left))
      (R s₀) (fun _ => R s₀) s := by
  have hstart : Bounded left right ⟨left, right, false, left, right, addr⟩ :=
    ⟨le_rfl, rfl, le_rfl, le_rfl, nofun, fun _ => rfl⟩
  refine Prog.wp_bind_intro (Prog.wp_imp (h.wp_loop hlo hhi hstart hs)
    (fun y t hy => ?_) (fun _ h => h) fun _ _ h => h)
  obtain ⟨ht, hl, hr, hrr, hleft, hany, hnone⟩ := hy
  refine Prog.wp_ite _ (fun hmatch => ?_) fun hmatch => ?_
  · have heq := hnone (by simpa using hmatch)
    refine Prog.wp_pure_intro ⟨ht, ?_, fun hle => ?_, .inr heq⟩
    · simp only
      omega
    · simp only at hle
      omega
  · have hge := hany (by simpa using hmatch)
    refine Prog.wp_bind_intro (Prog.wp_imp (h.wp_seekType (m := y.regionRight)
      (n := (y.regionRight - y.regionLeft).toNat) (by omega) (by omega) ht)
      (fun j u hj => ?_) (fun _ h => h)
      fun _ _ h => h)
    obtain ⟨hu, hjge, hjle⟩ := hj
    refine Prog.wp_pure_intro ⟨hu, ?_, fun _ => ?_, .inl hjle⟩
      <;> simp only <;> omega

end

/-! ## Reading what is allowed -/

section

variable {x : Setting} {usd : UserStabData} {A : Word → Prop} {s s₀ t : Look}
  {va : Word} {stabs : Word}

/-- All bytes of the entries from `lo` up to `hi` are in `A`. -/
def TableIn (A : Word → Prop) (stabs : Word) (lo hi : Int) : Prop :=
  ∀ i, lo ≤ i → i < hi → ∀ k < 12, A (stabAt stabs i + BitVec.ofNat 32 k)

theorem TableIn.field {lo hi i : Int} {n k : Nat} (h : TableIn A stabs lo hi)
    (hlo : lo ≤ i) (hhi : i < hi)
    (hn : k + n ≤ 12) : ∀ j < n,
    A (stabAt stabs i + BitVec.ofNat 32 k + BitVec.ofNat 32 j) := fun j hj => by
  rw [add_assoc, ← BitVec.ofNat_add]
  exact h i hlo hhi (k + j) (by omega)

theorem TableIn.within {lo hi : Int} (h : TableIn A stabs lo hi) :
    Within (reader x stabs) (ReadsIn A) lo hi where
  refl := .refl
  trans := .trans
  nType i hlo hhi := readByte_keeps (h i hlo hhi 4 (by decide))
  nValue i hlo hhi :=
    readWord_keeps (h.field (n := 4) (k := 8) hlo hhi (by decide))

theorem wp_seekFile {lo hi lfile l : Int} {n : Nat} (hT : TableIn A stabs lo hi)
    (hlo : lo ≤ lfile) (hhi : l < hi)
    (hs : ReadsIn A s₀ s) :
    Prog.wp (seekFile x stabs lfile n l) (fun j t => ReadsIn A s₀ t ∧ j ≤ l)
      (ReadsIn A s₀) (fun _ => ReadsIn A s₀) s := by
  have hW : Within (reader x stabs) (ReadsIn A) lo hi := hT.within
  induction n generalizing l s with
  | zero => exact Prog.wp_pure_intro ⟨hs, le_rfl⟩
  | succ n ih =>
      refine Prog.wp_ite _ (fun hl => ?_) fun _ =>
        Prog.wp_pure_intro ⟨hs, le_rfl⟩
      have hnext : ∀ {t}, ReadsIn A s₀ t → Prog.wp
          (seekFile x stabs lfile n (l - 1)) (fun j t => ReadsIn A s₀ t ∧ j ≤ l)
          (ReadsIn A s₀) (fun _ => ReadsIn A s₀) t := fun ht =>
        Prog.wp_imp (ih (by omega) ht) (fun j u hj =>
          ⟨hj.1, by have := hj.2; omega⟩) (fun _ h => h) fun _ _ h => h
      refine Prog.wp_bind_intro ((hW.nType l (by omega) hhi).wp
        (fun b t ht => ?_) (fun t ht => hs.trans _ _ _ ht)
        fun _ t ht => hs.trans _ _ _ ht)
      have hst := hs.trans _ _ _ ht
      refine Prog.wp_ite _ (fun _ => Prog.wp_pure_intro ⟨hst, le_rfl⟩) fun _ =>
        Prog.wp_ite _ (fun _ => ?_) fun _ => hnext hst
      refine Prog.wp_bind_intro ((hW.nValue l (by omega) hhi).wp
        (fun v u hu => ?_) (fun u hu => hst.trans _ _ _ hu)
        fun _ u hu => hst.trans _ _ _ hu)
      have hsu := hst.trans _ _ _ hu
      exact Prog.wp_ite _ (fun _ => Prog.wp_pure_intro ⟨hsu, le_rfl⟩)
        fun _ => hnext hsu

theorem countParams_keeps {lo hi rfun l : Int} {n : Nat} {narg : Word}
    (hT : TableIn A stabs lo hi) (hlo : lo ≤ l)
    (hhi : rfun ≤ hi) :
    Prog.Keeps (ReadsIn A) (countParams x stabs rfun n l narg) := by
  have hW : Within (reader x stabs) (ReadsIn A) lo hi := hT.within
  induction n generalizing l narg with
  | zero => exact .pure .refl _
  | succ n ih =>
      by_cases hl : l < rfun
      · rw [countParams, if_pos hl]
        exact .bind .trans (hW.nType l hlo (by omega)) fun _ =>
          .ite (ih (by omega)) (.pure .refl _)
      · rw [countParams, if_neg hl]
        exact .pure .refl _

/-- The strings may be read, and the last one ends. -/
structure StringsIn (A : Word → Prop) (x : Setting) (v : Vm)
    (usd : UserStabData) : Prop where
  range : ∀ a, InRange a usd.stabstr (usd.stabstrEnd - usd.stabstr) → A a
  nul : shownByte v.mem (page2pa x.pgdir) (usd.stabstrEnd - 1) = some 0

theorem wp_strfind {c : BitVec 8} {n : Nat} (hstr : StringsIn A x s₀.vm usd)
    (hva : InRange va usd.stabstr (usd.stabstrEnd - usd.stabstr))
    (hs : ReadsIn A s₀ s) :
    Prog.wp (strfind x c n va) (fun _ => ReadsIn A s₀) (ReadsIn A s₀)
      (fun _ => ReadsIn A s₀) s := by
  induction n generalizing va s with
  | zero => exact Prog.wp_away rfl hs
  | succ n ih =>
      refine Prog.wp_bind_intro (Prog.wp_imp
        (wp_readByte (hstr.range va hva) hs) (fun b t ⟨ht, hb⟩ => ?_)
        (fun _ h => h.elim) fun _ _ h => h.1)
      refine Prog.wp_ite _ (fun hne =>
        Prog.wp_ite _ (fun _ => Prog.wp_pure_intro ht) fun _ => ?_) fun _ =>
        Prog.wp_pure_intro ht
      refine ih ?_ ht
      have hlast : va ≠ usd.stabstrEnd - 1 := by
        rintro rfl
        rw [hstr.nul] at hb
        cases hb
        exact hne rfl
      unfold InRange at hva ⊢
      bv_omega

theorem wp_nameOf {lo hi i : Int} (hT : TableIn A usd.stabs lo hi)
    (hlo : lo ≤ i) (hhi : i < hi) (hs : ReadsIn A s₀ s) :
    Prog.wp (nameOf x usd i)
      (fun o t => ReadsIn A s₀ t ∧ ∀ va ∈ o,
        InRange va usd.stabstr (usd.stabstrEnd - usd.stabstr))
      (ReadsIn A s₀) (fun _ => ReadsIn A s₀) s := by
  have hread : Prog.Keeps (ReadsIn A) (readWord x (stabAt usd.stabs i)) :=
    fun s => by
    refine (Prog.wp_imp (wp_readWord (fun k hk => ?_) (.refl s))
      (fun _ _ h => h.1) (fun _ h => h.elim)
      fun _ _ h => h.1).state
    exact hT i hlo hhi k (by omega)
  refine Prog.wp_bind_intro (hread.wp (fun strx t ht => ?_)
    (fun t ht => hs.trans _ _ _ ht) fun _ t ht => hs.trans _ _ _ ht)
  have hst := hs.trans _ _ _ ht
  refine Prog.wp_ite _ (fun hlt => Prog.wp_pure_intro ⟨hst, fun va hva => ?_⟩)
    fun _ => Prog.wp_pure_intro ⟨hst, nofun⟩
  rw [← Option.some.inj hva, InRange, add_sub_cancel_left]
  exact hlt

theorem wp_nameLength {o : Option Word} (hstr : StringsIn A x s₀.vm usd)
    (ho : ∀ va ∈ o, InRange va usd.stabstr (usd.stabstrEnd - usd.stabstr))
    (hs : ReadsIn A s₀ s) :
    Prog.wp (nameLength x o) (fun _ => ReadsIn A s₀) (ReadsIn A s₀)
      (fun _ => ReadsIn A s₀) s := by
  cases o with
  | none => exact Prog.wp_pure_intro hs
  | some name =>
      exact Prog.wp_bind_intro (Prog.wp_imp (wp_strfind hstr (ho name rfl) hs)
        (fun _ _ ht => Prog.wp_pure_intro ht)
        (fun _ h => h) fun _ _ h => h)

theorem wp_finish {hi lfile lfun rfun lline : Int} {info : Eipdebuginfo}
    (hT : TableIn A usd.stabs (-3) hi)
    (hfile : -1 ≤ lfile) (hfun : -2 ≤ lfun) (hrfun : lfun ≤ rfun → rfun < hi)
    (hline : -3 ≤ lline) (hhi : lline < hi)
    (hs : ReadsIn A s₀ s) :
    Prog.wp (finish x usd lfile lfun rfun lline info) (fun _ => ReadsIn A s₀)
      (ReadsIn A s₀) (fun _ => ReadsIn A s₀) s := by
  have hdesc :
      Prog.Keeps (ReadsIn A) (readHalf x (stabAt usd.stabs lline + 6)) :=
    readHalf_keeps (hT.field (n := 2) (k := 6) hline hhi (by decide))
  refine Prog.wp_bind_intro (hdesc.wp (fun _ t ht => ?_)
    (fun t ht => hs.trans _ _ _ ht) fun _ t ht => hs.trans _ _ _ ht)
  refine Prog.wp_bind_intro (Prog.wp_imp
    (wp_seekFile hT (by omega) hhi (hs.trans _ _ _ ht)) (fun l u ⟨hu, hl⟩ => ?_)
    (fun _ h => h) fun _ _ h => h)
  have hname : Prog.wp (fileOf x usd lfile l) (fun _ => ReadsIn A s₀)
      (ReadsIn A s₀)
      (fun _ => ReadsIn A s₀) u :=
    Prog.wp_ite _ (fun hle => Prog.wp_imp
      (wp_nameOf hT (by omega) (by omega) hu) (fun _ _ h => h.1) (fun _ h => h)
      fun _ _ h => h) fun _ => Prog.wp_pure_intro hu
  refine Prog.wp_bind_intro
    (Prog.wp_imp hname (fun _ w hw => ?_) (fun _ h => h) fun _ _ h => h)
  have hcount : Prog.wp (paramsOf x usd.stabs lfun rfun)
      (fun _ => ReadsIn A s₀) (ReadsIn A s₀) (fun _ => ReadsIn A s₀) w :=
    Prog.wp_ite _ (fun hlt => (countParams_keeps hT (by omega) (by omega)).wp
      (fun _ _ h => hw.trans _ _ _ h)
      (fun _ h => hw.trans _ _ _ h) fun _ _ h => hw.trans _ _ _ h) fun _ =>
      Prog.wp_pure_intro hw
  exact Prog.wp_bind_intro (Prog.wp_imp hcount
    (fun _ _ h => Prog.wp_pure_intro h) (fun _ h => h) fun _ _ h => h)

theorem wp_searchLine {hi lfile lfun rfun lline rline : Int} {addr : Word}
    {info : Eipdebuginfo}
    (hT : TableIn A usd.stabs (-3) hi) (hfile : -1 ≤ lfile) (hfun : -2 ≤ lfun)
    (hrfun : lfun ≤ rfun → rfun < hi)
    (hline : -2 ≤ lline) (hhi : rline < hi) (hs : ReadsIn A s₀ s) :
    Prog.wp (searchLine x usd lfile lfun rfun lline rline addr info)
      (fun _ => ReadsIn A s₀) (ReadsIn A s₀)
      (fun _ => ReadsIn A s₀) s := by
  have hW : Within (reader x usd.stabs) (ReadsIn A) (-3) hi := hT.within
  refine Prog.wp_bind_intro (Prog.wp_imp (hW.wp_binsearch (by omega) hhi hs)
    (fun line t ⟨ht, hge, hle, _⟩ => ?_)
    (fun _ h => h) fun _ _ h => h)
  refine Prog.wp_ite _ (fun _ => Prog.wp_pure_intro ht) fun hno => ?_
  exact wp_finish hT hfile hfun hrfun (by omega) (by omega) ht

theorem wp_searchFun {hi lfile rfile : Int} {addr : Word}
    (hT : TableIn A usd.stabs (-3) hi)
    (hstr : StringsIn A x s₀.vm usd) (hfile : -1 ≤ lfile) (hhi : rfile < hi)
    (hs : ReadsIn A s₀ s) :
    Prog.wp (searchFun x usd lfile rfile addr) (fun _ => ReadsIn A s₀)
      (ReadsIn A s₀) (fun _ => ReadsIn A s₀) s := by
  have hW : Within (reader x usd.stabs) (ReadsIn A) (-3) hi := hT.within
  refine Prog.wp_bind_intro (Prog.wp_imp (hW.wp_binsearch (by omega) hhi hs)
    (fun fn t ⟨ht, hge, hle, _⟩ => ?_)
    (fun _ h => h) fun _ _ h => h)
  refine Prog.wp_ite _ (fun hfn => ?_) fun hno => ?_
  · refine Prog.wp_bind_intro (Prog.wp_imp (wp_nameOf hT (by omega)
      (by omega) ht) (fun o u ⟨hu, ho⟩ => ?_) (fun _ h => h)
      fun _ _ h => h)
    refine Prog.wp_bind_intro
      ((hW.nValue fn.1 (by omega) (by omega)).wp (fun _ w hw => ?_)
      (fun w hw => hu.trans _ _ _ hw) fun _ w hw => hu.trans _ _ _ hw)
    refine Prog.wp_bind_intro (Prog.wp_imp (wp_nameLength hstr ho
      (hu.trans _ _ _ hw)) (fun _ y hy => ?_) (fun _ h => h)
      fun _ _ h => h)
    exact wp_searchLine hT hfile (by omega) (fun h => by omega) (by omega)
      (by omega) hy
  · exact wp_searchLine hT hfile (by omega) (fun h => absurd h hno) (by omega) hhi ht

/-- In a table without entries nothing is found, and nothing is looked at. -/
theorem binsearch_empty {left right : Int} {type : BitVec 8} {addr : Word}
    (h : right < left) :
    (reader x stabs).binsearch .endless left right type addr s =
      .ret (left, left - 1) s := by
  rw [StabReader.binsearch,
    Prog.bind_ret (a := ⟨left, right, false, left, right, addr⟩) (t := s)]
  · rfl
  · rw [StabReader.loop, if_neg (not_le.mpr h)]
    rfl

/-- With strings and a table that may be read, nothing else is. -/
theorem wp_searchStabs {addr : Word} (hs : ReadsIn A s₀ s)
    (hrange : ∀ a, InRange a usd.stabstr (usd.stabstrEnd - usd.stabstr) → A a)
    (hT : usd.stabstr < usd.stabstrEnd →
      shownByte s₀.vm.mem (page2pa x.pgdir) (usd.stabstrEnd - 1) = some 0 →
      0 < x.entries usd → TableIn A usd.stabs (-3) (x.entries usd)) :
    Prog.wp (searchStabs x usd addr) (fun _ => ReadsIn A s₀) (ReadsIn A s₀)
      (fun _ => ReadsIn A s₀) s := by
  refine Prog.wp_ite _ (fun _ => Prog.wp_pure_intro hs) fun hlt => ?_
  have hlt : usd.stabstr < usd.stabstrEnd := BitVec.not_le.mp hlt
  have hlast : InRange (usd.stabstrEnd - 1) usd.stabstr
      (usd.stabstrEnd - usd.stabstr) := by
    unfold InRange
    bv_omega
  refine Prog.wp_bind_intro (Prog.wp_imp (wp_readByte (hrange _ hlast) hs)
    (fun b t ⟨ht, hb⟩ => ?_) (fun _ h => h.elim)
    fun _ _ h => h.1)
  refine Prog.wp_ite _ (fun _ => Prog.wp_pure_intro ht) fun hnul => ?_
  obtain rfl := not_not.mp hnul
  by_cases hpos : 0 < x.entries usd
  · have htab := hT hlt hb hpos
    have hW : Within (reader x usd.stabs) (ReadsIn A) (-3) (x.entries usd) :=
      htab.within
    refine Prog.wp_bind_intro
      (Prog.wp_imp (hW.wp_binsearch (by omega) (by omega) ht)
      (fun file u ⟨hu, hge, hle, hor⟩ => ?_) (fun _ h => h) fun _ _ h => h)
    refine Prog.wp_ite _ (fun _ => Prog.wp_pure_intro hu) fun hne => ?_
    exact wp_searchFun htab ⟨hrange, hb⟩ (by omega) (by omega) hu
  · refine Prog.wp_bind_intro (Prog.wp_ret (binsearch_empty (by omega)) ?_)
    exact Prog.wp_ite _ (fun _ => Prog.wp_pure_intro ht) fun hne =>
      absurd rfl hne

/-! ## What is checked -/

theorem check_ret {len : Word} (h : Accepts x s.vm va len) :
    check x va len s = .ret true { s with log := .accept va len :: s.log } := by
  have hzoom :
      (Prog.zoom Look.vm (fun v s => { s with vm := v }) (Prog.mapStop .kernel
      (userMemCheck x.pgdir va len PTE_U)) : LookM _) s = .ret (.ok ()) s := by
    rw [Prog.zoom_apply, Prog.mapStop, h]
  rw [check, Prog.bind_ret hzoom]
  rfl

/-- A range is accepted, or nothing happens. -/
theorem wp_check {len : Word} :
    Prog.wp (check x va len)
      (fun b t => (b = true → Accepts x s.vm va len ∧
        t = { s with log := .accept va len :: s.log }) ∧ (b = false → t = s))
      (fun _ => False) (fun _ t => t = s) s := by
  rcases (userMemCheck_reads x.pgdir va len PTE_U).cases s.vm with
    ⟨r, hr⟩ | ⟨e, -, he⟩
  · cases r with
    | ok u => exact Prog.wp_ret (check_ret hr) ⟨fun _ => ⟨hr, rfl⟩, nofun⟩
    | error a =>
        refine Prog.wp_ret (b := false) (t := s) ?_ ⟨nofun, fun _ => rfl⟩
        rw [check, Prog.bind_apply, Prog.zoom_apply, Prog.mapStop, hr]
        rfl
  · refine Prog.wp_stop (e := .kernel e) (t := s) ?_ rfl
    rw [check, Prog.bind_apply, Prog.zoom_apply, Prog.mapStop, he]

/-- All of the record has been read, or a fault is the end. -/
theorem wp_readUsd (hA : ∀ a, InRange a USTABDATA 16 → A a)
    (hs : ReadsIn A s₀ s) :
    Prog.wp (readUsd x) (fun usd t => ReadsIn A s₀ t ∧ HasUsd x s₀.vm usd)
      (fun _ => False)
      (fun _ t => ReadsIn A s₀ t ∧ ∀ usd, ¬HasUsd x s₀.vm usd) s := by
  have hin : ∀ n k : Nat, n ≤ 12 → k < 4 →
      A (USTABDATA + BitVec.ofNat 32 n + BitVec.ofNat 32 k) :=
    fun n k hn hk => by
    refine hA _ ?_
    rw [InRange, add_assoc, add_sub_cancel_left, ← BitVec.ofNat_add,
      BitVec.toNat_ofNat, show (16 : Word).toNat = 16 from rfl]
    omega
  have hno : ∀ {w : Word} {o : Option Word}, o = some w → o ≠ none :=
    fun h => by simp [h]
  refine Prog.wp_bind_intro (Prog.wp_imp
    (wp_readWord (fun k hk => by simpa using hin 0 k (by decide) hk) hs)
    (fun w₀ t₀ ⟨ht₀, h₀⟩ => ?_) (fun _ h => h) fun _ _ h =>
    ⟨h.1, fun usd hu => hno hu.stabs h.2⟩)
  refine Prog.wp_bind_intro
    (Prog.wp_imp (wp_readWord (fun k hk => hin 4 k (by decide) hk) ht₀)
    (fun w₁ t₁ ⟨ht₁, h₁⟩ => ?_) (fun _ h => h) fun _ _ h =>
    ⟨h.1, fun usd hu => hno hu.stabEnd h.2⟩)
  refine Prog.wp_bind_intro
    (Prog.wp_imp (wp_readWord (fun k hk => hin 8 k (by decide) hk) ht₁)
    (fun w₂ t₂ ⟨ht₂, h₂⟩ => ?_) (fun _ h => h) fun _ _ h =>
    ⟨h.1, fun usd hu => hno hu.stabstr h.2⟩)
  refine Prog.wp_bind_intro
    (Prog.wp_imp (wp_readWord (fun k hk => hin 12 k (by decide) hk) ht₂)
    (fun w₃ t₃ ⟨ht₃, h₃⟩ => ?_) (fun _ h => h) fun _ _ h =>
    ⟨h.1, fun usd hu => hno hu.stabstrEnd h.2⟩)
  exact Prog.wp_pure_intro ⟨ht₃, h₀, h₁, h₂, h₃⟩

theorem HasUsd.unique {v : Vm} {usd usd' : UserStabData} (h : HasUsd x v usd)
    (h' : HasUsd x v usd') : usd = usd' := by
  obtain ⟨h1, h2, h3, h4⟩ := h
  obtain ⟨h1', h2', h3', h4'⟩ := h'
  cases usd
  cases usd'
  cases h1.symm.trans h1'
  cases h2.symm.trans h2'
  cases h3.symm.trans h3'
  cases h4.symm.trans h4'
  rfl

/-- The three checks have accepted what they were asked about, and since then
nothing has been read. -/
structure Ready (x : Setting) (v : Vm) (usd : UserStabData) (t : Look) :
    Prop extends HasUsd x v usd where
  vm : t.vm = v
  record_ok : Accepts x v USTABDATA 16
  stabs_ok : Accepts x v usd.stabs (BitVec.ofInt 32 (x.entries usd))
  stabstr_ok : Accepts x v usd.stabstr (usd.stabstrEnd - usd.stabstr)
  log : ∃ l, t.log = .accept usd.stabstr (usd.stabstrEnd - usd.stabstr) ::
    .accept usd.stabs (BitVec.ofInt 32 (x.entries usd)) ::
      (l ++ [.accept USTABDATA 16]) ∧
      ∀ ev ∈ l, ∃ va, ev = .read va ∧ InRange va USTABDATA 16

/-- Only the record is read before the tables have been checked. -/
theorem wp_findStabs {v : Vm} {addr : Word} (haddr : addr < ULIM) :
    Prog.wp (findStabs x addr) (fun o t => Checked t.log ∧ ∀ usd ∈ o,
      Ready x v usd t) (fun _ => False)
      (fun _ t => Checked t.log) ⟨v, []⟩ := by
  rw [findStabs, if_neg (BitVec.not_le.mpr haddr)]
  refine Prog.wp_bind_intro (Prog.wp_imp wp_check (fun b s₁ ⟨hyes, hno⟩ => ?_)
    (fun _ h => h) fun _ t h => ?_)
  case refine_2 =>
    rw [h]
    trivial
  refine Prog.wp_ite _ (fun hb => ?_) fun hb => ?_
  case refine_2 =>
    rw [hno (by simpa using hb)]
    exact Prog.wp_pure_intro ⟨trivial, nofun⟩
  obtain ⟨hrec, rfl⟩ := hyes hb
  have hchecked : ∀ {t}, ReadsIn (InRange · USTABDATA 16)
      ⟨v, [.accept USTABDATA 16]⟩ t → Checked t.log := fun ht =>
    ht.checked trivial fun a ha => ⟨_, _, List.mem_singleton.mpr rfl, ha⟩
  refine Prog.wp_bind_intro (Prog.wp_imp (wp_readUsd (fun _ h => h) (.refl _))
    (fun usd s₂ ⟨hs₂, husd⟩ => ?_)
    (fun _ h => h) fun _ t ht => hchecked ht.1)
  obtain ⟨hvm, l, hl, hin⟩ := id hs₂
  have hlog : Checked s₂.log := hchecked hs₂
  refine Prog.wp_bind_intro (Prog.wp_imp wp_check (fun b s₃ ⟨hyes, hno⟩ => ?_)
    (fun _ h => h) fun _ t h => ?_)
  case refine_2 =>
    rw [h]
    exact hlog
  refine Prog.wp_ite _ (fun hb => ?_) fun hb => ?_
  case refine_2 =>
    rw [hno (by simpa using hb)]
    exact Prog.wp_pure_intro ⟨hlog, nofun⟩
  obtain ⟨hstabs, rfl⟩ := hyes hb
  refine Prog.wp_bind_intro (Prog.wp_imp wp_check (fun b s₄ ⟨hyes, hno⟩ => ?_)
    (fun _ h => h) fun _ t h => ?_)
  case refine_2 =>
    rw [h]
    exact hlog
  refine Prog.wp_ite _ (fun hb => ?_) fun hb => ?_
  case refine_2 =>
    rw [hno (by simpa using hb)]
    exact Prog.wp_pure_intro ⟨hlog, nofun⟩
  obtain ⟨hstr, rfl⟩ := hyes hb
  refine Prog.wp_pure_intro ⟨hlog, fun usd' heq => ?_⟩
  obtain rfl := Option.some.inj heq
  rw [hvm] at hstabs
  simp only [hvm] at hstr
  exact ⟨husd, hvm, hrec, hstabs, hstr, l, by rw [hl], hin⟩

/-- All that is read is checked if the record and the strings lie over the table
that is searched. -/
theorem readsChecked_of_covered {v : Vm} {addr : Word} (haddr : addr < ULIM)
    (hcov : ∀ usd, Searched x v usd → Covered x usd) :
    ReadsChecked x v addr := by
  refine Prog.wp.state (P := fun t : Look => Checked t.log) ?_
  refine Prog.wp_bind_intro (Prog.wp_imp (wp_findStabs haddr)
    (fun o s ⟨hs, ho⟩ => ?_) (fun _ h => h.elim) fun _ _ h => h)
  cases o with
  | none => exact Prog.wp_pure_intro hs
  | some usd =>
      have hready := ho usd rfl
      obtain ⟨l, hl, -⟩ := hready.log
      have hrec : .accept USTABDATA 16 ∈ s.log := by simp [hl]
      have hstr : .accept usd.stabstr (usd.stabstrEnd - usd.stabstr) ∈
          s.log := by simp [hl]
      have hin : ∀ {t : Look}, ReadsIn (fun a => ∃ va len,
          .accept va len ∈ s.log ∧ InRange a va len) s t → Checked t.log :=
        fun ht => ht.checked hs fun _ h => h
      refine Prog.wp_imp (wp_searchStabs (.refl s)
        (fun a ha => ⟨_, _, hstr, ha⟩) fun hlt hnul hpos i hlo hhi k hk => ?_)
        (fun _ _ h => hin h) (fun _ h => hin h) fun _ _ h => hin h
      rw [hready.vm] at hnul
      have hsearched : Searched x v usd :=
        ⟨hready.toHasUsd, hready.record_ok, hready.stabs_ok, hready.stabstr_ok,
          hlt, hnul, hpos⟩
      rcases hcov usd hsearched i hlo hhi k hk with h | h
      · exact ⟨_, _, hrec, h⟩
      · exact ⟨_, _, hstr, h⟩

/-! ## The first entry that is looked at -/

/-- From `s` to `t` nothing has been checked, and byte `a` has been read. -/
def ReadsAt (a : Word) (s t : Look) : Prop :=
  ∃ added, t.log = added ++ s.log ∧ (∀ ev ∈ added, ∃ va, ev = .read va) ∧
    .read a ∈ added

theorem ReadsAt.later {a : Word} (hst : ReadsAt a s t) {u : Look}
    (htu : ReadsIn A t u) : ReadsAt a s u := by
  obtain ⟨l, hl, hreads, hin⟩ := hst
  obtain ⟨-, l', hl', hin'⟩ := htu
  refine ⟨l' ++ l, by rw [hl', hl, List.append_assoc], fun ev hev => ?_,
    List.mem_append_right _ hin⟩
  rcases List.mem_append.mp hev with hev | hev
  · exact (hin' ev hev).imp fun _ h => h.1
  · exact hreads ev hev

theorem ReadsIn.readsAt {a : Word} (hst : ReadsIn A s t) {u : Look}
    (htu : ReadsAt a t u) : ReadsAt a s u := by
  obtain ⟨-, l, hl, hin⟩ := hst
  obtain ⟨l', hl', hreads, hin'⟩ := htu
  refine ⟨l' ++ l, by rw [hl', hl, List.append_assoc], fun ev hev => ?_,
    List.mem_append_left _ hin'⟩
  rcases List.mem_append.mp hev with hev | hev
  · exact hreads ev hev
  · exact (hin ev hev).imp fun _ h => h.1

/-- A byte that is read has been accepted before. -/
theorem ReadsAt.accepted {a : Word} (hst : ReadsAt a s t) (ht : Checked t.log) :
    ∃ va len, .accept va len ∈ s.log ∧ InRange a va len := by
  obtain ⟨l, hl, hreads, hin⟩ := hst
  rw [hl] at ht
  clear hl
  induction l with
  | nil => cases hin
  | cons ev l ih =>
      have hrest : ∀ ev ∈ l, ∃ va, ev = .read va :=
        fun ev hev => hreads ev (List.mem_cons_of_mem _ hev)
      obtain ⟨va', rfl⟩ := hreads ev List.mem_cons_self
      obtain ⟨⟨va, len, hacc, hrange⟩, ht⟩ := ht
      rcases List.mem_cons.mp hin with heq | hin
      · cases heq
        rcases List.mem_append.mp hacc with hacc | hacc
        · obtain ⟨_, h⟩ := hrest _ hacc
          cases h
        · exact ⟨va, len, hacc, hrange⟩
      · exact ih ht hrest hin

theorem readByte_readsAt (x : Setting) (va : Word) (s : Look) :
    ReadsAt va s (readByte x va s).state := by
  have hone : ReadsAt va s { s with log := .read va :: s.log } :=
    ⟨[.read va], rfl, fun ev hev => ⟨va, List.mem_singleton.mp hev⟩,
      List.mem_singleton.mpr rfl⟩
  rw [readByte, Prog.update_bind, Prog.ask_bind]
  simp only
  cases shownByte s.vm.mem (page2pa x.pgdir) va <;> exact hone

/-- It does not matter what comes behind a byte that has been read. -/
theorem ReadsAt.wp {α : Type} {f : LookM α} {Q : α → Look → Prop} {a : Word}
    (hf : Prog.Keeps (ReadsIn A) f)
    (hst : ReadsAt a s t) (hQ : ∀ b u, ReadsAt a s u → Q b u) :
    Prog.wp f Q (ReadsAt a s) (fun _ => ReadsAt a s) t :=
  hf.wp (fun b u hu => hQ b u (hst.later hu)) (fun _ hu => hst.later hu)
    fun _ _ hu => hst.later hu

/-- The search of a table that is not empty reads the middle entry first. -/
theorem wp_binsearch_first {left right : Int} {type : BitVec 8} {addr : Word} (hlr : left ≤ right) :
    Prog.wp ((reader x stabs).binsearch .endless left right type addr)
      (fun _ t => ReadsAt (stabAt stabs (mid left right) + 4) s t) (ReadsAt (stabAt stabs (mid left right) + 4) s)
      (fun _ t => ReadsAt (stabAt stabs (mid left right) + 4) s t) s := by
  have hany : ∀ i, Prog.Keeps (ReadsIn fun _ => True) (nType x stabs i) := fun i => readByte_keeps trivial
  have hvalue : ∀ i, Prog.Keeps (ReadsIn fun _ => True) (nValue x stabs i) := fun i s =>
    (Prog.wp_imp (wp_readWord (fun _ _ => trivial) (.refl s)) (fun _ _ h => h.1) (fun _ h => h.elim) fun _ _ h => h.1).state
  have hseek : ∀ n m, Prog.Keeps (ReadsIn fun _ => True) ((reader x stabs).seekType type n m) := by
    intro n
    induction n with
    | zero => exact fun _ => .pure .refl _
    | succ n ih => exact fun m => .bind .trans (hany m) fun _ => .ite (ih _) (.pure .refl _)
  have hbody : ∀ (y : Search) m, Prog.Keeps (ReadsIn fun _ => True) (do
      if m < y.l then
        pure { y with l := mid y.l y.r + 1 }
      else
        let v ← nValue x stabs m
        if v < y.addr then
          pure { y with anyMatches := true, regionLeft := m, l := mid y.l y.r + 1 }
        else if v > y.addr then
          pure { y with anyMatches := true, regionRight := m - 1, r := m - 1 }
        else
          pure { y with anyMatches := true, regionLeft := m, l := m, addr := y.addr + 1 } : LookM Search) := fun y m =>
    .ite (.pure .refl _) (.bind .trans (hvalue m) fun _ => .ite (.pure .refl _) (.ite (.pure .refl _) (.pure .refl _)))
  have hloop : ∀ n y, Prog.Keeps (ReadsIn fun _ => True) ((reader x stabs).loop .endless type n y) := by
    intro n
    induction n with
    | zero => exact fun _ => .halt .refl _
    | succ n ih =>
        exact fun y => .ite (.bind .trans (.bind .trans (hseek _ _) (hbody y)) ih) (.pure .refl _)
  obtain ⟨k, hk⟩ : ∃ k, (mid left right - left + 1).toNat = k + 1 := by
    have := mid_between hlr
    exact ⟨(mid left right - left).toNat, by omega⟩
  have hfirst := readByte_readsAt x (stabAt stabs (mid left right) + 4) s
  rw [StabReader.binsearch, show 2 * (right - left + 1).toNat + 2 = 2 * (right - left + 1).toNat + 1 + 1 from rfl,
    StabReader.loop, if_pos hlr]
  refine Prog.wp_bind_intro (Prog.wp_bind_intro (Prog.wp_bind_intro ?_))
  change Prog.wp ((reader x stabs).seekType type (mid left right - left + 1).toNat (mid left right)) _ _ _ s
  rw [hk, StabReader.seekType]
  refine Prog.wp_bind_intro (Prog.wp_of_runs (fun b t hret => ?_) (fun t hret => ?_) fun e t hret => ?_)
  all_goals
    change readByte x (stabAt stabs (mid left right) + 4) s = _ at hret
    rw [hret] at hfirst
  case refine_2 => exact hfirst
  case refine_3 => exact hfirst
  refine hfirst.wp (.ite (hseek _ _) (.pure .refl _)) fun m t ht => ht.wp (hbody _ m) fun y t ht => ht.wp (hloop _ y) fun y t ht => ?_
  exact ht.wp (.ite (.pure .refl _) (.bind .trans (hseek _ _) fun _ => .pure .refl _)) fun _ _ h => h

/-- A table that is searched has been found. -/
theorem findStabs_ret {v : Vm} {addr : Word} (haddr : addr < ULIM)
    (h : Searched x v usd) :
    ∃ s, findStabs x addr ⟨v, []⟩ = .ret (some usd) s ∧ Ready x v usd s := by
  have hwp := @wp_readUsd x (fun _ => True) _ ⟨v, [.accept USTABDATA 16]⟩
    (fun _ _ => trivial) (.refl _)
  obtain ⟨usd', t, hret, ht, husd⟩ :=
    (Prog.wp_imp hwp (fun _ _ h => h) (fun _ h => h)
    fun _ _ hno => hno.2 usd h.toHasUsd).exists_ret
  obtain rfl := husd.unique h.toHasUsd
  have hrec : check x USTABDATA 16 ⟨v, []⟩ =
      .ret true ⟨v, [.accept USTABDATA 16]⟩ := check_ret h.record_ok
  have hrun : ∃ s, findStabs x addr ⟨v, []⟩ = .ret (some usd') s := by
    rw [findStabs, if_neg (BitVec.not_le.mpr haddr), Prog.bind_ret hrec,
      if_pos rfl, Prog.bind_ret hret]
    have hvm : t.vm = v := ht.vm
    have hstabs :
        Accepts x t.vm usd'.stabs (BitVec.ofInt 32 (x.entries usd')) := by
      rw [hvm]
      exact h.stabs_ok
    have hstr :
        Accepts x t.vm usd'.stabstr (usd'.stabstrEnd - usd'.stabstr) := by
      rw [hvm]
      exact h.stabstr_ok
    rw [checkUsd, Prog.bind_ret (check_ret hstabs), if_pos rfl]
    have hlast := check_ret (s := ⟨t.vm,
      .accept usd'.stabs (BitVec.ofInt 32 (x.entries usd')) :: t.log⟩) hstr
    exact ⟨_, (Prog.bind_ret hlast).trans rfl⟩
  obtain ⟨s, hs⟩ := hrun
  exact ⟨s, hs, ((wp_findStabs haddr).ret hs).2 usd' rfl⟩

/-- The middle entry of a table is read. -/
theorem wp_searchStabs_first {v : Vm} {addr : Word} (h : Searched x v usd)
    (hvm : s.vm = v) :
    Prog.wp (searchStabs x usd addr) (fun _ => ReadsAt (firstRead x usd) s)
      (ReadsAt (firstRead x usd) s)
      (fun _ => ReadsAt (firstRead x usd) s) s := by
  subst hvm
  have hT : ∀ hi, TableIn (fun _ => True) usd.stabs (-3) hi :=
    fun _ _ _ _ _ _ => trivial
  have hpos := h.entry
  have hmid := mid_between (l := 0) (r := x.entries usd - 1) (by omega)
  rw [searchStabs, if_neg (BitVec.not_le.mpr h.nonempty)]
  refine Prog.wp_bind_intro (Prog.wp_imp (wp_readByte
    (A := fun _ => True) trivial (.refl s)) (fun b t ⟨ht, hb⟩ => ?_)
    (fun _ h => h.elim) fun _ _ hno => ?_)
  case refine_2 =>
    rw [h.nul] at hno
    cases hno.2
  rw [h.nul] at hb
  cases hb
  rw [if_neg (not_not.mpr rfl)]
  have hW : Within (reader x usd.stabs) (ReadsIn fun _ => True) (-3)
      (x.entries usd) := (hT _).within
  have hfirst := @wp_binsearch_first x t usd.stabs 0 (x.entries usd - 1) N_SO
    addr (by omega)
  have hbounds := @Within.wp_binsearch _ _ _ _ _ _ 0 (x.entries usd - 1) N_SO t
    t .endless hW (by omega) (by omega) addr
    (.refl t)
  refine Prog.wp_bind_intro (Prog.wp_imp (hfirst.and hbounds)
    (fun file u ⟨hat, hu, hge, hle, hor⟩ => ?_) (fun _ h => ht.readsAt h.1)
    fun _ _ h => ht.readsAt h.1)
  refine Prog.wp_ite _ (fun _ => Prog.wp_pure_intro (ht.readsAt hat))
    fun hne => ?_
  have hlater : ∀ {w}, ReadsIn (fun _ => True) u w →
      ReadsAt (firstRead x usd) s w := fun hw => (ht.readsAt hat).later hw
  have hnul : shownByte u.vm.mem (page2pa x.pgdir) (usd.stabstrEnd - 1) =
      some 0 := by
    rw [hu.vm, ht.vm]
    exact h.nul
  exact Prog.wp_imp (wp_searchFun (hT (x.entries usd))
    ⟨fun _ _ => trivial, hnul⟩ (by omega) (by omega) (.refl u))
    (fun _ _ hw => hlater hw) (fun _ hw => hlater hw) fun _ _ hw => hlater hw

/-- The middle entry lies behind as many bytes as there are entries. -/
theorem firstRead_out (h12 : 12 * x.entries usd =
      (usd.stabEnd - usd.stabs).toInt) (hpos : 0 < x.entries usd) :
    ¬InRange (firstRead x usd) usd.stabs (BitVec.ofInt 32 (x.entries usd)) := by
  have hlt : (usd.stabEnd - usd.stabs).toInt < 2 ^ 31 := BitVec.toInt_lt
  obtain ⟨n, hn⟩ := Int.eq_ofNat_of_zero_le hpos.le
  obtain ⟨k, hmid, hk⟩ : ∃ k : Nat, mid 0 (x.entries usd - 1) = k ∧
      k = (n - 1) / 2 := by
    refine ⟨(n - 1) / 2, ?_, rfl⟩
    rw [mid, Int.tdiv_eq_ediv_of_nonneg (by omega)]
    omega
  have hoff : firstRead x usd - usd.stabs = 12 * BitVec.ofNat 32 k + 4 := by
    rw [firstRead, stabAt, hmid, add_assoc, add_sub_cancel_left,
      BitVec.ofInt_natCast]
  rw [InRange, hoff, hn, BitVec.toNat_add, BitVec.toNat_mul, BitVec.toNat_ofNat,
    show BitVec.ofInt 32 (n : Int) =
    BitVec.ofNat 32 n from BitVec.ofInt_natCast .., BitVec.toNat_ofNat,
    show (12 : Word).toNat = 12 from rfl,
    show (4 : Word).toNat = 4 from rfl]
  have hsmall : n < 2 ^ 28 := by omega
  rw [Nat.mod_eq_of_lt (show k < 2 ^ 32 by omega),
    Nat.mod_eq_of_lt (show 12 * k < 2 ^ 32 by omega),
    Nat.mod_eq_of_lt (show 12 * k + 4 < 2 ^ 32 by omega),
    Nat.mod_eq_of_lt (show n < 2 ^ 32 by omega)]
  omega

/-- What `debuginfo_eip` reads of a table that the record and the strings do not
cover has not been checked. -/
theorem inOther_of_readsChecked {v : Vm} {addr : Word} (haddr : addr < ULIM)
    (h : Searched x v usd)
    (h12 : 12 * x.entries usd = (usd.stabEnd - usd.stabs).toInt)
    (hok : ReadsChecked x v addr) :
    InOther usd (firstRead x usd) := by
  obtain ⟨s, hret, hready⟩ := findStabs_ret haddr h
  have hat :
      ReadsAt (firstRead x usd) s (debuginfoEip x addr ⟨v, []⟩).state := by
    rw [debuginfoEip, Prog.bind_ret hret]
    exact (wp_searchStabs_first h hready.vm).state
  obtain ⟨va, len, hacc, hin⟩ := hat.accepted hok
  obtain ⟨l, hl, hreads⟩ := hready.log
  simp only [hl, List.mem_cons, List.mem_append, List.not_mem_nil, or_false,
    Event.accept.injEq] at hacc
  rcases hacc with ⟨rfl, rfl⟩ | ⟨rfl, rfl⟩ | hmem | ⟨rfl, rfl⟩
  · exact .inr hin
  · exact absurd hin (firstRead_out h12 h.entry)
  · obtain ⟨_, heq, -⟩ := hreads _ hmem
    cases heq
  · exact .inl hin

/-- `debuginfo_eip` reads nothing but what has been checked if the table is not
searched, or the record and the strings lie over it; if the byte that is read
first is not one of these, then only if the table is not searched. Pointers
whose difference is no multiple of 12 are left out there: C does not say how
many entries they enclose. -/
theorem readsChecked_iff {v : Vm} {addr : Word} (haddr : addr < ULIM)
    (hdiff : ∀ a b : Word, 12 ∣ (a - b).toInt →
      12 * x.diff a b = (a - b).toInt) :
    ((∀ usd, Searched x v usd → Covered x usd) → ReadsChecked x v addr) ∧
      ((∀ usd, Searched x v usd → 12 ∣ (usd.stabEnd - usd.stabs).toInt ∧
        ¬InOther usd (firstRead x usd)) →
        (ReadsChecked x v addr ↔ ∀ usd, ¬Searched x v usd)) := by
  refine ⟨readsChecked_of_covered haddr, fun hapart =>
    ⟨fun hok usd h => ?_, fun hno => ?_⟩⟩
  · obtain ⟨hdvd, hout⟩ := hapart usd h
    exact hout (inOther_of_readsChecked haddr h (hdiff _ _ hdvd) hok)
  · exact readsChecked_of_covered haddr fun usd h => absurd h (hno usd)

end

/-- The difference of two pointers that are a multiple of 12 bytes apart. -/
def smallSetting : Setting := ⟨402, ⟨0, 0, 0, 0⟩, fun a b => (a - b).toInt / 12⟩

theorem smallSetting_diff (a b : Word) (h : 12 ∣ (a - b).toInt) :
    12 * smallSetting.diff a b = (a - b).toInt :=
  Int.mul_ediv_cancel' h

/-- A table of one entry at `0x300000`, and the empty string at `0x301000`. -/
def oneStab : UserStabData :=
  ⟨0x300000#32, 0x30000C#32, 0x301000#32, 0x301001#32⟩

/-- A user program with its record and that table. -/
def oneStabVm : Vm := { smallVm 4 with
  mem := fun p =>
    if p = 402 then Bytes.store32 (fun _ => 0) 0 (page2pa 403 ||| 7)
    else if p = 403 then
      ((Bytes.store32 (fun _ => 0) 2048 (page2pa 404 ||| 7)).store32 3072
      (page2pa 405 ||| 7)).store32 3076 (page2pa 406 ||| 7)
    else if p = 404 then
      ((((Bytes.store32 (fun _ => 0) 0 oneStab.stabs).store32 4
      oneStab.stabEnd).store32 8 oneStab.stabstr).store32 12
        oneStab.stabstrEnd)
    else fun _ => 0 }

theorem oneStab_searched : Searched smallSetting oneStabVm oneStab where
  stabs := by decide +kernel
  stabEnd := by decide +kernel
  stabstr := by decide +kernel
  stabstrEnd := by decide +kernel
  record_ok := rfl
  stabs_ok := rfl
  stabstr_ok := rfl
  nonempty := by decide
  nul := by decide +kernel
  entry := by decide

/-- A table of one entry inside its strings. -/
def insideStab : UserStabData :=
  ⟨0x300024#32, 0x300030#32, 0x300000#32, 0x300031#32⟩

/-- The same program with that table. -/
def insideVm : Vm := { oneStabVm with
  mem := fun p =>
    if p = 404 then
      ((((Bytes.store32 (fun _ => 0) 0 insideStab.stabs).store32 4
      insideStab.stabEnd).store32 8
        insideStab.stabstr).store32 12 insideStab.stabstrEnd)
    else oneStabVm.mem p }

theorem inside_searched : Searched smallSetting insideVm insideStab where
  stabs := by decide +kernel
  stabEnd := by decide +kernel
  stabstr := by decide +kernel
  stabstrEnd := by decide +kernel
  record_ok := rfl
  stabs_ok := rfl
  stabstr_ok := rfl
  nonempty := by decide
  nul := by decide +kernel
  entry := by decide

theorem inside_covered : Covered smallSetting insideStab := by
  have hall : ∀ j : Nat, j < 4 → ∀ k < 12,
      InOther insideStab (stabAt insideStab.stabs ((j : Int) - 3) +
        BitVec.ofNat 32 k) := by
    unfold InOther InRange
    decide +kernel
  intro i hlo hhi k hk
  obtain ⟨j, hj⟩ := Int.eq_ofNat_of_zero_le (show 0 ≤ i + 3 by omega)
  have hentries : smallSetting.entries insideStab = 1 := by decide
  obtain rfl : i = (j : Int) - 3 := by omega
  exact hall j (by omega) k hk

/-- The table inside the strings is searched, and all of it has been checked;
the other one is in neither. -/
theorem readsChecked_inside : Searched smallSetting insideVm insideStab ∧
    ReadsChecked smallSetting insideVm 0x800000#32 ∧
    (ReadsChecked smallSetting oneStabVm 0x800000#32 ↔
      ∀ usd, ¬Searched smallSetting oneStabVm usd) := by
  refine ⟨inside_searched, ?_, ?_⟩
  · refine (readsChecked_iff (by decide) smallSetting_diff).1 fun usd h => ?_
    rw [h.toHasUsd.unique inside_searched.toHasUsd]
    exact inside_covered
  · refine (readsChecked_iff (by decide) smallSetting_diff).2 fun usd h => ?_
    rw [h.toHasUsd.unique oneStab_searched.toHasUsd]
    refine ⟨by decide, ?_⟩
    unfold InOther InRange
    decide

/-- One byte of the only entry has been checked, and the one that is read is
another. -/
theorem oneStab_unchecked :
    ¬ReadsChecked smallSetting oneStabVm 0x800000#32 := by
  intro hok
  have hin := inOther_of_readsChecked (by decide) oneStab_searched
    (by decide) hok
  revert hin
  unfold InOther InRange
  decide

end Debug

end Jos
