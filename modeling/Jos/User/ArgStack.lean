import Jos.User.Headers

/-!
# The arguments on a new stack

`init_stack` lays the strings out from the top of the page at `UTEMP` down, and
the array of pointers below them. All sizes are words: an argument block of four
megabytes and more takes the pointers below 0, where the test against the start
of the page passes again.
-/

namespace Jos

namespace Spawn

open Mmap

/-- The string `s`, with its NUL, is at `va`. -/
structure StrAt (p : Proc) (va : Word) (s : List (BitVec 8)) : Prop where
  byte : ∀ j (hj : j < s.length), p.mem (va + BitVec.ofNat 32 j) = s[j]
  ne : ∀ j (hj : j < s.length), s[j] ≠ 0
  nul : p.mem (va + BitVec.ofNat 32 s.length) = 0

/-- An address in the page at `UTEMP`. -/
def InPage (va : Word) : Prop := (va - UTEMP).toNat < PGSIZE

instance (va : Word) : Decidable (InPage va) := Nat.decLt _ _

/-- `argv` is an array of pointers to the strings `ss`, with a null pointer
behind them. None of this is in the page that the library keeps to itself. -/
structure Args (p : Proc) (argv : Word) (ss : List (List (BitVec 8))) :
    Prop where
  ptr : ∀ i < ss.length, p.word (entry argv i) ≠ 0
  str : ∀ i (hi : i < ss.length), StrAt p (p.word (entry argv i)) ss[i]
  last : p.word (entry argv ss.length) = 0
  array_apart : ∀ i ≤ ss.length, ∀ k < 4,
    ¬InPage (entry argv i + BitVec.ofNat 32 k)
  str_apart : ∀ i (hi : i < ss.length), ∀ j ≤ ss[i].length,
    ¬InPage (p.word (entry argv i) + BitVec.ofNat 32 j)

/-- The bytes of the strings. -/
def strSize (ss : List (List (BitVec 8))) : Nat :=
  (ss.map fun s => s.length + 1).sum

/-- The bytes of the whole block: the strings, rounded up, the array, and the
two words below it. -/
def blockSize (ss : List (List (BitVec 8))) : Nat :=
  (strSize ss + 3) / 4 * 4 + 4 * (ss.length + 1) + 8

/-- The page of the stack, for the child. -/
def STACK : Word := USTACKTOP - PGSZ

/-- The page says `argv`, for a child that has it at `STACK`, its stack pointer
at `esp`. -/
structure Encodes (page : Bytes) (esp : Word) (ss : List (List (BitVec 8)))
    (o a : Nat) : Prop where
  esp_eq : esp = STACK + BitVec.ofNat 32 o
  low : o + 8 ≤ PGSIZE
  argc : page.load32 o = BitVec.ofNat 32 ss.length
  argv : page.load32 (o + 4) = STACK + BitVec.ofNat 32 a
  array : a + 4 * (ss.length + 1) ≤ PGSIZE
  entries : ∀ i (hi : i < ss.length), ∃ x, page.load32 (a + 4 * i) =
    STACK + BitVec.ofNat 32 x ∧
    x + ss[i].length + 1 ≤ PGSIZE ∧ ∀ j ≤ ss[i].length,
    page (x + j) = strOf ss[i] j
  null : page.load32 (a + 4 * ss.length) = 0

/-- From `p` to `t` there have only been stores to the page. -/
def StoresIn : Proc → Proc → Prop := Prog.Added Proc.stores InPage

/-- `init_stack` returns, and has stored nothing outside the page: it refuses
the arguments, or it does what it is for. -/
def StackOk (h : Host) (child argv : Word) (ss : List (List (BitVec 8)))
    (p : Proc) : Prop :=
  ∃ s t, initStack h child argv p = .ret s t ∧ StoresIn p t ∧
    (s.ret.slt 0 ∧ NoChild p t ∨ ∃ o a,
    Encodes (bytesAt t.mem UTEMP) s.esp ss o a)

/-- The call for the page. -/
def allocStack : Call := .pageAlloc 0 UTEMP (PTE_P ||| PTE_U ||| PTE_W)

/-- The process with the page. -/
def withPage (h : Host) (p : Proc) : Proc :=
  { p.asked allocStack (h p.trace allocStack) with
    mem := putBytes p.mem UTEMP PGSIZE fun _ => 0 }

/-- The block fits the page, or the test or the kernel refuses it. -/
def StackFits (h : Host) (ss : List (List (BitVec 8))) (p : Proc) : Prop :=
  blockSize ss ≤ PGSIZE ∨ argvStore ss.length (BitVec.ofNat 32 (strSize ss)) -
    8 < UTEMP ∨
    (h p.trace allocStack).ret.slt 0

section

variable {h : Host} {p q t b : Proc} {argv child va src : Word}
  {ss : List (List (BitVec 8))} {s : List (BitVec 8)}
  {page : Bytes} {o a i k : Nat} {c : BitVec 8}

/-! ## Reading the arguments -/

theorem StrAt.lt (hs : StrAt p va s) : s.length < 2 ^ 32 := by
  by_contra hge
  have hwrap : va + BitVec.ofNat 32 (s.length - 2 ^ 32) =
      va + BitVec.ofNat 32 s.length := by
    refine congrArg (va + ·) (BitVec.eq_of_toNat_eq ?_)
    rw [BitVec.toNat_ofNat, BitVec.toNat_ofNat]
    omega
  have hbyte := hs.byte (s.length - 2 ^ 32) (by omega)
  rw [hwrap, hs.nul] at hbyte
  exact hs.ne _ _ hbyte.symm

theorem strlenLoop_ret (hs : StrAt p va s) (hk : i + k = 2 ^ 32)
    (hi : i ≤ s.length) :
    strlenLoop k (va + BitVec.ofNat 32 i) (BitVec.ofNat 32 i) p =
      .ret (BitVec.ofNat 32 s.length) p := by
  have hlt := hs.lt
  induction k generalizing i with
  | zero => omega
  | succ k ih =>
      rw [strlenLoop, Prog.ask_bind]
      rcases Nat.lt_or_eq_of_le hi with hlt' | rfl
      · rw [if_pos (by rw [hs.byte i hlt']; exact hs.ne i hlt')]
        have hnext := ih (i := i + 1) (by omega) hlt'
        rwa [BitVec.ofNat_add, ← add_assoc] at hnext
      · rw [if_neg (not_not.mpr hs.nul)]
        rfl

theorem strlen_ret (hs : StrAt p va s) :
    strlen va p = .ret (BitVec.ofNat 32 s.length) p := by
  have hloop := strlenLoop_ret hs (i := 0) (k := 2 ^ 32) (by omega)
    (Nat.zero_le _)
  rwa [BitVec.add_zero] at hloop

theorem Args.lt (hargs : Args p argv ss) : ss.length < NARGS := by
  by_contra hge
  simp only [NARGS] at hge
  have hwrap : entry argv (ss.length - 2 ^ 30) = entry argv ss.length := by
    refine congrArg (argv + ·) (BitVec.eq_of_toNat_eq ?_)
    rw [BitVec.toNat_mul, BitVec.toNat_mul, BitVec.toNat_ofNat,
      BitVec.toNat_ofNat, show (4 : Word).toNat = 4 from rfl]
    omega
  refine hargs.ptr (ss.length - 2 ^ 30) (by omega) ?_
  rw [hwrap, hargs.last]

theorem strSize_take_succ (hi : i < ss.length) :
    strSize (ss.take (i + 1)) = strSize (ss.take i) + ss[i].length + 1 := by
  unfold strSize
  rw [List.take_succ_eq_append_getElem hi, List.map_append, List.sum_append]
  simp [add_assoc]

theorem countArgs_ret (hargs : Args p argv ss) (hk : i + k = NARGS)
    (hi : i ≤ ss.length) :
    countArgs argv k i (BitVec.ofNat 32 (strSize (ss.take i))) p =
      .ret (ss.length, BitVec.ofNat 32 (strSize ss)) p := by
  have hlt := hargs.lt
  induction k generalizing i with
  | zero => omega
  | succ k ih =>
      rw [countArgs, Prog.ask_bind]
      rcases Nat.lt_or_eq_of_le hi with hlt' | rfl
      · rw [if_pos (hargs.ptr i hlt'),
          Prog.bind_ret (strlen_ret (hargs.str i hlt'))]
        have hnext := ih (i := i + 1) (by omega) hlt'
        rw [strSize_take_succ hlt', BitVec.ofNat_add, BitVec.ofNat_add] at hnext
        exact hnext
      · rw [if_neg (not_not.mpr hargs.last), List.take_length]
        rfl

theorem countArgs_all (hargs : Args p argv ss) :
    countArgs argv NARGS 0 0 p =
      .ret (ss.length, BitVec.ofNat 32 (strSize ss)) p :=
  countArgs_ret hargs (i := 0) (Nat.zero_add _) (Nat.zero_le _)

/-! ## Stores to the page -/

/-- `t` is `b` with `page` at `UTEMP`, after stores to it. -/
structure Paged (b : Proc) (page : Bytes) (t : Proc) : Prop where
  mem : t.mem = putBytes b.mem UTEMP PGSIZE page
  trace : t.trace = b.trace
  stores : StoresIn b t
  canStore : ∀ o < PGSIZE, t.CanStore (UTEMP + BitVec.ofNat 32 o)

theorem off_page (ho : o < PGSIZE) :
    (UTEMP + BitVec.ofNat 32 o - UTEMP).toNat = o := by
  simp only [PGSIZE] at ho
  rw [add_sub_cancel_left, BitVec.toNat_ofNat, Nat.mod_eq_of_lt (by omega)]

theorem inPage_off (ho : o < PGSIZE) : InPage (UTEMP + BitVec.ofNat 32 o) := by
  rwa [InPage, off_page ho]

theorem utemp_off (va : Word) :
    UTEMP + BitVec.ofNat 32 (va - UTEMP).toNat = va := by
  rw [BitVec.ofNat_toNat, BitVec.setWidth_eq, add_sub_cancel]

theorem Paged.out (ht : Paged b page t) (hva : ¬InPage va) :
    t.mem va = b.mem va := by
  rw [ht.mem]
  exact if_neg hva

theorem Paged.inside (ht : Paged b page t) (ho : o < PGSIZE) :
    t.mem (UTEMP + BitVec.ofNat 32 o) = page o := by
  rw [ht.mem, putBytes, off_page ho, if_pos ho]

theorem Paged.word_out (ht : Paged b page t)
    (hva : ∀ k < 4, ¬InPage (va + BitVec.ofNat 32 k)) : t.word va = b.word va :=
  Bytes.load32_congr fun j _ hj => ht.out (hva j (by omega))

theorem Paged.strAt (ht : Paged b page t) (hs : StrAt b va s)
    (hout : ∀ j ≤ s.length, ¬InPage (va + BitVec.ofNat 32 j)) :
    StrAt t va s where
  byte j hj := (ht.out (hout j hj.le)).trans (hs.byte j hj)
  ne := hs.ne
  nul := (ht.out (hout _ le_rfl)).trans hs.nul

theorem storeByte_paged (hq : Paged b page q) (ho : o < PGSIZE) :
    ∃ t, storeByte (UTEMP + BitVec.ofNat 32 o) c q = .ret () t ∧
    Paged b (Function.update page o c) t := by
  refine ⟨_, storeByte_ret (hq.canStore o ho), ?_, hq.trace, ?_, hq.canStore⟩
  · funext va
    show Function.update q.mem _ _ va = _
    by_cases heq : va = UTEMP + BitVec.ofNat 32 o
    · rw [heq, Function.update_self, putBytes, off_page ho, if_pos ho,
        Function.update_self]
    · rw [Function.update_of_ne heq, hq.mem, putBytes, putBytes]
      refine if_congr Iff.rfl ?_ rfl
      rw [Function.update_of_ne]
      rintro rfl
      exact heq (utemp_off va).symm
  · exact hq.stores.trans _ _ _ (.cons rfl (inPage_off ho))

theorem ofNat_succ_add (va : Word) (n k : Nat) : va + BitVec.ofNat 32 n +
      BitVec.ofNat 32 k = va + BitVec.ofNat 32 (n + k) := by
  rw [add_assoc, ← BitVec.ofNat_add]

theorem storeWord_paged (hq : Paged b page q) (ho : o + 4 ≤ PGSIZE) (v : Word) :
    ∃ t, storeWord (UTEMP + BitVec.ofNat 32 o) v q = .ret () t ∧
    Paged b (page.store32 o v) t := by
  obtain ⟨t₀, h₀, hp₀⟩ := storeByte_paged (o := o) (c := v.extractLsb' 0 8) hq
    (by omega)
  obtain ⟨t₁, h₁, hp₁⟩ :=
    storeByte_paged (o := o + 1) (c := v.extractLsb' 8 8) hp₀ (by omega)
  obtain ⟨t₂, h₂, hp₂⟩ :=
    storeByte_paged (o := o + 2) (c := v.extractLsb' 16 8) hp₁ (by omega)
  obtain ⟨t₃, h₃, hp₃⟩ :=
    storeByte_paged (o := o + 3) (c := v.extractLsb' 24 8) hp₂ (by omega)
  refine ⟨t₃, ?_, ?_⟩
  · rw [← ofNat_succ_add] at h₁ h₂ h₃
    exact (Prog.bind_ret h₀).trans
      ((Prog.bind_ret h₁).trans ((Prog.bind_ret h₂).trans h₃))
  · convert hp₃ using 1
    funext j
    simp only [Bytes.store32, Function.update_apply]
    grind

/-- A string, with its NUL, is copied to offset `o` of the page. -/
theorem strcpyLoop_paged (hq : Paged b page q) (hs : StrAt b src s)
    (hout : ∀ j ≤ s.length, ¬InPage (src + BitVec.ofNat 32 j))
    (ho : o + s.length < PGSIZE) (hk : s.length < k) :
    ∃ t, strcpyLoop k (UTEMP + BitVec.ofNat 32 o) src q = .ret () t ∧
      Paged b (page.copy o (strOf s) 0 (s.length + 1)) t := by
  induction s generalizing o src page q k with
  | nil =>
      obtain ⟨k, rfl⟩ := Nat.exists_eq_add_of_lt hk
      have hnul : q.mem src = 0 := by
        have h := (hq.strAt hs hout).nul
        rwa [List.length_nil, BitVec.add_zero] at h
      obtain ⟨t, ht, hp⟩ :=
        storeByte_paged (c := 0) hq (o := o) (by simpa using ho)
      refine ⟨t, ?_, ?_⟩
      · rw [List.length_nil, Nat.zero_add, strcpyLoop, Prog.ask_bind, hnul,
          Prog.bind_ret ht, if_neg (not_not.mpr rfl)]
        rfl
      · convert hp using 1
        funext j
        simp only [Bytes.copy, Function.update_apply, strOf, List.length_nil]
        grind
  | cons c s ih =>
      obtain ⟨k, rfl⟩ := Nat.exists_eq_add_of_lt hk
      have hstr := hq.strAt hs hout
      have hbyte : q.mem src = c := by
        have h := hstr.byte 0 (Nat.zero_lt_succ _)
        rwa [BitVec.add_zero] at h
      have hne : c ≠ 0 := hs.ne 0 (Nat.zero_lt_succ _)
      obtain ⟨t, ht, hp⟩ := storeByte_paged (c := c) hq (o := o) (by omega)
      have hshift : ∀ j, src + 1 + BitVec.ofNat 32 j =
          src + BitVec.ofNat 32 (j + 1) := fun j => by
        rw [Nat.add_comm j 1]
        exact ofNat_succ_add src 1 j
      have hs' : StrAt b (src + 1) s := by
        refine ⟨fun j hj => ?_, fun j hj => hs.ne (j + 1)
          (Nat.succ_lt_succ hj), ?_⟩
        · rw [hshift]
          exact hs.byte (j + 1) (Nat.succ_lt_succ hj)
        · rw [hshift]
          exact hs.nul
      have hout' : ∀ j ≤ s.length, ¬InPage (src + 1 + BitVec.ofNat 32 j) :=
        fun j hj => by
        rw [hshift]
        exact hout (j + 1) (Nat.succ_le_succ hj)
      obtain ⟨u, hu, hpu⟩ :=
        ih (k := s.length + 1 + k) (o := o + 1) hp hs' hout'
        (by rw [List.length_cons] at ho; omega) (by omega)
      refine ⟨u, ?_, ?_⟩
      · rw [List.length_cons, strcpyLoop, Prog.ask_bind, hbyte,
          Prog.bind_ret ht, if_pos hne]
        rw [← ofNat_succ_add] at hu
        exact hu
      · convert hpu using 1
        funext j
        simp only [Bytes.copy, Function.update_apply, strOf, List.length_cons]
        by_cases hj : j = o
        · subst hj
          simp
        · rw [if_neg hj]
          by_cases hin : o ≤ j ∧ j < o + (s.length + 1 + 1)
          · rw [if_pos hin, if_pos (by omega)]
            obtain ⟨d, rfl⟩ : ∃ d, j = o + 1 + d := ⟨j - (o + 1), by omega⟩
            rw [show 0 + (o + 1 + d - o) = d + 1 by omega,
              show 0 + (o + 1 + d - (o + 1)) = d by omega]
            rfl
          · rw [if_neg hin, if_neg (by omega)]

/-! ## The layout -/

/-- The pointers from offset `a` and the strings from offset `o` on. -/
def layArgs : Nat → Nat → List (List (BitVec 8)) → Bytes → Bytes
  | _, _, [], page => page
  | a, o, s :: ss, page =>
      layArgs (a + 4) (o + s.length + 1) ss
        ((page.store32 a (STACK + BitVec.ofNat 32 o)).copy o (strOf s) 0
        (s.length + 1))

theorem entry_off (a i : Nat) : entry (UTEMP + BitVec.ofNat 32 a) i =
      UTEMP + BitVec.ofNat 32 (a + 4 * i) := by
  rw [entry, show (4 : Word) = BitVec.ofNat 32 4 from rfl, ← BitVec.ofNat_mul,
    ofNat_succ_add]

theorem utemp2ustack_off (o : Nat) :
    utemp2ustack (UTEMP + BitVec.ofNat 32 o) = STACK + BitVec.ofNat 32 o := by
  rw [utemp2ustack, STACK, add_assoc, add_sub_cancel_left, add_comm]

theorem strSize_cons : strSize (s :: ss) = s.length + 1 + strSize ss :=
  List.sum_cons

theorem copyArgs_paged (hargs : Args b argv ss) (hq : Paged b page q)
    (hi : i + k = ss.length)
    (ha : a + 4 * ss.length ≤ PGSIZE) (ho : o + strSize (ss.drop i) ≤ PGSIZE) :
    ∃ t, copyArgs argv (UTEMP + BitVec.ofNat 32 a) k i
      (UTEMP + BitVec.ofNat 32 o) q =
        .ret (UTEMP + BitVec.ofNat 32 (o + strSize (ss.drop i))) t ∧
      Paged b (layArgs (a + 4 * i) o (ss.drop i) page) t := by
  induction k generalizing i o page q with
  | zero =>
      rw [List.drop_eq_nil_of_le (by omega)]
      exact ⟨q, rfl, hq⟩
  | succ k ih =>
      have hlt : i < ss.length := by omega
      have hdrop := List.drop_eq_getElem_cons hlt
      rw [hdrop, strSize_cons] at ho
      obtain ⟨t₁, h₁, hp₁⟩ := storeWord_paged hq (o := a + 4 * i) (by omega)
        (STACK + BitVec.ofNat 32 o)
      have hptr : t₁.word (entry argv i) = b.word (entry argv i) :=
        hp₁.word_out (hargs.array_apart i hlt.le)
      have hout := hargs.str_apart i hlt
      have hstrlt := (hargs.str i hlt).lt
      obtain ⟨t₂, h₂, hp₂⟩ := strcpyLoop_paged hp₁ (hargs.str i hlt) hout
        (o := o) (by omega) hstrlt
      have hptr' : t₂.word (entry argv i) = b.word (entry argv i) :=
        hp₂.word_out (hargs.array_apart i hlt.le)
      have hlen := strlen_ret (hp₂.strAt (hargs.str i hlt) hout)
      obtain ⟨t, ht, hp⟩ := ih (i := i + 1) (o := o + ss[i].length + 1) hp₂
        (by omega) (by omega)
      refine ⟨t, ?_, ?_⟩
      · rw [copyArgs, entry_off, utemp2ustack_off, Prog.bind_ret h₁,
          Prog.ask_bind, hptr, strcpy, Prog.bind_ret h₂,
          Prog.ask_bind, hptr', Prog.bind_ret hlen]
        rw [← ofNat_succ_add, ← ofNat_succ_add] at ht
        rw [hdrop, strSize_cons,
          show o + (ss[i].length + 1 + strSize (ss.drop (i + 1))) =
          o + ss[i].length + 1 + strSize (ss.drop (i + 1)) by omega]
        exact ht
      · rw [hdrop, layArgs]
        exact hp

/-- What is neither in the array nor among the strings stays. -/
theorem layArgs_frame {j : Nat} (hj : j < a ∨ a + 4 * ss.length ≤ j)
    (hj' : j < o ∨ o + strSize ss ≤ j) :
    layArgs a o ss page j = page j := by
  induction ss generalizing a o page with
  | nil => rfl
  | cons s ss ih =>
      rw [List.length_cons] at hj
      rw [strSize_cons] at hj'
      rw [layArgs, ih (by omega) (by omega), Bytes.copy_of_ne (by omega),
        Bytes.store32_of_ne (by omega)]

theorem layArgs_entry (hi : i < ss.length) (hao : a + 4 * ss.length ≤ o) :
    ∃ x, (layArgs a o ss page).load32 (a + 4 * i) =
      STACK + BitVec.ofNat 32 x ∧ o ≤ x ∧
      x + ss[i].length + 1 ≤ o + strSize ss ∧ ∀ j ≤ ss[i].length,
      layArgs a o ss page (x + j) = strOf ss[i] j := by
  induction ss generalizing a o i page with
  | nil => exact absurd hi (Nat.not_lt_zero i)
  | cons s ss ih =>
      rw [List.length_cons] at hi hao
      rw [strSize_cons]
      cases i with
      | zero =>
          refine ⟨o, ?_, le_rfl, ?_, fun j hj => ?_⟩
          · have hframe : ((layArgs a o (s :: ss) page)).load32 (a + 4 * 0) =
                (page.store32 a (STACK + BitVec.ofNat 32 o)).load32 a := by
              refine Bytes.load32_congr fun j hj hj' => ?_
              rw [layArgs, layArgs_frame (by omega) (by omega),
                Bytes.copy_of_ne (by omega)]
            rw [hframe, Bytes.load32_store32]
          · simp only [List.getElem_cons_zero]
            omega
          · simp only [List.getElem_cons_zero] at hj ⊢
            rw [layArgs, layArgs_frame (by omega) (by omega),
              Bytes.copy_of_mem (by omega)]
            congr 1
            omega
      | succ i =>
          obtain ⟨x, hload, hox, hx, hstr⟩ :=
            @ih ((page.store32 a (STACK + BitVec.ofNat 32 o)).copy o (strOf s) 0
            (s.length + 1))
            (o + s.length + 1) (a + 4) i (by omega) (by omega)
          refine ⟨x, ?_, by omega, ?_, fun j hj => ?_⟩
          · rw [layArgs, show a + 4 * (i + 1) = a + 4 + 4 * i by omega]
            exact hload
          · simp only [List.getElem_cons_succ]
            omega
          · simp only [List.getElem_cons_succ] at hj ⊢
            exact hstr j hj

/-- The offset of the array. -/
def arrayOff (ss : List (List (BitVec 8))) : Nat :=
  PGSIZE - (strSize ss + 3) / 4 * 4 - 4 * (ss.length + 1)

theorem stringStore_off (hfit : strSize ss ≤ PGSIZE) :
    stringStore (BitVec.ofNat 32 (strSize ss)) =
      UTEMP + BitVec.ofNat 32 (PGSIZE - strSize ss) := by
  simp only [PGSIZE] at hfit
  refine BitVec.eq_of_toNat_eq ?_
  rw [stringStore, BitVec.toNat_sub, BitVec.toNat_add, BitVec.toNat_add,
    BitVec.toNat_ofNat, BitVec.toNat_ofNat,
    show UTEMP.toNat = 4194304 from rfl, show PGSZ.toNat = 4096 from
      rfl, PGSIZE]
  omega

/-- Where the array goes while the strings fit a page. -/
theorem argvStore_toNat (hsize : strSize ss ≤ PGSIZE)
    (hlen : ss.length ≤ PGSIZE) :
    (argvStore ss.length (BitVec.ofNat 32 (strSize ss))).toNat =
      4194304 + 4096 - (strSize ss + 3) / 4 * 4 - 4 * (ss.length + 1) := by
  simp only [PGSIZE] at hsize hlen
  have hstr : (stringStore (BitVec.ofNat 32 (strSize ss))).toNat =
      4194304 + 4096 - strSize ss := by
    rw [stringStore_off hsize, BitVec.toNat_add, BitVec.toNat_ofNat,
      show UTEMP.toNat = 4194304 from rfl, PGSIZE]
    omega
  rw [argvStore, BitVec.toNat_sub, BitVec.toNat_sub, BitVec.toNat_umod,
    BitVec.toNat_mul, BitVec.toNat_ofNat, hstr,
    show (4 : Word).toNat = 4 from rfl]
  omega

theorem length_le_strSize (ss : List (List (BitVec 8))) :
    ss.length ≤ strSize ss := by
  induction ss with
  | nil => exact Nat.zero_le _
  | cons s ss ih =>
      rw [strSize_cons, List.length_cons]
      omega

theorem argvStore_off (hfit : blockSize ss ≤ PGSIZE) :
    argvStore ss.length (BitVec.ofNat 32 (strSize ss)) =
      UTEMP + BitVec.ofNat 32 (arrayOff ss) := by
  simp only [blockSize, PGSIZE] at hfit
  refine BitVec.eq_of_toNat_eq ?_
  rw [argvStore_toNat (by simp only [PGSIZE]; omega)
    (by simp only [PGSIZE]; omega), BitVec.toNat_add, BitVec.toNat_ofNat,
    show UTEMP.toNat = 4194304 from rfl, arrayOff, PGSIZE]
  omega

/-- The page once all is laid out. -/
def argPage (ss : List (List (BitVec 8))) (page : Bytes) : Bytes :=
  (((layArgs (arrayOff ss) (PGSIZE - strSize ss) ss page).store32
    (arrayOff ss + 4 * ss.length) 0).store32
    (arrayOff ss - 4) (STACK + BitVec.ofNat 32 (arrayOff ss))).store32
    (arrayOff ss - 8) (BitVec.ofNat 32 ss.length)

theorem below_off {n : Nat} (hn : n ≤ a) :
    UTEMP + BitVec.ofNat 32 a - BitVec.ofNat 32 n =
      UTEMP + BitVec.ofNat 32 (a - n) := by
  rw [sub_eq_iff_eq_add, ofNat_succ_add, Nat.sub_add_cancel hn]

theorem layOut_paged (hargs : Args b argv ss) (hq : Paged b page q)
    (hfit : blockSize ss ≤ PGSIZE) :
    ∃ t, layOut argv ss.length (BitVec.ofNat 32 (strSize ss)) q =
        .ret (STACK + BitVec.ofNat 32 (arrayOff ss - 8)) t ∧
        Paged b (argPage ss page) t := by
  have hfit' := hfit
  simp only [blockSize] at hfit'
  have hoff : arrayOff ss = PGSIZE - (strSize ss + 3) / 4 * 4 - 4 *
      (ss.length + 1) := rfl
  obtain ⟨t₁, h₁, hp₁⟩ := copyArgs_paged hargs hq (i := 0) (k := ss.length)
    (a := arrayOff ss)
    (o := PGSIZE - strSize ss) (Nat.zero_add _) (by omega)
    (by rw [List.drop_zero]; omega)
  rw [List.drop_zero] at h₁ hp₁
  obtain ⟨t₂, h₂, hp₂⟩ := storeWord_paged (o := arrayOff ss + 4 * ss.length) hp₁
    (by omega) 0
  obtain ⟨t₃, h₃, hp₃⟩ := storeWord_paged (o := arrayOff ss - 4) hp₂ (by omega)
    (STACK + BitVec.ofNat 32 (arrayOff ss))
  obtain ⟨t₄, h₄, hp₄⟩ := storeWord_paged (o := arrayOff ss - 8) hp₃ (by omega)
    (BitVec.ofNat 32 ss.length)
  refine ⟨t₄, ?_, hp₄⟩
  have hend : UTEMP + BitVec.ofNat 32 (PGSIZE - strSize ss + strSize ss) =
      UTEMP + PGSZ := by
    rw [Nat.sub_add_cancel (by omega)]
    rfl
  have h4 : UTEMP + BitVec.ofNat 32 (arrayOff ss) - 4 =
      UTEMP + BitVec.ofNat 32 (arrayOff ss - 4) :=
    below_off (n := 4) (by omega)
  have h8 : UTEMP + BitVec.ofNat 32 (arrayOff ss) - 8 =
      UTEMP + BitVec.ofNat 32 (arrayOff ss - 8) :=
    below_off (n := 8) (by omega)
  rw [layOut]
  simp only [argvStore_off hfit,
    stringStore_off (show strSize ss ≤ PGSIZE by omega), entry_off, h4, h8,
    utemp2ustack_off]
  rw [Prog.bind_ret h₁, Prog.bind_ret h₂, if_neg (not_not.mpr hend),
    Prog.bind_ret h₃, Prog.bind_ret h₄]
  rfl

theorem argPage_encodes (page : Bytes) (hfit : blockSize ss ≤ PGSIZE) :
    Encodes (argPage ss page) (STACK + BitVec.ofNat 32 (arrayOff ss - 8)) ss
      (arrayOff ss - 8) (arrayOff ss) := by
  have hfit' := hfit
  simp only [blockSize] at hfit'
  have hoff : arrayOff ss = PGSIZE - (strSize ss + 3) / 4 * 4 - 4 *
      (ss.length + 1) := rfl
  -- the words of the array, and the strings, are not touched by the last three
  -- stores
  have hword : ∀ i ≤ ss.length, (argPage ss page).load32 (arrayOff ss + 4 * i) =
      ((layArgs (arrayOff ss) (PGSIZE - strSize ss) ss page).store32
        (arrayOff ss + 4 * ss.length) 0).load32
        (arrayOff ss + 4 * i) := fun i hi => by
    rw [argPage, Bytes.load32_store32_of_ne (by omega),
      Bytes.load32_store32_of_ne (by omega)]
  constructor
  case esp_eq => rfl
  case low => omega
  case argc => exact Bytes.load32_store32 ..
  case argv =>
    rw [argPage, Bytes.load32_store32_of_ne (by omega),
      show arrayOff ss - 8 + 4 = arrayOff ss - 4 by omega]
    exact Bytes.load32_store32 ..
  case array => omega
  case entries =>
    intro i hi
    obtain ⟨x, hload, hox, hx, hstr⟩ :=
      @layArgs_entry ss page (PGSIZE - strSize ss) (arrayOff ss) i hi
      (by omega)
    refine ⟨x, ?_, by omega, fun j hj => ?_⟩
    · rw [hword i hi.le, Bytes.load32_store32_of_ne (by omega)]
      exact hload
    · rw [argPage, Bytes.store32_of_ne (by omega),
        Bytes.store32_of_ne (by omega), Bytes.store32_of_ne (by omega)]
      exact hstr j hj
  case null =>
    rw [hword _ le_rfl]
    exact Bytes.load32_store32 ..

/-! ## A block that is too large -/

/-- From `p` to `t` there has been a store outside the page. -/
def StoresOut (p t : Proc) : Prop :=
  ∃ added, t.stores = added ++ p.stores ∧ ∃ va ∈ added, ¬InPage va

theorem StoresIn.not_out (hin : StoresIn p t) : ¬StoresOut p t := by
  rintro ⟨l, hl, va, hva, hout⟩
  obtain ⟨l', hl', hall⟩ := hin
  obtain rfl : l = l' := List.append_cancel_right (hl.symm.trans hl')
  exact hout (hall va hva)

/-- There have been more stores. -/
def MoreStores : Proc → Proc → Prop := Prog.Added Proc.stores fun _ => True

theorem MoreStores.frame : StoreFrame MoreStores :=
  ⟨Prog.Added.frame, fun _ _ _ => .cons rfl trivial⟩

/-- A store outside the page stays one. -/
theorem StoresOut.more (hout : StoresOut p q) (hmore : MoreStores q t) :
    StoresOut p t := by
  obtain ⟨l, hl, va, hva, hva'⟩ := hout
  obtain ⟨l', hl', -⟩ := hmore
  exact ⟨l' ++ l, by rw [hl', hl, List.append_assoc], va,
    List.mem_append_right _ hva, hva'⟩

/-- It does not matter what comes behind a store outside the page. -/
theorem StoresOut.wp {α : Type} {f : ProcM α} {Q : α → Proc → Prop}
    (hf : Prog.Keeps MoreStores f) (hout : StoresOut p q)
    (hQ : ∀ x t, StoresOut p t → Q x t) :
    Prog.wp f Q (fun _ => True) (fun _ _ => True) q :=
  hf.wp (fun _ _ h => hQ _ _ (hout.more h)) (fun _ _ => trivial)
    fun _ _ _ => trivial

/-- All stores have been in the page, whatever they were. -/
def Tame (b t : Proc) : Prop := ∃ page, Paged b page t

/-- A store in the page, or outside, if it does not fault. -/
theorem wp_storeByte_tame {Q : Unit → Proc → Prop} (hq : Tame b q)
    (hin : ∀ t, InPage va → Tame b t → Q () t)
    (hout : ∀ t, StoresOut b t → Q () t) :
    Prog.wp (storeByte va c) Q (fun _ => True) (fun _ _ => True) q := by
  obtain ⟨page, hq⟩ := hq
  by_cases hva : InPage va
  · obtain ⟨t, ht, hp⟩ := storeByte_paged (c := c) hq hva
    rw [utemp_off] at ht
    exact Prog.wp_ret ht (hin t hva ⟨_, hp⟩)
  · obtain ⟨l, hl, -⟩ := hq.stores
    refine wp_storeByte (fun _ => hout _ ?_) fun _ => trivial
    exact ⟨va :: l, congrArg _ hl, va, List.mem_cons_self, hva⟩

theorem wp_storeWord_tame (va v : Word) (hq : Tame b q) :
    Prog.wp (storeWord va v) (fun _ t => StoresOut b t ∨ Tame b t)
      (fun _ => True) (fun _ _ => True) q := by
  have hmore : ∀ va c, Prog.Keeps MoreStores (storeByte va c) :=
    fun va c => MoreStores.frame.storeByte va c
  have hout3 : ∀ {t}, StoresOut b t →
      Prog.wp (storeByte (va + 3) (v.extractLsb' 24 8))
      (fun _ t => StoresOut b t ∨ Tame b t) (fun _ => True)
        (fun _ _ => True) t :=
    fun h => h.wp (hmore _ _) fun _ _ => .inl
  have hout2 : ∀ {t}, StoresOut b t → Prog.wp (do
      storeByte (va + 2) (v.extractLsb' 16 8)
      storeByte (va + 3) (v.extractLsb' 24 8))
      (fun _ t => StoresOut b t ∨ Tame b t) (fun _ => True)
        (fun _ _ => True) t :=
    fun h => h.wp (.bind MoreStores.frame.trans (hmore _ _) fun _ => hmore _ _)
      fun _ _ => .inl
  have hout1 : ∀ {t}, StoresOut b t → Prog.wp (do
      storeByte (va + 1) (v.extractLsb' 8 8)
      storeByte (va + 2) (v.extractLsb' 16 8)
      storeByte (va + 3) (v.extractLsb' 24 8))
      (fun _ t => StoresOut b t ∨ Tame b t) (fun _ => True)
        (fun _ _ => True) t :=
    fun h => h.wp (.bind MoreStores.frame.trans (hmore _ _) fun _ =>
      .bind MoreStores.frame.trans (hmore _ _) fun _ =>
        hmore _ _) fun _ _ => .inl
  refine Prog.wp_bind_intro
    (wp_storeByte_tame hq (fun t _ ht => ?_) fun t ht => hout1 ht)
  refine Prog.wp_bind_intro
    (wp_storeByte_tame ht (fun t _ ht => ?_) fun t ht => hout2 ht)
  refine Prog.wp_bind_intro
    (wp_storeByte_tame ht (fun t _ ht => ?_) fun t ht => hout3 ht)
  exact wp_storeByte_tame ht (fun t _ ht => .inr ht) fun t ht => .inl ht

theorem wp_strcpyLoop_tame {dst : Word} (hq : Tame b q) (hs : StrAt b src s)
    (hout : ∀ j ≤ s.length, ¬InPage (src + BitVec.ofNat 32 j))
    (hk : s.length < k) :
    Prog.wp (strcpyLoop k dst src)
      (fun _ t => StoresOut b t ∨ Tame b t ∧ ∀ j ≤ s.length,
        InPage (dst + BitVec.ofNat 32 j))
      (fun _ => True) (fun _ _ => True) q := by
  have hmore : ∀ k dst src, Prog.Keeps MoreStores (strcpyLoop k dst src) :=
    MoreStores.frame.strcpyLoop
  induction s generalizing dst src q k with
  | nil =>
      obtain ⟨k, rfl⟩ := Nat.exists_eq_add_of_lt hk
      have hnul : q.mem src = 0 := by
        obtain ⟨page, hp⟩ := hq
        have h := (hp.strAt hs hout).nul
        rwa [List.length_nil, BitVec.add_zero] at h
      rw [List.length_nil, Nat.zero_add, strcpyLoop]
      refine Prog.wp_ask_bind (Prog.wp_bind_intro ?_)
      rw [hnul, if_neg (not_not.mpr rfl)]
      refine wp_storeByte_tame hq
        (fun t hdst ht => Prog.wp_pure_intro (.inr ⟨ht, fun j hj => ?_⟩))
        fun t ht => Prog.wp_pure_intro (.inl ht)
      obtain rfl : j = 0 := Nat.le_zero.mp hj
      rwa [BitVec.add_zero]
  | cons c s ih =>
      obtain ⟨k, rfl⟩ := Nat.exists_eq_add_of_lt hk
      have hshift : ∀ (va : Word) j, va + 1 + BitVec.ofNat 32 j =
          va + BitVec.ofNat 32 (j + 1) := fun va j => by
        rw [Nat.add_comm j 1]
        exact ofNat_succ_add va 1 j
      have hbyte : q.mem src = c := by
        obtain ⟨page, hp⟩ := hq
        have h := (hp.strAt hs hout).byte 0 (Nat.zero_lt_succ _)
        rwa [BitVec.add_zero] at h
      have hs' : StrAt b (src + 1) s := by
        refine ⟨fun j hj => ?_, fun j hj => hs.ne (j + 1)
          (Nat.succ_lt_succ hj), ?_⟩
        · rw [hshift]
          exact hs.byte (j + 1) (Nat.succ_lt_succ hj)
        · rw [hshift]
          exact hs.nul
      have hout' : ∀ j ≤ s.length, ¬InPage (src + 1 + BitVec.ofNat 32 j) :=
        fun j hj => by
        rw [hshift]
        exact hout (j + 1) (Nat.succ_le_succ hj)
      rw [List.length_cons, strcpyLoop]
      refine Prog.wp_ask_bind (Prog.wp_bind_intro ?_)
      rw [hbyte, if_pos (show c ≠ 0 from hs.ne 0 (Nat.zero_lt_succ _))]
      refine wp_storeByte_tame hq (fun t hdst ht => ?_) fun t ht =>
        ht.wp (hmore _ _ _) fun _ _ => .inl
      refine Prog.wp_imp (ih ht hs' hout' (by omega))
        (fun _ u hu => hu.imp_right fun hu => ⟨hu.1, fun j hj => ?_⟩)
        (fun _ h => h) fun _ _ h => h
      cases j with
      | zero => rwa [BitVec.add_zero]
      | succ j =>
          rw [← hshift]
          exact hu.2 j (Nat.le_of_succ_le_succ hj)

/-- As long as all stores are in the page, the strings have been copied there
one behind the other. -/
theorem wp_copyArgs_tame {store base : Word} (hargs : Args b argv ss)
    (hq : Tame b q) (hi : i + k = ss.length)
    (hbase : ∀ j < strSize (ss.take i), InPage (base + BitVec.ofNat 32 j)) :
    Prog.wp (copyArgs argv store k i
      (base + BitVec.ofNat 32 (strSize (ss.take i))))
      (fun _ t => StoresOut b t ∨ ∀ j < strSize ss,
        InPage (base + BitVec.ofNat 32 j))
      (fun _ => True) (fun _ _ => True) q := by
  induction k generalizing i q with
  | zero =>
      obtain rfl : i = ss.length := hi
      rw [List.take_length] at hbase
      exact Prog.wp_pure_intro (.inr hbase)
  | succ k ih =>
      have hlt : i < ss.length := by omega
      have hout := hargs.str_apart i hlt
      have hword : ∀ {t}, Tame b t →
          t.word (entry argv i) = b.word (entry argv i) :=
        fun ⟨_, hp⟩ => hp.word_out (hargs.array_apart i hlt.le)
      have hrest : ∀ {t : Proc} (str : Word), StoresOut b t → Prog.wp (do
          let p ← Prog.ask
          let len ← strlen (p.word (entry argv i))
          copyArgs argv store k (i + 1) (str + len + 1))
          (fun _ t => StoresOut b t ∨ ∀ j < strSize ss,
            InPage (base + BitVec.ofNat 32 j))
          (fun _ => True) (fun _ _ => True) t := fun str h =>
        h.wp (.bind MoreStores.frame.trans (.ask MoreStores.frame.refl) fun _ =>
          .bind MoreStores.frame.trans (MoreStores.frame.strlen _) fun _ =>
            MoreStores.frame.copyArgs _ _ _ _ _)
          fun _ _ => .inl
      refine Prog.wp_bind_intro (Prog.wp_imp (wp_storeWord_tame _ _ hq)
        (fun _ t ht => ?_) (fun _ h => h) fun _ _ h => h)
      rcases ht with ht | ht
      · exact ht.wp (.bind MoreStores.frame.trans
          (.ask MoreStores.frame.refl) fun _ =>
          .bind MoreStores.frame.trans (MoreStores.frame.strcpy _ _) fun _ =>
          .bind MoreStores.frame.trans (.ask MoreStores.frame.refl) fun _ =>
          .bind MoreStores.frame.trans (MoreStores.frame.strlen _) fun _ =>
            MoreStores.frame.copyArgs _ _ _ _ _)
          fun _ _ => .inl
      · refine Prog.wp_ask_bind (Prog.wp_bind_intro ?_)
        rw [hword ht]
        refine Prog.wp_imp (wp_strcpyLoop_tame ht (hargs.str i hlt) hout
          (hargs.str i hlt).lt) (fun _ u hu => ?_)
          (fun _ h => h) fun _ _ h => h
        rcases hu with hu | ⟨hu, hcopied⟩
        · exact hrest _ hu
        · refine Prog.wp_ask_bind (Prog.wp_bind_intro ?_)
          rw [hword hu]
          obtain ⟨page, hp⟩ := hu
          refine Prog.wp_ret (strlen_ret (hp.strAt (hargs.str i hlt) hout)) ?_
          have hnext := ih (i := i + 1) ⟨page, hp⟩ (by omega) fun j hj => ?_
          · rw [strSize_take_succ hlt, ← ofNat_succ_add,
              ← ofNat_succ_add] at hnext
            exact hnext
          · rw [strSize_take_succ hlt] at hj
            rcases Nat.lt_or_ge j (strSize (ss.take i)) with hj' | hj'
            · exact hbase j hj'
            · have hin := hcopied (j - strSize (ss.take i)) (by omega)
              rwa [ofNat_succ_add, Nat.add_sub_cancel' hj'] at hin

/-- More bytes than a page has do not fit a page. -/
theorem exists_not_inPage {base : Word} {n : Nat} (hn : PGSIZE < n) :
    ∃ j < n, ¬InPage (base + BitVec.ofNat 32 j) := by
  by_contra hall
  push Not at hall
  have h0 : (base - UTEMP).toNat < 4096 := by
    have h := hall 0 (by omega)
    rwa [BitVec.add_zero] at h
  have hend :=
    hall (4096 - (base - UTEMP).toNat) (by simp only [PGSIZE] at hn; omega)
  rw [InPage, add_sub_right_comm, BitVec.toNat_add, BitVec.toNat_ofNat] at hend
  simp only [PGSIZE] at hend
  omega

/-- Strings that are larger than the page are written outside it, however that
ends. -/
theorem wp_layOut_out {argc : Nat} {size : Word} (hargs : Args b argv ss)
    (hq : Tame b q) (hargc : argc = ss.length)
    (hlarge : PGSIZE < strSize ss) :
    Prog.wp (layOut argv argc size) (fun _ => StoresOut b) (fun _ => True)
      (fun _ _ => True) q := by
  subst hargc
  have hcopy := @wp_copyArgs_tame _ _ _ _ 0 _ (argvStore ss.length size)
    (stringStore size) hargs hq
    (Nat.zero_add _) fun j hj => absurd hj (Nat.not_lt_zero j)
  rw [List.take_zero, show strSize [] = 0 from rfl, BitVec.add_zero] at hcopy
  refine Prog.wp_bind_intro
    (Prog.wp_imp hcopy (fun str t ht => ?_) (fun _ h => h) fun _ _ h => h)
  have hout : StoresOut b t := ht.resolve_right fun hall => by
    obtain ⟨j, hj, hno⟩ := @exists_not_inPage (stringStore size) _ hlarge
    exact hno (hall j hj)
  refine hout.wp ?_ fun _ _ h => h
  refine .bind MoreStores.frame.trans (MoreStores.frame.storeWord _ _) fun _ =>
    .ite (.halt MoreStores.frame.refl _) ?_
  exact .bind MoreStores.frame.trans (MoreStores.frame.storeWord _ _) fun _ =>
    .bind MoreStores.frame.trans (MoreStores.frame.storeWord _ _) fun _ =>
      .pure MoreStores.frame.refl _

/-! ## All of `init_stack` -/

theorem initStack_args (hargs : Args p argv ss) :
    initStack h child argv p =
      makeStack h child argv ss.length (BitVec.ofNat 32 (strSize ss)) p := by
  rw [initStack, Prog.bind_ret (countArgs_all hargs)]

theorem Args.asked {x : Call} {r : Answer} (hargs : Args p argv ss) :
    Args (p.asked x r) argv ss where
  ptr := hargs.ptr
  str j hj := ⟨(hargs.str j hj).byte, (hargs.str j hj).ne, (hargs.str j hj).nul⟩
  last := hargs.last
  array_apart := hargs.array_apart
  str_apart := hargs.str_apart

theorem withPage_paged (halloc : ¬(h p.trace allocStack).ret.slt 0) :
    Paged (p.asked allocStack (h p.trace allocStack)) (fun _ => 0)
      (withPage h p) := by
  refine ⟨rfl, rfl, .refl _, fun o ho => ?_⟩
  have hpages : (withPage h p).pages =
      Function.update p.pages (ppn UTEMP) (PTE_P ||| PTE_U ||| PTE_W) :=
    pagesAfter_alloc halloc
  simp only [PGSIZE] at ho
  have hoff : (UTEMP + BitVec.ofNat 32 o).toNat = 4194304 + o := by
    rw [BitVec.toNat_add, BitVec.toNat_ofNat, show UTEMP.toNat =
      4194304 from rfl]
    omega
  have hpage : ppn (UTEMP + BitVec.ofNat 32 o) = ppn UTEMP := by
    rw [ppn, ppn, BitVec.toNat_ushiftRight, BitVec.toNat_ushiftRight, hoff,
      show UTEMP.toNat = 4194304 from rfl, Nat.shiftRight_eq_div_pow,
        Nat.shiftRight_eq_div_pow]
    omega
  refine ⟨BitVec.lt_def.mpr ?_, ?_, ?_⟩
  · rw [hoff, show UTOP.toNat = 4005560320 from rfl]
    omega
  · rw [hpages, hpage, Function.update_self]
    decide
  · rw [hpages, hpage, Function.update_self]
    decide

theorem makeStack_small {argc : Nat} {size : Word}
    (htest : argvStore argc size - 8 < UTEMP) :
    makeStack h child argv argc size p = .ret ⟨-E_NO_MEM, 0⟩ p := by
  rw [makeStack, if_pos htest]
  rfl

theorem makeStack_noPage {argc : Nat} {size : Word}
    (htest : ¬argvStore argc size - 8 < UTEMP)
    (hbad : (h p.trace allocStack).ret.slt 0) :
    makeStack h child argv argc size p =
      .ret ⟨(h p.trace allocStack).ret, 0⟩
        (p.asked allocStack (h p.trace allocStack)) := by
  have halloc : allocPage h 0 UTEMP (PTE_P ||| PTE_U ||| PTE_W) p =
      .ret (h p.trace allocStack).ret
        (p.asked allocStack (h p.trace allocStack)) := by
    rw [allocPage, Prog.bind_ret call_apply,
      if_neg (by simpa [allocStack] using hbad)]
    rfl
  rw [makeStack, if_neg htest, Prog.bind_ret halloc, if_pos hbad]
  rfl

theorem makeStack_page {argc : Nat} {size : Word}
    (htest : ¬argvStore argc size - 8 < UTEMP)
    (hok : ¬(h p.trace allocStack).ret.slt 0) :
    makeStack h child argv argc size p =
      (layOut argv argc size >>= handStack h child) (withPage h p) := by
  have halloc : allocPage h 0 UTEMP (PTE_P ||| PTE_U ||| PTE_W) p =
      .ret (h p.trace allocStack).ret (withPage h p) := by
    rw [allocPage, Prog.bind_ret call_apply,
      if_pos ⟨by simpa [allocStack] using hok, rfl⟩]
    rfl
  rw [makeStack, if_neg htest, Prog.bind_ret halloc, if_neg hok]

/-- The page is one of the caller. -/
theorem noChild_alloc {r : Answer} : NoChild p (p.asked allocStack r) :=
  .asked fun hx => hx.1 rfl

/-- Nothing is stored once the arguments are laid out. -/
theorem handStack_ret (esp : Word) :
    ∃ s u, handStack h child esp t = .ret s u ∧ s.esp = esp ∧ u.mem = t.mem ∧
    u.stores = t.stores := by
  rw [handStack, Prog.bind_ret call_apply]
  split
  · exact ⟨_, _, rfl, rfl, rfl, rfl⟩
  · rw [Prog.bind_ret call_apply]
    split <;> exact ⟨_, _, rfl, rfl, rfl, rfl⟩

theorem Encodes.congr {page' : Bytes} {esp : Word}
    (henc : Encodes page esp ss o a) (hsame : ∀ j < PGSIZE, page' j = page j) :
    Encodes page' esp ss o a := by
  have hlow := henc.low
  have harray := henc.array
  have hword : ∀ j, j + 4 ≤ PGSIZE → page'.load32 j = page.load32 j :=
    fun j hj =>
    Bytes.load32_congr fun k _ hk => hsame k (by omega)
  refine ⟨henc.esp_eq, hlow, ?_, ?_, harray, fun j hj => ?_, ?_⟩
  · exact (hword o (by omega)).trans henc.argc
  · exact (hword (o + 4) (by omega)).trans henc.argv
  · obtain ⟨x, hload, hx, hstr⟩ := henc.entries j hj
    exact ⟨x, (hword _ (by omega)).trans hload, hx, fun k hk =>
      (hsame _ (by omega)).trans (hstr k hk)⟩
  · exact (hword _ (by omega)).trans henc.null

/-- A block that does not fit and that the test lets through has strings that
are larger than the page. -/
theorem strSize_large (hfit : ¬blockSize ss ≤ PGSIZE)
    (htest : ¬argvStore ss.length (BitVec.ofNat 32 (strSize ss)) - 8 < UTEMP) :
    PGSIZE < strSize ss := by
  by_contra hsize
  have hlen := length_le_strSize ss
  have hstore := @argvStore_toNat ss (by omega) (by omega)
  simp only [blockSize, PGSIZE] at hfit hsize
  refine htest (BitVec.lt_def.mpr ?_)
  rw [BitVec.toNat_sub, hstore, show (8 : Word).toNat = 8 from rfl,
    show UTEMP.toNat = 4194304 from rfl]
  omega

/-- Once the page is there, strings that are larger are no good. -/
theorem not_stackOk (hargs : Args p argv ss) (hlarge : PGSIZE < strSize ss)
    (htest : ¬argvStore ss.length (BitVec.ofNat 32 (strSize ss)) - 8 < UTEMP)
    (halloc : ¬(h p.trace allocStack).ret.slt 0) :
    ¬StackOk h child argv ss p := by
  have hargs' : Args (p.asked allocStack (h p.trace allocStack)) argv ss :=
    hargs.asked
  rw [StackOk, initStack_args hargs, makeStack_page htest halloc]
  rintro ⟨s, u, hret, hin, -⟩
  obtain ⟨esp, t, ht, hu⟩ := Prog.bind_eq_ret.mp hret
  -- the strings have been stored, not all in the page
  have hlay := @wp_layOut_out _ _ _ _ _ (BitVec.ofNat 32 (strSize ss)) hargs'
    ⟨_, withPage_paged halloc⟩ rfl hlarge
  obtain ⟨l, hl, va, hva, hout⟩ := hlay.ret ht
  obtain ⟨s', u', hu', -, -, hstores⟩ := @handStack_ret h t child esp
  rw [hu] at hu'
  cases hu'
  exact hin.not_out ⟨l, hstores.trans hl, va, hva, hout⟩

/-- A block that fits is laid out in the page, and nowhere else. -/
theorem initStack_lays (hargs : Args p argv ss) (hfit : blockSize ss ≤ PGSIZE)
    (htest : ¬argvStore ss.length (BitVec.ofNat 32 (strSize ss)) - 8 < UTEMP)
    (halloc : ¬(h p.trace allocStack).ret.slt 0) :
    ∃ s t u, initStack h child argv p = .ret s u ∧
    s.esp = STACK + BitVec.ofNat 32 (arrayOff ss - 8) ∧
      Paged (p.asked allocStack (h p.trace allocStack))
        (argPage ss fun _ => 0) t ∧
      u.mem = t.mem ∧ u.stores = t.stores := by
  obtain ⟨t, ht, hp⟩ := layOut_paged (hargs.asked (x := allocStack))
    (withPage_paged halloc) hfit
  obtain ⟨s, u, hu, hesp, hmem, hstores⟩ := @handStack_ret h t child
    (STACK + BitVec.ofNat 32 (arrayOff ss - 8))
  refine ⟨s, t, u, ?_, hesp, hp, hmem, hstores⟩
  rw [initStack_args hargs, makeStack_page htest halloc, Prog.bind_ret ht, hu]

/-- `init_stack` does what it is for just when the block fits the page, or
something refuses it. -/
theorem stackOk_iff (hargs : Args p argv ss) :
    StackOk h child argv ss p ↔ StackFits h ss p := by
  by_cases htest :
    argvStore ss.length (BitVec.ofNat 32 (strSize ss)) - 8 < UTEMP
  · refine iff_of_true ⟨⟨-E_NO_MEM, 0⟩, p, ?_, .refl p,
      .inl ⟨(by decide), .refl p⟩⟩
      (.inr (.inl htest))
    exact (initStack_args hargs).trans (makeStack_small htest)
  by_cases halloc : (h p.trace allocStack).ret.slt 0
  · refine iff_of_true ⟨⟨_, 0⟩, p.asked allocStack (h p.trace allocStack), ?_,
      .of_same rfl,
      .inl ⟨halloc, noChild_alloc⟩⟩ (.inr (.inr halloc))
    exact (initStack_args hargs).trans (makeStack_noPage htest halloc)
  by_cases hfit : blockSize ss ≤ PGSIZE
  · refine iff_of_true ?_ (.inl hfit)
    obtain ⟨s, t, u, hret, hesp, hp, hmem, hstores⟩ :=
      @initStack_lays _ _ _ child _ hargs hfit htest halloc
    refine ⟨s, u, hret, hp.stores.trans _ _ _ (.of_same hstores),
      .inr ⟨arrayOff ss - 8, arrayOff ss, ?_⟩⟩
    rw [hesp, hmem]
    exact (argPage_encodes _ hfit).congr fun j hj => hp.inside hj
  · refine iff_of_false (not_stackOk hargs (strSize_large hfit htest) htest
      halloc) ?_
    rintro (hfit' | htest' | halloc')
    · exact hfit hfit'
    · exact htest htest'
    · exact halloc halloc'

/-- Arguments that fit the page are not copied over `elf_buf`. -/
theorem aboveSame_of_fit {s : Stacked} (hargs : Args p argv ss)
    (hfit : blockSize ss ≤ PGSIZE)
    (hret : initStack h child argv p = .ret s t) (hok : ¬s.ret.slt 0) :
    AboveSame p t := by
  by_cases htest :
    argvStore ss.length (BitVec.ofNat 32 (strSize ss)) - 8 < UTEMP
  · rw [initStack_args hargs, makeStack_small htest] at hret
    cases hret
    exact absurd (by decide) hok
  by_cases halloc : (h p.trace allocStack).ret.slt 0
  · rw [initStack_args hargs, makeStack_noPage htest halloc] at hret
    cases hret
    exact absurd halloc hok
  obtain ⟨s', q, u, hret', -, hp, hmem, -⟩ :=
    @initStack_lays _ _ _ child _ hargs hfit htest halloc
  rw [hret] at hret'
  cases hret'
  intro a ha
  rw [hmem]
  refine hp.out fun hin => ?_
  rw [InPage, BitVec.toNat_sub_of_le (BitVec.le_def.mpr (by omega))] at hin
  omega

/-- With such arguments all depends on the headers that the file has. -/
theorem headersFit_of_fit {elfBuf prog : Word} (hbuf : BufOnStack elfBuf)
    (hfit : blockSize ss ≤ PGSIZE)
    (hargs : ∀ fd elf q, HasMagic h elfBuf prog p fd elf q →
      Args (forked h q) argv ss) :
    HeadersFit h elfBuf prog argv p ↔
      ∀ fd elf q, HasMagic h elfBuf prog p fd elf q → Inside q elf ∨
      NotStarted h argv q := by
  refine ⟨HeadersFit.file, fun hfile => ⟨hfile, ?_⟩⟩
  rintro fd elf q child esp u hstack hchanged
  obtain ⟨r, hret, hok⟩ := hstack.stack
  have habove :=
    aboveSame_of_fit (hargs fd elf q hstack.toHasMagic) hfit hret hok
  obtain rfl := image_at hbuf hstack.toHasMagic
  rcases hchanged with hchanged | hchanged
  · exact absurd (phoff_above hbuf habove) hchanged
  · exact absurd (phnum_above hbuf habove) hchanged

end

/-- A process with one argument, of `n` letters, and with pages for it and for
`argv`. -/
def oneArg (n : Nat) : Proc :=
  { unmapped with
    mem := fun va =>
      if va.toNat < 0x10000000 then
        Bytes.store32 (fun _ => 0) 0x800000 0x10000000 va.toNat
      else if va.toNat < 0x10000000 + n then 0x61 else 0
    pages := fun pn =>
      if pn = 0x800 ∨ 0x10000 ≤ pn ∧ pn ≤ 0x10000 + n / PGSIZE then
        PTE_P ||| PTE_U ||| PTE_W else 0 }

theorem oneArg_args {n : Nat} (hn : n ≤ 2 ^ 24) :
    Args (oneArg n) 0x800000#32 [List.replicate n 0x61#8] := by
  have hptr : (oneArg n).word (entry 0x800000#32 0) = 0x10000000#32 := by
    simp [oneArg, Proc.word, bytesAt, Bytes.load32, Bytes.store32, entry]
  have hnull : (oneArg n).word (entry 0x800000#32 1) = 0 := by
    simp [oneArg, Proc.word, bytesAt, Bytes.load32, Bytes.store32, entry]
  have haddr : ∀ j ≤ n, (0x10000000#32 + BitVec.ofNat 32 j).toNat =
      0x10000000 + j := fun j hj => by
    rw [BitVec.toNat_add, BitVec.toNat_ofNat, BitVec.toNat_ofNat]
    omega
  have letter : ∀ j < n, (oneArg n).mem (0x10000000#32 + BitVec.ofNat 32 j) =
      0x61 := fun j hj => by
    simp only [oneArg, haddr j hj.le]
    rw [if_neg (by omega), if_pos (by omega)]
  constructor
  case ptr =>
    intro i hi
    obtain rfl : i = 0 := by simpa using hi
    rw [hptr]
    decide
  case str =>
    intro i hi
    obtain rfl : i = 0 := by simpa using hi
    rw [hptr]
    refine ⟨fun j hj => ?_, fun j hj => ?_, ?_⟩
    · rw [List.getElem_cons_zero, List.length_replicate] at hj
      rw [letter j hj]
      simp
    · simp
    · rw [List.getElem_cons_zero, List.length_replicate, oneArg]
      simp only [haddr n le_rfl]
      rw [if_neg (by omega), if_neg (by omega)]
  case last => exact hnull
  case array_apart =>
    intro i hi k hk
    have hi : i ≤ 1 := hi
    interval_cases i <;> interval_cases k <;> decide
  case str_apart =>
    intro i hi j hj
    obtain rfl : i = 0 := by simpa using hi
    rw [List.getElem_cons_zero, List.length_replicate] at hj
    rw [hptr, InPage, BitVec.toNat_sub, haddr j hj, show UTEMP.toNat =
      4194304 from rfl]
    simp only [PGSIZE]
    omega

theorem stackOk_oneArg :
    StackOk obliging 0x1001#32 0x800000#32 [List.replicate 2 0x61#8]
      (oneArg 2) :=
  (stackOk_iff (oneArg_args (by decide))).mpr (.inl (by decide))

/-- An argument of eight megabytes passes the test, and the first store, to
`argv_store[0]`, faults: it is at `0xffc00ff4`, in the kernel. -/
theorem stack_overrun :
    initStack obliging 0x1001#32 0x800000#32 (oneArg (2 ^ 23)) =
        .stop (.fault 0xffc00ff4#32 true)
          (withPage obliging (oneArg (2 ^ 23))) ∧
      ¬StackOk obliging 0x1001#32 0x800000#32 [List.replicate (2 ^ 23) 0x61#8]
        (oneArg (2 ^ 23)) := by
  have hsize : strSize [List.replicate (2 ^ 23) 0x61#8] = 2 ^ 23 + 1 := by
    rw [strSize_cons, List.length_replicate]
    rfl
  have hargs :
      Args (oneArg (2 ^ 23)) 0x800000#32 [List.replicate (2 ^ 23) 0x61#8] :=
    oneArg_args (by decide)
  have hfault : ¬(withPage obliging (oneArg (2 ^ 23))).CanStore 0xffc00ff4#32 :=
    fun hcan => absurd hcan.1 (by decide)
  have hrun : initStack obliging 0x1001#32 0x800000#32 (oneArg (2 ^ 23)) =
      .stop (.fault 0xffc00ff4#32 true)
        (withPage obliging (oneArg (2 ^ 23))) := by
    rw [initStack_args hargs, hsize, List.length_singleton,
      makeStack_page (by decide) (by decide)]
    refine Prog.bind_stop (Prog.bind_stop (Prog.bind_stop (Prog.bind_stop ?_)))
    exact storeByte_fault hfault
  refine ⟨hrun, ?_⟩
  rintro ⟨s, t, hret, -⟩
  rw [hrun] at hret
  cases hret

end Spawn

end Jos
