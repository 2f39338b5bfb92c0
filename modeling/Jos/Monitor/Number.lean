import Mathlib.Data.Nat.Digits.Defs
import Jos.Lib.Prog
import Jos.Lib.Bytes
import Jos.Kern.State

/-!
# The numbers on the monitor's command line

`atol` of kern/monitor.c, over the memory from its argument on and with the
offsets it reads.

`atol` takes a character before it looks at it. That is harmless for the blanks,
the sign and the digits, where the character taken last is the one that ends the
loop. At base 16 two characters are taken for `0x` whatever they are, and every
letter counts as a digit at either base. The run is described with what is left
of the string (`At`), and the value with the digits in it (`numeral`).
-/

namespace Jos

/-- How a command of the monitor does not return. -/
inductive MonStop where
  /-- The kernel stops in a function that the command calls. -/
  | kernel (r : Stop)
  /-- A loop goes round all addresses. -/
  | endless
deriving DecidableEq

/-- A program that reads characters. The state is the offsets it has read. -/
abbrev ScanM (α : Type) : Type := Prog (List Nat) MonStop α

/-- `*p`, where `str` is the memory from the argument on. -/
def readChar (str : Bytes) (p : Nat) : ScanM (BitVec 8) := do
  Prog.update fun log => p :: log
  pure (str p)

def isspace (c : BitVec 8) : Bool := c == 0x20

/-- A loop that has read this many characters in a row goes round all
addresses. -/
def NADDR : Nat := 2 ^ 32

/-- `while (isspace(*nptr)) ++nptr`. -/
def skipBlanks (str : Bytes) : Nat → Nat → ScanM Nat
  | 0, _ => Prog.halt .endless
  | n + 1, p => do
      if isspace (← readChar str p) then
        skipBlanks str n (p + 1)
      else
        pure p

/-- What `atol` adds for a character, unless it stops there. -/
def digitOf (c : BitVec 8) : Option Nat :=
  if 0x30 ≤ c ∧ c ≤ 0x39 then some (c.toNat - 0x30)
  else if 0x61 ≤ c ∧ c ≤ 0x7A then some (c.toNat - 0x61 + 10)
  else if 0x41 ≤ c ∧ c ≤ 0x5A then some (c.toNat - 0x41 + 10)
  else none

/-- The loop over the digits, at the character `c` with `nptr` behind it. -/
def atolLoop (str : Bytes) (base : Nat) :
    Nat → BitVec 8 → Nat → Word → ScanM Word
  | 0, _, _, _ => Prog.halt .endless
  | n + 1, c, nptr, total =>
      if isspace c then
        pure total
      else
        match digitOf c with
        | none => pure total
        | some k => do
            let c ← readChar str nptr
            atolLoop str base n c (nptr + 1) (BitVec.ofNat 32 base * total +
            BitVec.ofNat 32 k)

/-- `if (c == '-' || c == '+') c = *nptr++`. -/
def skipSign (str : Bytes) (c : BitVec 8) (nptr : Nat) :
    ScanM (BitVec 8 × Nat) := do
  if c = 0x2D#8 ∨ c = 0x2B#8 then
    let c ← readChar str nptr
    pure (c, nptr + 1)
  else
    pure (c, nptr)

/-- The two characters that base 16 takes for `0x`. -/
def skipPrefix (str : Bytes) (base : Nat) (c : BitVec 8) (nptr : Nat) :
    ScanM (BitVec 8 × Nat) := do
  if base = 16 then
    let _ ← readChar str nptr
    let c ← readChar str (nptr + 1)
    pure (c, nptr + 2)
  else
    pure (c, nptr)

/-- `atol`. -/
def atol (str : Bytes) (base : Nat) : ScanM Word := do
  let p ← skipBlanks str NADDR 0
  let sign ← readChar str p
  let (c, nptr) ← skipSign str sign (p + 1)
  let (c, nptr) ← skipPrefix str base c nptr
  let total ← atolLoop str base NADDR c nptr 0
  pure (if sign = 0x2D#8 then -total else total)

def atoi (str : Bytes) : ScanM Word := atol str 10

def atox (str : Bytes) : ScanM Word := atol str 16

/-! ## What the string says -/

/-- The digits of `base` at the start of `r`. -/
def digitsIn (base : Nat) (r : List (BitVec 8)) : List (BitVec 8) :=
  r.takeWhile fun c => (digitOf c).any (· < base)

/-- The characters at the start of `r` that `atol` does not stop at. -/
def lettersIn (r : List (BitVec 8)) : List (BitVec 8) :=
  r.takeWhile fun c => (digitOf c).isSome

/-- The number with these digits, the last of which is the lowest. -/
def numeral (base : Nat) (ds : List (BitVec 8)) : Nat :=
  Nat.ofDigits base (ds.filterMap digitOf).reverse

/-- What follows an optional sign. -/
def afterSign : List (BitVec 8) → List (BitVec 8)
  | [] => []
  | c :: r => if c = 0x2D#8 ∨ c = 0x2B#8 then r else c :: r

/-- What follows an optional `0x`, at base 16. -/
def afterPrefix (base : Nat) (r : List (BitVec 8)) : List (BitVec 8) :=
  if base = 16 ∧ r.take 2 = [0x30, 0x78] then r.drop 2 else r

/-- What follows the characters that are taken for `0x`, at base 16. -/
def afterTaken (base : Nat) (r : List (BitVec 8)) : List (BitVec 8) :=
  if base = 16 then r.drop 2 else r

/-- What follows the blanks and the sign. -/
def unsigned (s : List (BitVec 8)) : List (BitVec 8) :=
  afterSign (s.dropWhile isspace)

/-- `n` with the sign of `s`. -/
def signedAs (s : List (BitVec 8)) (n : Nat) : Word :=
  if (s.dropWhile isspace).head? = some 0x2D#8 then -BitVec.ofNat 32 n else
    BitVec.ofNat 32 n

/-- The rest `r` of a string, with its NUL, is at `p`. -/
def At (str : Bytes) : Nat → List (BitVec 8) → Prop
  | p, [] => str p = 0
  | p, c :: r => str p = c ∧ At str (p + 1) r

/-- `str` is the memory from the string `s` on, which has its NUL among all the
addresses there are. -/
structure IsStr (str : Bytes) (s : List (BitVec 8)) : Prop where
  at_zero : At str 0 s
  nul : 0 ∉ s
  fits : s.length < NADDR

/-- `atol` stays inside the string and returns the number it starts with. -/
def Parses (str : Bytes) (s : List (BitVec 8)) (base : Nat) : Prop :=
  ∃ log, atol str base [] = .ret (signedAs s
    (numeral base (digitsIn base (afterPrefix base (unsigned s))))) log ∧
    ∀ i ∈ log, i ≤ s.length

/-- Two characters are there for base 16 to take, and the characters that follow
those spell the number that the digits do. -/
structure Spelled (s : List (BitVec 8)) (base : Nat) : Prop where
  two : base = 16 → 2 ≤ (unsigned s).length
  same : numeral base (lettersIn (afterTaken base (unsigned s))) ≡
    numeral base (digitsIn base (afterPrefix base (unsigned s))) [MOD 2 ^ 32]

/-! ## One run -/

/-- No offset behind `e` has been read. -/
def UpTo (e : Nat) (log : List Nat) : Prop := ∀ i ∈ log, i ≤ e

section

variable {str : Bytes} {base n p q e T : Nat} {c : BitVec 8}
  {r s : List (BitVec 8)} {log : List Nat}

theorem UpTo.cons (h : UpTo e log) (hp : p ≤ e) : UpTo e (p :: log) := by
  intro i hi
  rcases List.mem_cons.mp hi with rfl | hi
  · exact hp
  · exact h i hi

@[simp] theorem readChar_apply :
    readChar str p log = .ret (str p) (p :: log) := rfl

theorem At.char (h : At str p (c :: r)) : str p = c := h.1

theorem At.rest (h : At str p (c :: r)) : At str (p + 1) r := h.2

theorem digitOf_blank (h : isspace c) : digitOf c = none := by
  obtain rfl : c = 0x20 := by simpa [isspace] using h
  rfl

theorem numeral_cons {k : Nat} (h : digitOf c = some k) :
    numeral base (c :: r) = base ^ (r.filterMap digitOf).length * k +
      numeral base r := by
  simp [numeral, h, Nat.ofDigits_append, Nat.add_comm]

/-- The blanks are skipped, and the character behind them has been read. -/
theorem skipBlanks_ret (h : At str p r) (he : p + r.length = e)
    (hn : r.length < n) (hlog : UpTo e log) :
    ∃ q log', skipBlanks str n p log = .ret q log' ∧
    At str q (r.dropWhile isspace) ∧
      q + (r.dropWhile isspace).length = e ∧ UpTo e log' := by
  induction r generalizing p n log with
  | nil =>
      obtain ⟨n, rfl⟩ := Nat.exists_eq_succ_of_ne_zero (Nat.ne_of_gt hn)
      refine ⟨p, p :: log, ?_, h, he, hlog.cons (by omega)⟩
      have hp : str p = 0 := h
      simp [skipBlanks, Prog.bind_apply, hp, isspace]
  | cons c r ih =>
      obtain ⟨n, rfl⟩ :=
        Nat.exists_eq_succ_of_ne_zero (Nat.ne_of_gt (Nat.zero_lt_of_lt hn))
      simp only [List.length_cons] at he hn
      have hlog' : UpTo e (p :: log) := hlog.cons (by omega)
      by_cases hc : isspace c
      · rw [List.dropWhile_cons_of_pos hc]
        obtain ⟨q, log', hret, hq⟩ :=
          ih h.rest (by omega) (by omega : r.length < n) hlog'
        refine ⟨q, log', ?_, hq⟩
        simpa [skipBlanks, Prog.bind_apply, h.char, hc] using hret
      · rw [List.dropWhile_cons_of_neg hc]
        refine ⟨p, p :: log, ?_, h, by simpa using he, hlog'⟩
        simp [skipBlanks, Prog.bind_apply, h.char, hc]

/-- The loop over the digits reads the character behind the letters and none
after it. -/
theorem atolLoop_ret (h : At str p r) (he : p + r.length = e)
    (hn : r.length < n) (hlog : UpTo e log) :
    ∃ log', atolLoop str base n (str p) (p + 1) (BitVec.ofNat 32 T) log =
      .ret (BitVec.ofNat 32 (T * base ^ ((lettersIn r).filterMap
        digitOf).length + numeral base (lettersIn r))) log' ∧
      UpTo e log' := by
  induction r generalizing p n T log with
  | nil =>
      obtain ⟨n, rfl⟩ := Nat.exists_eq_succ_of_ne_zero (Nat.ne_of_gt hn)
      have hp : str p = 0 := h
      have hd : digitOf 0#8 = none := rfl
      exact ⟨log, by simp [atolLoop, hp, isspace, hd, lettersIn, numeral], hlog⟩
  | cons c r ih =>
      obtain ⟨n, rfl⟩ :=
        Nat.exists_eq_succ_of_ne_zero (Nat.ne_of_gt (Nat.zero_lt_of_lt hn))
      simp only [List.length_cons] at he hn
      cases hd : digitOf c with
      | none =>
          refine ⟨log, ?_, hlog⟩
          by_cases hc : isspace c <;> simp [atolLoop, h.char, hc, hd,
            lettersIn, numeral]
      | some k =>
          have hc : isspace c = false := by
            by_contra hc
            simp [digitOf_blank (Bool.of_not_eq_false hc)] at hd
          obtain ⟨log', hret, hlog'⟩ :=
            ih (T := base * T + k) h.rest (by omega) (by omega : r.length < n)
            (hlog.cons (by omega : p + 1 ≤ e))
          refine ⟨log', ?_, hlog'⟩
          have hl : lettersIn (c :: r) = c :: lettersIn r := by
            simp [lettersIn, hd]
          have hk : T * base ^ (((lettersIn r).filterMap digitOf).length + 1) +
              (base ^ ((lettersIn r).filterMap digitOf).length * k +
                numeral base (lettersIn r)) =
              (base * T + k) * base ^ ((lettersIn r).filterMap digitOf).length +
                numeral base (lettersIn r) := by
            ring
          have hT : BitVec.ofNat 32 base * BitVec.ofNat 32 T +
              BitVec.ofNat 32 k = BitVec.ofNat 32 (base * T + k) := by
            simp [BitVec.ofNat_add, BitVec.ofNat_mul]
          rw [hl, numeral_cons hd, List.filterMap_cons_some hd,
            List.length_cons, hk, ← hret]
          simp [atolLoop, h.char, hc, hd, Prog.bind_apply, hT]

/-- After the sign, the character behind it is at hand. -/
theorem skipSign_ret (h : At str p r) (he : p + r.length = e)
    (hlog : UpTo e log) :
    ∃ q log', skipSign str (str p) (p + 1) log = .ret (str q, q + 1) log' ∧
    At str q (afterSign r) ∧
      q + (afterSign r).length = e ∧ UpTo e log' := by
  cases r with
  | nil =>
      have hp : str p = 0 := h
      exact ⟨p, log, by simp [skipSign, hp], h, he, hlog⟩
  | cons c r =>
      simp only [List.length_cons] at he
      rw [h.char]
      by_cases hc : c = 0x2D#8 ∨ c = 0x2B#8
      · rw [show afterSign (c :: r) = r from if_pos hc]
        refine ⟨p + 1, (p + 1) :: log, ?_, h.rest, by omega,
          hlog.cons (by omega)⟩
        rw [skipSign, if_pos hc]
        rfl
      · rw [show afterSign (c :: r) = c :: r from if_neg hc]
        refine ⟨p, log, ?_, h, he, hlog⟩
        rw [skipSign, if_neg hc, h.char]
        rfl

/-- Where base 16 finds its two characters, the one behind them is at hand. -/
theorem skipPrefix_ret (h : At str p r) (he : p + r.length = e)
    (hlog : UpTo e log)
    (htwo : base = 16 → 2 ≤ r.length) :
    ∃ q log', skipPrefix str base (str p) (p + 1) log =
      .ret (str q, q + 1) log' ∧ At str q (afterTaken base r) ∧
      q + (afterTaken base r).length = e ∧ UpTo e log' := by
  by_cases hb : base = 16
  · obtain ⟨c, c', r, rfl⟩ : ∃ c c' r', r = c :: c' :: r' := by
      rcases r with _ | ⟨c, _ | ⟨c', r⟩⟩
      · exact absurd (htwo hb) (by simp)
      · exact absurd (htwo hb) (by simp)
      · exact ⟨c, c', r, rfl⟩
    simp only [List.length_cons] at he
    refine ⟨p + 2, (p + 1 + 1) :: (p + 1) :: log, ?_, ?_, ?_,
      (hlog.cons (by omega)).cons (by omega)⟩
    · simp [skipPrefix, hb, Prog.bind_apply]
    · simpa [afterTaken, hb] using h.rest.rest
    · simp [afterTaken, hb]
      omega
  · exact ⟨p, log, by simp [skipPrefix, hb], by simpa [afterTaken, hb] using h,
      by simpa [afterTaken, hb] using he, hlog⟩

/-- The loop over the digits forgets no read. -/
theorem atolLoop_keeps (n : Nat) (c : BitVec 8) (p : Nat) (total : Word) :
    Prog.Keeps (fun log log' => ∀ i ∈ log, i ∈ log')
      (atolLoop str base n c p total) := by
  induction n generalizing c p total with
  | zero => exact fun log i hi => hi
  | succ n ih =>
      unfold atolLoop
      refine Prog.Keeps.ite (fun log i hi => hi) ?_
      cases digitOf c with
      | none => exact fun log i hi => hi
      | some k => exact fun log i hi => ih _ _ _ _ i (List.mem_cons_of_mem _ hi)

/-- The number that `atol` returns, and that it stays inside the string: at base
16 when there are two characters for `0x`. -/
theorem atol_ret (h : IsStr str s)
    (htwo : base = 16 → 2 ≤ (unsigned s).length) :
    ∃ log, atol str base [] =
      .ret
        (signedAs s (numeral base (lettersIn (afterTaken base (unsigned s)))))
          log ∧ UpTo s.length log := by
  obtain ⟨p, log₁, hblanks, hp, hep, hlog₁⟩ :=
    skipBlanks_ret h.at_zero (Nat.zero_add _)
    (h.fits : s.length < NADDR) (nofun : UpTo s.length [])
  obtain ⟨q, log₂, hsign, hq, heq, hlog₂⟩ :=
    skipSign_ret hp hep (hlog₁.cons (by omega : p ≤ s.length))
  obtain ⟨t, log₃, hprefix, ht, het, hlog₃⟩ := skipPrefix_ret hq heq hlog₂ htwo
  have hfits := h.fits
  obtain ⟨log₄, hloop, hlog₄⟩ := @atolLoop_ret _ base _ _ _ 0 _ _ ht het
    (by omega : (afterTaken base (afterSign (s.dropWhile isspace))).length <
    NADDR) hlog₃
  refine ⟨log₄, ?_, hlog₄⟩
  have hminus : str p = 0x2D#8 ↔ (s.dropWhile isspace).head? = some 0x2D#8 := by
    cases hs : s.dropWhile isspace with
    | nil =>
        rw [hs] at hp
        have hp : str p = 0 := hp
        simp [hp]
    | cons c r =>
        rw [hs] at hp
        simp [hp.char]
  rw [Nat.zero_mul, Nat.zero_add] at hloop
  simp [atol, Prog.bind_apply, hblanks, hsign, hprefix, hloop, hminus,
    signedAs, unsigned]

/-- With fewer characters base 16 reads behind the NUL. -/
theorem atol_short (h : IsStr str s) (hshort : (unsigned s).length < 2) :
    ∃ i, s.length < i ∧ i ∈ (atol str 16 []).state := by
  obtain ⟨p, log₁, hblanks, hp, hep, hlog₁⟩ :=
    skipBlanks_ret h.at_zero (Nat.zero_add _)
    (h.fits : s.length < NADDR) (nofun : UpTo s.length [])
  obtain ⟨q, log₂, hsign, hq, heq, -⟩ :=
    skipSign_ret hp hep (hlog₁.cons (by omega : p ≤ s.length))
  refine ⟨q + 2, by rw [unsigned] at hshort; omega, ?_⟩
  have hloop := @atolLoop_keeps str 16 NADDR (str (q + 2)) (q + 3) 0
    ((q + 2) :: (q + 1) :: log₂) (q + 2) (by simp)
  simp only [atol, Prog.bind_apply, hblanks, hsign, readChar_apply, skipPrefix,
    if_pos, Prog.pure_apply]
  cases hrun : atolLoop str 16 NADDR (str (q + 2)) (q + 3) 0
    ((q + 2) :: (q + 1) :: log₂) <;>
    rw [hrun] at hloop <;> exact hloop

/-- `atol` stays inside its argument and returns the number that the digits
spell if and only if base 16 has its two characters and the letters that are
taken spell that number. -/
theorem atol_parses (h : IsStr str s) (hb : base = 10 ∨ base = 16) :
    Parses str s base ↔ Spelled s base := by
  by_cases htwo : base = 16 → 2 ≤ (unsigned s).length
  · obtain ⟨log, hret, hlog⟩ := atol_ret h htwo
    have hmod : ∀ a b : Nat, signedAs s a = signedAs s b ↔
        a ≡ b [MOD 2 ^ 32] := by
      intro a b
      unfold signedAs
      split <;> simp [← BitVec.toNat_inj, Nat.ModEq]
    constructor
    · rintro ⟨log', hret', -⟩
      rw [hret] at hret'
      injection hret' with hvalue
      exact ⟨htwo, (hmod _ _).mp hvalue⟩
    · intro hs
      exact ⟨log, by rw [hret, (hmod _ _).mpr hs.same], hlog⟩
  · push Not at htwo
    obtain ⟨rfl, hshort⟩ := htwo
    obtain ⟨i, hi, hmem⟩ := atol_short h hshort
    constructor
    · rintro ⟨log, hret, hlog⟩
      rw [hret] at hmem
      exact absurd (hlog i hmem) (by omega)
    · intro hs
      exact absurd (hs.two rfl) (by omega)

end

/-! ## Two arguments -/

/-- `-0x1F`. -/
def minusThirtyOne : List (BitVec 8) := [0x2D, 0x30, 0x78, 0x31, 0x46]

theorem atol_parses_minusThirtyOne :
    IsStr (strOf minusThirtyOne) minusThirtyOne ∧
      (Parses (strOf minusThirtyOne) minusThirtyOne 16 ↔
        Spelled minusThirtyOne 16) := by
  have h : IsStr (strOf minusThirtyOne) minusThirtyOne :=
    ⟨⟨rfl, rfl, rfl, rfl, rfl, rfl⟩, by decide, by decide⟩
  exact ⟨h, atol_parses h (.inr rfl)⟩

/-- `atox("1")` reads behind the NUL of its argument. -/
theorem atol_overreads :
    ¬∀ (str : Bytes) (s : List (BitVec 8)) (base : Nat), IsStr str s →
    base = 10 ∨ base = 16 → Parses str s base := by
  intro h
  obtain ⟨log, hret, hlog⟩ :=
    h (strOf [0x31]) [0x31] 16 ⟨⟨rfl, rfl⟩, by decide, by decide⟩ (.inr rfl)
  have hrun : 2 ∈ (atol (strOf [0x31]) 16 []).state := by decide +kernel
  rw [hret] at hrun
  exact absurd (hlog 2 hrun) (by decide)

end Jos
