import Mathlib.Data.Nat.Digits.Defs
import Jos.Lib.Bytes
import Jos.Kern.State

/-!
# `printnum`

The numbers of lib/printfmt.c. What is given to `putch` is the padding and then
the numeral, though the code comes to the padding at the bottom of its recursion
over the digits.
-/

namespace Jos

namespace Clib

/-- A base that `printnum` has digits for, and that its recursion ends with. -/
structure Base where
  val : Nat
  two_le : 2 ≤ val
  le_sixteen : val ≤ 16

def Base.octal : Base := ⟨8, by decide, by decide⟩

def Base.decimal : Base := ⟨10, by decide, by decide⟩

def Base.hex : Base := ⟨16, by decide, by decide⟩

/-- `"0123456789abcdef"`. -/
def digitChars : List Word :=
  ['0', '1', '2', '3', '4', '5', '6', '7', '8', '9', 'a', 'b', 'c', 'd', 'e',
    'f'].map fun c => BitVec.ofNat 32 c.toNat

def digitChar (i : Nat) : Word := digitChars.getD i 0

theorem pred_toNat_lt {w : Word} (h : 0 < w.toInt) :
    (w - 1).toNat < w.toNat := by
  have hpos : 0 < w.toNat := Nat.pos_of_ne_zero fun h0 => by
    rw [BitVec.eq_of_toNat_eq (y := 0) h0] at h
    exact absurd h (by decide)
  rw [BitVec.toNat_sub_of_le (show (1 : Word) ≤ w from hpos)]
  exact Nat.sub_lt hpos (by decide)

/-- `while (--width > 0) putch(padc)`. -/
def printPad (width padc : Word) : List Word :=
  if 0 < (width - 1).toInt then padc :: printPad (width - 1) padc else []
termination_by (width - 1).toNat
decreasing_by
  rename_i h
  exact pred_toNat_lt h

/-- What `printnum` gives to `putch`. The number is only divided, so its width
does not matter. -/
def printnum (num : Nat) (base : Base) (width padc : Word) : List Word :=
  (if base.val ≤ num then printnum (num / base.val) base (width - 1) padc else
    printPad width padc) ++
    [digitChar (num % base.val)]
termination_by num
decreasing_by
  exact Nat.div_lt_self (by have := base.two_le; omega) base.two_le

/-! ## Numerals -/

/-- The value of a digit. -/
def digitValue (c : Word) : Nat := digitChars.idxOf c

/-- The number that `cs` stands for. -/
def valueOf (base : Base) (cs : List Word) : Nat :=
  cs.foldl (fun v c => v * base.val + digitValue c) 0

/-- `cs` is the canonical numeral of `num`. -/
structure IsNumeral (base : Base) (num : Nat) (cs : List Word) : Prop where
  digits : ∀ c ∈ cs, digitValue c < base.val
  nonempty : cs ≠ []
  noLeadingZero : num ≠ 0 → cs.head? ≠ some (digitChar 0)
  zero : num = 0 → cs = [digitChar 0]
  value : valueOf base cs = num

/-- The numeral of `num`. -/
def numeralOf (base : Base) (num : Nat) : List Word :=
  if num = 0 then [digitChar 0] else
    (Nat.digits base.val num).reverse.map digitChar

section

variable {base : Base} {num : Nat} {width padc : Word}
  {cs : List Word} {i : Nat}

theorem digitValue_digitChar (hi : i < 16) : digitValue (digitChar i) = i := by
  have hall : ∀ i < 16, digitValue (digitChar i) = i := by decide
  exact hall i hi

theorem Base.one_lt (base : Base) : 1 < base.val := base.two_le

theorem digitValue_mod :
    digitValue (digitChar (num % base.val)) = num % base.val :=
  digitValue_digitChar (lt_of_lt_of_le
    (Nat.mod_lt _ (Nat.zero_lt_of_lt base.one_lt)) base.le_sixteen)

theorem numeralOf_small (h : num < base.val) :
    numeralOf base num = [digitChar num] := by
  rw [numeralOf]
  split_ifs with h0
  · rw [h0]
  · rw [Nat.digits_of_lt _ _ h0 h]
    rfl

theorem numeralOf_large (h : base.val ≤ num) :
    numeralOf base num = numeralOf base (num / base.val) ++
      [digitChar (num % base.val)] := by
  have hb := base.two_le
  have hq : num / base.val ≠ 0 := by
    rw [Nat.div_ne_zero_iff]
    omega
  rw [numeralOf, numeralOf, if_neg (by omega), if_neg hq,
    Nat.digits_eq_cons_digits_div base.one_lt (by omega),
    List.reverse_cons, List.map_append]
  rfl

theorem valueOf_append {c : Word} :
    valueOf base (cs ++ [c]) = valueOf base cs * base.val + digitValue c := by
  simp [valueOf, List.foldl_append]

/-- `numeralOf` is the numeral, by the recursion of `printnum`. -/
theorem numeralOf_isNumeral (base : Base) (num : Nat) :
    IsNumeral base num (numeralOf base num) := by
  have hb := base.two_le
  induction num using Nat.strongRecOn with
  | ind num ih =>
      rcases lt_or_ge num base.val with h | h
      · have hv : digitValue (digitChar num) = num :=
          digitValue_digitChar (lt_of_lt_of_le h base.le_sixteen)
        rw [numeralOf_small h]
        refine ⟨fun c hc => ?_, by simp, fun h0 hc => ?_,
          fun h0 => by rw [h0], ?_⟩
        · rw [List.mem_singleton.mp hc, hv]
          exact h
        · have hz := congrArg digitValue (Option.some.inj hc)
          rw [hv, digitValue_digitChar (by decide)] at hz
          exact h0 hz
        · simp [valueOf, hv]
      · have hq : num / base.val ≠ 0 := by
          rw [Nat.div_ne_zero_iff]
          omega
        have hrec :=
          ih (num / base.val) (Nat.div_lt_self (by omega) base.one_lt)
        rw [numeralOf_large h]
        refine ⟨fun c hc => ?_, by simp, fun _ hc => ?_, fun h0 => by omega, ?_⟩
        · rcases List.mem_append.mp hc with hc | hc
          · exact hrec.digits c hc
          · rw [List.mem_singleton.mp hc, digitValue_mod]
            exact Nat.mod_lt _ (by omega)
        · rw [List.head?_append_of_ne_nil _ hrec.nonempty] at hc
          exact hrec.noLeadingZero hq hc
        · rw [valueOf_append, hrec.value, digitValue_mod]
          exact Nat.div_add_mod' _ _

/-! ## The padding -/

theorem toInt_pred (h : -2 ^ 31 < width.toInt) :
    (width - 1).toInt = width.toInt - 1 := by
  have hle := BitVec.toInt_le (x := width)
  rw [BitVec.toInt_sub, show (1 : Word).toInt = 1 from by decide]
  exact Int.bmod_eq_of_le (by omega) (by omega)

theorem printPad_eq (h : -2 ^ 31 < width.toInt) :
    printPad width padc = List.replicate (width.toInt - 1).toNat padc := by
  obtain ⟨n, hn⟩ : ∃ n, n = (width.toInt - 1).toNat := ⟨_, rfl⟩
  rw [← hn]
  induction n generalizing width with
  | zero =>
      rw [printPad, toInt_pred h, if_neg (by omega)]
      rfl
  | succ n ih =>
      rw [printPad, toInt_pred h, if_pos (by omega),
        ih (by rw [toInt_pred h]; omega) (by rw [toInt_pred h]; omega)]
      rfl

/-- The padding comes first, for every width that can be decremented once for
each digit. -/
theorem printnum_eq (hw : -2 ^ 31 + ((numeralOf base num).length : Int) ≤
      width.toInt) :
    printnum num base width padc =
      List.replicate (width.toInt - (numeralOf base num).length).toNat padc ++
        numeralOf base num := by
  induction num using Nat.strongRecOn generalizing width with
  | ind num ih =>
      rw [printnum]
      rcases lt_or_ge num base.val with h | h
      · rw [numeralOf_small h, List.length_singleton] at hw ⊢
        rw [if_neg (by omega), printPad_eq (by push_cast at hw; omega),
          Nat.mod_eq_of_lt h]
        rfl
      · have hb := base.two_le
        rw [numeralOf_large h, List.length_append,
          List.length_singleton] at hw ⊢
        have hpred : (width - 1).toInt = width.toInt - 1 :=
          toInt_pred (by push_cast at hw; omega)
        rw [if_pos h, ih (num / base.val) (Nat.div_lt_self
          (by omega) base.one_lt) (by rw [hpred]; push_cast at hw; omega),
          hpred, List.append_assoc]
        congr 3
        push_cast
        omega

/-- `printnum` prints the number. -/
theorem printnum_prints (hw : -2 ^ 31 + ((numeralOf base num).length : Int) ≤
      width.toInt) :
    printnum num base width padc =
        List.replicate (width.toInt - (numeralOf base num).length).toNat padc ++
          numeralOf base num ∧
      IsNumeral base num (numeralOf base num) :=
  ⟨printnum_eq hw, numeralOf_isNumeral base num⟩

end

/-- 0xff in a field of five, padded with zeros. -/
theorem printnum_ff : -2 ^ 31 + ((numeralOf .hex 255).length : Int) ≤
      (5 : Word).toInt ∧
    printnum 255 .hex 5 0x30 =
        List.replicate ((5 : Word).toInt - (numeralOf .hex 255).length).toNat
          0x30 ++ numeralOf .hex 255 ∧
      IsNumeral .hex 255 (numeralOf .hex 255) := by
  have hlen : (numeralOf .hex 255).length = 2 := by
    simp [numeralOf, Base.hex]
  have hw : -2 ^ 31 + ((numeralOf .hex 255).length : Int) ≤
      (5 : Word).toInt := by
    rw [hlen]
    decide
  exact ⟨hw, printnum_prints hw⟩

end Clib

end Jos
