import Mathlib.Data.List.TakeWhile
import Jos.Clib.Format

/-!
# `vprintfmt` stays inside

Where the run of `vprintfmt` stays inside its format and `error_string`: a color
escape takes three bytes whatever they are, and the least `int` has no absolute
value (`Fits`). One turn of the loop is the text up to an escape, its flags, and
its conversion; each is run by itself.
-/

namespace Jos

namespace Format

/-! ## What is asked of a format -/

def isColor (c : BitVec 8) : Bool := c == ascii 'B' || c == ascii 'C'

/-- How many words the `*` in the flags take. -/
def stars (flags : List (BitVec 8)) : Nat := flags.count (ascii '*')

/-- How many words a conversion takes. -/
def takes (flags : List (BitVec 8)) (conv : BitVec 8) : Nat :=
  if conv ∈ [ascii 'c', ascii 'e', ascii 's', ascii 'p'] then 1
  else if conv ∈ [ascii 'd', ascii 'u', ascii 'o', ascii 'x'] then
    (if 2 ≤ flags.count (ascii 'l') then 2 else 1)
  else 0

/-- In the format `r`, with the arguments from `ap` on: each color escape has
three bytes behind it, and the argument of each `%e` meets `errOk`. -/
def Fits (errOk : Word → Prop) (args : Nat → Arg) (ap : Nat) :
    List (BitVec 8) → Prop
  | [] => True
  | c :: r =>
      if c ≠ ascii '%' then
        Fits errOk args ap r
      else
        match _h : r.dropWhile isFlag with
        | [] => True
        | conv :: rest =>
            let ap' := ap + stars (r.takeWhile isFlag)
            if isColor conv then
              3 ≤ rest.length ∧ Fits errOk args ap' (rest.drop 3)
            else
              (conv = ascii 'e' → errOk (args ap').word) ∧
                Fits errOk args (ap' + takes (r.takeWhile isFlag) conv) rest
termination_by r => r.length
decreasing_by
  · exact Nat.lt_succ_self _
  all_goals
    have hle := (List.dropWhile_sublist isFlag (l := r)).length_le
    rw [_h, List.length_cons] at hle
    simp only [List.length_drop, List.length_cons]
    omega

/-- No byte of a format that has been read is behind a NUL, and `error_string`
has been read inside. -/
structure InBounds (s : Out) : Prop where
  reads : ∀ x ∈ s.reads, ∀ j < x.2, x.1 j ≠ 0
  errors : ∀ i ∈ s.errors, 0 ≤ i ∧ i ≤ MAXERROR

/-- `vprintfmt` comes to its end, and inside its format and its table. -/
def StaysInside (fmt : Bytes) (args : Nat → Arg) (s : Out) : Prop :=
  ∃ t, vprintfmt fmt args s = .ret () t ∧ InBounds t

/-! ## Where a run is -/

/-- The rest `r` of a format is at `p`. -/
structure Here (fmt : Bytes) (p : Nat) (r : List (BitVec 8)) : Prop where
  rest : At fmt p r
  nonzero : 0 ∉ r
  before : ∀ j < p, fmt j ≠ 0
  fits : p + r.length < NADDR

section

variable {fmt : Bytes} {args : Nat → Arg} {p q ap n k : Nat}
  {r flags xs : List (BitVec 8)} {c ch : BitVec 8} {s t : Out}
  {f : Flags} {pf : Bytes → Arg → FmtM Unit} {errOk : Word → Prop} {w : Word}

theorem Here.advance (h : Here fmt p (c :: r)) : Here fmt (p + 1) r where
  rest := h.rest.2
  nonzero := fun h0 => h.nonzero (List.mem_cons_of_mem _ h0)
  before j hj := by
    rcases Nat.lt_succ_iff_lt_or_eq.mp hj with hlt | rfl
    · exact h.before j hlt
    · rw [h.rest.1]
      rintro rfl
      exact h.nonzero (List.mem_cons_self ..)
  fits := by
    have hfits := h.fits
    rw [List.length_cons] at hfits
    omega

theorem Here.append (h : Here fmt p (xs ++ r)) :
    Here fmt (p + xs.length) r := by
  induction xs generalizing p with
  | nil => exact h
  | cons x xs ih =>
      rw [List.length_cons, Nat.add_comm xs.length, ← Nat.add_assoc]
      exact ih h.advance

/-- What is read along `xs` is in it. -/
theorem Here.mem (h : Here fmt p (xs ++ r)) {j : Nat} (hle : p ≤ j)
    (hlt : j < p + xs.length) : fmt j ∈ xs := by
  induction xs generalizing p with
  | nil => exact absurd hlt (Nat.not_lt.mpr hle)
  | cons x xs ih =>
      rw [List.length_cons] at hlt
      rcases Nat.eq_or_lt_of_le hle with rfl | hlt'
      · rw [h.rest.1]
        exact List.mem_cons_self ..
      · exact List.mem_cons_of_mem _ (ih h.advance hlt' (by omega))

theorem Here.char (h : Here fmt p (c :: r)) : fmt p = c := h.rest.1

theorem Here.nul (h : Here fmt p []) : fmt p = 0 := h.rest

theorem Here.ne_zero (h : Here fmt p (c :: r)) : c ≠ 0 := by
  rintro rfl
  exact h.nonzero (List.mem_cons_self ..)

/-- What has changed is what went to `putch`, or the colors. -/
theorem InBounds.of_eq (h : InBounds s) (hreads : t.reads = s.reads)
    (herrors : t.errors = s.errors) : InBounds t :=
  ⟨hreads ▸ h.reads, herrors ▸ h.errors⟩

theorem InBounds.read (h : InBounds s) (hp : ∀ j < p, fmt j ≠ 0) :
    InBounds { s with reads := (fmt, p) :: s.reads } where
  reads x hx := by
    rcases List.mem_cons.mp hx with rfl | hx
    · exact hp
    · exact h.reads x hx
  errors := h.errors

@[simp] theorem readFmt_apply : readFmt fmt p s =
      .ret (fmt p) { s with reads := (fmt, p) :: s.reads } := rfl

/-! ## The flags -/

/-- The loop of the width field stops behind the digits. -/
theorem digits_ret {precision : Word} (h : Here fmt p r) (hn : r.length < n)
    (hs : InBounds s) :
    ∃ v xs r' t, r = xs ++ r' ∧ (∀ c ∈ xs, isDigit c) ∧
      digits fmt n precision ch p s = .ret (v, p + xs.length) t ∧
      InBounds t := by
  induction r generalizing p n precision ch s with
  | nil =>
      obtain ⟨n, rfl⟩ := Nat.exists_eq_succ_of_ne_zero (Nat.ne_of_gt hn)
      refine ⟨precision * 10 + ch.setWidth 32 - 0x30, [], [], _, rfl, nofun, ?_,
        hs.read h.before⟩
      rw [digits, Prog.bind_ret readFmt_apply, h.nul]
      rfl
  | cons c r ih =>
      obtain ⟨n, rfl⟩ :=
        Nat.exists_eq_succ_of_ne_zero (Nat.ne_of_gt (Nat.zero_lt_of_lt hn))
      rw [List.length_cons] at hn
      by_cases hc : isDigit c = true
      · obtain ⟨v, xs, r', t, hr, hxs, hret, ht⟩ :=
          @ih (p + 1) n c _ (precision * 10 + ch.setWidth 32 - 0x30) h.advance
            (by omega) (hs.read h.before)
        refine ⟨v, c :: xs, r', t, by rw [hr]; rfl, ?_, ?_, ht⟩
        · intro x hx
          rcases List.mem_cons.mp hx with rfl | hx
          · exact hc
          · exact hxs x hx
        · rw [digits, Prog.bind_ret readFmt_apply, h.char, if_pos hc, hret,
            List.length_cons, Nat.add_comm xs.length,
            Nat.add_assoc]
      · refine ⟨precision * 10 + ch.setWidth 32 - 0x30, [], c :: r, _, rfl,
          nofun, ?_, hs.read h.before⟩
        rw [digits, Prog.bind_ret readFmt_apply, h.char, if_neg hc]
        rfl

theorem isDigit_flag (h : isDigit c = true) : isFlag c = true := by
  rw [isFlag, h]
  rfl

theorem isDigit_not_star (h : isDigit c = true) :
    c ≠ ascii '*' ∧ c ≠ ascii 'l' := by
  constructor <;> rintro rfl <;> exact absurd h (by decide)

theorem count_digits {x : BitVec 8} (hx : isDigit x = false)
    (h : ∀ c ∈ xs, isDigit c = true) : xs.count x = 0 := by
  refine List.count_eq_zero.mpr fun hmem => ?_
  rw [h x hmem] at hx
  exact absurd hx nofun

theorem count_number {x : BitVec 8} {fl : List (BitVec 8)}
    (hx : isDigit x = false) (h : ∀ c ∈ xs, isDigit c = true) :
    (ch :: (xs ++ fl)).count x = [ch].count x + fl.count x := by
  rw [show ch :: (xs ++ fl) = [ch] ++ (xs ++ fl) from rfl, List.count_append,
    List.count_append, count_digits hx h,
    Nat.zero_add]

@[simp] theorem processPrecision_lflag :
    (f.processPrecision w).lflag = f.lflag := by
  rw [Flags.processPrecision]
  split_ifs <;> rfl

/-- A flag takes itself and what follows of a number. -/
theorem flag_ret (hflag : isFlag ch = true) (h : Here fmt p r)
    (hs : InBounds s) :
    ∃ f' xs r' t, r = xs ++ r' ∧ (∀ c ∈ xs, isDigit c) ∧
      flag fmt args f ch p ap s = .ret (f', p + xs.length, ap + stars [ch]) t ∧
      f'.lflag = f.lflag + [ch].count (ascii 'l') ∧ InBounds t := by
  have hlen : r.length < NADDR := by
    have hfits := h.fits
    omega
  rw [flag]
  by_cases hminus : ch = ascii '-'
  · rw [if_pos hminus, hminus]
    exact ⟨_, [], r, s, rfl, nofun, rfl, rfl, hs⟩
  rw [if_neg hminus]
  by_cases hzero : ch = ascii '0'
  · rw [if_pos hzero, hzero]
    exact ⟨_, [], r, s, rfl, nofun, rfl, rfl, hs⟩
  rw [if_neg hzero]
  by_cases hdigit : isDigit ch = true
  · obtain ⟨v, xs, r', t, hr, hxs, hret, ht⟩ :=
      @digits_ret _ _ _ _ ch _ 0 h hlen hs
    obtain ⟨hstar, hl⟩ := isDigit_not_star hdigit
    refine ⟨f.processPrecision v, xs, r', t, hr, hxs, ?_, ?_, ht⟩
    · rw [if_pos hdigit, Prog.bind_ret hret, stars, List.count_singleton,
        if_neg (by simpa using hstar)]
      rfl
    · rw [processPrecision_lflag, List.count_singleton,
        if_neg (by simpa using hl)]
      rfl
  rw [if_neg hdigit]
  by_cases hstar : ch = ascii '*'
  · rw [if_pos hstar, hstar]
    exact ⟨_, [], r, s, rfl, nofun, rfl, processPrecision_lflag, hs⟩
  rw [if_neg hstar]
  by_cases hdot : ch = ascii '.'
  · rw [if_pos hdot, hdot]
    exact ⟨_, [], r, s, rfl, nofun, rfl, rfl, hs⟩
  rw [if_neg hdot]
  by_cases hsharp : ch = ascii '#'
  · rw [if_pos hsharp, hsharp]
    exact ⟨_, [], r, s, rfl, nofun, rfl, rfl, hs⟩
  have hl : ch = ascii 'l' := by
    simpa [isFlag, hminus, hdigit, hstar, hdot, hsharp] using hflag
  rw [if_neg hsharp, hl]
  exact ⟨_, [], r, s, rfl, nofun, rfl, rfl, hs⟩

/-- A number that is followed by `rest` ends before it. -/
theorem digits_prefix {fl rest r' : List (BitVec 8)}
    (hrest : ∀ c ∈ rest.head?, isFlag c = false)
    (h : fl ++ rest = xs ++ r') (hxs : ∀ c ∈ xs, isDigit c = true) :
    ∃ fl', fl = xs ++ fl' ∧ r' = fl' ++ rest := by
  rcases List.append_eq_append_iff.mp h with ⟨a, hxs', hr⟩ | ⟨fl', hfl, hr'⟩
  · cases a with
    | nil => exact ⟨[], by simpa using hxs'.symm, by simpa using hr.symm⟩
    | cons c a =>
        have hc := hrest c (by rw [hr]; rfl)
        rw [isDigit_flag (hxs c (by rw [hxs']; simp))] at hc
        exact absurd hc nofun
  · exact ⟨fl', hfl, hr'⟩

/-- The flags are taken one after the other, up to the conversion or the NUL. -/
theorem reswitch_eq {rest : List (BitVec 8)} (h : Here fmt p (flags ++ rest))
    (hflags : ∀ c ∈ flags, isFlag c = true)
    (hrest : ∀ c ∈ rest.head?, isFlag c = false) (hn : flags.length < n)
    (hs : InBounds s) :
    ∃ f' t, reswitch pf fmt args n f p ap s =
        convert pf fmt args f' (fmt (p + flags.length)) (p + flags.length + 1)
          (ap + stars flags) t ∧
      f'.lflag = f.lflag + flags.count (ascii 'l') ∧ InBounds t := by
  obtain ⟨m, hm⟩ : ∃ m, flags.length = m := ⟨_, rfl⟩
  induction m using Nat.strongRecOn generalizing flags p ap n f s with
  | ind m ih =>
      obtain ⟨n, rfl⟩ :=
        Nat.exists_eq_succ_of_ne_zero (Nat.ne_of_gt (Nat.zero_lt_of_lt hn))
      have hread := hs.read h.before
      cases flags with
      | nil =>
          have hstop : isFlag (fmt p) = false := by
            cases rest with
            | nil =>
                rw [h.nul]
                decide
            | cons c rest =>
                rw [h.char]
                exact hrest c rfl
          refine ⟨f, _, ?_, rfl, hread⟩
          rw [reswitch, Prog.bind_ret readFmt_apply,
            if_neg (by rw [hstop]; exact Bool.false_ne_true)]
          rfl
      | cons ch fl =>
          have hch : isFlag ch = true := hflags ch (List.mem_cons_self ..)
          obtain ⟨f₁, xs, r', t₁, hr, hxs, hflag, hl₁, ht₁⟩ :=
            @flag_ret _ args _ ap _ _ _ f hch h.advance hread
          obtain ⟨fl', rfl, rfl⟩ := digits_prefix hrest hr hxs
          rw [List.length_cons, List.length_append] at hn hm
          have hbehind : Here fmt (p + 1) (xs ++ (fl' ++ rest)) := by
            rw [← List.append_assoc]
            exact h.advance
          obtain ⟨f', t, hret, hl, ht⟩ := @ih fl'.length (by omega)
            (p + 1 + xs.length) (ap + stars [ch]) n fl' t₁ f₁ hbehind.append
            (fun c hc => hflags c (List.mem_cons_of_mem _
            (List.mem_append_right _ hc))) (by omega) ht₁ rfl
          refine ⟨f', t, ?_, ?_, ht⟩
          · rw [reswitch, Prog.bind_ret readFmt_apply, h.char, if_pos hch,
              Prog.bind_ret hflag]
            show reswitch pf fmt args n f₁ (p + 1 + xs.length)
              (ap + stars [ch]) t₁ = _
            have hpos : p + (ch :: (xs ++ fl')).length =
                p + 1 + xs.length + fl'.length := by
              rw [List.length_cons, List.length_append]
              omega
            have hstars : stars (ch :: (xs ++ fl')) = stars [ch] + stars fl' :=
              count_number (by decide) hxs
            rw [hret, hpos, hstars, Nat.add_assoc ap]
          · rw [hl, hl₁, count_number (by decide) hxs, Nat.add_assoc]

/-! ## The conversions -/

/-- Back to the `%` at `q - 1`. -/
theorem back_ret (hq : fmt (q - 1) = ascii '%') (hpos : 1 ≤ q)
    (hbetween : ∀ j, q ≤ j → j < q + k → fmt j ≠ ascii '%')
    (hbefore : ∀ j < q + k, fmt j ≠ 0) (hk : k < n) (hs : InBounds s) :
    ∃ t, back fmt n (q + k) s = .ret q t ∧ InBounds t := by
  induction k generalizing n s with
  | zero =>
      obtain ⟨n, rfl⟩ := Nat.exists_eq_succ_of_ne_zero (Nat.ne_of_gt hk)
      refine ⟨_, ?_, @InBounds.read fmt (q - 1) _ hs fun j hj =>
        hbefore j (by omega)⟩
      rw [back, Prog.bind_ret readFmt_apply, Nat.add_zero, if_pos hq]
      rfl
  | succ k ih =>
      obtain ⟨n, rfl⟩ :=
        Nat.exists_eq_succ_of_ne_zero (Nat.ne_of_gt (Nat.zero_lt_of_lt hk))
      obtain ⟨t, hret, ht⟩ := @ih n _ (fun j hle hlt =>
        hbetween j hle (by omega)) (fun j hj => hbefore j (by omega))
        (by omega) (@InBounds.read fmt (q + (k + 1) - 1) _ hs fun j hj =>
        hbefore j (by omega))
      refine ⟨t, ?_, ht⟩
      rw [back, Prog.bind_ret readFmt_apply,
        if_neg (hbetween _ (by omega) (by omega))]
      exact hret

@[simp] theorem putch_apply :
    putch w s = .ret () { s with out := w :: s.out } := rfl

@[simp] theorem putAll_apply {cs : List Word} :
    putAll cs s = .ret () { s with out := cs.reverse ++ s.out } := rfl

/-- The output leaves the reads alone. -/
theorem putString_ret {str : List (BitVec 8)} (hs : InBounds s) :
    ∃ t, putString f str s = .ret () t ∧ InBounds t := by
  have hpad : ∃ v t, putString.padBefore f str s = .ret v t ∧ InBounds t := by
    rw [putString.padBefore]
    split_ifs
    · exact ⟨_, _, rfl, hs.of_eq rfl rfl⟩
    · exact ⟨_, _, rfl, hs⟩
  obtain ⟨v, t, hret, ht⟩ := hpad
  cases hcs : putChars f.altflag str f.precision v with
  | mk cs width =>
      refine ⟨_, ?_, ht.of_eq (t := { t with
        out := (List.replicate width.toInt.toNat 0x20).reverse ++
          (cs.reverse ++ t.out) }) rfl rfl⟩
      rw [putString, Prog.bind_ret hret, hcs]
      rfl

theorem putSigned_ret {num : BitVec 64} (hs : InBounds s) :
    ∃ t, putSigned f num s = .ret () t ∧ InBounds t := by
  rw [putSigned]
  split_ifs
  · exact ⟨_, rfl, hs.of_eq rfl rfl⟩
  · exact ⟨_, rfl, hs.of_eq rfl rfl⟩

theorem getuint_snd {l : Nat} :
    (getuint args ap l).2 = ap + if 2 ≤ l then 2 else 1 := by
  rw [getuint]
  split_ifs <;> rfl

theorem getint_snd {l : Nat} :
    (getint args ap l).2 = ap + if 2 ≤ l then 2 else 1 := by
  rw [getint]
  split_ifs <;> rfl

/-- A conversion that only prints. -/
theorem convert_plain (hc : c ∈ [ascii 'c', ascii 's', ascii 'd', ascii 'u',
      ascii 'o', ascii 'p', ascii 'x', ascii '%'])
    (hl : f.lflag = flags.count (ascii 'l')) (hs : InBounds s) :
    ∃ t, convert pf fmt args f c p ap s = .ret (p, ap + takes flags c) t ∧
    InBounds t := by
  simp only [List.mem_cons, List.not_mem_nil, or_false] at hc
  rcases hc with rfl | rfl | rfl | rfl | rfl | rfl | rfl | rfl
  · exact ⟨_, rfl, hs.of_eq rfl rfl⟩
  · obtain ⟨t, hret, ht⟩ :=
      @putString_ret _ f ((args ap).str.getD (bytes "(null)")) hs
    exact ⟨t, Prog.bind_ret hret, ht⟩
  · obtain ⟨t, hret, ht⟩ := @putSigned_ret _ f (getint args ap f.lflag).1 hs
    refine ⟨t, ?_, ht⟩
    have hnext : (getint args ap f.lflag).2 = ap + takes flags (ascii 'd') := by
      rw [getint_snd, hl]; rfl
    rw [← hnext]
    exact Prog.bind_ret hret
  · have hnext : (getuint args ap f.lflag).2 =
        ap + takes flags (ascii 'u') := by rw [getuint_snd, hl]; rfl
    rw [← hnext]
    exact ⟨_, rfl, hs.of_eq rfl rfl⟩
  · have hnext : (getuint args ap f.lflag).2 =
        ap + takes flags (ascii 'o') := by rw [getuint_snd, hl]; rfl
    rw [← hnext]
    exact ⟨_, rfl, hs.of_eq rfl rfl⟩
  · exact ⟨_, rfl, hs.of_eq rfl rfl⟩
  · have hnext : (getuint args ap f.lflag).2 =
        ap + takes flags (ascii 'x') := by rw [getuint_snd, hl]; rfl
    rw [← hnext]
    exact ⟨_, rfl, hs.of_eq rfl rfl⟩
  · exact ⟨_, rfl, hs.of_eq rfl rfl⟩

/-- An escape that is not one. -/
theorem convert_literal (hc : c ∉ [ascii 'c', ascii 'B', ascii 'C', ascii 'e',
      ascii 's', ascii 'd', ascii 'u', ascii 'o',
      ascii 'p', ascii 'x', ascii '%']) :
    convert pf fmt args f c p ap s =
      (do
        let p ← back fmt NADDR (p - 1)
        pure (p, ap) : FmtM (Nat × Nat)) { s with out := 0x25 :: s.out } := by
  simp only [List.mem_cons, List.not_mem_nil, or_false, not_or] at hc
  obtain ⟨h₁, h₂, h₃, h₄, h₅, h₆, h₇, h₈, h₉, h₁₀, h₁₁⟩ := hc
  rw [convert, if_neg h₁, if_neg h₂, if_neg h₃, if_neg h₄, if_neg h₅, if_neg h₆,
    if_neg h₇, if_neg h₈, if_neg h₉,
    if_neg h₁₀, if_neg h₁₁]
  rfl

/-- A color escape goes on three bytes behind the conversion; what it reads is
before that. -/
theorem convert_color (hc : isColor c = true) :
    ∃ t, convert pf fmt args f c p ap s = .ret (p + 3, ap) t ∧
    (InBounds s → (∀ j < p + 2, fmt j ≠ 0) → InBounds t) := by
  have hread : ∃ v t, readColor fmt p s = .ret v t ∧
      (InBounds s → (∀ j < p + 2, fmt j ≠ 0) → InBounds t) := by
    have hfirst : InBounds s → (∀ j < p + 2, fmt j ≠ 0) →
        InBounds { s with reads := (fmt, p) :: s.reads } :=
      fun hs h => hs.read fun j hj => h j (by omega)
    have hthird : ∀ t, InBounds t → (∀ j < p + 2, fmt j ≠ 0) →
        InBounds { t with reads := (fmt, p + 2) :: t.reads } :=
      fun t ht h => ht.read h
    by_cases hdigit : isDigit (fmt p) = true
    · refine ⟨_, _, by rw [readColor, Prog.bind_ret readFmt_apply,
        if_pos hdigit]; rfl, fun hs h => ?_⟩
      exact hthird _ ((hfirst hs h).read fun j hj => h j (by omega)) h
    · by_cases hg : fmt p = ascii 'g'
      · exact ⟨_, _, by rw [readColor, Prog.bind_ret readFmt_apply,
          if_neg hdigit, if_pos hg]; rfl,
          fun hs h => hthird _ (hfirst hs h) h⟩
      · exact ⟨_, _, by rw [readColor, Prog.bind_ret readFmt_apply,
          if_neg hdigit, if_neg hg]; rfl, hfirst⟩
  obtain ⟨v, t, hret, ht⟩ := hread
  rw [isColor, Bool.or_eq_true, beq_iff_eq, beq_iff_eq] at hc
  rcases hc with rfl | rfl
  · exact ⟨_, Prog.bind_ret hret, fun hs h => (ht hs h).of_eq rfl rfl⟩
  · exact ⟨_, Prog.bind_ret hret, fun hs h => (ht hs h).of_eq rfl rfl⟩

/-! ## The text -/

/-- The text before an escape. -/
theorem literal_escape {text : List (BitVec 8)}
    (h : Here fmt p (text ++ ascii '%' :: r)) (htext : ascii '%' ∉ text)
    (hn : text.length < n) (hs : InBounds s) :
    ∃ t, literal fmt n p s = .ret
      (some (p + text.length + 1)) t ∧ InBounds t := by
  induction text generalizing p n s with
  | nil =>
      obtain ⟨n, rfl⟩ := Nat.exists_eq_succ_of_ne_zero (Nat.ne_of_gt hn)
      refine ⟨_, ?_, hs.read h.before⟩
      rw [literal, Prog.bind_ret readFmt_apply, h.char, if_pos rfl]
      rfl
  | cons c text ih =>
      obtain ⟨n, rfl⟩ :=
        Nat.exists_eq_succ_of_ne_zero (Nat.ne_of_gt (Nat.zero_lt_of_lt hn))
      rw [List.length_cons] at hn
      have hc : c ≠ ascii '%' := fun hc => htext (hc ▸ List.mem_cons_self ..)
      have hs' : InBounds { s with
          reads := (fmt, p) :: s.reads, out := c.setWidth 32 :: s.out } :=
        (hs.read h.before).of_eq rfl rfl
      obtain ⟨t, hret, ht⟩ := ih h.advance (fun hmem =>
        htext (List.mem_cons_of_mem _ hmem)) (by omega : text.length < n) hs'
      refine ⟨t, ?_, ht⟩
      rw [literal, Prog.bind_ret readFmt_apply, h.char, if_neg hc,
        if_neg h.ne_zero, Prog.bind_ret putch_apply, hret,
        List.length_cons, Nat.add_comm text.length, Nat.add_assoc p]

/-- The text at the end. -/
theorem literal_end (h : Here fmt p r) (hr : ascii '%' ∉ r) (hn : r.length < n)
    (hs : InBounds s) :
    ∃ t, literal fmt n p s = .ret none t ∧ InBounds t := by
  induction r generalizing p n s with
  | nil =>
      obtain ⟨n, rfl⟩ := Nat.exists_eq_succ_of_ne_zero (Nat.ne_of_gt hn)
      refine ⟨_, ?_, hs.read h.before⟩
      rw [literal, Prog.bind_ret readFmt_apply, h.nul, if_neg
        (by decide), if_pos rfl]
      rfl
  | cons c r ih =>
      obtain ⟨n, rfl⟩ :=
        Nat.exists_eq_succ_of_ne_zero (Nat.ne_of_gt (Nat.zero_lt_of_lt hn))
      rw [List.length_cons] at hn
      have hc : c ≠ ascii '%' := fun hc => hr (hc ▸ List.mem_cons_self ..)
      have hs' : InBounds { s with
          reads := (fmt, p) :: s.reads, out := c.setWidth 32 :: s.out } :=
        (hs.read h.before).of_eq rfl rfl
      obtain ⟨t, hret, ht⟩ := ih h.advance (fun hmem =>
        hr (List.mem_cons_of_mem _ hmem)) (by omega : r.length < n) hs'
      refine ⟨t, ?_, ht⟩
      rw [literal, Prog.bind_ret readFmt_apply, h.char, if_neg hc,
        if_neg h.ne_zero, Prog.bind_ret putch_apply, hret]

/-! ## No read is forgotten -/

/-- `t` knows what `s` knows of the reads. -/
def Grows (s t : Out) : Prop := ∀ x ∈ s.reads, x ∈ t.reads

theorem Grows.refl (s : Out) : Grows s s := fun _ h => h

theorem Grows.trans (s t u : Out) (h : Grows s t) (h' : Grows t u) :
    Grows s u := fun x hx => h' x (h x hx)

theorem readFmt_grows : Prog.Keeps Grows (readFmt fmt p) :=
  fun _ _ hx => List.mem_cons_of_mem _ hx

theorem putch_grows : Prog.Keeps Grows (putch w) := fun _ _ hx => hx

theorem putAll_grows {cs : List Word} : Prog.Keeps Grows (putAll cs) :=
  fun _ _ hx => hx

theorem digits_grows {precision : Word} :
    Prog.Keeps Grows (digits fmt n precision ch p) := by
  induction n generalizing precision ch p with
  | zero => exact Prog.Keeps.halt Grows.refl _
  | succ n ih => exact Prog.Keeps.bind Grows.trans readFmt_grows fun _ =>
      Prog.Keeps.ite ih (Prog.Keeps.pure Grows.refl _)

theorem flag_grows : Prog.Keeps Grows (flag fmt args f ch p ap) := by
  rw [flag]
  have hpure : ∀ x : Flags × Nat × Nat,
      Prog.Keeps Grows (pure x : FmtM (Flags × Nat × Nat)) :=
    fun x => Prog.Keeps.pure Grows.refl x
  refine .ite (hpure _) (.ite (hpure _)
    (.ite ?_ (.ite (hpure _) (.ite (hpure _) (.ite (hpure _) (hpure _))))))
  exact .bind Grows.trans digits_grows fun x => hpure _

theorem readColor_grows : Prog.Keeps Grows (readColor fmt p) := by
  refine .bind Grows.trans readFmt_grows fun c0 =>
    .ite ?_ (.ite ?_ (.pure Grows.refl _))
  · exact .bind Grows.trans readFmt_grows fun c1 =>
      .bind Grows.trans readFmt_grows fun c2 => .pure Grows.refl _
  · exact .bind Grows.trans readFmt_grows fun c2 => .pure Grows.refl _

theorem showError_grows (hpf : ∀ fmt arg, Prog.Keeps Grows (pf fmt arg)) :
    Prog.Keeps Grows (showError pf w) := by
  refine .ite (hpf _ _) (.bind Grows.trans (fun _ _ hx => hx) fun _ =>
    .ite (.halt Grows.refl _) ?_)
  split
  · exact hpf _ _
  · exact hpf _ _

theorem putString_grows {str : List (BitVec 8)} :
    Prog.Keeps Grows (putString f str) := by
  refine .bind Grows.trans ?_ fun width => ?_
  · exact .ite (.bind Grows.trans putAll_grows fun _ => .pure Grows.refl _)
      (.pure Grows.refl _)
  · cases putChars f.altflag str f.precision width with
    | mk cs width => exact .bind Grows.trans putAll_grows fun _ => putAll_grows

theorem putSigned_grows {num : BitVec 64} :
    Prog.Keeps Grows (putSigned f num) :=
  .ite (.bind Grows.trans putch_grows fun _ => putAll_grows) putAll_grows

theorem back_grows : Prog.Keeps Grows (back fmt n p) := by
  induction n generalizing p with
  | zero => exact .halt Grows.refl _
  | succ n ih =>
      exact .bind Grows.trans readFmt_grows fun _ =>
        .ite (.pure Grows.refl _) ih

theorem convert_grows (hpf : ∀ fmt arg, Prog.Keeps Grows (pf fmt arg)) :
    Prog.Keeps Grows (convert pf fmt args f ch p ap) := by
  have hpure : ∀ x : Nat × Nat, Prog.Keeps Grows (pure x : FmtM (Nat × Nat)) :=
    fun x => .pure Grows.refl x
  have hcolor : ∀ g : Word → Out → Out, (∀ v s, Grows s (g v s)) →
      Prog.Keeps Grows (do
        let v ← readColor fmt p
        Prog.update (g v)
        pure (p + 3, ap) : FmtM (Nat × Nat)) := fun g hg =>
    .bind Grows.trans readColor_grows fun v =>
      .bind Grows.trans (.update (hg v)) fun _ => hpure _
  rw [convert]
  refine .ite (.bind Grows.trans putch_grows fun _ => hpure _)
    (.ite (hcolor _ fun _ _ _ hx => hx)
    (.ite (hcolor _ fun _ _ _ hx => hx)
    (.ite (.bind Grows.trans (showError_grows hpf) fun _ => hpure _)
    (.ite (.bind Grows.trans putString_grows fun _ => hpure _)
    (.ite (.bind Grows.trans putSigned_grows fun _ => hpure _)
    (.ite (.bind Grows.trans putAll_grows fun _ => hpure _)
    (.ite (.bind Grows.trans putAll_grows fun _ => hpure _)
    (.ite (.bind Grows.trans putAll_grows fun _ =>
    .bind Grows.trans putAll_grows fun _ => hpure _)
    (.ite (.bind Grows.trans putAll_grows fun _ => hpure _)
    (.ite (.bind Grows.trans putch_grows fun _ => hpure _) ?_))))))))))
  exact .bind Grows.trans putch_grows fun _ =>
    .bind Grows.trans back_grows fun _ => hpure _

theorem reswitch_grows (hpf : ∀ fmt arg, Prog.Keeps Grows (pf fmt arg)) :
    Prog.Keeps Grows (reswitch pf fmt args n f p ap) := by
  induction n generalizing f p ap with
  | zero => exact .halt Grows.refl _
  | succ n ih =>
      exact .bind Grows.trans readFmt_grows fun _ =>
        .ite (.bind Grows.trans flag_grows fun _ => ih) (convert_grows hpf)

theorem literal_grows : Prog.Keeps Grows (literal fmt n p) := by
  induction n generalizing p with
  | zero => exact .halt Grows.refl _
  | succ n ih =>
      exact .bind Grows.trans readFmt_grows fun _ => .ite (.pure Grows.refl _)
        (.ite (.pure Grows.refl _) (.bind Grows.trans putch_grows fun _ => ih))

theorem loop_grows (hpf : ∀ fmt arg, Prog.Keeps Grows (pf fmt arg)) :
    Prog.Keeps Grows (loop pf fmt args n p ap) := by
  induction n generalizing p ap with
  | zero => exact .halt Grows.refl _
  | succ n ih =>
      refine .bind Grows.trans literal_grows fun next => ?_
      cases next with
      | none => exact .pure Grows.refl _
      | some p => exact .bind Grows.trans (reswitch_grows hpf) fun _ => ih

theorem printfmt_grows {arg : Arg} : Prog.Keeps Grows (printfmt fmt arg) :=
  loop_grows fun _ _ => .halt Grows.refl _

theorem bind_reads {α β : Type} {g : FmtM α} {k : α → FmtM β} {x : Bytes × Nat}
    (hg : x ∈ (g s).state.reads)
    (hk : ∀ a, Prog.Keeps Grows (k a)) : x ∈ ((g >>= k) s).state.reads := by
  rw [Prog.bind_apply]
  cases h : g s with
  | ret a t =>
      rw [h] at hg
      exact hk a t x hg
  | away t | stop e t =>
      rw [h] at hg
      exact hg

/-- The loop begins with a read. -/
theorem loop_reads (hpf : ∀ fmt arg, Prog.Keeps Grows (pf fmt arg))
    (hn : 0 < n) :
    (fmt, p) ∈ (loop pf fmt args n p ap s).state.reads := by
  obtain ⟨n, rfl⟩ := Nat.exists_eq_succ_of_ne_zero (Nat.ne_of_gt hn)
  have hliteral : (fmt, p) ∈ (literal fmt NADDR p s).state.reads := by
    rw [show NADDR = 2 ^ 32 - 1 + 1 from rfl, literal]
    exact bind_reads (List.mem_cons_self ..) fun _ => .ite (.pure Grows.refl _)
      (.ite (.pure Grows.refl _) (.bind Grows.trans putch_grows fun _ =>
      literal_grows))
  refine bind_reads hliteral fun next => ?_
  cases next with
  | none => exact .pure Grows.refl _
  | some p => exact .bind Grows.trans (reswitch_grows hpf) fun _ =>
      loop_grows hpf

/-! ## What is asked, escape by escape -/

theorem fits_nil : Fits errOk args ap [] := by
  rw [Fits]
  trivial

theorem fits_cons (hc : c ≠ ascii '%') : Fits errOk args ap (c :: r) ↔
      Fits errOk args ap r := by
  rw [Fits, if_pos hc]

theorem fits_text {text : List (BitVec 8)} (h : ascii '%' ∉ text) :
    Fits errOk args ap (text ++ r) ↔ Fits errOk args ap r := by
  induction text with
  | nil => exact Iff.rfl
  | cons c text ih =>
      have hc : c ≠ ascii '%' := fun hc => h (hc ▸ List.mem_cons_self ..)
      rw [List.cons_append, fits_cons hc, ih fun hmem =>
        h (List.mem_cons_of_mem _ hmem)]

theorem fits_end {text : List (BitVec 8)} (h : ascii '%' ∉ text) :
    Fits errOk args ap text := by
  rw [← List.append_nil text, fits_text h]
  exact fits_nil

theorem fits_open (h : r.dropWhile isFlag = []) :
    Fits errOk args ap (ascii '%' :: r) := by
  rw [Fits, if_neg (not_not.mpr rfl)]
  split
  · trivial
  · rename_i heq
    rw [h] at heq
    exact absurd heq nofun

theorem fits_escape {conv : BitVec 8} {rest : List (BitVec 8)}
    (h : r.dropWhile isFlag = conv :: rest) :
    Fits errOk args ap (ascii '%' :: r) ↔
      if isColor conv then
        3 ≤ rest.length ∧ Fits errOk args (ap + stars (r.takeWhile isFlag))
        (rest.drop 3)
      else
        (conv = ascii 'e' → errOk
        (args (ap + stars (r.takeWhile isFlag))).word) ∧
          Fits errOk args (ap + stars (r.takeWhile isFlag) +
          takes (r.takeWhile isFlag) conv) rest := by
  rw [Fits, if_neg (not_not.mpr rfl)]
  split
  · rename_i heq
    rw [h] at heq
    exact absurd heq nofun
  · rename_i conv' rest' heq
    rw [h] at heq
    cases heq
    rfl

/-! ## A whole run -/

/-- The case `e` returns for the arguments that meet `errOk`, and for no
others. -/
structure Errors (pf : Bytes → Arg → FmtM Unit) (errOk : Word → Prop) :
    Prop where
  grows : ∀ fmt arg, Prog.Keeps Grows (pf fmt arg)
  ok : ∀ w s, errOk w → InBounds s → ∃ t, showError pf w s = .ret () t ∧
    InBounds t
  bad : ∀ w s t, ¬errOk w → showError pf w s ≠ .ret () t

/-- The loop comes to its end, inside. -/
def Comes (pf : Bytes → Arg → FmtM Unit) (fmt : Bytes) (args : Nat → Arg)
    (n p ap : Nat) (s : Out) : Prop :=
  ∃ t, loop pf fmt args n p ap s = .ret () t ∧ InBounds t

theorem no_percent (h : ∀ c ∈ flags, isFlag c = true) : ascii '%' ∉ flags := by
  intro hmem
  exact absurd (h _ hmem) (by decide)

/-- One turn of the loop, from its parts. -/
theorem loop_step {p₁ p₂ p₃ ap₂ ap₃ : Nat} {f' : Flags} {s₁ s₂ : Out}
    (hliteral : literal fmt NADDR p s = .ret (some p₁) s₁)
    (hswitch : reswitch pf fmt args NADDR .start p₁ ap s₁ =
      convert pf fmt args f' ch p₂ ap₂ s₂)
    (hconvert : convert pf fmt args f' ch p₂ ap₂ s₂ = .ret (p₃, ap₃) t) :
    Comes pf fmt args (n + 1) p ap s ↔ Comes pf fmt args n p₃ ap₃ t := by
  have hrun : loop pf fmt args (n + 1) p ap s =
      loop pf fmt args n p₃ ap₃ t := by
    rw [loop, Prog.bind_ret hliteral]
    exact Prog.bind_ret (hswitch.trans hconvert)
  rw [Comes, Comes, hrun]

/-- The text up to an escape and its flags. -/
theorem escape_eq {text rest : List (BitVec 8)}
    (h : Here fmt p (text ++ ascii '%' :: (flags ++ rest)))
    (htext : ascii '%' ∉ text) (hflags : ∀ c ∈ flags, isFlag c = true)
    (hrest : ∀ c ∈ rest.head?, isFlag c = false)
    (hs : InBounds s) : ∃ p₁ f' s₁ s₂, Here fmt p₁ (flags ++ rest) ∧
    p₁ = p + text.length + 1 ∧
      literal fmt NADDR p s = .ret (some p₁) s₁ ∧
      reswitch pf fmt args NADDR .start p₁ ap s₁ =
        convert pf fmt args f' (fmt (p₁ + flags.length)) (p₁ + flags.length + 1)
          (ap + stars flags) s₂ ∧
      f'.lflag = flags.count (ascii 'l') ∧ InBounds s₂ := by
  have hfits := h.fits
  simp only [List.length_append, List.length_cons] at hfits
  obtain ⟨s₁, hliteral, hs₁⟩ :=
    literal_escape h htext (by omega : text.length < NADDR) hs
  have hhere : Here fmt (p + text.length + 1) (flags ++ rest) :=
    h.append.advance
  obtain ⟨f', s₂, hswitch, hl, hs₂⟩ :=
    @reswitch_eq _ args _ ap NADDR _ _ .start pf _ hhere
    hflags hrest (by omega) hs₁
  exact ⟨_, f', s₁, s₂, hhere, rfl, hliteral, hswitch,
    by rw [hl]; exact Nat.zero_add _, hs₂⟩

/-- Which conversions there are. -/
theorem conv_cases (c : BitVec 8) : isColor c = true ∨ c = ascii 'e' ∨
    c ∈ [ascii 'c', ascii 's', ascii 'd', ascii 'u', ascii 'o', ascii 'p',
      ascii 'x', ascii '%'] ∨
    c ∉ [ascii 'c', ascii 'B', ascii 'C', ascii 'e', ascii 's', ascii 'd',
      ascii 'u', ascii 'o', ascii 'p', ascii 'x',
      ascii '%'] := by
  simp only [isColor, Bool.or_eq_true, beq_iff_eq, List.mem_cons,
    List.not_mem_nil, or_false]
  tauto

/-- An escape that is not one: on behind the `%`. -/
theorem convert_back (h : Here fmt p (flags ++ r))
    (hp : fmt (p - 1) = ascii '%') (hpos : 1 ≤ p)
    (hflags : ∀ c ∈ flags, isFlag c = true)
    (hc : c ∉ [ascii 'c', ascii 'B', ascii 'C', ascii 'e', ascii 's', ascii 'd',
      ascii 'u', ascii 'o', ascii 'p', ascii 'x',
      ascii '%']) (hs : InBounds s) :
    ∃ t, convert pf fmt args f c (p + flags.length + 1) ap s = .ret (p, ap) t ∧
    InBounds t := by
  have hfits := h.fits
  rw [List.length_append] at hfits
  have hbetween : ∀ j, p ≤ j → j < p + flags.length → fmt j ≠ ascii '%' := by
    intro j hle hlt hj
    have hflag := hflags _ (h.mem hle hlt)
    rw [hj] at hflag
    exact absurd hflag (by decide)
  obtain ⟨t, hback, ht⟩ := back_ret (n := NADDR) (k := flags.length) hp hpos
    hbetween h.append.before (by omega)
    (s := { s with out := 0x25 :: s.out }) (hs.of_eq rfl rfl)
  refine ⟨t, ?_, ht⟩
  rw [convert_literal hc, Nat.add_sub_cancel, Prog.bind_ret hback]
  rfl

theorem head_not_flag : ∀ c ∈ (r.dropWhile isFlag).head?, isFlag c = false := by
  intro c hc
  have h := List.head?_dropWhile_not isFlag r
  rw [Option.mem_def.mp hc] at h
  exact h

theorem percent_not_in {conv : BitVec 8} (hflags : ∀ c ∈ flags, isFlag c = true)
    (hconv : conv ≠ ascii '%') :
    ascii '%' ∉ flags ++ [conv] := by
  rw [List.mem_append, List.mem_singleton, not_or]
  exact ⟨no_percent hflags, hconv.symm⟩

/-- A color escape without its three bytes: the next read is behind the NUL. -/
theorem not_comes_short (hpf : ∀ fmt arg, Prog.Keeps Grows (pf fmt arg))
    (h : Here fmt p r) (hr : r.length < 3)
    (hn : 0 < n) : ¬Comes pf fmt args n (p + 3) ap s := by
  rintro ⟨t, hret, ht⟩
  have hread := @loop_reads fmt args (p + 3) ap _ s _ hpf hn
  rw [hret] at hread
  have hnul : Here fmt (p + r.length) [] :=
    Here.append (by rwa [List.append_nil])
  exact ht.reads _ hread (p + r.length) (by omega) hnul.nul

/-- One escape, whose conversion is `conv`. -/
theorem comes_escape {conv : BitVec 8} {rest : List (BitVec 8)} {p₁ : Nat}
    {f' : Flags} {s₁ s₂ : Out}
    (hpf : Errors pf errOk) (hn : r.length < n)
    (ih : ∀ {q ap : Nat} {u : Out} {r' : List (BitVec 8)},
      r'.length ≤ r.length → Here fmt q r' → InBounds u →
      (Comes pf fmt args n q ap u ↔ Fits errOk args ap r'))
    (hr : r = flags ++ conv :: rest) (hhere : Here fmt p₁ r) (hpos : 1 ≤ p₁)
    (hpercent : fmt (p₁ - 1) = ascii '%')
    (hflags : ∀ c ∈ flags, isFlag c = true)
    (hliteral : literal fmt NADDR p s = .ret (some p₁) s₁)
    (hswitch : reswitch pf fmt args NADDR .start p₁ ap s₁ =
      convert pf fmt args f' conv (p₁ + flags.length + 1) (ap + stars flags) s₂)
    (hl : f'.lflag = flags.count (ascii 'l')) (hs₂ : InBounds s₂) :
    Comes pf fmt args (n + 1) p ap s ↔
      if isColor conv then
        3 ≤ rest.length ∧ Fits errOk args (ap + stars flags) (rest.drop 3)
      else
        (conv = ascii 'e' → errOk (args (ap + stars flags)).word) ∧
          Fits errOk args (ap + stars flags + takes flags conv) rest := by
  have hbehind : Here fmt (p₁ + flags.length + 1) rest :=
    Here.advance (Here.append (hr ▸ hhere))
  have hlen : flags.length + (rest.length + 1) = r.length := by
    rw [hr, List.length_append, List.length_cons]
  rcases conv_cases conv with hcolor | rfl | hplain | hother
  · rw [if_pos hcolor]
    obtain ⟨t, hret, ht⟩ := @convert_color fmt args (p₁ + flags.length + 1)
      (ap + stars flags) _ s₂ f' pf hcolor
    rw [loop_step hliteral hswitch hret]
    by_cases hthree : 3 ≤ rest.length
    · obtain ⟨c0, c1, c2, rest, rfl⟩ :
          ∃ c0 c1 c2 rest', rest = c0 :: c1 :: c2 :: rest' := by
        rcases rest with _ | ⟨c0, _ | ⟨c1, _ | ⟨c2, rest⟩⟩⟩
        · exact absurd hthree (by decide)
        · exact absurd hthree (by simp)
        · exact absurd hthree (by simp)
        · exact ⟨c0, c1, c2, rest, rfl⟩
      rw [and_iff_right hthree]
      exact ih (by simp at hlen ⊢; omega) hbehind.advance.advance.advance
        (ht hs₂ hbehind.advance.advance.before)
    · exact iff_of_false (not_comes_short hpf.grows hbehind (by omega)
        (by omega)) fun h => hthree h.1
  · rw [if_neg (by decide)]
    by_cases herr : errOk (args (ap + stars flags)).word
    · obtain ⟨t, hret, ht⟩ := hpf.ok _ s₂ herr hs₂
      have hconvert : convert pf fmt args f' (ascii 'e') (p₁ + flags.length + 1)
          (ap + stars flags) s₂ =
          .ret (p₁ + flags.length + 1, ap + stars flags + 1) t :=
        Prog.bind_ret hret
      rw [loop_step hliteral hswitch hconvert, and_iff_right fun _ => herr]
      exact ih (by omega) hbehind ht
    · refine iff_of_false ?_ fun h => herr (h.1 rfl)
      rintro ⟨t, hret, -⟩
      rw [loop, Prog.bind_ret hliteral] at hret
      obtain ⟨x, u, hx, -⟩ := Prog.bind_eq_ret.mp hret
      rw [hswitch] at hx
      obtain ⟨y, u', hy, -⟩ := Prog.bind_eq_ret.mp hx
      exact hpf.bad _ _ _ herr hy
  · have hnot : ¬isColor conv = true ∧ conv ≠ ascii 'e' := by
      simp only [List.mem_cons, List.not_mem_nil, or_false] at hplain
      rcases hplain with rfl | rfl | rfl | rfl | rfl | rfl | rfl | rfl
        <;> decide
    obtain ⟨t, hret, ht⟩ := @convert_plain fmt args (p₁ + flags.length + 1)
      (ap + stars flags) _ _ _ _ pf hplain hl hs₂
    rw [if_neg hnot.1, loop_step hliteral hswitch hret, and_iff_right fun h =>
      absurd h hnot.2]
    exact ih (by omega) hbehind ht
  · have hnot := hother
    simp only [List.mem_cons, List.not_mem_nil, or_false, not_or] at hnot
    have htakes : takes flags conv = 0 := by
      simp [takes, hnot]
    have hconv : conv ≠ ascii '%' := hnot.2.2.2.2.2.2.2.2.2.2
    obtain ⟨t, hret, ht⟩ := @convert_back _ args _ (ap + stars flags) _ _ _ _ f'
      pf (hr ▸ hhere) hpercent
      hpos hflags hother hs₂
    have hcolor : ¬isColor conv = true := by
      simp [isColor, hnot]
    rw [if_neg hcolor, loop_step hliteral hswitch hret,
      and_iff_right fun h => absurd h hnot.2.2.2.1, htakes,
      Nat.add_zero, ← fits_text (r := rest) (percent_not_in hflags hconv),
      List.append_assoc, List.singleton_append, ← hr]
    exact ih (Nat.le_refl _) hhere ht

/-- The loop comes to its end inside exactly if what is left of the format
fits. -/
theorem comes_iff (hpf : Errors pf errOk) (h : Here fmt p r) (hn : r.length < n)
    (hs : InBounds s) :
    Comes pf fmt args n p ap s ↔ Fits errOk args ap r := by
  obtain ⟨m, hm⟩ : ∃ m, r.length = m := ⟨_, rfl⟩
  induction m using Nat.strongRecOn generalizing r n p ap s with
  | ind m ih =>
      obtain ⟨n, rfl⟩ :=
        Nat.exists_eq_succ_of_ne_zero (Nat.ne_of_gt (Nat.zero_lt_of_lt hn))
      by_cases hmem : ascii '%' ∈ r
      case neg =>
        obtain ⟨t, hret, ht⟩ :=
          literal_end (n := NADDR) h hmem (by have := h.fits; omega) hs
        exact iff_of_true ⟨t, by rw [loop, Prog.bind_ret hret]; rfl, ht⟩
          (fits_end hmem)
      obtain ⟨text, r₁, rfl, htext⟩ := List.eq_append_cons_of_mem hmem
      have hlen : text.length + (r₁.length + 1) = m := by
        rw [← hm, List.length_append, List.length_cons]
      rw [List.length_append, List.length_cons] at hn
      rw [fits_text htext]
      have hflags : ∀ c ∈ r₁.takeWhile isFlag, isFlag c = true :=
        fun c hc => List.mem_takeWhile_imp hc
      have hsplit : r₁.takeWhile isFlag ++ r₁.dropWhile isFlag = r₁ :=
        List.takeWhile_append_dropWhile
      obtain ⟨p₁, f', s₁, s₂, hhere, hp₁, hliteral, hswitch, hl, hs₂⟩ :=
        @escape_eq _ args _ ap (r₁.takeWhile isFlag) _ pf _
          (r₁.dropWhile isFlag)
          (by rwa [hsplit]) htext hflags head_not_flag hs
      have hpercent : fmt (p₁ - 1) = ascii '%' := by
        rw [hp₁, Nat.add_sub_cancel]
        exact h.append.char
      cases hconv : r₁.dropWhile isFlag with
      | nil =>
          -- the format ends in the escape, and the NUL is no conversion
          rw [hconv] at hhere hsplit
          rw [hhere.append.nul] at hswitch
          obtain ⟨t, hret, ht⟩ :=
            @convert_back _ args _ (ap + stars (r₁.takeWhile isFlag)) _ _ 0
            _ f' pf hhere hpercent (by omega) hflags (by decide) hs₂
          rw [loop_step hliteral hswitch hret]
          rw [hsplit] at hhere
          have hnone : ascii '%' ∉ r₁ := by
            rw [← hsplit, List.append_nil]
            exact no_percent hflags
          exact iff_of_true ((ih r₁.length (by omega) hhere
            (by omega) ht rfl).mpr (fits_end hnone)) (fits_open hconv)
      | cons conv rest =>
          rw [hconv] at hhere hsplit
          rw [hhere.append.char] at hswitch
          rw [fits_escape hconv]
          exact comes_escape hpf (r := r₁) (by omega)
            (fun hle hq hu => ih _ (by omega) hq (by omega) hu rfl) hsplit.symm
            (hsplit ▸ hhere) (by omega) hpercent hflags
            hliteral hswitch hl hs₂

/-! ## The error messages -/

theorem at_strOf {str : List (BitVec 8)} (pre : List (BitVec 8))
    (h : str = pre ++ r) : At (strOf str) pre.length r := by
  induction r generalizing pre with
  | nil =>
      show str.getD pre.length 0 = 0
      rw [h, List.append_nil]
      simp
  | cons c r ih =>
      refine ⟨?_, ?_⟩
      · show str.getD pre.length 0 = c
        rw [h]
        simp
      · have hnext := ih (pre ++ [c]) (by rw [h, List.append_assoc]; rfl)
        rwa [List.length_append, List.length_singleton] at hnext

theorem here_strOf {str : List (BitVec 8)} (hnul : 0 ∉ str)
    (hlen : str.length < NADDR) : Here (strOf str) 0 str where
  rest := at_strOf [] rfl
  nonzero := hnul
  before := nofun
  fits := by rwa [Nat.zero_add]

/-- Without `printfmt` the case `e` does not return. -/
theorem errors_none : Errors (fun _ _ => Prog.halt .endless) fun _ =>
      False where
  grows _ _ := .halt Grows.refl _
  ok _ _ h := h.elim
  bad w s t _ h := by
    rw [showError] at h
    by_cases hmax : MAXERROR < (if w.toInt < 0 then -w else w).toInt
    · rw [if_pos hmax] at h
      cases h
    · rw [if_neg hmax] at h
      by_cases hneg : (if w.toInt < 0 then -w else w).toInt < 0
      · rw [if_pos hneg] at h
        cases h
      · rw [if_neg hneg] at h
        cases hmsg :
          errorString.getD (if w.toInt < 0 then -w else w).toNat none with
        | none =>
            rw [hmsg] at h
            cases h
        | some msg =>
            rw [hmsg] at h
            cases h

/-- The formats of the case `e` fit. -/
theorem printfmt_ret {str : List (BitVec 8)} {arg : Arg} (hnul : 0 ∉ str)
    (hlen : str.length < NADDR)
    (hfits : Fits (fun _ => False) (fun _ => arg) 0 str) (hs : InBounds s) :
    ∃ t, printfmt (strOf str) arg s = .ret () t ∧ InBounds t :=
  (comes_iff errors_none (here_strOf hnul hlen) hlen hs).mpr hfits

theorem errorFormat_ret {arg : Arg} (hs : InBounds s) :
    ∃ t, printfmt (strOf errorFormat) arg s = .ret () t ∧ InBounds t := by
  refine printfmt_ret (by decide) (by decide) ?_ hs
  rw [show errorFormat = ['e', 'r', 'r', 'o', 'r', ' '].map ascii ++
    ascii '%' :: [ascii 'd'] from rfl,
    fits_text (by decide), @fits_escape _ _ _ _ (ascii 'd') [] (by decide),
    if_neg (by decide)]
  exact ⟨fun h => absurd h (by decide), fits_nil⟩

theorem stringFormat_ret {arg : Arg} (hs : InBounds s) :
    ∃ t, printfmt (strOf stringFormat) arg s = .ret () t ∧ InBounds t := by
  refine printfmt_ret (by decide) (by decide) ?_ hs
  rw [show stringFormat = ascii '%' :: [ascii 's'] from rfl,
    @fits_escape _ _ _ _ (ascii 's') [] (by decide),
    if_neg (by decide)]
  exact ⟨fun h => absurd h (by decide), fits_nil⟩

/-- The least `int`, which is its own negative. -/
def INT_MIN : Word := 0x80000000

theorem abs_nonneg (hw : w ≠ INT_MIN) :
    0 ≤ (if w.toInt < 0 then -w else w).toInt := by
  split_ifs with hneg
  · have hne : w.toInt ≠ -2 ^ 31 :=
      fun h => hw (BitVec.eq_of_toInt_eq (h.trans (by decide)))
    have hle := BitVec.le_toInt w
    rw [BitVec.toInt_neg, Int.bmod_eq_of_le (by omega) (by omega)]
    omega
  · omega

/-- The case `e` returns for every argument but the least `int`. -/
theorem errors_printfmt : Errors printfmt fun w => w ≠ INT_MIN where
  grows _ _ := printfmt_grows
  ok w s hw hs := by
    have habs := abs_nonneg hw
    rw [showError]
    by_cases hmax : MAXERROR < (if w.toInt < 0 then -w else w).toInt
    · rw [if_pos hmax]
      exact errorFormat_ret hs
    · rw [if_neg hmax, if_neg (not_lt.mpr habs)]
      have hs' : InBounds { s with
          errors := (if w.toInt < 0 then -w else w).toInt :: s.errors } := by
        refine ⟨hs.reads, fun i hi => ?_⟩
        rcases List.mem_cons.mp hi with rfl | hi
        · exact ⟨habs, not_lt.mp hmax⟩
        · exact hs.errors i hi
      cases hmsg :
        errorString.getD (if w.toInt < 0 then -w else w).toNat none with
      | none => exact errorFormat_ret hs'
      | some msg => exact stringFormat_ret hs'
  bad w s t hw h := by
    rw [not_not.mp hw] at h
    have hrun : showError printfmt INT_MIN s =
        .stop .wild { s with errors := INT_MIN.toInt :: s.errors } := rfl
    rw [hrun] at h
    cases h

/-- `vprintfmt` stays inside its format and its table exactly for the formats
and the arguments that fit. -/
theorem vprintfmt_iff (h : IsStr fmt r) (hs : InBounds s) :
    StaysInside fmt args s ↔ Fits (fun w => w ≠ INT_MIN) args 0 r :=
  comes_iff errors_printfmt
    ⟨h.at_zero, h.nul, nofun, by rw [Nat.zero_add]; exact h.fits⟩ h.fits hs

end

theorem isStr_strOf {str : List (BitVec 8)} (hnul : 0 ∉ str)
    (hlen : str.length < NADDR) : IsStr (strOf str) str :=
  ⟨at_strOf [] rfl, hnul, hlen⟩

/-- Nothing has been printed. -/
def Out.blank : Out := ⟨[], [], [], 0, 0⟩

theorem inBounds_blank : InBounds .blank := ⟨nofun, nofun⟩

/-- A hexadecimal number in a field of eight, with zeros, on red. -/
theorem vprintfmt_hex :
    (IsStr (strOf (['%', 'B', 'r', 'e', 'd', '%', '0', '8', 'x'].map ascii))
      (['%', 'B', 'r', 'e', 'd', '%', '0', '8', 'x'].map ascii) ∧
      InBounds .blank) ∧
    (StaysInside (strOf (['%', 'B', 'r', 'e', 'd', '%', '0', '8', 'x'].map
      ascii)) (fun _ => ⟨255, .none⟩) .blank ↔
      Fits (fun w => w ≠ INT_MIN) (fun _ => ⟨255, .none⟩) 0
        (['%', 'B', 'r', 'e', 'd', '%', '0', '8', 'x'].map ascii)) :=
  ⟨⟨isStr_strOf (by decide) (by decide), inBounds_blank⟩,
    vprintfmt_iff (isStr_strOf (by decide) (by decide)) inBounds_blank⟩

/-- A format that ends with `%C`. -/
theorem vprintfmt_color :
    ¬∀ (fmt : Bytes) (args : Nat → Arg) (r : List (BitVec 8)) (s : Out),
    IsStr fmt r → InBounds s → StaysInside fmt args s := by
  intro h
  have hstr : IsStr (strOf [ascii '%', ascii 'C']) [ascii '%', ascii 'C'] :=
    isStr_strOf (by decide) (by decide)
  have hrun := h _ (fun _ => ⟨0, .none⟩) _ _ hstr inBounds_blank
  have hfits := (comes_iff errors_printfmt (here_strOf (by decide) (by decide))
    (by decide) inBounds_blank).mp hrun
  rw [@fits_escape _ _ _ _ (ascii 'C') [] (by decide),
    if_pos (by decide)] at hfits
  exact absurd hfits.1 (by decide)

end Format

end Jos
