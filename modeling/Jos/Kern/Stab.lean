import Jos.Lib.Prog
import Jos.Lib.Run
import Jos.Kern.State

/-!
# Searching a table of stabs

`stab_binsearch` of kern/kdebug.c, over any way to read the table. On a table
that does not change while it is searched, a probe of the loop is a function
(`next`) of the search's state. The loop ends on every table, and what it ends
with is read off an invariant with one case for each number of probes that found
the address exactly.

The first exact probe makes the search go on with the next address. That tells
the entries for `addr` from those behind them, unless the next address is 0, or
an entry for the next address is left in the interval: such an entry counts as
another exact match.
-/

namespace Jos

/-- `struct Stab`. -/
structure Stab where
  nStrx : Word
  nType : BitVec 8
  nDesc : BitVec 16
  nValue : Word

/-- The accesses to the entries of a table that the search makes. -/
structure StabReader (σ ε : Type) where
  nType : Int → Prog σ ε (BitVec 8)
  nValue : Int → Prog σ ε Word

/-- The variables of `stab_binsearch` and what its arguments point at. -/
structure Search where
  l : Int
  r : Int
  anyMatches : Bool
  regionLeft : Int
  regionRight : Int
  addr : Word

namespace StabReader

variable {σ ε : Type}

/-- Go down from `m` to an entry of the type, over `n` others at most. -/
def seekType (stabs : StabReader σ ε) (type : BitVec 8) :
    Nat → Int → Prog σ ε Int
  | 0, m => pure m
  | n + 1, m => do
      if (← stabs.nType m) ≠ type then
        seekType stabs type n (m - 1)
      else
        pure m

/-- The body of the loop of `stab_binsearch`. -/
def probe (stabs : StabReader σ ε) (type : BitVec 8) (s : Search) :
    Prog σ ε Search := do
  let trueM := (s.l + s.r).tdiv 2
  let m ← stabs.seekType type (trueM - s.l + 1).toNat trueM
  if m < s.l then
    pure { s with l := trueM + 1 }
  else
    let v ← stabs.nValue m
    if v < s.addr then
      pure { s with anyMatches := true, regionLeft := m, l := trueM + 1 }
    else if v > s.addr then
      pure { s with anyMatches := true, regionRight := m - 1, r := m - 1 }
    else
      pure { s with anyMatches := true, regionLeft := m, l := m, addr :=
        s.addr + 1 }

/-- The loop of `stab_binsearch`; `e` tells that it has not ended after `n`
probes. -/
def loop (stabs : StabReader σ ε) (e : ε) (type : BitVec 8) :
    Nat → Search → Prog σ ε Search
  | 0, _ => Prog.halt e
  | n + 1, s => do
      if s.l ≤ s.r then
        let s' ← stabs.probe type s
        stabs.loop e type n s'
      else
        pure s

/-- `stab_binsearch`, with what it leaves in `*region_left` and
`*region_right`. -/
def binsearch (stabs : StabReader σ ε) (e : ε) (left right : Int)
    (type : BitVec 8) (addr : Word) :
    Prog σ ε (Int × Int) := do
  let s ← stabs.loop e type (2 * (right - left + 1).toNat + 2)
      ⟨left, right, false, left, right, addr⟩
  if !s.anyMatches then
    pure (s.regionLeft, s.regionLeft - 1)
  else
    let l ← stabs.seekType type (s.regionRight - s.regionLeft).toNat
        s.regionRight
    pure (l, s.regionRight)

/-- A table that stays as it is. -/
def ofTable (tab : Int → Stab) : StabReader σ ε where
  nType i := pure (tab i).nType
  nValue i := pure (tab i).nValue

end StabReader

/-! ## A probe of a table -/

section Table

variable {σ ε : Type} {tab : Int → Stab} {type : BitVec 8} {e : ε} {u : σ}

/-- What `seekType` finds. -/
def lastOf (tab : Int → Stab) (type : BitVec 8) : Nat → Int → Int
  | 0, m => m
  | n + 1, m => if (tab m).nType ≠ type then lastOf tab type n (m - 1) else m

/-- What a probe makes of the search. -/
def Search.next (tab : Int → Stab) (type : BitVec 8) (s : Search) : Search :=
  let trueM := (s.l + s.r).tdiv 2
  let m := lastOf tab type (trueM - s.l + 1).toNat trueM
  if m < s.l then
    { s with l := trueM + 1 }
  else if (tab m).nValue < s.addr then
    { s with anyMatches := true, regionLeft := m, l := trueM + 1 }
  else if (tab m).nValue > s.addr then
    { s with anyMatches := true, regionRight := m - 1, r := m - 1 }
  else
    { s with anyMatches := true, regionLeft := m, l := m, addr := s.addr + 1 }

theorem seekType_ofTable (n : Nat) (m : Int) :
    (StabReader.ofTable tab).seekType type n m u =
      (.ret (lastOf tab type n m) u : Outcome σ ε Int) := by
  induction n generalizing m with
  | zero => rfl
  | succ n ih =>
      by_cases hm : (tab m).nType = type <;>
        simp [StabReader.seekType, lastOf, Prog.bind_apply,
          StabReader.ofTable, hm]
      exact ih (m - 1)

theorem probe_ofTable (s : Search) :
    (StabReader.ofTable tab).probe type
      s u = (.ret (s.next tab type) u : Outcome σ ε Search) := by
  simp only [StabReader.probe, Prog.bind_apply, seekType_ofTable]
  unfold Search.next
  simp only
  split
  · rfl
  · simp only [StabReader.ofTable, Prog.bind_apply, Prog.pure_apply]
    split
    · rfl
    · split <;> rfl

/-- `seekType` finds the last entry of the type among those it goes over. -/
theorem lastOf_spec (n : Nat) (m : Int) :
    m - n ≤ lastOf tab type n m ∧ lastOf tab type n m ≤ m ∧
      (∀ j, lastOf tab type n m < j → j ≤ m → (tab j).nType ≠ type) ∧
      (m - n < lastOf tab type n m →
        (tab (lastOf tab type n m)).nType = type) := by
  induction n generalizing m with
  | zero => exact ⟨by simp [lastOf], by simp [lastOf],
      by simp only [lastOf]; omega, by simp [lastOf]⟩
  | succ n ih =>
      by_cases hm : (tab m).nType = type
      · simp only [lastOf, hm, ne_eq, not_true_eq_false, if_false]
        exact ⟨by omega, le_rfl, by omega, fun _ => trivial⟩
      · simp only [lastOf, ne_eq, hm, not_false_eq_true, if_true]
        obtain ⟨h1, h2, h3, h4⟩ := ih (m - 1)
        refine ⟨by omega, by omega, fun j hj hjm => ?_, fun hlt =>
          h4 (by omega)⟩
        by_cases hjm' : j = m
        · rwa [hjm']
        · exact h3 j hj (by omega)

/-! ## The interval that is searched -/

/-- The middle of the interval. -/
def mid (l r : Int) : Int := (l + r).tdiv 2

/-- The entry that a probe of the interval compares. -/
def probed (tab : Int → Stab) (type : BitVec 8) (l r : Int) : Int :=
  lastOf tab type (mid l r - l + 1).toNat (mid l r)

/-- An entry of the type in the region. -/
structure Entry (tab : Int → Stab) (type : BitVec 8) (left right i : Int) :
    Prop where
  ge : left ≤ i
  le : i ≤ right
  type_eq : (tab i).nType = type

/-- The address of entry `i`. -/
def entryAddr (tab : Int → Stab) (i : Int) : Nat := (tab i).nValue.toNat

/-- The entries of the type are in the order of their addresses. -/
def Ordered (tab : Int → Stab) (type : BitVec 8) (left right : Int) : Prop :=
  ∀ i j, Entry tab type left right i → Entry tab type left right j → i ≤ j →
    entryAddr tab i ≤ entryAddr tab j

/-- The bisection of `[l, r]` for the address `a` first finds it at `m`, when
the interval ends with `r'`. -/
inductive Meets (tab : Int → Stab) (type : BitVec 8) (a : Nat) :
    Int → Int → Int → Int → Prop
  | skip {l r m r' : Int} :
      l ≤ r → probed tab type l r < l → Meets tab type a (mid l r + 1) r m r' →
      Meets tab type a l r m r'
  | up {l r m r' : Int} : l ≤ r → l ≤ probed tab type l r →
      entryAddr tab (probed tab type l r) < a →
      Meets tab type a (mid l r + 1) r m r' → Meets tab type a l r m r'
  | down {l r m r' : Int} : l ≤ r → l ≤ probed tab type l r →
      a < entryAddr tab (probed tab type l r) →
      Meets tab type a l (probed tab type l r - 1) m r' →
      Meets tab type a l r m r'
  | hit {l r : Int} : l ≤ r → l ≤ probed tab type l r →
      entryAddr tab (probed tab type l r) = a →
      Meets tab type a l r (probed tab type l r) r

section

variable {l r m m' r' r'' left right : Int} {a : Nat} {s : Search}

theorem mid_mem (h0 : 0 ≤ l) (h : l ≤ r) : l ≤ mid l r ∧ mid l r ≤ r := by
  rw [mid, Int.tdiv_eq_ediv_of_nonneg (by omega)]
  omega

theorem probed_le (h0 : 0 ≤ l) (h : l ≤ r) : probed tab type l r ≤ r :=
  (lastOf_spec _ _).2.1.trans (mid_mem h0 h).2

/-- Behind the probed entry, up to the middle, there is none of the type. -/
theorem not_type_of_probed {j : Int} (hj : probed tab type l r < j)
    (hjm : j ≤ mid l r) : (tab j).nType ≠ type :=
  (lastOf_spec _ _).2.2.1 j hj hjm

theorem type_probed (h0 : 0 ≤ l) (h : l ≤ r) (hm : l ≤ probed tab type l r) :
    (tab (probed tab type l r)).nType = type := by
  refine (lastOf_spec _ _).2.2.2 ?_
  have := (mid_mem h0 h).1
  change _ < probed tab type l r
  omega

theorem Meets.unique (h : Meets tab type a l r m r')
    (h' : Meets tab type a l r m' r'') : m = m' ∧ r' = r'' := by
  induction h with
  | skip hlr hno _ ih =>
      cases h' with
      | skip _ _ h' => exact ih h'
      | up _ hyes | down _ hyes | hit _ hyes => omega
  | up hlr hm hlt _ ih =>
      cases h' with
      | up _ _ _ h' => exact ih h'
      | skip _ hno => omega
      | down _ _ hgt | hit _ _ hgt => omega
  | down hlr hm hgt _ ih =>
      cases h' with
      | down _ _ _ h' => exact ih h'
      | skip _ hno => omega
      | up _ _ hlt | hit _ _ hlt => omega
  | hit hlr hm heq =>
      cases h' with
      | hit => exact ⟨rfl, rfl⟩
      | skip _ hno => omega
      | up _ _ hlt | down _ _ hlt => omega

/-- What is found is in the interval. -/
theorem Meets.spec (h : Meets tab type a l r m r') (h0 : 0 ≤ l) :
    l ≤ m ∧ m ≤ r' ∧ r' ≤ r ∧ (tab m).nType = type ∧ entryAddr tab m = a := by
  induction h with
  | skip hlr _ _ ih =>
      have := mid_mem h0 hlr
      obtain ⟨h1, h2, h3, hm⟩ := ih (by omega)
      exact ⟨by omega, h2, h3, hm⟩
  | up hlr _ _ _ ih =>
      have := mid_mem h0 hlr
      obtain ⟨h1, h2, h3, hm⟩ := ih (by omega)
      exact ⟨by omega, h2, h3, hm⟩
  | down hlr _ _ _ ih =>
      have hle : probed tab type _ _ ≤ _ := probed_le h0 hlr
      obtain ⟨h1, h2, h3, hm⟩ := ih h0
      exact ⟨h1, h2, by omega, hm⟩
  | hit hlr hm heq =>
      exact ⟨hm, probed_le h0 hlr, le_rfl, type_probed h0 hlr hm, heq⟩

/-- What a probe does to the search. -/
theorem Search.next_cases (tab : Int → Stab) (type : BitVec 8) (s : Search) :
    (probed tab type s.l s.r < s.l ∧ s.next tab type = { s with l := mid s.l s.r + 1 }) ∨
    s.l ≤ probed tab type s.l s.r ∧
      (entryAddr tab (probed tab type s.l s.r) < s.addr.toNat ∧ s.next tab type =
        { s with anyMatches := true, regionLeft := probed tab type s.l s.r, l := mid s.l s.r + 1 } ∨
      s.addr.toNat < entryAddr tab (probed tab type s.l s.r) ∧ s.next tab type =
        { s with anyMatches := true, regionRight := probed tab type s.l s.r - 1, r := probed tab type s.l s.r - 1 } ∨
      entryAddr tab (probed tab type s.l s.r) = s.addr.toNat ∧ s.next tab type =
        { s with
          anyMatches := true, regionLeft := probed tab type s.l s.r, l := probed tab type s.l s.r
          addr := s.addr + 1 }) := by
  have hnext : s.next tab type = if probed tab type s.l s.r < s.l then { s with l := mid s.l s.r + 1 }
      else if (tab (probed tab type s.l s.r)).nValue < s.addr then
        { s with anyMatches := true, regionLeft := probed tab type s.l s.r, l := mid s.l s.r + 1 }
      else if (tab (probed tab type s.l s.r)).nValue > s.addr then
        { s with anyMatches := true, regionRight := probed tab type s.l s.r - 1, r := probed tab type s.l s.r - 1 }
      else
        { s with
          anyMatches := true, regionLeft := probed tab type s.l s.r, l := probed tab type s.l s.r
          addr := s.addr + 1 } := rfl
  rw [hnext]
  by_cases hm : probed tab type s.l s.r < s.l
  · exact .inl ⟨hm, if_pos hm⟩
  · refine .inr ⟨by omega, ?_⟩
    rw [if_neg hm]
    rcases Nat.lt_trichotomy (entryAddr tab (probed tab type s.l s.r)) s.addr.toNat with hlt | heq | hgt
    · exact .inl ⟨hlt, if_pos hlt⟩
    · have hlt : ¬(tab (probed tab type s.l s.r)).nValue < s.addr := Nat.not_lt.mpr heq.ge
      have hgt : ¬(tab (probed tab type s.l s.r)).nValue > s.addr := Nat.not_lt.mpr heq.le
      exact .inr (.inr ⟨heq, by rw [if_neg hlt, if_neg hgt]⟩)
    · have hlt : ¬(tab (probed tab type s.l s.r)).nValue < s.addr := Nat.not_lt.mpr hgt.le
      have hgt' : (tab (probed tab type s.l s.r)).nValue > s.addr := hgt
      exact .inr (.inl ⟨hgt, by rw [if_neg hlt, if_pos hgt']⟩)

/-! ## The search ends -/

/-- The probes that are left are no more than this: an exact probe need not make
the interval smaller, but the next one then does. -/
def Search.measure (tab : Int → Stab) (type : BitVec 8) (s : Search) : Nat :=
  2 * (s.r - s.l + 1).toNat + if entryAddr tab (probed tab type s.l s.r) =
    s.addr.toNat then 1 else 0

theorem toNat_succ_ne (w : Word) : (w + 1).toNat ≠ w.toNat := by
  intro h
  have hw := w.isLt
  rw [BitVec.toNat_add, show (1 : Word).toNat = 1 from rfl] at h
  omega

theorem Search.measure_next (h0 : 0 ≤ s.l) (h : s.l ≤ s.r) :
    (s.next tab type).measure tab type < s.measure tab type := by
  have hmid := mid_mem h0 h
  have hle : probed tab type s.l s.r ≤ s.r := probed_le h0 h
  have hflag : ∀ t : Search,
      t.measure tab type ≤ 2 * (t.r - t.l + 1).toNat + 1 := by
    intro t
    unfold Search.measure
    split <;> omega
  have hbase : 2 * (s.r - s.l + 1).toNat ≤ s.measure tab type := Nat.le_add_right ..
  rcases s.next_cases tab type with ⟨-, hnext⟩ | ⟨hm, ⟨-, hnext⟩ | ⟨-, hnext⟩ | ⟨heq, hnext⟩⟩
  · have := hflag (s.next tab type)
    rw [hnext] at this ⊢
    simp only at this
    omega
  · have := hflag (s.next tab type)
    rw [hnext] at this ⊢
    simp only at this
    omega
  · have := hflag (s.next tab type)
    rw [hnext] at this ⊢
    simp only at this
    omega
  · have hs : s.measure tab type = 2 * (s.r - s.l + 1).toNat + 1 := by
      rw [Search.measure, if_pos heq]
    by_cases hl : probed tab type s.l s.r = s.l
    · -- the same entry is probed again, with the next address
      rw [hs, hnext, Search.measure]
      simp only [hl]
      rw [if_neg]
      · omega
      · rw [hl] at heq
        rw [heq]
        exact (toNat_succ_ne _).symm
    · have := hflag (s.next tab type)
      rw [hnext] at this ⊢
      simp only at this
      omega

/-- From `s` to `t` by probes. -/
def Probes (tab : Int → Stab) (type : BitVec 8) : Search → Search → Prop :=
  Runs (fun s (_ : Unit) t => t = s.next tab type) fun s _ => s.l ≤ s.r

theorem Search.next_l (h0 : 0 ≤ s.l) (h : s.l ≤ s.r) : s.l ≤ (s.next tab type).l := by
  have := mid_mem h0 h
  rcases s.next_cases tab type with ⟨-, hnext⟩ | ⟨hm, ⟨-, hnext⟩ | ⟨-, hnext⟩ | ⟨-, hnext⟩⟩ <;> rw [hnext] <;>
    simp only <;> omega

/-- The loop ends, after probes, with an empty interval. -/
theorem loop_ofTable (n : Nat) (h0 : 0 ≤ s.l) (hn : s.measure tab type < n) :
    ∃ t, Probes tab type s t ∧ t.r < t.l ∧
      (StabReader.ofTable tab).loop e type n s u =
        (.ret t u : Outcome σ ε Search) := by
  induction n generalizing s with
  | zero => omega
  | succ n ih =>
      by_cases h : s.l ≤ s.r
      · have hless : (s.next tab type).measure tab type < s.measure tab type :=
          Search.measure_next h0 h
        have hl : s.l ≤ (s.next tab type).l := Search.next_l h0 h
        obtain ⟨t, hruns, hend, hret⟩ := ih (h0.trans hl) (by omega)
        refine ⟨t, (Runs.single (l := ()) h rfl).trans hruns, hend, ?_⟩
        rw [StabReader.loop, if_pos h, Prog.bind_apply, probe_ofTable]
        exact hret
      · exact ⟨s, Runs.refl s, by omega, by rw [StabReader.loop, if_neg h]; rfl⟩

end

/-! ## The course of a search -/

section

variable (tab : Int → Stab) (type : BitVec 8) (left right : Int) (a : Nat)

/-- No probe has found the address exactly. -/
structure Searching (s : Search) : Prop where
  ge : left ≤ s.l
  le : s.r ≤ right
  close : s.l ≤ s.r + 1
  out : s.regionRight = s.r
  addr : s.addr.toNat = a
  below : ∀ i, Entry tab type left right i → i < s.l → entryAddr tab i < a
  above : ∀ i, Entry tab type left right i → s.r < i → a < entryAddr tab i
  bound : s.r = right ∨ Entry tab type left right (s.r + 1)
  fresh : s.anyMatches = false → s.regionLeft = left ∧ ∀ i,
    Entry tab type left right i → s.l ≤ i ∧ i ≤ s.r
  seen : s.anyMatches = true → (∃ i, Entry tab type left right i) ∧
    (Entry tab type left right s.regionLeft ∧ s.regionLeft < s.l ∨
      s.regionLeft = left ∧ ∀ i, Entry tab type left right i → s.l ≤ i)
  path : ∀ m r', Meets tab type a left right m r' ↔
    Meets tab type a s.l s.r m r'

/-- A probe has found the address at `m`, in an interval that ends with `e`, and
the search goes on with the next address, which no probe has found. -/
structure Passed (m e : Int) (s : Search) : Prop where
  ge : m ≤ s.l
  le : s.r ≤ e
  close : s.l ≤ s.r + 1
  out : s.regionRight = s.r
  any : s.anyMatches = true
  met : Meets tab type a left right m e
  inside : left ≤ m ∧ e ≤ right
  addr : s.addr.toNat = a + 1
  below : ∀ i, Entry tab type left right i → i < s.l → entryAddr tab i ≤ a
  above : ∀ i, Entry tab type left right i → s.r < i → a < entryAddr tab i
  apart : ∀ i, Entry tab type left right i → s.r < i → i ≤ e →
    a + 1 < entryAddr tab i
  bound : s.r = right ∨ Entry tab type left right (s.r + 1)
  region : Entry tab type left right s.regionLeft ∧ entryAddr tab s.regionLeft ≤
    a ∧ s.regionLeft ≤ s.r
  path : ∀ m' r', Meets tab type (a + 1) m e m' r' ↔
    Meets tab type (a + 1) s.l s.r m' r'

/-- A probe has found the last address there is at `m`, and the search goes on
with 0. -/
structure Spent (m : Int) (s : Search) : Prop where
  l : s.l = m
  le : s.r ≤ right
  close : m ≤ s.r + 1
  out : s.regionRight = s.r
  any : s.anyMatches = true
  region : s.regionLeft = m
  addr : s.addr.toNat = 0
  entry : Entry tab type left right m
  last : entryAddr tab m + 1 = 2 ^ 32

/-- A second probe has found an address, at `m`, and the search does not come
back before it. -/
structure Lost (m : Int) (s : Search) : Prop where
  le : s.r ≤ right
  ge : m ≤ s.l
  out : s.regionRight = s.r
  any : s.anyMatches = true
  entry : Entry tab type left right m
  above : a < entryAddr tab m
  region : m ≤ s.regionLeft
  r : m ≤ s.r
  past : m < s.l ∨ entryAddr tab m < s.addr.toNat

/-- What the search has come to. -/
inductive Phase (s : Search) : Prop
  | searching (h : Searching tab type left right a s)
  | passed (m e : Int) (h : Passed tab type left right a m e s)
  | last (m e : Int) (met : Meets tab type a left right m e)
      (wraps : a + 1 = 2 ^ 32) (h : Spent tab type left right m s)
  | slipped (m e m' e' : Int) (met : Meets tab type a left right m e)
      (met' : Meets tab type (a + 1) m e m' e')
      (wraps : a + 2 = 2 ^ 32) (h : Spent tab type left right m' s)
  | lost (m e m' : Int) (met : Meets tab type a left right m e)
      (entry : Entry tab type left right m')
      (ge : m ≤ m') (le : m' ≤ e) (next : entryAddr tab m' = a + 1)
      (fits : a + 2 < 2 ^ 32)
      (h : Lost tab type left right a m' s)

end

section

variable {left right m e : Int} {a : Nat} {s : Search}

theorem toNat_succ {w : Word} (h : w.toNat + 1 < 2 ^ 32) :
    (w + 1).toNat = w.toNat + 1 := by
  rw [BitVec.toNat_add, show (1 : Word).toNat = 1 from rfl, Nat.mod_eq_of_lt h]

theorem toNat_succ_last {w : Word} (h : w.toNat + 1 = 2 ^ 32) :
    (w + 1).toNat = 0 := by
  rw [BitVec.toNat_add, show (1 : Word).toNat = 1 from rfl, h, Nat.mod_self]

/-- A probe that finds no entry of the type leaves none of the type behind, and
else none behind the one it finds. -/
theorem Entry.le_probed {i l r : Int} (h : Entry tab type left right i)
    (hi : i ≤ mid l r) : i ≤ probed tab type l r := by
  by_contra hlt
  exact not_type_of_probed (by omega) hi h.type_eq

theorem Entry.of_probed (h0 : 0 ≤ left) (hge : left ≤ s.l) (hle : s.r ≤ right)
    (h : s.l ≤ s.r)
    (hm : s.l ≤ probed tab type s.l s.r) :
    Entry tab type left right (probed tab type s.l s.r) :=
  ⟨hge.trans hm, (probed_le (h0.trans hge) h).trans hle,
    type_probed (h0.trans hge) h hm⟩

theorem Searching.start (addr : Word) (h : left ≤ right + 1) :
    Searching tab type left right addr.toNat ⟨left, right, false, left, right,
      addr⟩ where
  ge := le_rfl
  le := le_rfl
  close := h
  out := rfl
  addr := rfl
  below i hi hlt := absurd hi.ge (by simp only at hlt; omega)
  above i hi hlt := absurd hi.le (by simp only at hlt; omega)
  bound := .inl rfl
  fresh _ := ⟨rfl, fun i hi => ⟨hi.ge, hi.le⟩⟩
  seen := nofun
  path _ _ := Iff.rfl

theorem Searching.next (hs : Searching tab type left right a s) (hord :
      Ordered tab type left right) (h0 : 0 ≤ left)
    (h : s.l ≤ s.r) : Phase tab type left right a (s.next tab type) := by
  have hmid := mid_mem (h0.trans hs.ge) h
  have hle : probed tab type s.l s.r ≤ s.r := probed_le (h0.trans hs.ge) h
  have haddr := hs.addr
  rcases s.next_cases tab type with ⟨hm, hnext⟩ | ⟨hm, hcases⟩
  · rw [hnext]
    have hskip : ∀ i, Entry tab type left right i → s.l ≤ i →
        mid s.l s.r + 1 ≤ i := by
      intro i hi hge
      by_contra hlt
      have := hi.le_probed (by omega : i ≤ mid s.l s.r)
      omega
    refine .searching ⟨by simp only; have := hs.ge; omega, hs.le, by simp only; omega, hs.out, hs.addr, ?_, hs.above,
      hs.bound, ?_, ?_, ?_⟩
    · intro i hi hlt
      refine hs.below i hi ?_
      by_contra hge
      have := hskip i hi (by omega)
      simp only at hlt
      omega
    · intro hany
      obtain ⟨hrl, hin⟩ := hs.fresh hany
      exact ⟨hrl, fun i hi => ⟨hskip i hi (hin i hi).1, (hin i hi).2⟩⟩
    · intro hany
      obtain ⟨hex, hreg⟩ := hs.seen hany
      refine ⟨hex, hreg.imp ?_ ?_⟩
      · rintro ⟨hent, hlt⟩
        exact ⟨hent, by simp only; omega⟩
      · rintro ⟨hrl, hin⟩
        exact ⟨hrl, fun i hi => hskip i hi (hin i hi)⟩
    · intro m r'
      rw [hs.path]
      constructor
      · intro hmeets
        cases hmeets with
        | skip _ _ hmeets => exact hmeets
        | up _ hyes | down _ hyes | hit _ hyes => omega
      · exact .skip h hm
  · have hent : Entry tab type left right (probed tab type s.l s.r) := Entry.of_probed h0 hs.ge hs.le h hm
    rcases hcases with ⟨hlt, hnext⟩ | ⟨hgt, hnext⟩ | ⟨heq, hnext⟩
    · rw [hnext]
      refine .searching ⟨by simp only; have := hs.ge; omega, hs.le,
        by simp only; omega, hs.out, hs.addr, ?_, hs.above,
        hs.bound, nofun, ?_, ?_⟩
      · intro i hi hi'
        have := hord i _ hi hent (hi.le_probed (by simp only at hi'; omega))
        omega
      · exact fun _ => ⟨⟨_, hent⟩, .inl ⟨hent, by
          have : probed tab type s.l s.r ≤ mid s.l s.r := (lastOf_spec _ _).2.1
          simp only
          omega⟩⟩
      · intro m r'
        rw [hs.path]
        constructor
        · intro hmeets
          cases hmeets with
          | up _ _ _ hmeets => exact hmeets
          | skip _ hno => omega
          | down _ _ hgt | hit _ _ hgt => omega
        · exact .up h hm (by omega)
    · have hgt' : a < entryAddr tab (probed tab type s.l s.r) := by omega
      rw [hnext]
      refine .searching ⟨hs.ge, by simp only; have := hs.le; omega,
        by simp only; omega, rfl, hs.addr, hs.below, ?_,
        ?_, nofun, ?_, ?_⟩
      · intro i hi hi'
        have := hord _ i hent hi (by simp only at hi'; omega)
        omega
      · simp only [Int.sub_add_cancel]
        exact .inr hent
      · intro _
        refine ⟨⟨_, hent⟩, ?_⟩
        cases hany : s.anyMatches with
        | true => exact (hs.seen hany).2
        | false => exact .inr ⟨(hs.fresh hany).1, fun i hi =>
            ((hs.fresh hany).2 i hi).1⟩
      · intro m r'
        rw [hs.path]
        constructor
        · intro hmeets
          cases hmeets with
          | down _ _ _ hmeets => exact hmeets
          | skip _ hno => omega
          | up _ _ hlt | hit _ _ hlt => omega
        · exact .down h hm hgt'
    · rw [hnext]
      have hmet : Meets tab type a left right (probed tab type s.l s.r) s.r :=
        (hs.path _ _).mpr (.hit h hm (by omega))
      have hw := s.addr.isLt
      by_cases hwrap : a + 1 = 2 ^ 32
      · exact .last _ _ hmet hwrap
          ⟨rfl, hs.le, by simp only; omega, hs.out, rfl, rfl,
          toNat_succ_last (by omega), hent, by omega⟩
      · refine .passed _ _ ⟨le_rfl, le_rfl, by simp only; omega, hs.out,
          rfl, hmet,
          ⟨hent.ge, hs.le⟩, by simp only; rw [toNat_succ (by omega), haddr], ?_,
          hs.above, ?_, hs.bound,
          ⟨hent, by simp only; omega, hle⟩, fun _ _ => Iff.rfl⟩
        · intro i hi hi'
          have := hord i _ hi hent (by simp only at hi'; omega)
          omega
        · intro i _ hgt hle
          simp only at hgt hle
          omega

theorem Passed.next (hs : Passed tab type left right a m e s) (hord :
      Ordered tab type left right) (h0 : 0 ≤ left)
    (h : s.l ≤ s.r) : Phase tab type left right a (s.next tab type) := by
  have hge : left ≤ s.l := hs.inside.1.trans hs.ge
  have hle' : s.r ≤ right := hs.le.trans hs.inside.2
  have hmid := mid_mem (h0.trans hge) h
  have hle : probed tab type s.l s.r ≤ s.r := probed_le (h0.trans hge) h
  have haddr := hs.addr
  rcases s.next_cases tab type with ⟨hm, hnext⟩ | ⟨hm, hcases⟩
  · rw [hnext]
    refine .passed m e ⟨by simp only; have := hs.ge; omega, hs.le, by simp only; omega, hs.out, hs.any, hs.met,
      hs.inside, hs.addr, ?_, hs.above, hs.apart, hs.bound, hs.region, ?_⟩
    · intro i hi hlt
      refine hs.below i hi ?_
      by_contra hge
      have := hi.le_probed (by simp only at hlt; omega : i ≤ mid s.l s.r)
      omega
    · intro m' r'
      rw [hs.path]
      constructor
      · intro hmeets
        cases hmeets with
        | skip _ _ hmeets => exact hmeets
        | up _ hyes | down _ hyes | hit _ hyes => omega
      · exact .skip h hm
  · have hent : Entry tab type left right (probed tab type s.l s.r) := Entry.of_probed h0 hge hle' h hm
    rcases hcases with ⟨hlt, hnext⟩ | ⟨hgt, hnext⟩ | ⟨heq, hnext⟩
    · have hlt' : entryAddr tab (probed tab type s.l s.r) < a + 1 := by omega
      rw [hnext]
      refine .passed m e ⟨by simp only; have := hs.ge; omega, hs.le,
        by simp only; omega, hs.out, rfl, hs.met,
        hs.inside, hs.addr, ?_, hs.above, hs.apart, hs.bound,
        ⟨hent, by simp only; omega, hle⟩, ?_⟩
      · intro i hi hi'
        have := hord i _ hi hent (hi.le_probed (by simp only at hi'; omega))
        omega
      · intro m' r'
        rw [hs.path]
        constructor
        · intro hmeets
          cases hmeets with
          | up _ _ _ hmeets => exact hmeets
          | skip _ hno => omega
          | down _ _ hgt | hit _ _ hgt => omega
        · exact .up h hm hlt'
    · have hgt' : a + 1 < entryAddr tab (probed tab type s.l s.r) := by omega
      have hafter : ∀ i, Entry tab type left right i →
          probed tab type s.l s.r - 1 < i → a + 1 < entryAddr tab i := by
        intro i hi hi'
        have := hord _ i hent hi (by omega)
        omega
      obtain ⟨hrl, hrla, -⟩ := hs.region
      have hrlt : s.regionLeft < probed tab type s.l s.r := by
        by_contra hge
        have := hord _ _ hent hrl (by omega)
        omega
      rw [hnext]
      refine .passed m e ⟨hs.ge, by simp only; have := hs.le; omega,
        by simp only; omega, rfl, rfl, hs.met, hs.inside,
        hs.addr, hs.below, ?_, ?_, ?_, ⟨hrl, hrla, by simp only; omega⟩, ?_⟩
      · intro i hi hi'
        have := hafter i hi hi'
        omega
      · exact fun i hi hi' _ => hafter i hi hi'
      · simp only [Int.sub_add_cancel]
        exact .inr hent
      · intro m' r'
        rw [hs.path]
        constructor
        · intro hmeets
          cases hmeets with
          | down _ _ _ hmeets => exact hmeets
          | skip _ hno => omega
          | up _ _ hlt | hit _ _ hlt => omega
        · exact .down h hm hgt'
    · have heq' : entryAddr tab (probed tab type s.l s.r) = a + 1 := by omega
      have hw := s.addr.isLt
      rw [hnext]
      by_cases hwrap : a + 2 = 2 ^ 32
      · exact .slipped m e _ s.r hs.met
          ((hs.path _ _).mpr (.hit h hm heq')) hwrap
          ⟨rfl, hle', by simp only; omega, hs.out, rfl, rfl,
          toNat_succ_last (by omega), hent, by omega⟩
      · refine .lost m e (probed tab type s.l s.r) hs.met hent
          (by have := hs.ge; omega) (by have := hs.le; omega) heq'
          (by omega) ⟨hle', le_rfl, hs.out, rfl, hent, by omega, le_rfl,
          hle, .inr ?_⟩
        simp only
        rw [toNat_succ (by omega)]
        omega

/-- The entries from `m` on are all at the last address, so that the interval
shrinks to nothing. -/
theorem Spent.next (hs : Spent tab type left right m s)
    (hord : Ordered tab type left right) (h0 : 0 ≤ left)
    (h : s.l ≤ s.r) : Spent tab type left right m (s.next tab type) := by
  obtain ⟨rfl⟩ := hs.l
  have hmid := mid_mem (h0.trans hs.entry.ge) h
  have hle : probed tab type s.l s.r ≤ s.r := probed_le (h0.trans hs.entry.ge) h
  have hm : s.l ≤ probed tab type s.l s.r := hs.entry.le_probed hmid.1
  have hent : Entry tab type left right (probed tab type s.l s.r) := Entry.of_probed h0 hs.entry.ge hs.le h hm
  have hlast := hord _ _ hs.entry hent hm
  have hzero := hs.addr
  have hmax := hs.last
  rcases s.next_cases tab type with ⟨hno, -⟩ | ⟨-, ⟨hlt, -⟩ | ⟨-, hnext⟩ | ⟨heq, -⟩⟩
  · omega
  · omega
  · rw [hnext]
    exact ⟨rfl, by simp only; have := hs.le; omega, by simp only; omega, rfl,
      rfl, hs.region, hs.addr, hs.entry, hs.last⟩
  · omega

theorem Lost.next (hs : Lost tab type left right a m s) (h0 : 0 ≤ left) (h : s.l ≤ s.r) :
    Lost tab type left right a m (s.next tab type) := by
  have hge : left ≤ s.l := hs.entry.ge.trans hs.ge
  have hmid := mid_mem (h0.trans hge) h
  have hle : probed tab type s.l s.r ≤ s.r := probed_le (h0.trans hge) h
  have hm' := hs.ge
  rcases s.next_cases tab type with ⟨hm, hnext⟩ | ⟨hm, ⟨hlt, hnext⟩ | ⟨hgt, hnext⟩ | ⟨heq, hnext⟩⟩
  · rw [hnext]
    exact ⟨hs.le, by simp only; omega, hs.out, hs.any, hs.entry, hs.above,
      hs.region, hs.r, .inl (by simp only; omega)⟩
  · rw [hnext]
    exact ⟨hs.le, by simp only; omega, hs.out, rfl, hs.entry, hs.above,
      by simp only; omega, hs.r,
      .inl (by simp only; omega)⟩
  · have hlt : m < probed tab type s.l s.r := by
      rcases hs.past with hpast | hpast
      · omega
      · by_contra hge
        obtain rfl : m = probed tab type s.l s.r := by omega
        omega
    rw [hnext]
    exact ⟨by simp only; have := hs.le; omega, hs.ge, rfl, rfl, hs.entry,
      hs.above, hs.region, by simp only; omega,
      hs.past⟩
  · have hlt : m < probed tab type s.l s.r := by
      rcases hs.past with hpast | hpast
      · omega
      · by_contra hge
        obtain rfl : m = probed tab type s.l s.r := by omega
        omega
    rw [hnext]
    exact ⟨hs.le, by simp only; omega, hs.out, rfl, hs.entry, hs.above,
      by simp only; omega, hs.r,
      .inl (by simp only; omega)⟩

theorem Phase.next (hs : Phase tab type left right a s)
    (hord : Ordered tab type left right) (h0 : 0 ≤ left)
    (h : s.l ≤ s.r) : Phase tab type left right a (s.next tab type) := by
  cases hs with
  | searching hs => exact hs.next hord h0 h
  | passed m e hs => exact hs.next hord h0 h
  | last m e met wraps hs => exact .last m e met wraps (hs.next hord h0 h)
  | slipped m e m' e' met met' wraps hs =>
      exact .slipped m e m' e' met met' wraps (hs.next hord h0 h)
  | lost m e m' met entry ge le hnext fits hs =>
      exact .lost m e m' met entry ge le hnext fits (hs.next h0 h)

end

/-! ## What the search should leave, and when it does -/

section

variable (tab : Int → Stab) (type : BitVec 8) (left right : Int) (a : Nat)

/-- `rl` is the last entry of the type at or before the address, and `rr` is
just before the next entry of the type, or the end of the region. -/
structure Contains (rl rr : Int) : Prop where
  entry : Entry tab type left right rl
  le : entryAddr tab rl ≤ a
  last : ∀ i, Entry tab type left right i → entryAddr tab i ≤ a → i ≤ rl
  next : rr = right ∧ (∀ i, Entry tab type left right i → i ≤ rl) ∨
    Entry tab type left right (rr + 1) ∧ rl < rr + 1 ∧ ∀ i,
    Entry tab type left right i → rl < i → rr < i

/-- The region of the entry that contains the address, and an empty one if none
does. -/
structure Brackets (rl rr : Int) : Prop where
  found : (∃ i, Entry tab type left right i ∧ entryAddr tab i ≤ a) →
    Contains tab type left right a rl rr
  absent : (¬∃ i, Entry tab type left right i ∧ entryAddr tab i ≤ a) → rr < rl

/-- Directly before `m` in the table there is an entry of the type at or before
the address. -/
def JustBefore (m : Int) : Prop :=
  Entry tab type left right (m - 1) ∧ entryAddr tab (m - 1) ≤ a

/-- When the search comes out right. There must be an entry at or before the
address unless there is none of the type. Where the bisection meets the address,
it is not the last address there is, and the rest of the interval has no entry
for the next address: except that this is the last address there is, and the
bisection goes on to meet it directly behind the entries for the address. -/
structure Bisects : Prop where
  some : (∃ i, Entry tab type left right i) → ∃ i, Entry tab type left right i ∧
    entryAddr tab i ≤ a
  next : ∀ m e, Meets tab type a left right m e → a + 1 < 2 ^ 32 ∧
    ((∀ i, Entry tab type left right i → m ≤ i → i ≤ e →
    entryAddr tab i ≠ a + 1) ∨
      a + 2 = 2 ^ 32 ∧ ∃ m' e', Meets tab type (a + 1) m e m' e' ∧
      JustBefore tab type left right a m')

end

/-- What `binsearch` leaves at the end of its loop. -/
def Search.left (tab : Int → Stab) (type : BitVec 8) (s : Search) : Int :=
  if s.anyMatches then lastOf tab type (s.regionRight - s.regionLeft).toNat
    s.regionRight else s.regionLeft

def Search.right (s : Search) : Int :=
  if s.anyMatches then s.regionRight else s.regionLeft - 1

section

variable {left right m e : Int} {a : Nat} {s : Search} {e' : ε}

/-- Nothing is met in an empty interval. -/
theorem not_meets {l r m r' : Int} (h : r < l) :
    ¬Meets tab type a l r m r' := by
  intro hmeets
  cases hmeets <;> omega

/-- From an entry at or before the address on, the last one of the type in what
is left is the one that contains it. -/
theorem contains_of_region {p r : Int} (hp : Entry tab type left right p)
    (hpr : p ≤ r) (hr : r ≤ right)
    (below : ∀ i, Entry tab type left right i → i ≤ r → entryAddr tab i ≤ a)
    (above : ∀ i, Entry tab type left right i → r < i → a < entryAddr tab i)
    (bound : r = right ∨ Entry tab type left right (r + 1)) :
    Contains tab type left right a (lastOf tab type (r - p).toNat r) r := by
  obtain ⟨hge, hle, hnone, htype⟩ := @lastOf_spec tab type (r - p).toNat r
  have hpq : p ≤ lastOf tab type (r - p).toNat r := by omega
  have hent : Entry tab type left right (lastOf tab type (r - p).toNat r) := by
    by_cases heq : lastOf tab type (r - p).toNat r = p
    · rwa [heq]
    · exact ⟨hp.ge.trans hpq, hle.trans hr, htype (by omega)⟩
  have hlast : ∀ i, Entry tab type left right i → i ≤ r →
      i ≤ lastOf tab type (r - p).toNat r := by
    intro i hi hir
    by_contra hlt
    exact hnone i (by omega) hir hi.type_eq
  refine ⟨hent, below _ hent hle, fun i hi hia => ?_, ?_⟩
  · refine hlast i hi ?_
    by_contra hlt
    have := above i hi (by omega)
    omega
  · rcases bound with rfl | hnext
    · exact .inl ⟨rfl, fun i hi => hlast i hi hi.le⟩
    · refine .inr ⟨hnext, by omega, fun i hi hlt => ?_⟩
      by_contra hge
      have := hlast i hi (by omega)
      omega

theorem Brackets.of_contains {rl rr : Int}
    (h : Contains tab type left right a rl rr) :
    Brackets tab type left right a rl rr :=
  ⟨fun _ => h, fun hno => absurd ⟨rl, h.entry, h.le⟩ hno⟩

/-- A search that has ended without an exact probe. -/
theorem Searching.end_iff (hs : Searching tab type left right a s)
    (h : s.r < s.l) :
    Brackets tab type left right a (s.left tab type) s.right ↔
    Bisects tab type left right a := by
  have hclose := hs.close
  have hnext : ∀ m e, Meets tab type a left right m e → False :=
    fun m e hmeets =>
    not_meets h ((hs.path m e).mp hmeets)
  cases hany : s.anyMatches with
  | false =>
      obtain ⟨-, hin⟩ := hs.fresh hany
      have hno : ∀ i, ¬Entry tab type left right i := fun i hi => by
        have := hin i hi
        omega
      refine iff_of_true ⟨fun ⟨i, hi, _⟩ => absurd hi (hno i), fun _ => ?_⟩
        ⟨fun ⟨i, hi⟩ => absurd hi (hno i), fun m e hmeets =>
        (hnext m e hmeets).elim⟩
      simp only [Search.left, Search.right, hany, Bool.false_eq_true, if_false]
      omega
  | true =>
      obtain ⟨⟨i₀, hi₀⟩, hreg⟩ := hs.seen hany
      simp only [Search.left, Search.right, hany, if_true, hs.out]
      rcases hreg with ⟨hent, hlt⟩ | ⟨-, hin⟩
      · have hsome : ∃ i, Entry tab type left right i ∧ entryAddr tab i ≤ a :=
          ⟨_, hent, (hs.below _ hent hlt).le⟩
        refine iff_of_true (.of_contains ?_) ⟨fun _ => hsome, fun m e hmeets =>
          (hnext m e hmeets).elim⟩
        exact contains_of_region hent (by omega) hs.le
          (fun i hi hir => (hs.below i hi (by omega)).le) hs.above hs.bound
      · -- every entry is behind the address, and the region is not empty
        have hno : ¬∃ i, Entry tab type left right i ∧ entryAddr tab i ≤ a := by
          rintro ⟨i, hi, hia⟩
          have := hs.above i hi (by have := hin i hi; omega)
          omega
        refine iff_of_false (fun hb => ?_) fun hb => hno (hb.some ⟨i₀, hi₀⟩)
        have := hb.absent hno
        have := (@lastOf_spec tab type (s.r - s.regionLeft).toNat s.r).2.1
        omega

/-- A search that has ended after one exact probe. -/
theorem Passed.end_iff (hs : Passed tab type left right a m e s)
    (h : s.r < s.l) :
    Brackets tab type left right a (s.left tab type) s.right ↔
    Bisects tab type left right a := by
  have hclose := hs.close
  obtain ⟨hent, hle, hr⟩ := hs.region
  have hsr : s.r ≤ right := hs.le.trans hs.inside.2
  have hfits : a + 1 < 2 ^ 32 := by
    rw [← hs.addr]
    exact s.addr.isLt
  refine iff_of_true (.of_contains ?_)
    ⟨fun _ => ⟨_, hent, hle⟩, fun m' e' hmeets => ⟨hfits, .inl ?_⟩⟩
  · simp only [Search.left, Search.right, hs.any, if_true, hs.out]
    exact contains_of_region hent hr hsr
      (fun i hi hir => hs.below i hi (by omega)) hs.above hs.bound
  · obtain ⟨rfl, rfl⟩ := hs.met.unique hmeets
    intro i hi _ hie
    by_cases hlt : i < s.l
    · have := hs.below i hi hlt
      omega
    · have := hs.apart i hi (by omega) hie
      omega

theorem Spent.ends (hs : Spent tab type left right m s) (h : s.r < s.l) :
    s.left tab type = m - 1 ∧ s.right = m - 1 := by
  have hclose := hs.close
  have hl := hs.l
  have hr : s.r = m - 1 := by omega
  simp [Search.left, Search.right, hs.any, hs.out, hs.region, hr, lastOf]

/-- The entry that the bisection meets is in the region. -/
theorem Meets.entry {l r e : Int} (h : Meets tab type a l r m e) (h0 : 0 ≤ l)
    (hl : left ≤ l) (hr : r ≤ right) :
    Entry tab type left right m ∧ entryAddr tab m = a ∧ l ≤ m ∧ m ≤ e ∧
    e ≤ r := by
  obtain ⟨hlm, hme, her, htype, haddr⟩ := h.spec h0
  exact ⟨⟨by omega, by omega, htype⟩, haddr, hlm, hme, her⟩

/-- A search that has ended, in whatever way. -/
theorem Phase.end_iff (hs : Phase tab type left right a s)
    (hord : Ordered tab type left right) (h0 : 0 ≤ left)
    (h : s.r < s.l) :
    Brackets tab type left right a (s.left tab type) s.right ↔
    Bisects tab type left right a := by
  cases hs with
  | searching hs => exact hs.end_iff h
  | passed m e hs => exact hs.end_iff h
  | last m e met wraps hs =>
      -- the entry at the last address is not in the region that is left
      obtain ⟨hrl, hrr⟩ := hs.ends h
      obtain ⟨hent, haddr, -⟩ := met.entry h0 le_rfl le_rfl
      rw [hrl, hrr]
      refine iff_of_false (fun hb => ?_) fun hb => ?_
      · have := (hb.found ⟨m, hent, haddr.le⟩).last m hent haddr.le
        omega
      · have := (hb.next m e met).1
        omega
  | slipped m e m' e' met met' wraps hs =>
      obtain ⟨hrl, hrr⟩ := hs.ends h
      obtain ⟨hent, haddr, hlm, hme, her⟩ := met.entry h0 le_rfl le_rfl
      obtain ⟨hent', haddr', hmm', hme', hee⟩ :=
        met'.entry (h0.trans hlm) hlm her
      rw [hrl, hrr]
      constructor
      · intro hb
        have hcon := hb.found ⟨m, hent, haddr.le⟩
        refine ⟨fun _ => ⟨m, hent, haddr.le⟩, fun n f hmeets => ?_⟩
        obtain ⟨rfl, rfl⟩ := met.unique hmeets
        exact ⟨by omega, .inr ⟨wraps, m', e', met', hcon.entry, hcon.le⟩⟩
      · intro hb
        rcases (hb.next m e met).2 with hno | ⟨-, n, f, hmeets, hbefore⟩
        · exact absurd haddr' (hno m' hent' hmm' (hme'.trans hee))
        · obtain ⟨rfl, rfl⟩ := met'.unique hmeets
          refine .of_contains ⟨hbefore.1, hbefore.2, fun i hi hia => ?_,
            .inr ⟨?_, by omega, fun i _ hlt => hlt⟩⟩
          · by_contra hge
            have := hord m' i hent' hi (by omega)
            omega
          · rwa [Int.sub_add_cancel]
  | lost m e m' met entry ge le next fits hs =>
      obtain ⟨hent, haddr, -⟩ := met.entry h0 le_rfl le_rfl
      refine iff_of_false (fun hb => ?_) fun hb => ?_
      · have hcon := hb.found ⟨m, hent, haddr.le⟩
        have hge := (@lastOf_spec tab type (s.r - s.regionLeft).toNat s.r).1
        have hleft : s.left tab type =
            lastOf tab type (s.r - s.regionLeft).toNat s.r := by
          simp [Search.left, hs.any, hs.out]
        have hr := hs.r
        have hregion := hs.region
        have hle := hcon.le
        have := hord m' _ entry hcon.entry (by omega)
        omega
      · rcases (hb.next m e met).2 with hno | ⟨hwrap, -⟩
        · exact hno m' entry ge le next
        · omega

/-- `stab_binsearch` ends on every table, and brackets the address if and only
if `Bisects`. -/
theorem binsearch_brackets (addr : Word) (h0 : 0 ≤ left)
    (hord : Ordered tab type left right) :
    ∃ rl rr, (StabReader.ofTable tab).binsearch e' left right type addr u =
      (.ret (rl, rr) u : Outcome σ ε (Int × Int)) ∧
      (Brackets tab type left right addr.toNat rl rr ↔
        Bisects tab type left right addr.toNat) := by
  have hstart : Search.measure tab type ⟨left, right, false, left, right,
      addr⟩ < 2 * (right - left + 1).toNat + 2 := by
    unfold Search.measure
    split <;> simp only <;> omega
  obtain ⟨t, hruns, hend, hret⟩ := loop_ofTable (e := e') (u := u) _ h0 hstart
  refine ⟨t.left tab type, t.right, ?_, ?_⟩
  · simp only [StabReader.binsearch, Prog.bind_apply, hret]
    cases hany : t.anyMatches with
    | false => simp [Search.left, Search.right, hany]
    | true => simp [Search.left, Search.right, hany, seekType_ofTable,
        Prog.bind_apply]
  · by_cases hlr : left ≤ right + 1
    · have hphase : Phase tab type left right addr.toNat t :=
        hruns.invariant (fun s l t hs hl hstep => by
          subst hstep; exact hs.next hord h0 hl)
          (.searching (.start addr hlr))
      exact hphase.end_iff hord h0 hend
    · -- the region is empty, and nothing is probed
      obtain rfl : t = ⟨left, right, false, left, right, addr⟩ :=
        hruns.invariant (I := (· = ⟨left, right, false, left, right, addr⟩))
          (fun s l t hs hl _ => by subst hs; simp only at hl; omega) rfl
      have hno : ∀ i, ¬Entry tab type left right i := fun i hi => by
        have := hi.ge
        have := hi.le
        omega
      refine iff_of_true ⟨fun ⟨i, hi, _⟩ => absurd hi (hno i), fun _ => ?_⟩
        ⟨fun ⟨i, hi⟩ => absurd hi (hno i), fun m e hmeets =>
        absurd hmeets (not_meets (by omega))⟩
      simp [Search.left, Search.right]

end

end Table

/-! ## Two tables -/

/-- Functions at consecutive addresses from 5 on. -/
def adjacentFuns (i : Int) : Stab := ⟨0, 0x24, 0, BitVec.ofInt 32 (5 + i)⟩

/-- Functions two addresses apart. -/
def spacedFuns (i : Int) : Stab := ⟨0, 0x24, 0, BitVec.ofInt 32 (5 + 2 * i)⟩

theorem spacedFuns_ordered : Ordered spacedFuns 0x24 0 2 := by
  intro i j hi hj hij
  have hi' := hi.ge
  have hj' := hj.le
  simp only [entryAddr, spacedFuns, BitVec.toNat_ofInt]
  omega

theorem adjacentFuns_ordered : Ordered adjacentFuns 0x24 0 1 := by
  intro i j hi hj hij
  have hi' := hi.ge
  have hj' := hj.le
  simp only [entryAddr, adjacentFuns, BitVec.toNat_ofInt]
  omega

theorem binsearch_brackets_spaced :
    ∃ rl rr, (StabReader.ofTable spacedFuns).binsearch () 0 2 0x24 6 () =
        (.ret (rl, rr) () : Outcome Unit Unit (Int × Int)) ∧
      (Brackets spacedFuns 0x24 0 2 6 rl rr ↔ Bisects spacedFuns 0x24 0 2 6) :=
  binsearch_brackets 6 (by decide) spacedFuns_ordered

/-- The function at 6 is taken for the one that contains 5. -/
theorem binsearch_adjacent :
    ¬∀ (tab : Int → Stab) (type : BitVec 8) (left right : Int) (addr : Word),
    0 ≤ left → Ordered tab type left right →
      ∃ rl rr, (StabReader.ofTable tab).binsearch () left right type addr () =
          (.ret (rl, rr) () : Outcome Unit Unit (Int × Int)) ∧
        Brackets tab type left right addr.toNat rl rr := by
  intro h
  obtain ⟨rl, rr, hret, hb⟩ := h adjacentFuns 0x24 0 1
    5 (by decide) adjacentFuns_ordered
  have hrun : (StabReader.ofTable adjacentFuns).binsearch () 0 1 0x24 5 () =
      (.ret (1, 1) () : Outcome Unit Unit (Int × Int)) := by decide +kernel
  rw [hrun] at hret
  cases hret
  have hle := (hb.found ⟨0, ⟨by decide, by decide, rfl⟩, by decide⟩).le
  revert hle
  decide

end Jos
