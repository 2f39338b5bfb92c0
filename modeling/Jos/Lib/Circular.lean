import Mathlib.Data.Finset.Card
import Mathlib.Order.Lattice

/-!
# Searching for the best, and taking turns

Two facts about a scan that remembers the best candidate seen so far. A
candidate replaces the one remembered only if its key is strictly greater, so
the scan ends with the first candidate of greatest key
(`foldl_keepBetter`). When the scan goes around a circle of `n` slots and starts
after the slot that it found last, the candidates of greatest key take turns
(`everyone_once`).
-/

namespace Jos

/-! ## The first of the greatest -/

section Scan

variable {ι κ : Type} [LinearOrder κ]

/-- One test of the scan. -/
def keepBetter (cand : ι → Prop) [DecidablePred cand] (key : ι → κ)
    (best : Option ι × κ) (i : ι) : Option ι × κ :=
  if cand i ∧ best.2 < key i then (some i, key i) else best

/-- `i` is a candidate of `l` and comes before every other: its key is greater,
or it is the same and `i` is earlier by `r`. -/
structure FirstBest (cand : ι → Prop) (key : ι → κ) (r : ι → ι → Prop)
    (l : List ι)
    (i : ι) : Prop where
  mem : i ∈ l
  isCand : cand i
  best : ∀ j ∈ l, cand j → j = i ∨ key j < key i ∨ (key j = key i ∧ r i j)

variable {cand : ι → Prop} [DecidablePred cand] {key : ι → κ} {r : ι → ι → Prop}
  {l : List ι} {i j : ι} {k₀ : κ}

/-- The scan of a list that is in the order `r` finds the first of the greatest,
when the key it starts with is below every candidate's. -/
theorem foldl_keepBetter (hl : l.Pairwise r)
    (h₀ : ∀ j ∈ l, cand j → k₀ < key j) :
    (∃ i, l.foldl (keepBetter cand key) (none, k₀) = (some i, key i)
        ∧ FirstBest cand key r l i)
      ∨ (l.foldl (keepBetter cand key) (none, k₀) = (none, k₀) ∧ ∀ j ∈ l,
        ¬cand j) := by
  induction l using List.reverseRecOn with
  | nil => exact .inr ⟨rfl, nofun⟩
  | append_singleton l x ih =>
      obtain ⟨hl', -, hlast⟩ := List.pairwise_append.mp hl
      have hx : x ∈ l ++ [x] :=
        List.mem_append_right _ (List.mem_singleton_self x)
      have hmem : ∀ j ∈ l ++ [x], j ∈ l ∨ j = x := by simp
      rw [List.foldl_append, List.foldl_cons, List.foldl_nil]
      rcases ih hl' fun j hj => h₀ j (List.mem_append_left _ hj) with
        ⟨i, hfold, hi⟩ | ⟨hfold, hnone⟩
      · rw [hfold]
        by_cases hnew : cand x ∧ key i < key x
        · refine .inl ⟨x, if_pos hnew, hx, hnew.1, fun j hj hcand => ?_⟩
          rcases hmem j hj with hj | rfl
          · rcases hi.best j hj hcand with rfl | hlt | ⟨heq, -⟩
            · exact .inr (.inl hnew.2)
            · exact .inr (.inl (hlt.trans hnew.2))
            · exact .inr (.inl (heq ▸ hnew.2))
          · exact .inl rfl
        · refine .inl ⟨i, if_neg hnew, List.mem_append_left _ hi.mem, hi.isCand,
            fun j hj hcand => ?_⟩
          rcases hmem j hj with hj | rfl
          · exact hi.best j hj hcand
          · rcases lt_or_eq_of_le (not_lt.mp fun h => hnew ⟨hcand, h⟩) with
              hlt | heq
            · exact .inr (.inl hlt)
            · exact .inr
                (.inr ⟨heq, hlast i hi.mem j (List.mem_singleton_self j)⟩)
      · rw [hfold]
        by_cases hcand : cand x
        · refine .inl ⟨x, if_pos ⟨hcand, h₀ x hx hcand⟩, hx, hcand,
            fun j hj hj' => ?_⟩
          rcases hmem j hj with hj | rfl
          · exact absurd hj' (hnone j hj)
          · exact .inl rfl
        · refine .inr ⟨if_neg fun h => hcand h.1, fun j hj => ?_⟩
          rcases hmem j hj with hj | rfl
          · exact hnone j hj
          · exact hcand

end Scan

/-! ## Around the circle -/

/-- How many slots lie strictly between `c` and `i`, going up from `c` around a
circle of `n` slots; `c` itself comes last. -/
def after (n c i : Nat) : Nat := if c < i then i - c - 1 else n + i - c - 1

section Circle

variable {n c d i j : Nat} {T : Finset Nat}

theorem after_inj (hc : c < n) (hi : i < n) (hj : j < n)
    (h : after n c i = after n c j) :
    i = j := by
  unfold after at h
  split at h <;> split at h <;> omega

/-- The `k`-th slot of the scan that starts after `c`. -/
theorem after_mod (hc : c < n) {k : Nat} (hk : k < n) :
    after n c ((c + 1 + k) % n) = k := by
  by_cases h : c + 1 + k < n
  · rw [Nat.mod_eq_of_lt h, after, if_pos (by omega)]
    omega
  · rw [Nat.mod_eq_sub_mod (Nat.le_of_not_lt h),
      Nat.mod_eq_of_lt (by omega), after,
      if_neg (by omega)]
    omega

/-- The slots in the order of the scan that starts after `c`. -/
theorem pairwise_after (hc : c < n) :
    ((List.range' (c + 1) n).map (· % n)).Pairwise fun i j =>
      after n c i < after n c j := by
  rw [List.pairwise_map, List.range'_eq_map_range, List.pairwise_map]
  refine List.pairwise_lt_range.imp_of_mem fun hi hj hij => ?_
  rwa [after_mod hc (List.mem_range.mp hi), after_mod hc (List.mem_range.mp hj)]

/-- The scan visits every slot. -/
theorem mem_scan (hc : c < n) : i ∈ (List.range' (c + 1) n).map (· % n) ↔
      i < n := by
  constructor
  · intro h
    obtain ⟨k, -, rfl⟩ := List.mem_map.mp h
    exact Nat.mod_lt _ (by omega)
  · intro hi
    by_cases hci : c < i
    · exact List.mem_map.mpr ⟨i, List.mem_range'_1.mpr (by omega),
        Nat.mod_eq_of_lt hi⟩
    · refine List.mem_map.mpr ⟨n + i, List.mem_range'_1.mpr (by omega), ?_⟩
      rw [Nat.add_mod_left, Nat.mod_eq_of_lt hi]

/-- Seen from `d`, which lies after `c`, what is beyond `d` comes before the
rest. -/
theorem after_lt_after (hc : c < n) (hd : d < n) (hi : i < n) (hj : j < n)
    (hdi : after n c d < after n c i) (hij : after n d j ≤ after n d i) :
    after n c d < after n c j ∧ after n c j ≤ after n c i := by
  unfold after at *
  split at hdi <;> split at hdi <;> split at hij <;> split at hij <;> split
    <;> split <;> omega

/-- `i` is the first member of `T` after `c`. -/
def NextIn (n : Nat) (T : Finset Nat) (c i : Nat) : Prop :=
  i ∈ T ∧ ∀ j ∈ T, after n c i ≤ after n c j

variable {f : Nat → Nat}

/-- The first `k + 1` turns are those of the members up to the last of them, in
order. -/
theorem turns_prefix (hc : c < n) (hT : ∀ i ∈ T, i < n)
    (h₀ : NextIn n T c (f 0)) {k : Nat}
    (hk : k < T.card) (hnext : ∀ i < k, NextIn n T (f i) (f (i + 1))) :
    f k ∈ T ∧ (T.filter fun j => after n c j ≤ after n c (f k)) =
      (Finset.range (k + 1)).image f
      ∧ ∀ i < k, after n c (f i) < after n c (f k) := by
  induction k with
  | zero =>
      refine ⟨h₀.1, ?_, nofun⟩
      ext j
      simp only [Finset.mem_filter, Nat.zero_add, Finset.range_one,
        Finset.image_singleton,
        Finset.mem_singleton]
      constructor
      · rintro ⟨hj, hle⟩
        exact after_inj hc (hT j hj) (hT _ h₀.1) (le_antisymm hle (h₀.2 j hj))
      · rintro rfl
        exact ⟨h₀.1, le_rfl⟩
  | succ k ih =>
      obtain ⟨hmem, heq, hlt⟩ := ih (by omega) fun i hi => hnext i (by omega)
      have hnx := hnext k (by omega)
      -- not all have had a turn, so somebody lies beyond the last one
      obtain ⟨j, hj, hbeyond⟩ : ∃ j ∈ T, after n c (f k) < after n c j := by
        by_contra hno
        have hall : (T.filter fun j => after n c j ≤ after n c (f k)) = T :=
          Finset.filter_true_of_mem fun j hj => not_lt.mp fun h =>
            hno ⟨j, hj, h⟩
        have hcard := Finset.card_image_le (s := Finset.range (k + 1)) (f := f)
        rw [← heq, hall, Finset.card_range] at hcard
        omega
      have hstep : ∀ x ∈ T, after n c (f k) < after n c x →
          after n c (f k) < after n c (f (k + 1)) ∧ after n c (f (k + 1)) ≤
            after n c x :=
        fun x hx h => after_lt_after hc (hT _ hmem) (hT x hx) (hT _ hnx.1) h
          (hnx.2 x hx)
      have hgt := (hstep j hj hbeyond).1
      refine ⟨hnx.1, ?_, fun i hi => ?_⟩
      · ext x
        rw [Finset.range_add_one, Finset.image_insert, ← heq, Finset.mem_insert,
          Finset.mem_filter, Finset.mem_filter]
        constructor
        · rintro ⟨hx, hle⟩
          by_cases hxk : after n c x ≤ after n c (f k)
          · exact .inr ⟨hx, hxk⟩
          · exact .inl (after_inj hc (hT x hx) (hT _ hnx.1)
              (le_antisymm hle (hstep x hx (not_le.mp hxk)).2))
        · rintro (rfl | ⟨hx, hle⟩)
          · exact ⟨hnx.1, le_rfl⟩
          · exact ⟨hx, hle.trans hgt.le⟩
      · rcases Nat.lt_succ_iff_lt_or_eq.mp hi with h | rfl
        · exact (hlt i h).trans hgt
        · exact hgt

/-- As many turns as `T` has members: everyone has exactly one. -/
theorem everyone_once (hc : c < n) (hT : ∀ i ∈ T, i < n)
    (h₀ : 0 < T.card → NextIn n T c (f 0))
    (hnext : ∀ i, i + 1 < T.card → NextIn n T (f i) (f (i + 1))) (hi : i ∈ T) :
    ∃! k, k < T.card ∧ f k = i := by
  have hpos : 0 < T.card := Finset.card_pos.mpr ⟨i, hi⟩
  have hturns : ∀ k < T.card, _ := fun k hk =>
    turns_prefix hc hT (h₀ hpos) hk fun j hj => hnext j (by omega)
  obtain ⟨k, hk⟩ : ∃ k, T.card = k + 1 := ⟨T.card - 1, by omega⟩
  -- the turns are different, so that the last prefix is the whole of `T`
  have hne : ∀ a < T.card, ∀ b < T.card, f a = f b → a = b := by
    intro a ha b hb hab
    rcases lt_trichotomy a b with h | h | h
    · exact absurd ((hturns b hb).2.2 a h) (by rw [hab]; exact lt_irrefl _)
    · exact h
    · exact absurd ((hturns a ha).2.2 b h) (by rw [hab]; exact lt_irrefl _)
  have hcard : ((Finset.range (k + 1)).image f).card = T.card := by
    rw [Finset.card_image_of_injOn, Finset.card_range, hk]
    intro a ha b hb hab
    rw [Finset.mem_coe, Finset.mem_range, ← hk] at ha hb
    exact hne a ha b hb hab
  have hall : (Finset.range (k + 1)).image f = T := by
    rw [← (hturns k (by omega)).2.1] at hcard ⊢
    exact Finset.eq_of_subset_of_card_le (Finset.filter_subset ..) hcard.ge
  rw [← hall, Finset.mem_image] at hi
  obtain ⟨a, ha, rfl⟩ := hi
  rw [Finset.mem_range, ← hk] at ha
  exact ⟨a, ⟨ha, rfl⟩, fun b ⟨hb, hab⟩ => hne b hb a ha hab⟩

end Circle

end Jos
