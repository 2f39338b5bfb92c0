import Mathlib.Data.Finset.Card
import Mathlib.Data.BitVec

/-!
# Reference counting

A finite set of slots each of which refers to at most one resource, a
counter of fixed width for every resource, and a list of the free ones.
`Counted` is the invariant of such an allocator: the counter is the number of
references (plus the references held outside the slots) modulo its width, and
exactly the unreferenced resources are free. `adopt`, `share` and
`drop` are the moves an allocator makes; only `drop`, which frees on a
counter of zero, needs to know that the counter has not wrapped.
-/

namespace Jos

variable {ι α : Type} [DecidableEq α]

/-- How many slots of `S` refer to `a`. -/
def refCount (S : Finset ι) (tgt : ι → Option α) (a : α) : Nat :=
  (S.filter fun i => tgt i = some a).card

section RefCount

variable {S : Finset ι} {tgt tgt' : ι → Option α} {a : α} {i : ι}

theorem refCount_congr (h : ∀ i ∈ S, tgt' i = tgt i) :
    refCount S tgt' a = refCount S tgt a := by
  unfold refCount
  congr 1
  exact Finset.filter_congr fun i hi => by rw [h i hi]

theorem refCount_eq_zero :
    refCount S tgt a = 0 ↔ ∀ i ∈ S, tgt i ≠ some a := by
  simp [refCount, Finset.filter_eq_empty_iff]

theorem refCount_pos (hi : i ∈ S) (h : tgt i = some a) :
    0 < refCount S tgt a :=
  Nat.pos_of_ne_zero fun h0 => refCount_eq_zero.mp h0 i hi h

/-- Fewer references, a smaller count. -/
theorem refCount_mono (h : ∀ i ∈ S, tgt' i = some a → tgt i = some a) :
    refCount S tgt' a ≤ refCount S tgt a := by
  refine Finset.card_le_card fun i hi => ?_
  simp only [Finset.mem_filter] at hi ⊢
  exact ⟨hi.1, h i hi.1 hi.2⟩

/-- Changing one slot changes the count by what the slot referred to. -/
theorem refCount_change [DecidableEq ι] (hi : i ∈ S)
    (h : ∀ j ∈ S, j ≠ i → tgt' j = tgt j) :
    refCount S tgt' a + (if tgt i = some a then 1 else 0)
      = refCount S tgt a + (if tgt' i = some a then 1 else 0) := by
  have key : ∀ f : ι → Option α, refCount S f a
      = ((S.erase i).filter fun j => f j = some a).card
        + if f i = some a then 1 else 0 := by
    intro f
    have hS : S = insert i (S.erase i) := (Finset.insert_erase hi).symm
    conv_lhs => rw [refCount, hS, Finset.filter_insert]
    by_cases hf : f i = some a
    · rw [if_pos hf, if_pos hf, Finset.card_insert_of_notMem (by simp)]
    · rw [if_neg hf, if_neg hf, Nat.add_zero]
  have hrest : ((S.erase i).filter fun j => tgt' j = some a)
      = (S.erase i).filter fun j => tgt j = some a :=
    Finset.filter_congr fun j hj => by
      rw [h j (Finset.mem_of_mem_erase hj) (Finset.ne_of_mem_erase hj)]
  rw [key tgt, key tgt', hrest]
  omega

/-- Filling an empty slot adds one reference to what it now refers to. -/
theorem refCount_install [DecidableEq ι] (hi : i ∈ S) (hnone : tgt i = none)
    (hsome : tgt' i = some a) (hag : ∀ j ∈ S, j ≠ i → tgt' j = tgt j) (b : α) :
    refCount S tgt' b = refCount S tgt b + if b = a then 1 else 0 := by
  have hc := refCount_change (a := b) hi hag
  rw [hnone, hsome] at hc
  by_cases hb : b = a
  · subst hb; simpa using hc
  · simpa [hb, Ne.symm hb] using hc

/-- A count of at most one is injectivity of the references to `a`. -/
theorem refCount_le_one
    (h : ∀ i ∈ S, ∀ j ∈ S, tgt i = some a → tgt j = some a → i = j) :
    refCount S tgt a ≤ 1 := by
  refine Finset.card_le_one.mpr fun i hi j hj => ?_
  simp only [Finset.mem_filter] at hi hj
  exact h i hi.1 j hj.1 hi.2 hj.2

end RefCount

/-- The invariant of a reference-counting allocator for the resources that
satisfy `ok`: `hold` counts the references held outside the slots. -/
structure Counted {w : Nat} (S : Finset ι) (hold : α → Nat) (ok : α → Prop)
    (tgt : ι → Option α) (cnt : α → BitVec w) (free : List α) : Prop where
  cnt_eq : ∀ a, ok a → cnt a = BitVec.ofNat w (refCount S tgt a + hold a)
  free_iff : ∀ a, a ∈ free ↔ ok a ∧ refCount S tgt a + hold a = 0

theorem ofNat_succ (w n : Nat) :
    BitVec.ofNat w (n + 1) = BitVec.ofNat w n + 1 := BitVec.ofNat_add ..

namespace Counted

variable [DecidableEq ι] {w : Nat} {S : Finset ι} {hold : α → Nat}
  {ok : α → Prop}
  {tgt tgt' : ι → Option α} {cnt : α → BitVec w} {free : List α}
  {i : ι} {a : α}

omit [DecidableEq ι] in
theorem congr (h : Counted S hold ok tgt cnt free)
    (htgt : ∀ i ∈ S, tgt' i = tgt i) : Counted S hold ok tgt' cnt free where
  cnt_eq b hb := by rw [refCount_congr htgt]; exact h.cnt_eq b hb
  free_iff b := by rw [refCount_congr htgt]; exact h.free_iff b

/-- An empty slot comes to refer to a resource that is in use. -/
theorem share (h : Counted S hold ok tgt cnt free) (hi : i ∈ S)
    (hnone : tgt i = none) (hsome : tgt' i = some a)
    (hag : ∀ j ∈ S, j ≠ i → tgt' j = tgt j)
    (hpos : 0 < refCount S tgt a + hold a) :
    Counted S hold ok tgt' (Function.update cnt a (cnt a + 1)) free := by
  have hcnt := refCount_install hi hnone hsome hag
  constructor
  · intro b hb
    rw [hcnt]
    by_cases hba : b = a
    · subst hba
      rw [Function.update_self, h.cnt_eq b hb, if_pos rfl, Nat.add_right_comm,
        ofNat_succ]
    · rw [Function.update_of_ne hba, h.cnt_eq b hb, if_neg hba, Nat.add_zero]
  · intro b
    rw [hcnt, h.free_iff]
    by_cases hba : b = a
    · subst hba; rw [if_pos rfl]; omega
    · rw [if_neg hba, Nat.add_zero]

/-- An empty slot comes to refer to a free resource. -/
theorem adopt {free' : List α} (h : Counted S hold ok tgt cnt free) (hi : i ∈ S)
    (hnone : tgt i = none) (hsome : tgt' i = some a)
    (hag : ∀ j ∈ S, j ≠ i → tgt' j = tgt j) (ha : a ∈ free)
    (hfree : ∀ b, b ∈ free' ↔ b ∈ free ∧ b ≠ a) {c : BitVec w} (hc : c = 1) :
    Counted S hold ok tgt' (Function.update cnt a c) free' := by
  have hcnt := refCount_install hi hnone hsome hag
  obtain ⟨hok, h0⟩ := (h.free_iff a).mp ha
  constructor
  · intro b hb
    rw [hcnt]
    by_cases hba : b = a
    · subst hba
      rw [Function.update_self, hc, if_pos rfl, Nat.add_right_comm, h0]
      rfl
    · rw [Function.update_of_ne hba, h.cnt_eq b hb, if_neg hba, Nat.add_zero]
  · intro b
    rw [hcnt, hfree, h.free_iff]
    by_cases hba : b = a
    · subst hba; rw [if_pos rfl]; simp
    · rw [if_neg hba, Nat.add_zero]
      simp [hba]

/-- A slot gives up its reference; a counter of zero frees the resource. The
counter must not have wrapped. -/
theorem drop (h : Counted S hold ok tgt cnt free) (hi : i ∈ S)
    (hsome : tgt i = some a) (hnone : tgt' i = none)
    (hag : ∀ j ∈ S, j ≠ i → tgt' j = tgt j) (hok : ok a)
    (hle : refCount S tgt a + hold a < 2 ^ w) :
    Counted S hold ok tgt' (Function.update cnt a (cnt a - 1))
      (if cnt a - 1 = 0 then a :: free else free) := by
  have hcnt := refCount_install hi hnone hsome fun j hj hji =>
    (hag j hj hji).symm
  have hself : cnt a - 1 = BitVec.ofNat w (refCount S tgt' a + hold a) := by
    rw [h.cnt_eq a hok, hcnt a, if_pos rfl, Nat.add_right_comm, ofNat_succ]
    exact BitVec.add_sub_cancel _ _
  have hzero : cnt a - 1 = 0 ↔ refCount S tgt' a + hold a = 0 := by
    have hlt : refCount S tgt' a + hold a < 2 ^ w := by
      have := hcnt a
      rw [if_pos rfl] at this
      omega
    rw [hself, ← BitVec.toNat_inj, BitVec.toNat_ofNat, Nat.mod_eq_of_lt hlt]
    simp
  constructor
  · intro b hb
    by_cases hba : b = a
    · subst hba; rw [Function.update_self, hself]
    · rw [Function.update_of_ne hba, h.cnt_eq b hb, hcnt b, if_neg hba,
        Nat.add_zero]
  · intro b
    have hfree := h.free_iff b
    rw [hcnt b] at hfree
    by_cases hba : b = a
    · subst hba
      rw [if_pos rfl] at hfree
      split
      · rename_i hz
        exact ⟨fun _ => ⟨hok, hzero.mp hz⟩, fun _ => List.mem_cons_self ..⟩
      · rename_i hz
        exact ⟨fun hb => by have := hfree.mp hb; omega,
          fun hb => absurd (hzero.mpr hb.2) hz⟩
    · rw [if_neg hba, Nat.add_zero] at hfree
      split
      · rw [List.mem_cons, hfree]; simp [hba]
      · exact hfree

end Counted

end Jos
