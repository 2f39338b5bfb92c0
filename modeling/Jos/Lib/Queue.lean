import Mathlib.Data.List.Nodup
import Mathlib.Logic.Function.Basic

/-!
# Intrusive linked lists

The `LIST` macros over an arbitrary type of elements: a head pointer, and in
every element a `next` pointer and a `prev` pointer to the pointer that
points at it. `Rep l xs` says that the pointers spell out the list
`xs`; `rep_insertHead` and `rep_removeFirst` are the two operations an
allocator performs, and `insertHead_remove` says that putting back what was
just taken restores every pointer.

Inserting an element that is already linked is possible here as it is in C;
the lemmas ask that it is not.
-/

namespace Jos

variable {ι : Type}

/-- What a `prev` pointer points at: the head's first pointer or the `next`
pointer of an element. -/
inductive Link (ι : Type) where
  | head
  | next (i : ι)
deriving DecidableEq

/-- A list head together with the link fields of all elements. -/
structure Queue (ι : Type) where
  first : Option ι
  next : ι → Option ι
  prev : ι → Option (Link ι)

namespace Queue

/-- `LIST_INIT`. -/
def init (l : Queue ι) : Queue ι := { l with first := none }

/-! ## The list the pointers spell out -/

/-- From pointer `p`, itself stored at `lk`, the links run through `xs`. -/
def Chain (l : Queue ι) : Link ι → Option ι → List ι → Prop
  | _, p, [] => p = none
  | lk, p, x :: xs =>
      p = some x ∧ l.prev x = some lk ∧ Chain l (.next x) (l.next x) xs

/-- The queue holds exactly `xs`, in this order, none of them twice. -/
def Rep (l : Queue ι) (xs : List ι) : Prop :=
  l.Chain .head l.first xs ∧ xs.Nodup

theorem chain_congr {l l' : Queue ι} :
    ∀ {xs : List ι} {lk : Link ι} {p : Option ι},
      (∀ x ∈ xs, l'.next x = l.next x ∧ l'.prev x = l.prev x) →
      l.Chain lk p xs → l'.Chain lk p xs
  | [], _, _, _, h => h
  | x :: xs, lk, p, hag, ⟨hp, hprev, hrest⟩ => by
      obtain ⟨hnx, hpx⟩ := hag x (List.mem_cons_self ..)
      refine ⟨hp, hpx.trans hprev, ?_⟩
      rw [hnx]
      exact chain_congr (fun y hy => hag y (List.mem_cons_of_mem _ hy)) hrest

theorem rep_nil {l : Queue ι} : l.Rep [] ↔ l.first = none := by
  simp [Rep, Chain]

theorem rep_init (l : Queue ι) : l.init.Rep [] := rep_nil.mpr rfl

/-- The first pointer is the head of the list. -/
theorem Rep.first_eq {l : Queue ι} {xs : List ι} (h : l.Rep xs) :
    l.first = xs.head? := by
  cases xs with
  | nil => exact h.1
  | cons x xs => exact h.1.1

/-- A list with a first element. -/
theorem Rep.eq_cons {l : Queue ι} {xs : List ι} {x : ι} (h : l.Rep xs)
    (hx : l.first = some x) :
    ∃ ys, xs = x :: ys := by
  rw [h.first_eq] at hx
  cases xs with
  | nil => cases hx
  | cons y ys => cases hx; exact ⟨ys, rfl⟩

/-- The pointers spell out one list. -/
theorem Rep.unique {l : Queue ι} {xs ys : List ι} (hx : l.Rep xs)
    (hy : l.Rep ys) : xs = ys := by
  have key : ∀ {xs ys : List ι} {lk lk' : Link ι} {p : Option ι},
      l.Chain lk p xs → l.Chain lk' p ys → xs = ys := by
    intro xs
    induction xs with
    | nil =>
        intro ys lk lk' p hx hy
        cases ys with
        | nil => rfl
        | cons y ys => exact absurd (hx.symm.trans hy.1) nofun
    | cons x xs ih =>
        intro ys lk lk' p hx hy
        cases ys with
        | nil => exact absurd (hy.symm.trans hx.1) nofun
        | cons y ys =>
            obtain rfl : x = y := Option.some.inj (hx.1.symm.trans hy.1)
            rw [ih hx.2.2 hy.2.2]
  exact key hx.1 hy.1

theorem Rep.nodup {l : Queue ι} {xs : List ι} (h : l.Rep xs) : xs.Nodup := h.2

/-- The queue of `n` consecutive numbers from `a` on. -/
def range (a n : Nat) : Queue Nat where
  first := if n = 0 then none else some a
  next i := if i + 1 < a + n then some (i + 1) else none
  prev i := if i = a then some .head else some (.next (i - 1))

theorem rep_range (a n : Nat) : (range a n).Rep (List.range' a n) := by
  have key : ∀ m b, b + m = a + n → a ≤ b → 
      (range a n).Chain (if b = a then .head else .next (b - 1))
        (if m = 0 then none else some b) (List.range' b m) := by
    intro m
    induction m with
    | zero => exact fun b _ _ => by simp [Chain]
    | succ m ih =>
        intro b hb hab
        have hrest := ih (b + 1) (by omega) (by omega)
        rw [if_neg (by omega), Nat.add_sub_cancel] at hrest
        refine ⟨by simp, by simp only [range]; split <;> rfl, ?_⟩
        have hnext : (range a n).next b = if m = 0 then none else
            some (b + 1) := by
          simp only [range]
          by_cases hm : m = 0
          · rw [if_neg (by omega), if_pos hm]
          · rw [if_pos (by omega), if_neg hm]
        rw [hnext]
        exact hrest
  have h := key n a rfl (Nat.le_refl a)
  rw [if_pos rfl] at h
  exact ⟨h, List.nodup_range'⟩

/-! ## The two operations of an allocator -/

variable [DecidableEq ι]

/-- `if (elm != NULL) elm->prev = lk`. -/
def setPrev (prev : ι → Option (Link ι)) (elm : Option ι)
    (lk : Option (Link ι)) : ι → Option (Link ι) :=
  match elm with
  | none => prev
  | some f => Function.update prev f lk

/-- `LIST_INSERT_HEAD`. -/
def insertHead (l : Queue ι) (x : ι) : Queue ι where
  first := some x
  next := Function.update l.next x l.first
  prev := Function.update (setPrev l.prev l.first (some (.next x))) x
    (some .head)

/-- `LIST_REMOVE`. The element's `prev` pointer tells which pointer to
overwrite; it is never null for an element of the list. -/
def remove (l : Queue ι) (x : ι) : Queue ι :=
  let prev := setPrev l.prev (l.next x) (l.prev x)
  match l.prev x with
  | none => { l with prev := prev }
  | some .head => { l with first := l.next x, prev := prev }
  | some (.next i) =>
      { l with next := Function.update l.next i (l.next x), prev := prev }

/-- A chain may be re-rooted: only its first element knows where its pointer
is stored. -/
theorem chain_reroot {l l' : Queue ι} {lk lk' : Link ι} {p : Option ι} :
    ∀ {xs : List ι}, xs.Nodup → l.Chain lk p xs →
      (∀ x ∈ xs, l'.next x = l.next x) →
      (∀ x ∈ xs, l'.prev x = if p = some x then some lk' else l.prev x) →
      l'.Chain lk' p xs
  | [], _, h, _, _ => h
  | x :: xs, hnd, ⟨hp, _, hrest⟩, hnext, hprev => by
      have hx := hprev x (List.mem_cons_self ..)
      rw [if_pos hp] at hx
      refine ⟨hp, hx, ?_⟩
      rw [hnext x (List.mem_cons_self ..)]
      refine chain_congr (fun y hy =>
        ⟨hnext y (List.mem_cons_of_mem _ hy), ?_⟩) hrest
      have hne : x ≠ y := fun h => (List.nodup_cons.mp hnd).1 (h ▸ hy)
      rw [hprev y (List.mem_cons_of_mem _ hy), hp, if_neg (by simpa using hne)]

theorem rep_insertHead {l : Queue ι} {xs : List ι} {x : ι} (h : l.Rep xs)
    (hx : x ∉ xs) : (l.insertHead x).Rep (x :: xs) := by
  refine ⟨⟨rfl, by simp [insertHead], ?_⟩, List.nodup_cons.mpr ⟨hx, h.2⟩⟩
  have hnext : (l.insertHead x).next x = l.first := by simp [insertHead]
  rw [hnext]
  have hne : ∀ y ∈ xs, y ≠ x := fun y hy he => hx (he ▸ hy)
  refine chain_reroot h.2 h.1 (fun y hy => ?_) fun y hy => ?_
  · simp [insertHead, hne y hy]
  · cases hf : l.first with
    | none => simp [insertHead, hf, setPrev, hne y hy]
    | some f =>
        by_cases hfy : f = y
        · subst hfy; simp [insertHead, hf, setPrev, hne f hy]
        · simp [insertHead, hf, setPrev, hne y hy, hfy, Ne.symm hfy]

/-- Inserting an element always moves the first pointer or makes a cycle. -/
theorem insertHead_ne {l : Queue ι} {xs : List ι} (h : l.Rep xs) (x : ι) :
    l.insertHead x ≠ l := by
  intro heq
  have hfirst : l.first = some x := (congrArg Queue.first heq).symm
  have hnext : l.next x = l.first := by
    rw [← congrArg Queue.next heq]
    simp [insertHead]
  obtain ⟨ys, rfl⟩ := h.eq_cons hfirst
  obtain ⟨⟨-, -, hchain⟩, hnd⟩ := h
  rw [hnext, hfirst] at hchain
  cases ys with
  | nil => cases hchain
  | cons y ys =>
      obtain rfl : x = y := Option.some.inj hchain.1
      simp at hnd

/-- Removing the first element in closed form. -/
theorem remove_first {l : Queue ι} {x : ι} {xs : List ι}
    (h : l.Rep (x :: xs)) :
    l.remove x = { l with first := l.next x,
                          prev := setPrev l.prev (l.next x) (some .head) } := by
  have hprev : l.prev x = some .head := h.1.2.1
  simp only [remove, hprev]

theorem rep_removeFirst {l : Queue ι} {x : ι} {xs : List ι}
    (h : l.Rep (x :: xs)) : (l.remove x).Rep xs := by
  rw [remove_first h]
  obtain ⟨⟨_, _, hchain⟩, hnd⟩ := h
  have hnd' : xs.Nodup := (List.nodup_cons.mp hnd).2
  refine ⟨chain_reroot hnd' hchain (fun _ _ => rfl) fun y hy => ?_, hnd'⟩
  cases hn : l.next x with
  | none => simp [setPrev]
  | some f =>
      by_cases hfy : f = y
      · subst hfy; simp [setPrev]
      · simp [setPrev, hfy, Ne.symm hfy]

/-- Taking the first element and putting it back restores every pointer. -/
theorem insertHead_remove {l : Queue ι} {x : ι} {xs : List ι}
    (h : l.Rep (x :: xs)) : (l.remove x).insertHead x = l := by
  rw [remove_first h]
  obtain ⟨⟨hfirst, hprev, hchain⟩, hnd⟩ := h
  obtain ⟨first, next, prev⟩ := l
  simp only at hfirst hprev hchain
  simp only [insertHead, Queue.mk.injEq]
  refine ⟨hfirst.symm, by simp, ?_⟩
  funext y
  by_cases hyx : y = x
  · subst hyx; simp [hprev]
  · rw [Function.update_of_ne hyx]
    cases xs with
    | nil =>
        have hn : next x = none := hchain
        simp [hn, setPrev]
    | cons z zs =>
        obtain ⟨hn, hz, -⟩ := hchain
        simp only [hn, setPrev, Function.update_idem]
        by_cases hyz : y = z
        · subst hyz; simpa using hz.symm
        · simp [hyz]

end Queue

end Jos
