import Jos.Lib.Prog

/-!
# Walks up to an address

The loop `for (now = start; now <= last; now = next)` over addresses of `w`
bits, with a bound that is included and an address that may wrap around. Which
addresses it visits, and whether it comes to an end, is a matter of `next` and
the bound alone (`walk`); the loop returns if it does and the body returns at
each of them (`whileLe_ret_iff`).
-/

namespace Jos

variable {σ ε α : Type} {w : Nat}

/-- `while (now <= last) { ...; now = next; }`: what the turns give. After `n`
turns it stops with `e`. -/
def whileLe (e : ε) (body : BitVec w → Prog σ ε (List α × BitVec w))
    (last : BitVec w) :
    Nat → BitVec w → Prog σ ε (List α)
  | 0, _ => Prog.halt e
  | n + 1, now =>
      if now ≤ last then do
        let (items, next) ← body now
        let rest ← whileLe e body last n next
        pure (items ++ rest)
      else
        pure []

/-- The addresses that are visited, if the walk ends within `n` turns. -/
def walk (next : BitVec w → BitVec w) (last : BitVec w) :
    Nat → BitVec w → Option (List (BitVec w))
  | 0, _ => none
  | n + 1, now => if now ≤ last then
      (walk next last n (next now)).map (now :: ·) else some []

/-- The body changes nothing; at the addresses that meet `ok` it gives `items`
and goes on to `next`, and at the others it does not return. -/
structure Turns (body : BitVec w → Prog σ ε (List α × BitVec w))
    (ok : BitVec w → Prop) (items : BitVec w → List α)
    (next : BitVec w → BitVec w) (s : σ) : Prop where
  ret : ∀ a, ok a → body a s = .ret (items a, next a) s
  bad : ∀ a, ¬ok a → ∀ r t, body a s ≠ .ret r t

section

variable {e : ε} {body : BitVec w → Prog σ ε (List α × BitVec w)}
  {ok : BitVec w → Prop} {items : BitVec w → List α}
  {next : BitVec w → BitVec w} {s t : σ} {last now : BitVec w} {n : Nat}
  {l : List α} {as : List (BitVec w)}

theorem walk_stop (h : ¬now ≤ last) :
    walk next last (n + 1) now = some [] := if_neg h

theorem walk_step (h : now ≤ last) :
    walk next last (n + 1) now = (walk next last n (next now)).map (now :: ·) :=
  if_pos h

theorem whileLe_ret_iff (h : Turns body ok items next s) :
    whileLe e body last n now s = .ret l t ↔
    ∃ as, walk next last n now = some as ∧ (∀ a ∈ as, ok a)
      ∧ l = as.flatMap items ∧ t = s := by
  induction n generalizing now l with
  | zero => exact ⟨nofun, fun ⟨as, has, _⟩ => nomatch has⟩
  | succ n ih =>
      by_cases hle : now ≤ last
      · rw [whileLe, if_pos hle, walk_step hle]
        constructor
        · intro hret
          obtain ⟨x, s', hbody, hrest⟩ := Prog.bind_eq_ret.mp hret
          by_cases hok : ok now
          · rw [h.ret now hok] at hbody
            cases hbody
            obtain ⟨rest, s', hloop, hpure⟩ := Prog.bind_eq_ret.mp hrest
            cases hpure
            obtain ⟨as, has, hall, rfl, rfl⟩ := ih.mp hloop
            exact ⟨now :: as, by rw [has]; rfl,
              List.forall_mem_cons.mpr ⟨hok, hall⟩, rfl, rfl⟩
          · exact absurd hbody (h.bad now hok _ _)
        · rintro ⟨as', has', hall, rfl, rfl⟩
          obtain ⟨as, has, rfl⟩ := Option.map_eq_some_iff.mp has'
          obtain ⟨hok, hall⟩ := List.forall_mem_cons.mp hall
          rw [Prog.bind_ret (h.ret now hok)]
          exact Prog.bind_ret (ih.mpr ⟨as, has, hall, rfl, rfl⟩)
      · rw [whileLe, if_neg hle, walk_stop hle]
        constructor
        · rintro hret
          cases hret
          exact ⟨[], rfl, nofun, rfl, rfl⟩
        · rintro ⟨as, has, -, rfl, rfl⟩
          cases has
          rfl

/-- No address above the bound is visited. -/
theorem walk_le (h : walk next last n now = some as) : ∀ a ∈ as, a ≤ last := by
  induction n generalizing now as with
  | zero => cases h
  | succ n ih =>
      by_cases hle : now ≤ last
      · rw [walk_step hle] at h
        obtain ⟨as, has, rfl⟩ := Option.map_eq_some_iff.mp h
        exact List.forall_mem_cons.mpr ⟨hle, ih has⟩
      · rw [walk_stop hle] at h
        cases h
        exact nofun

/-- A walk that never goes above the bound does not end. -/
theorem walk_endless {P : BitVec w → Prop} (hle : ∀ a, P a → a ≤ last)
    (hnext : ∀ a, P a → P (next a)) (h : P now) :
    walk next last n now = none := by
  induction n generalizing now with
  | zero => rfl
  | succ n ih => rw [walk_step (hle now h), ih (hnext now h), Option.map_none]

/-- A walk that does not go above the bound before it has been at it visits the
bound. -/
theorem walk_last {P : BitVec w → Prop}
    (hnext : ∀ a, P a → a ≠ last → a ≤ last → P (next a) ∧ next a ≤ last)
    (h : P now)
    (hle : now ≤ last) (has : walk next last n now = some as) : last ∈ as := by
  induction n generalizing now as with
  | zero => cases has
  | succ n ih =>
      rw [walk_step hle] at has
      obtain ⟨as, has', rfl⟩ := Option.map_eq_some_iff.mp has
      by_cases heq : now = last
      · rw [heq]
        exact List.mem_cons_self ..
      · obtain ⟨hP, hle'⟩ := hnext now h heq hle
        exact List.mem_cons_of_mem _ (ih hP hle' has')

/-- An empty walk. -/
theorem walk_eq_nil : walk next last (n + 1) now = some [] ↔ last < now := by
  by_cases hle : now ≤ last
  · rw [walk_step hle]
    refine iff_of_false (fun h => ?_) (BitVec.not_lt.mpr hle)
    obtain ⟨as, -, has⟩ := Option.map_eq_some_iff.mp h
    cases has
  · exact iff_of_true (walk_stop hle) (BitVec.not_le.mp hle)

end

end Jos
