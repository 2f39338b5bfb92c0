import Mathlib.Data.List.Basic
import Mathlib.Logic.Function.Basic
import Mathlib.Tactic.SplitIfs
import Mathlib.Tactic.ByContra

/-!
# `readline`

The editor of lib/readline.c, without what it echoes. Its erase branch asks for
a line that is not empty, and its other branch takes everything from the space
on, so that a DEL on the empty line is kept. It stays in front of the line
(`Stray`) until an erase character finds nothing else to erase.
-/

namespace Jos

namespace Readline

def BUFLEN : Nat := 1024

/-- What `getchar` returns: a character, or a negative value. -/
inductive Key where
  | char (c : BitVec 8)
  | error (e : Int)

structure Line where
  buf : Int → BitVec 8
  i : Int

/-- How a turn of the loop ends. -/
inductive Next where
  | more (s : Line)
  | null
  | line (buf : Int → BitVec 8)

/-- One turn of `readline`. -/
def turn (s : Line) : Key → Next
  | .error _ => .null
  | .char c =>
      if (c = 0x08 ∨ c = 0x7F) ∧ 0 < s.i then
        .more { s with i := s.i - 1 }
      else if 0x20 ≤ c ∧ s.i < BUFLEN - 1 then
        .more { buf := Function.update s.buf s.i c, i := s.i + 1 }
      else if c = 0x0A ∨ c = 0x0D then
        .line (Function.update s.buf s.i 0)
      else
        .more s

/-- The loop, until there is no more input. -/
def loop (s : Line) : List Key → Next
  | [] => .more s
  | k :: ks =>
      match turn s k with
      | .more s => loop s ks
      | r => r

/-- `i` at each turn. -/
def indices (s : Line) : List Key → List Int
  | [] => [s.i]
  | k :: ks =>
      s.i ::
        match turn s k with
        | .more s => indices s ks
        | _ => []

/-- `readline`; `buf` holds what the call before has left. -/
def readline (buf : Int → BitVec 8) (ks : List Key) : Next := loop ⟨buf, 0⟩ ks

/-! ## The edited line -/

def Erases (c : BitVec 8) : Prop := c = 0x08 ∨ c = 0x7F

instance (c : BitVec 8) : Decidable (Erases c) :=
  inferInstanceAs (Decidable (c = 0x08 ∨ c = 0x7F))

/-- The line after `c`, for a line of at most `cap` characters. -/
def keep (cap : Nat) (line : List (BitVec 8)) (c : BitVec 8) :
    List (BitVec 8) :=
  if Erases c then line.dropLast
  else if 0x20 ≤ c ∧ line.length < cap then line ++ [c]
  else line

def edit (cs : List (BitVec 8)) : List (BitVec 8) :=
  cs.foldl (keep (BUFLEN - 1)) []

/-- The string at the start of `buf` is `L`. -/
structure Spells (buf : Int → BitVec 8) (L : List (BitVec 8)) : Prop where
  chars : ∀ j (hj : j < L.length), buf j = L[j]
  nul : buf L.length = 0
  nonzero : ∀ c ∈ L, c ≠ 0

/-- What is typed on the way to the end of the line. -/
def Typed (c : BitVec 8) : Prop := c ≠ 0x0A ∧ c ≠ 0x0D

/-- `readline` returns the edited line of `cs`, and its index stays in the
buffer. -/
structure ReturnsLine (buf : Int → BitVec 8) (cs : List (BitVec 8))
    (ks : List Key) : Prop where
  spells : ∃ buf', readline buf ks = .line buf' ∧ Spells buf' (edit cs)
  bounds : ∀ i ∈ indices ⟨buf, 0⟩ ks, 0 ≤ i ∧ i ≤ BUFLEN - 1

/-! ## Stray DELs -/

/-- Whether a DEL has been kept in front of the line, and the line. -/
def strayStep (s : Bool × List (BitVec 8)) (c : BitVec 8) :
    Bool × List (BitVec 8) :=
  if Erases c ∧ s.2 = [] then
    (decide (c = 0x7F) && !s.1, [])
  else
    (s.1, keep (if s.1 then BUFLEN - 2 else BUFLEN - 1) s.2 c)

/-- A DEL that was typed on an empty line has not been erased: no erase
character has found the line empty since. -/
def Stray (cs : List (BitVec 8)) : Prop :=
  (cs.foldl strayStep (false, [])).1 = true

instance (cs : List (BitVec 8)) : Decidable (Stray cs) :=
  inferInstanceAs (Decidable (_ = _))

section

variable {s s' : Line} {L line : List (BitVec 8)} {c e : BitVec 8}
  {cs : List (BitVec 8)} {buf : Int → BitVec 8}
  {rest : List Key} {m : Bool × List (BitVec 8)}

/-- `s` holds `L`. -/
structure Holds (s : Line) (L : List (BitVec 8)) : Prop where
  i_eq : s.i = L.length
  chars : ∀ j (hj : j < L.length), s.buf j = L[j]
  room : L.length ≤ BUFLEN - 1

/-- What a key does to the line that is held. -/
def press (L : List (BitVec 8)) (c : BitVec 8) : List (BitVec 8) :=
  if Erases c ∧ L ≠ [] then L.dropLast
  else if 0x20 ≤ c ∧ L.length < BUFLEN - 1 then L ++ [c]
  else L

theorem press_erase (hc : Erases c) (hL : L ≠ []) : press L c = L.dropLast :=
  if_pos ⟨hc, hL⟩

theorem press_char (hc : ¬(Erases c ∧ L ≠ [])) :
    press L c = if 0x20 ≤ c ∧ L.length < BUFLEN - 1 then L ++ [c] else L :=
  if_neg hc

theorem Holds.pos_iff (h : Holds s L) : 0 < s.i ↔ L ≠ [] := by
  rw [h.i_eq, ← List.length_pos_iff]
  omega

theorem Holds.erase (h : Holds s L) (hL : L ≠ []) :
    Holds { s with i := s.i - 1 } L.dropLast where
  i_eq := by
    have hpos := List.length_pos_iff.mpr hL
    show s.i - 1 = _
    rw [h.i_eq, List.length_dropLast]
    omega
  chars j hj := by
    rw [List.length_dropLast] at hj
    rw [h.chars j (by omega), List.getElem_dropLast]
  room := by
    have hroom := h.room
    rw [List.length_dropLast]
    omega

theorem Holds.append (h : Holds s L) (hroom : L.length < BUFLEN - 1) :
    Holds { buf := Function.update s.buf s.i c, i := s.i + 1 } (L ++ [c]) where
  i_eq := by
    show s.i + 1 = _
    rw [h.i_eq, List.length_append, List.length_singleton]
    omega
  chars j hj := by
    rw [List.length_append, List.length_singleton] at hj
    show Function.update s.buf s.i c j = _
    rw [h.i_eq]
    rcases Nat.lt_succ_iff_lt_or_eq.mp hj with hlt | rfl
    · rw [Function.update_of_ne (by omega), h.chars j hlt,
        List.getElem_append_left hlt]
    · rw [Function.update_self, List.getElem_append_right (Nat.le_refl _)]
      simp
  room := by
    rw [List.length_append, List.length_singleton]
    omega

/-- A turn with a character that does not end the line. -/
theorem turn_char (h : Holds s L) (hc : Typed c) :
    ∃ s', turn s (.char c) = .more s' ∧ Holds s' (press L c) := by
  have hlt : s.i < BUFLEN - 1 ↔ L.length < BUFLEN - 1 := by
    rw [h.i_eq, BUFLEN]
    omega
  by_cases herase : Erases c ∧ L ≠ []
  · refine ⟨_, if_pos ⟨herase.1, h.pos_iff.mpr herase.2⟩, ?_⟩
    rw [press_erase herase.1 herase.2]
    exact h.erase herase.2
  · rw [turn, if_neg fun hx => herase ⟨hx.1, h.pos_iff.mp hx.2⟩,
      if_neg (not_or.mpr hc), press_char herase]
    by_cases hkeep : 0x20 ≤ c ∧ L.length < BUFLEN - 1
    · refine ⟨_, if_pos ⟨hkeep.1, hlt.mpr hkeep.2⟩, ?_⟩
      rw [if_pos hkeep]
      exact h.append hkeep.2
    · refine ⟨s, if_neg fun hx => hkeep ⟨hx.1, hlt.mp hx.2⟩, ?_⟩
      rw [if_neg hkeep]
      exact h

/-- The end of the line. -/
theorem turn_end (he : e = 0x0A ∨ e = 0x0D) :
    turn s (.char e) = .line (Function.update s.buf s.i 0) := by
  have hctl : ¬Erases e ∧ ¬(0x20 : BitVec 8) ≤ e := by
    rcases he with rfl | rfl <;> decide
  rw [turn, if_neg fun hx => hctl.1 hx.1, if_neg fun hx => hctl.2 hx.1,
    if_pos he]

/-- The keys of a line, by induction on them. -/
theorem loop_eq (h : Holds s L) (hcs : ∀ c ∈ cs, Typed c)
    (he : e = 0x0A ∨ e = 0x0D) :
    (∃ s', loop s (cs.map .char ++ .char e :: rest) =
      .line (Function.update s'.buf s'.i 0) ∧
        Holds s' (cs.foldl press L)) ∧
      ∀ i ∈ indices s (cs.map .char ++ .char e :: rest), 0 ≤ i ∧
      i ≤ BUFLEN - 1 := by
  have hi : 0 ≤ s.i ∧ s.i ≤ BUFLEN - 1 := by
    have hroom := h.room
    rw [h.i_eq]
    rw [BUFLEN] at hroom ⊢
    omega
  induction cs generalizing s L with
  | nil =>
      rw [List.map_nil, List.nil_append, loop, indices, turn_end he]
      exact ⟨⟨s, rfl, h⟩, by simpa using hi⟩
  | cons c cs ih =>
      obtain ⟨s', hturn, hs'⟩ := turn_char h (hcs c (List.mem_cons_self ..))
      have hi' : 0 ≤ s'.i ∧ s'.i ≤ BUFLEN - 1 := by
        have hroom := hs'.room
        rw [hs'.i_eq]
        rw [BUFLEN] at hroom ⊢
        omega
      obtain ⟨hloop, hrest⟩ :=
        ih hs' (fun c hc => hcs c (List.mem_cons_of_mem _ hc)) hi'
      rw [List.map_cons, List.cons_append, loop, indices, hturn]
      refine ⟨hloop, fun i hx => ?_⟩
      rcases List.mem_cons.mp hx with rfl | hx
      · exact hi
      · exact hrest i hx

/-! ## The line that is held, and the one that was meant -/

/-- The line that is held. -/
def held (m : Bool × List (BitVec 8)) : List (BitVec 8) :=
  if m.1 then 0x7F :: m.2 else m.2

theorem keep_erase {cap : Nat} (hc : Erases c) :
    keep cap L c = L.dropLast := if_pos hc

theorem keep_char {cap : Nat} (hc : ¬Erases c) :
    keep cap L c = if 0x20 ≤ c ∧ L.length < cap then L ++ [c] else L :=
  if_neg hc

theorem strayStep_keep (h : ¬(Erases c ∧ m.2 = [])) :
    strayStep m c =
      (m.1, keep (if m.1 then BUFLEN - 2 else BUFLEN - 1) m.2 c) := if_neg h

theorem held_step : held (strayStep m c) = press (held m) c := by
  obtain ⟨stray, line⟩ := m
  by_cases herase : Erases c
  · by_cases hline : line = []
    · rw [strayStep, if_pos ⟨herase, hline⟩]
      subst hline
      rcases herase with rfl | rfl <;> cases stray <;> rfl
    · rw [strayStep_keep fun h => hline h.2, keep_erase herase]
      cases stray
      · exact (press_erase herase hline).symm
      · exact (List.dropLast_cons_of_ne_nil hline).symm.trans
          (press_erase herase (List.cons_ne_nil _ _)).symm
  · rw [strayStep_keep fun h => herase h.1, keep_char herase,
      press_char fun h => herase h.1]
    cases stray
    · rfl
    · have hroom : (0x7F :: line : List (BitVec 8)).length < BUFLEN - 1 ↔
          line.length < BUFLEN - 2 := by
        rw [List.length_cons, BUFLEN]
        omega
      simp only [held, if_true, hroom]
      split_ifs <;> rfl

theorem held_foldl : held (cs.foldl strayStep m) = cs.foldl press (held m) := by
  induction cs generalizing m with
  | nil => rfl
  | cons c cs ih => rw [List.foldl_cons, List.foldl_cons, ih, held_step]

/-- What was meant is what is held, or there is a stray DEL and it is as long as
what is held behind that, or one longer. -/
structure Meant (m : Bool × List (BitVec 8)) (S : List (BitVec 8)) : Prop where
  same : m.1 = false → S = m.2
  le : m.1 = true → m.2.length ≤ S.length
  ge : m.1 = true → S.length ≤ m.2.length + 1

theorem Meant.step {S : List (BitVec 8)} (h : Meant m S) :
    Meant (strayStep m c) (keep (BUFLEN - 1) S c) := by
  obtain ⟨stray, line⟩ := m
  by_cases hfound : Erases c ∧ line = []
  · have hS : S.dropLast = [] := by
      apply List.eq_nil_of_length_eq_zero
      rw [List.length_dropLast]
      cases stray
      · rw [h.same rfl, hfound.2]
        rfl
      · have hge := h.ge rfl
        rw [hfound.2] at hge
        simp at hge
        omega
    rw [strayStep, if_pos hfound, keep, if_pos hfound.1, hS]
    exact ⟨fun _ => rfl, fun _ => Nat.le_refl _, fun _ => Nat.zero_le _⟩
  · rw [strayStep, if_neg hfound]
    cases stray
    · rw [h.same rfl]
      exact ⟨fun _ => rfl, nofun, nofun⟩
    · have hle : line.length ≤ S.length := h.le rfl
      have hge : S.length ≤ line.length + 1 := h.ge rfl
      have hlen : (keep (BUFLEN - 2) line c).length ≤
          (keep (BUFLEN - 1) S c).length ∧
          (keep (BUFLEN - 1) S c).length ≤
            (keep (BUFLEN - 2) line c).length + 1 := by
        by_cases herase : Erases c
        · have hpos := List.length_pos_iff.mpr fun hline =>
            hfound ⟨herase, hline⟩
          rw [keep_erase herase, keep_erase herase, List.length_dropLast,
            List.length_dropLast]
          omega
        · rw [keep_char herase, keep_char herase, BUFLEN]
          by_cases hchar : 0x20 ≤ c
          · simp only [hchar, true_and, apply_ite List.length,
              List.length_append, List.length_singleton]
            split_ifs <;> omega
          · simp only [hchar, false_and, if_false]
            exact ⟨hle, hge⟩
      exact ⟨nofun, fun _ => hlen.1, fun _ => hlen.2⟩

theorem Meant.foldl {S : List (BitVec 8)} (h : Meant m S) :
    Meant (cs.foldl strayStep m) (cs.foldl (keep (BUFLEN - 1)) S) := by
  induction cs generalizing m S with
  | nil => exact h
  | cons c cs ih => exact ih h.step

theorem keep_kept {cap : Nat} (h : ∀ c ∈ L, ¬Erases c ∧ 0x20 ≤ c) :
    ∀ c' ∈ keep cap L c, ¬Erases c' ∧ 0x20 ≤ c' := by
  intro c' hc'
  rw [keep] at hc'
  split_ifs at hc' with herase hkeep
  · exact h c' (List.dropLast_subset _ hc')
  · rcases List.mem_append.mp hc' with hc' | hc'
    · exact h c' hc'
    · rw [List.mem_singleton.mp hc']
      exact ⟨herase, hkeep.1⟩
  · exact h c' hc'

theorem foldl_kept (h : ∀ c ∈ L, ¬Erases c ∧ 0x20 ≤ c) :
    ∀ c ∈ cs.foldl (keep (BUFLEN - 1)) L, ¬Erases c ∧ 0x20 ≤ c := by
  induction cs generalizing L with
  | nil => exact h
  | cons c cs ih => exact ih (keep_kept h)

theorem edit_kept : ∀ c ∈ edit cs, ¬Erases c ∧ 0x20 ≤ c := foldl_kept nofun

/-- The lines are the same exactly if there is no stray DEL. -/
theorem held_eq_edit_iff : cs.foldl press [] = edit cs ↔ ¬Stray cs := by
  have hheld : held (cs.foldl strayStep (false, [])) = cs.foldl press [] :=
    held_foldl
  have hmeant : Meant (cs.foldl strayStep (false, [])) (edit cs) :=
    Meant.foldl ⟨fun _ => rfl, nofun, nofun⟩
  rw [← hheld, held, Stray]
  by_cases hstray : (cs.foldl strayStep (false, [])).1 = true
  · rw [if_pos hstray]
    refine iff_of_false (fun heq => ?_) (not_not.mpr hstray)
    have hmem : (0x7F : BitVec 8) ∈ edit cs := heq ▸ List.mem_cons_self ..
    exact (edit_kept _ hmem).1 (.inr rfl)
  · rw [if_neg hstray]
    exact iff_of_true (hmeant.same (by simpa using hstray)).symm hstray

theorem press_kept (h : ∀ c ∈ L, (0x20 : BitVec 8) ≤ c) :
    ∀ c' ∈ press L c, (0x20 : BitVec 8) ≤ c' := by
  intro c' hc'
  rw [press] at hc'
  split_ifs at hc' with herase hkeep
  · exact h c' (List.dropLast_subset _ hc')
  · rcases List.mem_append.mp hc' with hc' | hc'
    · exact h c' hc'
    · rw [List.mem_singleton.mp hc']
      exact hkeep.1
  · exact h c' hc'

theorem foldl_press_kept (h : ∀ c ∈ L, (0x20 : BitVec 8) ≤ c) :
    ∀ c ∈ cs.foldl press L, (0x20 : BitVec 8) ≤ c := by
  induction cs generalizing L with
  | nil => exact h
  | cons c cs ih => exact ih (press_kept h)

theorem printable_ne_zero (h : ∀ c ∈ L, (0x20 : BitVec 8) ≤ c) :
    ∀ c ∈ L, c ≠ 0 := by
  rintro c hc rfl
  exact absurd (h 0 hc) (by decide)

theorem Holds.spells (h : Holds s L) (hL : ∀ c ∈ L, (0x20 : BitVec 8) ≤ c) :
    Spells (Function.update s.buf s.i 0) L where
  chars j hj := by
    rw [h.i_eq, Function.update_of_ne (by omega), h.chars j hj]
  nul := by rw [h.i_eq, Function.update_self]
  nonzero := printable_ne_zero hL

/-- A buffer has one string at its start. -/
theorem Spells.unique (h : Spells buf L) (h' : Spells buf line) : L = line := by
  have hle : ∀ {L line : List (BitVec 8)}, Spells buf L → Spells buf line →
      L.length ≤ line.length := by
    intro L line h h'
    by_contra hlt
    have hchar := h.chars line.length (by omega)
    exact h.nonzero _ (List.getElem_mem _) (hchar.symm.trans h'.nul)
  refine List.ext_getElem (Nat.le_antisymm (hle h h') (hle h' h))
    fun j hj hj' => ?_
  rw [← h.chars j hj, h'.chars j hj']

/-- `readline` returns the edited line exactly if no DEL that was typed on an
empty line is still there at the end. -/
theorem readline_iff (hcs : ∀ c ∈ cs, Typed c) (he : e = 0x0A ∨ e = 0x0D) :
    ReturnsLine buf cs (cs.map .char ++ .char e :: rest) ↔ ¬Stray cs := by
  have hstart : Holds ⟨buf, 0⟩ [] := ⟨rfl, nofun, Nat.zero_le _⟩
  obtain ⟨⟨s', hloop, hs'⟩, hbounds⟩ := @loop_eq _ _ _ _ rest hstart hcs he
  have hspells := hs'.spells (foldl_press_kept nofun)
  rw [← held_eq_edit_iff]
  constructor
  · intro h
    obtain ⟨buf', hline, hbuf'⟩ := h.spells
    rw [readline, hloop] at hline
    cases hline
    exact hspells.unique hbuf'
  · intro heq
    exact ⟨⟨_, hloop, heq ▸ hspells⟩, hbounds⟩

/-- In particular where no DEL is typed on an empty line. -/
theorem not_stray (h : ∀ pre post, cs = pre ++ 0x7F :: post → edit pre ≠ []) :
    ¬Stray cs := by
  have hrun : ∀ post pre, cs = pre ++ post → pre.foldl strayStep (false, []) =
      (false, edit pre) →
      cs.foldl strayStep (false, []) = (false, edit cs) := by
    intro post
    induction post with
    | nil =>
        intro pre hcs hpre
        rw [List.append_nil] at hcs
        rw [hcs, hpre]
    | cons c post ih =>
        intro pre hcs hpre
        refine ih (pre ++ [c]) (by rw [hcs, List.append_assoc]; rfl) ?_
        have hedit : edit (pre ++ [c]) = keep (BUFLEN - 1) (edit pre) c :=
          List.foldl_append ..
        rw [List.foldl_append, hpre, hedit]
        by_cases hfound : Erases c ∧ edit pre = []
        · have hdel : c ≠ 0x7F := by
            rintro rfl
            exact h pre post hcs hfound.2
          rw [List.foldl_cons, List.foldl_nil, strayStep, if_pos hfound,
            keep_erase hfound.1, hfound.2, decide_eq_false hdel]
          rfl
        · exact strayStep_keep hfound
  rw [Stray, hrun cs [] rfl rfl]
  exact Bool.false_ne_true

end

/-- A character that is erased and one that is not. -/
theorem readline_x :
    ReturnsLine (fun _ => 0) [0x61, 0x7F, 0x78]
      ([0x61, 0x7F, 0x78].map .char ++ .char 0x0A :: []) := by
  have hcs : ∀ c ∈ [0x61, 0x7F, 0x78], Typed c := by
    simp [Typed]
  exact (readline_iff hcs (.inl rfl)).mpr (by decide)

/-- DEL and then return: the line is not empty. -/
theorem readline_del : ¬∀ (buf : Int → BitVec 8) (cs : List (BitVec 8))
      (e : BitVec 8) (rest : List Key),
    (∀ c ∈ cs, Typed c) → e = 0x0A ∨ e = 0x0D →
    ReturnsLine buf cs (cs.map .char ++ .char e :: rest) := by
  intro h
  obtain ⟨buf', hline, hbuf'⟩ :=
    (h (fun _ => 0) [0x7F] 0x0D [] (by simp [Typed]) (.inr rfl)).spells
  have hrun :
      buf' = Function.update (Function.update (fun _ => 0) 0 0x7F) 1 0 := by
    have hturn : readline (fun _ => 0) [.char 0x7F, .char 0x0D] =
        .line (Function.update (Function.update (fun _ => 0) 0 0x7F) 1 0) := rfl
    exact Next.line.inj (hline.symm.trans hturn)
  have hnul := hbuf'.nul
  rw [hrun] at hnul
  exact absurd hnul (by decide)

end Readline

end Jos
