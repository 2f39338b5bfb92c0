import Jos.Lib.Ring

/-!
# The console input buffer

`cons_intr` and `cons_getc` of kern/console.c. What a device gives before it
answers -1 is a list of bytes: the serial port is read with `inb`, and the
keyboard's characters come from tables of `uint8_t`.
-/

namespace Jos

namespace Console

def CONSBUFSIZE : Nat := 512

/-- `cons` and `serial_exists`. -/
structure State where
  cons : Ring (BitVec 8)
  serialExists : Bool

/-- At boot. -/
def State.boot (serialExists : Bool) : State :=
  ⟨⟨fun _ => 0, 0, 0⟩, serialExists⟩

/-- One turn of `cons_intr`. -/
def consPut (cons : Ring (BitVec 8)) (c : BitVec 8) : Ring (BitVec 8) :=
  if c = 0 then cons else cons.put CONSBUFSIZE c

/-- `cons_intr`, for a device that gives `cs`. -/
def consIntr (cons : Ring (BitVec 8)) (cs : List (BitVec 8)) :
    Ring (BitVec 8) := cs.foldl consPut cons

/-- What `serial_intr` takes from the serial port. -/
def State.serialIn (s : State) (cs : List (BitVec 8)) : List (BitVec 8) :=
  if s.serialExists then cs else []

def serialIntr (s : State) (cs : List (BitVec 8)) : State :=
  { s with cons := consIntr s.cons (s.serialIn cs) }

def kbdIntr (s : State) (cs : List (BitVec 8)) : State :=
  { s with cons := consIntr s.cons cs }

/-- `cons_getc`, when the serial port has `serial` and the keyboard `kbd`. -/
def consGetc (s : State) (serial kbd : List (BitVec 8)) : BitVec 8 × State :=
  let s := kbdIntr (serialIntr s serial) kbd
  match s.cons.take CONSBUFSIZE with
  | (some c, cons) => (c, { s with cons := cons })
  | (none, _) => (0, s)

/-! ## Runs -/

/-- A call from outside. -/
inductive Call where
  | serialIntr (cs : List (BitVec 8))
  | kbdIntr (cs : List (BitVec 8))
  | getc (serial kbd : List (BitVec 8))

def Call.after (s : State) : Call → State
  | .serialIntr cs => Console.serialIntr s cs
  | .kbdIntr cs => Console.kbdIntr s cs
  | .getc serial kbd => (consGetc s serial kbd).2

/-- What the devices give. -/
def Call.bytes (s : State) : Call → List (BitVec 8)
  | .serialIntr cs => s.serialIn cs
  | .kbdIntr cs => cs
  | .getc serial kbd => s.serialIn serial ++ kbd

/-- The characters that come in. -/
def Call.fed (s : State) (call : Call) : List (BitVec 8) :=
  (call.bytes s).filter (· ≠ 0)

/-- The character that `cons_getc` returns, if it is one. -/
def Call.returned (s : State) : Call → List (BitVec 8)
  | .getc serial kbd => [(consGetc s serial kbd).1].filter (· ≠ 0)
  | _ => []

/-- The buffer at each turn of the loops, and at the end. -/
def Call.turns (s : State) (call : Call) : List (Ring (BitVec 8)) :=
  (call.bytes s).scanl consPut s.cons ++ [(call.after s).cons]

/-- The state after the calls, the last of which comes first. -/
def after (serialExists : Bool) : List Call → State
  | [] => .boot serialExists
  | call :: pre => call.after (after serialExists pre)

def fed (serialExists : Bool) : List Call → List (BitVec 8)
  | [] => []
  | call :: pre => fed serialExists pre ++ call.fed (after serialExists pre)

def returned (serialExists : Bool) : List Call → List (BitVec 8)
  | [] => []
  | call :: pre =>
      returned serialExists pre ++ call.returned (after serialExists pre)

/-- At most `CONSBUFSIZE - 1` characters are unread at any time. -/
def Roomy (serialExists : Bool) : List Call → Prop
  | [] => True
  | call :: pre => (fed serialExists (call :: pre)).length <
      (returned serialExists pre).length + CONSBUFSIZE ∧
      Roomy serialExists pre

/-- The buffer is a queue. -/
structure IsFifo (serialExists : Bool) (calls : List Call) : Prop where
  order : returned serialExists calls <+: fed serialExists calls
  zero : ∀ serial kbd pre, .getc serial kbd :: pre <:+ calls →
    ((consGetc (after serialExists pre) serial kbd).1 = 0 ↔
      returned serialExists pre = fed serialExists (.getc serial kbd :: pre))
  bounds : ∀ call pre, call :: pre <:+ calls →
    ∀ r ∈ call.turns (after serialExists pre),
    r.rpos < CONSBUFSIZE ∧ r.wpos < CONSBUFSIZE

section

variable {r : Ring (BitVec 8)} {q cs : List (BitVec 8)} {c : BitVec 8}
  {s : State} {call : Call} {calls pre : List Call}
  {serialExists : Bool}

theorem filter_ne_zero_cons (c : BitVec 8) (cs : List (BitVec 8)) :
    (c :: cs).filter (· ≠ 0) = [c].filter (· ≠ 0) ++ cs.filter (· ≠ 0) :=
  List.filter_append [c] cs

theorem consPut_holds (h : r.Holds CONSBUFSIZE q)
    (hroom : (q ++ [c].filter (· ≠ 0)).length < CONSBUFSIZE) :
    (consPut r c).Holds CONSBUFSIZE (q ++ [c].filter (· ≠ 0)) := by
  by_cases hc : c = 0
  · rw [consPut, if_pos hc, hc]
    simpa using h
  · have hkeep : [c].filter (· ≠ 0) = [c] := by simpa using hc
    rw [hkeep, List.length_append, List.length_singleton] at hroom
    rw [consPut, if_neg hc, hkeep]
    exact h.put hroom c

/-- What `cons_intr` does, by induction on what the device gives. -/
theorem consIntr_holds (h : r.Holds CONSBUFSIZE q)
    (hroom : (q ++ cs.filter (· ≠ 0)).length < CONSBUFSIZE) :
    (consIntr r cs).Holds CONSBUFSIZE (q ++ cs.filter (· ≠ 0)) ∧
      ∀ r' ∈ cs.scanl consPut r, r'.rpos < CONSBUFSIZE ∧
      r'.wpos < CONSBUFSIZE := by
  induction cs generalizing r q with
  | nil => simpa [consIntr] using ⟨h, h.rpos_lt, h.wpos_lt⟩
  | cons c cs ih =>
      rw [filter_ne_zero_cons, ← List.append_assoc] at hroom ⊢
      have hput : (consPut r c).Holds CONSBUFSIZE (q ++ [c].filter (· ≠ 0)) :=
        consPut_holds h (by
        rw [List.length_append] at hroom
        omega)
      obtain ⟨hholds, hturns⟩ := ih hput hroom
      refine ⟨hholds, fun r' hr' => ?_⟩
      rw [List.scanl_cons] at hr'
      rcases List.mem_cons.mp hr' with rfl | hr'
      · exact ⟨h.rpos_lt, h.wpos_lt⟩
      · exact hturns r' hr'

/-- `cons_getc` takes the first character that waits once the devices have been
asked. -/
theorem consGetc_cases {serial kbd : List (BitVec 8)}
    (h : (consIntr s.cons (s.serialIn serial ++ kbd)).Holds CONSBUFSIZE q) :
    (q = [] ∧ (consGetc s serial kbd).1 = 0 ∧
      (consGetc s serial kbd).2.cons.Holds CONSBUFSIZE []) ∨
      ∃ c q', q = c :: q' ∧ (consGetc s serial kbd).1 = c ∧
      (consGetc s serial kbd).2.cons.Holds CONSBUFSIZE q' := by
  have hcons : (kbdIntr (serialIntr s serial) kbd).cons =
      consIntr s.cons (s.serialIn serial ++ kbd) :=
    (List.foldl_append ..).symm
  cases q with
  | nil =>
      have htake := h.take_nil
      rw [← hcons] at htake
      rw [consGetc, htake]
      exact .inl ⟨rfl, rfl, hcons ▸ h⟩
  | cons c q' =>
      obtain ⟨htake, hrest⟩ := h.take_cons
      rw [← hcons] at htake
      rw [consGetc, htake]
      exact .inr ⟨c, q', rfl, rfl, hcons ▸ hrest⟩

/-- `q` waits. -/
structure Waits (serialExists : Bool) (calls : List Call)
    (q : List (BitVec 8)) : Prop where
  holds : (after serialExists calls).cons.Holds CONSBUFSIZE q
  fed_eq : fed serialExists calls = returned serialExists calls ++ q
  nonzero : ∀ c ∈ q, c ≠ 0

theorem waits_boot : Waits serialExists [] [] :=
  ⟨Ring.holds_empty (Nat.zero_lt_succ _) rfl, rfl, nofun⟩

/-- The devices are asked. -/
theorem Waits.bytes (h : Waits serialExists pre q)
    (hroom : (fed serialExists (call :: pre)).length <
      (returned serialExists pre).length + CONSBUFSIZE) :
    (consIntr (after serialExists pre).cons
      (call.bytes (after serialExists pre))).Holds CONSBUFSIZE
        (q ++ call.fed (after serialExists pre)) ∧
      ∀ r ∈ (call.bytes (after serialExists pre)).scanl consPut
        (after serialExists pre).cons,
        r.rpos < CONSBUFSIZE ∧ r.wpos < CONSBUFSIZE := by
  refine consIntr_holds h.holds ?_
  rw [fed, h.fed_eq, List.append_assoc, List.length_append] at hroom
  exact Nat.lt_of_add_lt_add_left hroom

theorem Waits.nonzero_fed (h : Waits serialExists pre q) :
    ∀ c ∈ q ++ call.fed (after serialExists pre), c ≠ 0 := by
  intro c hc
  rcases List.mem_append.mp hc with hc | hc
  · exact h.nonzero c hc
  · exact of_decide_eq_true (List.mem_filter.mp hc).2

/-- `cons_getc` returns 0 exactly if nothing waits. -/
theorem Waits.getc {serial kbd : List (BitVec 8)} (h : Waits serialExists pre q)
    (hroom : (fed serialExists (.getc serial kbd :: pre)).length <
      (returned serialExists pre).length + CONSBUFSIZE) :
    ((consGetc (after serialExists pre) serial kbd).1 = 0 ↔
        returned serialExists pre =
          fed serialExists (.getc serial kbd :: pre)) ∧
      ∃ q', Waits serialExists (.getc serial kbd :: pre) q' := by
  have hnonzero :
      ∀ c ∈ q ++ Call.fed (after serialExists pre) (.getc serial kbd), c ≠ 0 :=
    h.nonzero_fed
  have hfed : fed serialExists (.getc serial kbd :: pre) =
      returned serialExists pre ++
        (q ++ Call.fed (after serialExists pre) (.getc serial kbd)) := by
    rw [fed, h.fed_eq, List.append_assoc]
  rw [hfed, List.self_eq_append_right]
  rcases consGetc_cases (h.bytes hroom).1 with
    ⟨hq, hzero, hholds⟩ | ⟨c, q', hq, hc, hholds⟩
  · refine ⟨iff_of_true hzero hq, [], hholds, ?_, nofun⟩
    rw [hfed, hq, returned, Call.returned, hzero, List.append_nil,
      List.append_nil]
    exact (List.append_nil _).symm
  · have hne : c ≠ 0 := hnonzero c (hq ▸ List.mem_cons_self ..)
    refine ⟨?_, q', hholds, ?_, fun c' hc' =>
      hnonzero c' (hq ▸ List.mem_cons_of_mem _ hc')⟩
    · rw [hc, hq]
      exact iff_of_false hne nofun
    · have hkeep : [c].filter (· ≠ 0) = [c] := by simpa using hne
      rw [hfed, hq, returned, Call.returned, hc, hkeep, List.append_assoc]
      rfl

/-- One call. -/
theorem Waits.step (h : Waits serialExists pre q)
    (hroom : (fed serialExists (call :: pre)).length <
      (returned serialExists pre).length + CONSBUFSIZE) :
    ∃ q', Waits serialExists (call :: pre) q' := by
  have hfed : fed serialExists (call :: pre) =
      returned serialExists pre ++ [] ++
        (q ++ call.fed (after serialExists pre)) := by
    rw [fed, h.fed_eq, List.append_assoc, List.append_nil]
  cases call with
  | serialIntr cs => exact ⟨_, (h.bytes hroom).1, hfed, h.nonzero_fed⟩
  | kbdIntr cs => exact ⟨_, (h.bytes hroom).1, hfed, h.nonzero_fed⟩
  | getc serial kbd => exact (h.getc hroom).2

theorem Roomy.waits (h : Roomy serialExists calls) :
    ∃ q, Waits serialExists calls q := by
  induction calls with
  | nil => exact ⟨_, waits_boot⟩
  | cons call pre ih =>
      obtain ⟨q, hq⟩ := ih h.2
      exact hq.step h.1

theorem Roomy.suffix (h : Roomy serialExists calls) (hpre : pre <:+ calls) :
    Roomy serialExists pre := by
  induction calls with
  | nil => rwa [List.suffix_nil.mp hpre]
  | cons call calls ih =>
      rcases List.suffix_cons_iff.mp hpre with rfl | hpre
      · exact h
      · exact ih h.2 hpre

/-- In every run that leaves room for what comes in, the buffer is a queue. -/
theorem console_fifo (h : Roomy serialExists calls) :
    IsFifo serialExists calls where
  order := by
    obtain ⟨q, hq⟩ := h.waits
    exact ⟨q, hq.fed_eq.symm⟩
  zero serial kbd pre hpre := by
    obtain ⟨hroom, hbefore⟩ := h.suffix hpre
    obtain ⟨q, hq⟩ := hbefore.waits
    exact (hq.getc hroom).1
  bounds call pre hpre r hr := by
    obtain ⟨hroom, hbefore⟩ := h.suffix hpre
    obtain ⟨q, hq⟩ := hbefore.waits
    rcases List.mem_append.mp hr with hr | hr
    · exact (hq.bytes hroom).2 r hr
    · obtain ⟨q', hq'⟩ := hq.step hroom
      rw [List.mem_singleton.mp hr]
      exact ⟨hq'.holds.rpos_lt, hq'.holds.wpos_lt⟩

end

/-- Two keys with a zero between them, and three readers. -/
theorem console_fifo_keys :
    Roomy true [.getc [] [], .getc [] [0x62], .getc [0] [],
      .kbdIntr [0, 0x61]] ∧
      IsFifo true [.getc [] [], .getc [] [0x62], .getc [0] [],
        .kbdIntr [0, 0x61]] := by
  have h : Roomy true [.getc [] [], .getc [] [0x62], .getc [0] [],
      .kbdIntr [0, 0x61]] := by
    refine ⟨?_, ?_, ?_, ?_, trivial⟩ <;> decide
  exact ⟨h, console_fifo h⟩

end Console

end Jos
