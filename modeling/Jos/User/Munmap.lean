import Jos.User.Mmap

/-!
# Taking a mapping away

`munmap` searches the table, writes back and moves the entries behind the one it
found, all with one index. What it writes is read off its trace: a write moves
bytes from memory to the file of the descriptor, at the descriptor's position.
The loop that writes back counts pages in the index, so that the descriptors it
takes are those of the first mappings, and the entry that goes is the one whose
number is the number of pages; and its bound is the number of pages that are
left, which goes down while the index goes up.
-/

namespace Jos

/-- The `struct Fd` page at each descriptor, and the file and the position of
each such page. -/
structure Files where
  page : Word → Nat
  file : Nat → Nat
  pos : Nat → Word

/-- `len` bytes from `va` on have been moved to `file` at `pos`. -/
structure Moved where
  file : Nat
  pos : Word
  va : Word
  len : Nat

namespace Files

def seek (F : Files) (fd offset : Word) : Files :=
  { F with pos := Function.update F.pos (F.page fd) offset }

/-- What the calls, the first one first, have moved to files. -/
def moves (F : Files) : Trace → List Moved
  | [] => []
  | (.seek fd offset, a) :: t =>
      moves (if a.ret.slt 0 then F else F.seek fd offset) t
  | (.write fd va n, a) :: t =>
      if a.ret.slt 0 then
        moves F t
      else
        ⟨F.file (F.page fd), F.pos (F.page fd), va, min a.ret.toNat n.toNat⟩ ::
          moves (F.seek fd (F.pos (F.page fd) + a.ret)) t
  | _ :: t => moves F t

end Files

/-- The byte at `va` has been moved to `file` at `pos`. -/
def Covers (ms : List Moved) (file : Nat) (pos va : Word) : Prop :=
  ∃ m ∈ ms, m.file = file ∧ ∃ j < m.len, pos = m.pos + BitVec.ofNat 32 j ∧
    va = m.va + BitVec.ofNat 32 j

namespace Mmap

/-- The mappings in the table. -/
def live (p : Proc) : List MapRow :=
  (List.range p.maps.cnt.toNat).map fun i : Nat => p.maps.row i

/-- The first mapping at `start`. -/
def indexOf (p : Proc) (start : Word) : Option Nat :=
  (List.range p.maps.cnt.toNat).find? fun i => (p.maps.row i).start == start

/-- What `munmap` should do with mapping `k`: it moves the bytes from `start` on
to the file of the mapping at its offset and nothing else, and takes the mapping
off the table. -/
structure Unmaps (h : Host) (F : Files) (p : Proc) (start length : Word)
    (k : Nat) : Prop where
  run : ∃ t added, munmap h start length p = .ret 0 t ∧
    t.trace = added ++ p.trace ∧ t.mem = p.mem ∧
    live t = (live p).eraseIdx k ∧
    ∀ f x a, Covers (F.moves added.reverse) f x a ↔
      f = F.file (F.page (p.maps.row k).fd) ∧
        ∃ j < length.toNat, x = (p.maps.row k).offset + BitVec.ofNat 32 j ∧
        a = start + BitVec.ofNat 32 j

/-- What it should do otherwise: nothing. -/
def Ignores (h : Host) (p : Proc) (start length : Word) : Prop :=
  ∃ r t, munmap h start length p = .ret r t ∧ t.maps.cnt = p.maps.cnt ∧
    t.maps.row = p.maps.row

/-- `munmap` does what it should. -/
def MunmapOk (h : Host) (F : Files) (p : Proc) (start length : Word) : Prop :=
  match indexOf p start with
  | some k => Unmaps h F p start length k
  | none => Ignores h p start length

end Mmap

/-- After the `seek` of mapping `k`. -/
def Files.sought (F : Files) (h : Host) (p : Proc) (k : Nat) : Files :=
  if (h p.trace (.seek (p.maps.row k).fd (p.maps.row k).offset)).ret.slt 0 then
    F
  else F.seek (p.maps.row k).fd (p.maps.row k).offset

namespace Mmap

/-- What the host answers to the write of the first page, after the `seek` of
mapping `k`. -/
def firstAnswer (h : Host) (p : Proc) (start length : Word)
    (k : Nat) : Answer :=
  h ((.seek (p.maps.row k).fd (p.maps.row k).offset,
    h p.trace (.seek (p.maps.row k).fd (p.maps.row k).offset)) ::
    p.trace) (.write (p.maps.row 0).fd start length)

/-- Exactly one page goes through the first descriptor to the place of mapping
`k`. -/
structure OnePage (h : Host) (F : Files) (p : Proc) (start length : Word)
    (k : Nat) : Prop where
  le : length.toNat ≤ PGSIZE
  ok : ¬(firstAnswer h p start length k).ret.slt 0
  all : length.toNat ≤ (firstAnswer h p start length k).ret.toNat
  file : F.file (F.page (p.maps.row 0).fd) = F.file (F.page (p.maps.row k).fd)
  pos : (F.sought h p k).pos (F.page (p.maps.row 0).fd) = (p.maps.row k).offset

/-- When `munmap` is right about mapping `k`. The entry it takes off is number 0
for no bytes at all, and else number 1 or the only one. -/
structure Unmappable (h : Host) (F : Files) (p : Proc) (start length : Word)
    (k : Nat) : Prop where
  bytes : length ≠ 0 → OnePage h F p start length k
  entry : (live p).eraseIdx (if length = 0 then 0 else
    min 1 ((live p).length - 1)) = (live p).eraseIdx k

section

variable {h : Host} {F : Files} {p t : Proc} {start st length len : Word}
  {i j n k : Nat} {x : MapRow} {r : Word}

/-! ## The pieces of `munmap` -/

/-- The process after an access to the table. -/
def touched (p : Proc) (i : Int) : Proc :=
  { p with maps := { p.maps with touched := i :: p.maps.touched } }

theorem getRow_apply (i : Int) :
    getRow i p = .ret (p.maps.row i) (touched p i) := rfl

/-- The process after a store to the table. -/
def rowPut (p : Proc) (i : Int) (x : MapRow) : Proc :=
  { touched p i with maps :=
    { (touched p i).maps with row := Function.update p.maps.row i x } }

theorem putRow_apply (i : Int) (x : MapRow) :
    putRow i x p = .ret () (rowPut p i x) := rfl

/-- Only the accesses to the table differ, and the calls: those that have been
made since are `added`. -/
structure Later (p t : Proc) (added : Trace) : Prop where
  trace : t.trace = added ++ p.trace
  row : t.maps.row = p.maps.row
  cnt : t.maps.cnt = p.maps.cnt
  mem : t.mem = p.mem

theorem Later.refl : Later p p [] := ⟨rfl, rfl, rfl, rfl⟩

theorem Later.touched (i : Int) : Later p (touched p i) [] :=
  ⟨rfl, rfl, rfl, rfl⟩

theorem Later.asked (c : Call) (a : Answer) : Later p (p.asked c a) [(c, a)] :=
  ⟨rfl, rfl, rfl, rfl⟩

theorem Later.trans {q : Proc} {l l' : Trace} (h : Later p q l)
    (h' : Later q t l') : Later p t (l' ++ l) where
  trace := by rw [h'.trace, h.trace, List.append_assoc]
  row := h'.row.trans h.row
  cnt := h'.cnt.trans h.cnt
  mem := h'.mem.trans h.mem

/-- The search ends at the first mapping with the address, or behind the last
one. -/
theorem findRow_ret (n i : Nat) (p : Proc) : ∃ t, findRow start n i p =
    .ret (((List.range' i n).find? fun j : Nat => (p.maps.row j).start ==
      start).getD (i + n) : Nat) t ∧
      Later p t [] := by
  induction n generalizing i p with
  | zero => exact ⟨p, by simp [findRow], .refl⟩
  | succ n ih =>
      by_cases hx : (p.maps.row i).start = start
      · refine ⟨touched p i, ?_, .touched _⟩
        simp [findRow, Prog.bind_apply, getRow_apply, hx, List.range'_succ]
      · obtain ⟨t, hret, hlater⟩ := ih (i + 1) (touched p i)
        refine ⟨t, ?_, by simpa using (Later.touched (i : Int)).trans hlater⟩
        have hb : ((p.maps.row i).start == start) = false := by simpa using hx
        rw [List.range'_succ, List.find?_cons, hb]
        simp only [findRow, Prog.bind_apply, getRow_apply, hx, if_false]
        rw [show i + (n + 1) = i + 1 + n by omega]
        exact hret

/-- The entries from `i` on have moved one down. -/
theorem shiftRows_ret (n i : Nat) (p : Proc) :
    ∃ t, shiftRows n i p = .ret () t ∧
    t.trace = p.trace ∧ t.mem = p.mem ∧ t.maps.cnt = p.maps.cnt ∧
    ∀ j : Nat, t.maps.row j = if i ≤ j ∧ j < i + n then
    p.maps.row (j + 1 : Nat) else p.maps.row j := by
  induction n generalizing i p with
  | zero => exact ⟨p, rfl, rfl, rfl, rfl, fun j => (if_neg (by omega)).symm⟩
  | succ n ih =>
      obtain ⟨t, hret, htrace, hmem, hcnt, hrow⟩ := ih (i + 1)
        (rowPut (touched p (i + 1)) i (p.maps.row (i + 1)))
      refine ⟨t, hret, htrace, hmem, hcnt, fun j => ?_⟩
      rw [hrow]
      by_cases hj : i + 1 ≤ j ∧ j < i + 1 + n
      · rw [if_pos hj, if_pos (by omega)]
        exact Function.update_of_ne (by omega) ..
      · rw [if_neg hj]
        by_cases hij : j = i
        · subst hij
          rw [if_pos (by omega)]
          exact Function.update_self ..
        · rw [if_neg (by omega)]
          exact Function.update_of_ne (by omega) ..

/-- The end of `munmap`, with `i` left in the index: entry `i` goes, or the last
one if there is none. -/
theorem live_shift (hcnt : t.maps.cnt = p.maps.cnt - 1) (hpos : 0 < p.maps.cnt)
    (hrow : ∀ j : Nat, t.maps.row j = if i ≤ j ∧
      j < i + (p.maps.cnt - 1 - i).toNat then p.maps.row (j + 1 : Nat)
      else p.maps.row j) : live t =
        (live p).eraseIdx (min i ((live p).length - 1)) := by
  have hlen : (live p).length = p.maps.cnt.toNat := by simp [live]
  have hlen' : (live t).length = p.maps.cnt.toNat - 1 := by
    simp only [live, hcnt, List.length_map, List.length_range]
    omega
  have hmin : min i ((live p).length - 1) < (live p).length := by omega
  refine List.ext_getElem ?_ fun j hj hj' => ?_
  · rw [List.length_eraseIdx_of_lt hmin, hlen', hlen]
  · have hlt : j < p.maps.cnt.toNat - 1 := hlen' ▸ hj
    rw [List.getElem_eraseIdx]
    simp only [live, List.length_map, List.length_range, List.getElem_map,
      List.getElem_range]
    rw [hrow]
    by_cases hij : i ≤ j
    · rw [if_pos (by omega), dif_neg (by omega)]
    · rw [if_neg (by omega), dif_pos (by omega)]

/-- The loop stops at once if its index has reached the number of pages. -/
theorem writeLoop_done (hi : pagesOf length ≤ i) (n : Nat) :
    writeLoop h n i st length p = .ret i p := by
  cases n with
  | zero => rfl
  | succ n => rw [writeLoop, if_neg (by omega)]; rfl

/-- The calls that write an object of more than one page: none of them has its
last byte. -/
def Misses (start : Word) (len : Nat) (c : Call) : Prop :=
  (∃ fd offset, c = .seek fd offset) ∨ ∃ fd n, ∃ i : Nat,
    c = .write fd (start + BitVec.ofNat 32 (4096 * i)) n ∧
    n.toNat ≤ 4096 ∧ 4096 * (i + 1) < len

/-- All that happens after `p` misses the last byte. -/
def AllMiss (start : Word) (len : Nat) (p t : Proc) : Prop :=
  ∃ added, Later p t added ∧ ∀ x ∈ added, Misses start len x.1

theorem AllMiss.refl : AllMiss start k p p := ⟨[], .refl, nofun⟩

theorem AllMiss.trans {q : Proc} (hpq : AllMiss start k p q)
    (hqt : AllMiss start k q t) : AllMiss start k p t := by
  obtain ⟨l, hl, hmiss⟩ := hpq
  obtain ⟨l', hl', hmiss'⟩ := hqt
  refine ⟨l' ++ l, hl.trans hl', fun x hx => ?_⟩
  rcases List.mem_append.mp hx with hx | hx
  · exact hmiss' x hx
  · exact hmiss x hx

theorem AllMiss.touched (i : Int) : AllMiss start k p (touched p i) :=
  ⟨[], .touched i, nofun⟩

theorem AllMiss.asked {c : Call} {a : Answer} (hc : Misses start k c) :
    AllMiss start k p (p.asked c a) :=
  ⟨[(c, a)], .asked c a, by simpa using hc⟩

/-- The loop leaves the last byte of more than one page alone. -/
theorem wp_writeLoop_long (n : Nat) (hlong : 4096 < k) (hk : k < 2 ^ 32)
    (hi : 4096 * i < k)
    (hst : st = start + BitVec.ofNat 32 (4096 * i))
    (hlen : len.toNat = k - 4096 * i) :
    Prog.wp (writeLoop h n i st len) (fun _ t => AllMiss start k p t)
      (fun t => AllMiss start k p t)
      (fun _ t => AllMiss start k p t) p := by
  induction n generalizing i st len p with
  | zero => exact Prog.wp_pure_intro .refl
  | succ n ih =>
      refine Prog.wp_ite _ (fun hpages => ?_) fun _ => Prog.wp_pure_intro .refl
      have hlt := lt_of_lt_pagesOf hpages
      have hnext : 4096 * (i + 1) < k := by
        rcases Nat.eq_zero_or_pos i with rfl | hpos
        · omega
        · omega
      have hmiss :
          Misses start k (.write (p.maps.row i).fd st (minWord len PGSZ)) :=
        .inr ⟨_, _, i, by rw [hst], minWord_le_right, hnext⟩
      apply Prog.wp_bind_intro
      refine Prog.wp_ret (getRow_apply _) ?_
      apply Prog.wp_bind_intro
      refine wp_call ?_
      have hdone : ∀ a, AllMiss start k p ((touched p i).asked
          (.write (p.maps.row i).fd st (minWord len PGSZ)) a) :=
        fun a => (AllMiss.touched i).trans (.asked hmiss)
      apply Prog.wp_bind_intro
      refine wp_panicOn (fun _ => hdone _) fun _ => ?_
      refine Prog.wp_imp (ih hnext ?_ ?_) (fun _ t ht => (hdone _).trans ht)
        (fun t ht => (hdone _).trans ht)
        fun _ t ht => (hdone _).trans ht
      · rw [hst, PGSZ, PGSIZE, BitVec.add_assoc, ← BitVec.ofNat_add]
        congr 2
      · rw [BitVec.toNat_sub_of_le
          (by rw [BitVec.le_def]; show 4096 ≤ _; omega), hlen]
        show _ - 4096 = _
        omega

/-! ## Writing a mapping back -/

theorem minWord_of_le (hle : length.toNat ≤ PGSIZE) :
    minWord length PGSZ = length :=
  if_pos (show length.toNat ≤ PGSZ.toNat from hle)

/-- One page, or less, is written through the first descriptor. -/
theorem writeLoop_one (h0 : length ≠ 0) (hle : length.toNat ≤ PGSIZE)
    (n : Nat) :
    writeLoop h (n + 1) 0 st length p =
      if (h p.trace (.write (p.maps.row 0).fd st length)).ret.slt 0 then
        .stop (.panic "lib/mmap.c/munmap(): write: %e"
        [(h p.trace (.write (p.maps.row 0).fd st length)).ret])
          ((touched p 0).asked (.write (p.maps.row 0).fd st length)
          (h p.trace (.write (p.maps.row 0).fd st length)))
      else
        .ret 1 ((touched p 0).asked (.write (p.maps.row 0).fd st length)
          (h p.trace (.write (p.maps.row 0).fd st length))) := by
  have hpast : pagesOf (length - PGSZ) ≤ 1 := by
    rw [pagesOf_sub (pagesOf_pos h0 hle)]
    exact (Nat.sub_le _ _).trans (pagesOf_le_one hle)
  have hrest := @writeLoop_done h
    ((touched p 0).asked (.write (p.maps.row 0).fd st length)
    (h p.trace (.write (p.maps.row 0).fd st length)))
    (st + PGSZ) _ _ hpast n
  rw [writeLoop, if_pos (pagesOf_pos h0 hle), minWord_of_le hle]
  simp only [Prog.bind_apply, getRow_apply, call, touched, panicOn,
    Int.natCast_zero] at hrest ⊢
  by_cases hbad :
    (h p.trace (.write (p.maps.row 0).fd st length)).ret.slt 0 = true
  · simp only [hbad, if_true]
    rfl
  · simp only [hbad]
    exact hrest

/-- The `seek` of a write back. -/
def sought (h : Host) (p : Proc) (i : Nat) : Proc :=
  (touched (touched p i) i).asked
    (.seek (p.maps.row i).fd (p.maps.row i).offset)
    (h p.trace (.seek (p.maps.row i).fd (p.maps.row i).offset))

theorem Later.sought :
    Later p (sought h p i) [(.seek (p.maps.row i).fd (p.maps.row i).offset,
    h p.trace (.seek (p.maps.row i).fd (p.maps.row i).offset))] :=
  ((Later.touched i).trans (.touched i)).trans (.asked _ _)

theorem writeBack_shared (hx : MapRow.Shared (p.maps.row i)) :
    writeBack h i start length p =
      (do let j ← writeLoop h NPAGES 0 start length; pure (j : Int) : ProcM Int)
        (sought h p i) := by
  simp only [writeBack, Prog.bind_apply, getRow_apply, hx, if_true, touched,
    call, sought]

/-- The rest of `munmap`, once the search and the write back have left `i` in
the index. -/
theorem munmap_ret {q q' : Proc} {added : Trace} (hcnt : 0 < p.maps.cnt)
    (hfind : findRow start p.maps.cnt.toNat 0 p = .ret (k : Int) q)
    (hback : writeBack h k start length q = .ret (i : Int) q')
    (hlater : Later p q' added) :
    ∃ t, munmap h start length p = .ret 0 t ∧ t.trace = added ++ p.trace ∧
    t.mem = p.mem ∧
      live t = (live p).eraseIdx (min i ((live p).length - 1)) := by
  obtain ⟨t, hshift, htrace, hmem, -, hrow⟩ :=
    shiftRows_ret (p.maps.cnt - 1 - i).toNat i q'
  refine ⟨{ t with maps := { t.maps with cnt := p.maps.cnt - 1 } }, ?_,
    ?_, ?_, ?_⟩
  · simp only [munmap, Prog.bind_apply, Prog.ask, hfind, hback, hshift]
    rfl
  · rw [← hlater.trace, ← htrace]
  · rw [← hlater.mem, ← hmem]
  · refine live_shift rfl hcnt fun j => ?_
    rw [hrow, hlater.row]

/-- The answer to the `seek` of mapping `k`. -/
def seekAnswer (h : Host) (p : Proc) (k : Nat) : Answer :=
  h p.trace (.seek (p.maps.row k).fd (p.maps.row k).offset)

theorem indexOf_lt (hk : indexOf p start = some k) : k < p.maps.cnt.toNat :=
  List.mem_range.mp (List.mem_of_find?_eq_some hk)

theorem findRow_some (hk : indexOf p start = some k) :
    ∃ q, findRow start p.maps.cnt.toNat 0 p = .ret (k : Int) q ∧
    Later p q [] := by
  obtain ⟨q, hret, hlater⟩ := @findRow_ret start p.maps.cnt.toNat 0 p
  refine ⟨q, ?_, hlater⟩
  rw [indexOf, List.range_eq_range'] at hk
  rw [hk] at hret
  exact hret

/-- No byte: the `seek` is all there is, and entry 0 goes. -/
theorem munmap_empty (hk : indexOf p start = some k)
    (hx : MapRow.Shared (p.maps.row k)) :
    ∃ t, munmap h start 0 p = .ret 0 t ∧
      t.trace = [(.seek (p.maps.row k).fd (p.maps.row k).offset,
        seekAnswer h p k)] ++ p.trace ∧
      t.mem = p.mem ∧ live t = (live p).eraseIdx 0 := by
  obtain ⟨q, hfind, hlater⟩ := findRow_some hk
  have hk' := indexOf_lt hk
  have hrow : q.maps.row k = p.maps.row k := by rw [hlater.row]
  have htrace : q.trace = p.trace := hlater.trace
  have hback : writeBack h k start 0 q =
      .ret ((0 : Nat) : Int) (sought h q k) := by
    rw [writeBack_shared (hrow ▸ hx), Prog.bind_apply,
      writeLoop_done (by decide)]
    rfl
  have hsought := hlater.trans (Later.sought (h := h) (i := k))
  rw [hrow, htrace] at hsought
  obtain ⟨t, hret, htr, hmem, hlive⟩ :=
    munmap_ret (by omega) hfind hback hsought
  exact ⟨t, hret, htr, hmem, by simpa using hlive⟩

/-- Up to a page: it is written through the first descriptor, and entry 1 goes,
or the only one. -/
theorem munmap_page (hk : indexOf p start = some k)
    (hx : MapRow.Shared (p.maps.row k)) (h0 : length ≠ 0)
    (hle : length.toNat ≤ PGSIZE)
    (hok : ¬(firstAnswer h p start length k).ret.slt 0) :
    ∃ t, munmap h start length p = .ret 0 t ∧
      t.trace = [(.write (p.maps.row 0).fd start length,
        firstAnswer h p start length k),
        (.seek (p.maps.row k).fd (p.maps.row k).offset, seekAnswer h p k)] ++
          p.trace ∧
      t.mem = p.mem ∧ live t =
        (live p).eraseIdx (min 1 ((live p).length - 1)) := by
  obtain ⟨q, hfind, hlater⟩ := findRow_some hk
  have hk' := indexOf_lt hk
  have hrow : q.maps.row = p.maps.row := hlater.row
  have htrace : q.trace = p.trace := hlater.trace
  have hans : h (sought h q k).trace
      (.write ((sought h q k).maps.row 0).fd start length) =
      firstAnswer h p start length k := by
    show h (_ :: q.trace) (.write (q.maps.row 0).fd _ _) = _
    rw [hrow, htrace]
    rfl
  have hback : writeBack h k start length q = .ret ((1 : Nat) : Int)
      ((touched (sought h q k) 0).asked
        (.write ((sought h q k).maps.row 0).fd start length)
        (firstAnswer h p start length k)) := by
    rw [writeBack_shared (hrow ▸ hx), Prog.bind_apply,
      show NPAGES = (NPAGES - 1) + 1 from rfl,
      writeLoop_one h0 hle, hans, if_neg hok]
    rfl
  have hsought := (hlater.trans (Later.sought (h := h) (i := k))).trans
    ((Later.touched 0).trans
    (Later.asked (.write ((sought h q k).maps.row 0).fd start length)
      (firstAnswer h p start length k)))
  rw [show (sought h q k).maps.row = p.maps.row from hrow] at hsought hback
  rw [hrow, htrace] at hsought
  obtain ⟨t, hret, htr, hmem, hlive⟩ :=
    munmap_ret (by omega) hfind hback hsought
  exact ⟨t, hret, htr, hmem, hlive⟩

/-- A write that fails ends the program. -/
theorem munmap_page_stop (hk : indexOf p start = some k)
    (hx : MapRow.Shared (p.maps.row k)) (h0 : length ≠ 0)
    (hle : length.toNat ≤ PGSIZE)
    (hbad : (firstAnswer h p start length k).ret.slt 0) :
    munmap h start length p ≠ .ret r t := by
  obtain ⟨q, hfind, hlater⟩ := findRow_some hk
  have hrow : q.maps.row = p.maps.row := hlater.row
  have htrace : q.trace = p.trace := hlater.trace
  have hans : h (sought h q k).trace
      (.write ((sought h q k).maps.row 0).fd start length) =
      firstAnswer h p start length k := by
    show h (_ :: q.trace) (.write (q.maps.row 0).fd _ _) = _
    rw [hrow, htrace]
    rfl
  intro hret
  simp only [munmap, Prog.bind_apply, Prog.ask, hfind] at hret
  rw [writeBack_shared (hrow ▸ hx), Prog.bind_apply,
    show NPAGES = (NPAGES - 1) + 1 from rfl,
    writeLoop_one h0 hle, hans, if_pos hbad] at hret
  cases hret

/-- More than a page: whatever is written, its last byte is not. -/
theorem munmap_long (hk : indexOf p start = some k)
    (hx : MapRow.Shared (p.maps.row k))
    (hlong : PGSIZE < length.toNat)
    (hret : munmap h start length p = .ret r t) :
    ∃ added, t.trace = added ++ p.trace ∧ ∀ x ∈ added,
    Misses start length.toNat x.1 := by
  obtain ⟨q, hfind, hlater⟩ := findRow_some hk
  have hrow : q.maps.row = p.maps.row := hlater.row
  simp only [munmap, Prog.bind_apply, Prog.ask, hfind] at hret
  rw [writeBack_shared (hrow ▸ hx), Prog.bind_apply] at hret
  have hloop := @wp_writeLoop_long h (sought h q k) start start length 0 _
    NPAGES hlong length.isLt (by omega) (by simp) (by simp)
  cases hrun : writeLoop h NPAGES 0 start length (sought h q k) with
  | away u => simp [hrun] at hret
  | stop e u => simp [hrun] at hret
  | ret j u =>
      obtain ⟨added, hadd, hmiss⟩ := hloop.ret hrun
      obtain ⟨v, hshift, htrace, -⟩ :=
        shiftRows_ret (p.maps.cnt - 1 - j).toNat j u
      have hend : t.trace = u.trace := by
        simp only [hrun, Prog.pure_apply, hshift] at hret
        cases hret
        exact htrace
      have hall := hlater.trans ((Later.sought (h := h) (i := k)).trans hadd)
      refine ⟨_, hend.trans hall.trace, fun x hxm => ?_⟩
      rcases List.mem_append.mp hxm with hxm | hxm
      · rcases List.mem_append.mp hxm with hxm | hxm
        · exact hmiss x hxm
        · rw [List.mem_singleton.mp hxm]
          exact .inl ⟨_, _, rfl⟩
      · cases hxm

/-- A mapping that is not there takes one entry off the count. -/
theorem munmap_cnt (hret : munmap h start length p = .ret r t) :
    t.maps.cnt = p.maps.cnt - 1 := by
  simp only [munmap, Prog.bind_eq_ret] at hret
  obtain ⟨_, _, hask, _, _, -, _, _, -, _, _, -, _, _, hset, hpure⟩ := hret
  cases hask
  cases hset
  cases hpure
  rfl

/-! ## What has been moved -/

theorem mem_moves {m : Moved} {l : Trace} (hm : m ∈ F.moves l) :
    ∃ x ∈ l, ∃ fd n, x.1 = .write fd m.va n ∧ m.len ≤ n.toNat := by
  induction l generalizing F with
  | nil => cases hm
  | cons x l ih =>
      have hcons : ∀ {F' : Files}, m ∈ F'.moves l → ∃ x' ∈ x :: l, ∃ fd n,
          x'.1 = .write fd m.va n ∧ m.len ≤ n.toNat :=
        fun h => (ih h).imp fun _ h => ⟨List.mem_cons_of_mem _ h.1, h.2⟩
      obtain ⟨c, a⟩ := x
      cases c
      case write fd va n =>
        simp only [Files.moves] at hm
        split at hm
        · exact hcons hm
        · rcases List.mem_cons.mp hm with rfl | hm
          · exact ⟨_, List.mem_cons_self, fd, n, rfl, min_le_right _ _⟩
          · exact hcons hm
      case seek fd offset => exact hcons hm
      all_goals exact hcons hm

/-- Calls that miss the last byte do not move it. -/
theorem not_covers_last {l : Trace} {f : Nat} {pos : Word}
    (hlen : 4096 < length.toNat)
    (hl : ∀ x ∈ l, Misses start length.toNat x.1) :
    ¬Covers (F.moves l) f pos (start + BitVec.ofNat 32 (length.toNat - 1)) := by
  rintro ⟨m, hm, -, j, hj, -, hva⟩
  obtain ⟨x, hx, fd, n, hcall, hle⟩ := mem_moves hm
  rcases hl x hx with ⟨_, _, hs⟩ | ⟨fd', n', i, hw, hn, hi⟩
  · rw [hs] at hcall
    cases hcall
  · rw [hw] at hcall
    injection hcall with _ hva' hn'
    rw [← hva'] at hva
    rw [← hn'] at hle
    have heq := congrArg BitVec.toNat
      (add_left_cancel ((add_assoc start _ _).symm.trans hva.symm))
    have hlt := length.isLt
    rw [BitVec.toNat_add, BitVec.toNat_ofNat, BitVec.toNat_ofNat,
      BitVec.toNat_ofNat] at heq
    omega

theorem add_ofNat_inj {a : Word} (hi : i < 2 ^ 32) (hj : j < 2 ^ 32)
    (heq : a + BitVec.ofNat 32 i = a + BitVec.ofNat 32 j) : i = j := by
  have h := congrArg BitVec.toNat (add_left_cancel heq)
  rwa [BitVec.toNat_ofNat, BitVec.toNat_ofNat, Nat.mod_eq_of_lt hi,
    Nat.mod_eq_of_lt hj] at h

/-- One write covers what it should if it goes to the right place and is
complete. -/
theorem covers_one {file file' : Nat} {pos offset : Word} {c len : Nat}
    (h0 : 0 < len) (hlen : len < 2 ^ 32)
    (hc : c ≤ len) :
    (∀ f x a, Covers [⟨file, pos, start, c⟩] f x a ↔
      f = file' ∧ ∃ j < len, x = offset + BitVec.ofNat 32 j ∧
      a = start + BitVec.ofNat 32 j) ↔
      len ≤ c ∧ file = file' ∧ pos = offset := by
  constructor
  · intro hall
    obtain ⟨m, hm, hfile, i, hi, hpos, hva⟩ :=
      (hall file' offset start).mpr ⟨rfl, 0, h0, by simp, by simp⟩
    obtain ⟨m', hm', -, j, hj, -, hva'⟩ :=
      (hall file' _ _).mpr ⟨rfl, len - 1, by omega, rfl, rfl⟩
    rw [List.mem_singleton.mp hm] at hfile hi hpos hva
    rw [List.mem_singleton.mp hm'] at hj hva'
    have hi0 : i = 0 := by
      refine add_ofNat_inj (a := start) (by simp only at hi; omega)
        (by decide) ?_
      rw [← hva]
      simp
    have hj' : len - 1 = j :=
      add_ofNat_inj (by omega) (by simp only at hj; omega) hva'
    subst hi0
    simp only at hj
    exact ⟨by omega, hfile, by simpa using hpos.symm⟩
  · rintro ⟨hle, rfl, rfl⟩ f x a
    obtain rfl : c = len := by omega
    simp [Covers, eq_comm]

/-! ## When it is right -/

theorem moves_sought (a : Answer) :
    F.moves [(.seek (p.maps.row k).fd (p.maps.row k).offset, seekAnswer h p k),
    (.write (p.maps.row 0).fd start length, a)] =
      (F.sought h p k).moves [(.write (p.maps.row 0).fd start length, a)] :=
  rfl

theorem sought_file : (F.sought h p k).file = F.file ∧ (F.sought h p k).page =
      F.page := by
  unfold Files.sought
  split <;> exact ⟨rfl, rfl⟩

theorem unmaps_empty (hk : indexOf p start = some k)
    (hx : MapRow.Shared (p.maps.row k)) :
    Unmaps h F p start 0 k ↔ Unmappable h F p start 0 k := by
  obtain ⟨t, hret, htrace, hmem, hlive⟩ := munmap_empty (h := h) hk hx
  constructor
  · rintro ⟨t', added, hret', -, -, hlive', -⟩
    rw [hret] at hret'
    cases hret'
    exact ⟨fun h0 => absurd rfl h0, by rw [if_pos rfl, ← hlive, hlive']⟩
  · rintro ⟨-, hentry⟩
    rw [if_pos rfl] at hentry
    refine ⟨t, _, hret, htrace, hmem, hlive.trans hentry, fun f x a => ?_⟩
    constructor
    · rintro ⟨m, hm, -⟩
      cases hm
    · rintro ⟨-, j, hj, -⟩
      exact absurd hj (Nat.not_lt_zero j)

theorem unmaps_page (hk : indexOf p start = some k)
    (hx : MapRow.Shared (p.maps.row k)) (h0 : length ≠ 0)
    (hle : length.toNat ≤ PGSIZE) : Unmaps h F p start length k ↔
    Unmappable h F p start length k := by
  have hpos : 0 < length.toNat := Nat.pos_of_ne_zero fun hz =>
    h0 (BitVec.eq_of_toNat_eq hz)
  by_cases hok : (firstAnswer h p start length k).ret.slt 0
  · constructor
    · rintro ⟨t, added, hret, -⟩
      exact absurd hret (munmap_page_stop hk hx h0 hle hok)
    · exact fun hu => absurd hok (hu.bytes h0).ok
  · obtain ⟨t, hret, htrace, hmem, hlive⟩ := munmap_page hk hx h0 hle hok
    obtain ⟨hfile, hpage⟩ := sought_file (h := h) (F := F) (p := p) (k := k)
    have hmoves : F.moves
        [(.seek (p.maps.row k).fd (p.maps.row k).offset, seekAnswer h p k),
        (.write (p.maps.row 0).fd start length,
          firstAnswer h p start length k)] =
        [⟨F.file (F.page (p.maps.row 0).fd),
          (F.sought h p k).pos (F.page (p.maps.row 0).fd), start,
          min (firstAnswer h p start length k).ret.toNat length.toNat⟩] := by
      rw [moves_sought, Files.moves, if_neg hok, hfile, hpage]
      rfl
    have hcover := @covers_one start (F.file (F.page (p.maps.row 0).fd))
      (F.file (F.page (p.maps.row k).fd))
      ((F.sought h p k).pos (F.page (p.maps.row 0).fd)) (p.maps.row k).offset _
      _ hpos length.isLt
      (min_le_right (firstAnswer h p start length k).ret.toNat length.toNat)
    constructor
    · rintro ⟨t', added, hret', htrace', -, hlive', hmoved⟩
      rw [hret] at hret'
      cases hret'
      rw [List.append_cancel_right (htrace'.symm.trans htrace)] at hmoved
      obtain ⟨hall, hf, hp⟩ := hcover.mp (by rw [← hmoves]; exact hmoved)
      exact ⟨fun _ => ⟨hle, hok, hall.trans (min_le_left _ _), hf, hp⟩,
        by rw [if_neg h0, ← hlive, hlive']⟩
    · rintro ⟨hbytes, hentry⟩
      obtain ⟨-, -, hall, hf, hp⟩ := hbytes h0
      rw [if_neg h0] at hentry
      refine ⟨t, _, hret, htrace, hmem, hlive.trans hentry, ?_⟩
      rw [List.reverse_cons, List.reverse_singleton,
        List.singleton_append, hmoves]
      exact hcover.mpr ⟨le_min hall le_rfl, hf, hp⟩

theorem not_unmaps_long (hk : indexOf p start = some k)
    (hx : MapRow.Shared (p.maps.row k))
    (hlong : PGSIZE < length.toNat) : ¬Unmaps h F p start length k := by
  rintro ⟨t, added, hret, htrace, -, -, hmoved⟩
  obtain ⟨added', htrace', hmiss⟩ := munmap_long hk hx hlong hret
  obtain rfl : added = added' :=
    List.append_cancel_right (htrace.symm.trans htrace')
  have hpos : 0 < length.toNat := Nat.zero_lt_of_lt hlong
  exact not_covers_last hlong (fun x hx => hmiss x (List.mem_reverse.mp hx))
    ((hmoved _ _ _).mpr ⟨rfl, length.toNat - 1, by omega, rfl, rfl⟩)

/-- `munmap` is right only about a mapping that is there, and of that it can
write one page, to the place where the first descriptor stands. -/
theorem munmap_iff (hshared : ∀ k, indexOf p start = some k →
      MapRow.Shared (p.maps.row k)) :
    MunmapOk h F p start length ↔ ∃ k, indexOf p start = some k ∧
    Unmappable h F p start length k := by
  unfold MunmapOk
  cases hk : indexOf p start with
  | none =>
      constructor
      · rintro ⟨r, t, hret, hsame, -⟩
        rw [munmap_cnt hret] at hsame
        omega
      · rintro ⟨k, hnone, -⟩
        cases hnone
  | some k =>
      have hx := hshared k hk
      have hiff : Unmaps h F p start length k ↔
          Unmappable h F p start length k := by
        by_cases h0 : length = 0
        · subst h0
          exact unmaps_empty hk hx
        · by_cases hle : length.toNat ≤ PGSIZE
          · exact unmaps_page hk hx h0 hle
          · exact ⟨fun h => absurd h (not_unmaps_long hk hx (by omega)),
              fun h => absurd (h.bytes h0).le hle⟩
      simpa using hiff

end

/-- A system in which every call succeeds, and a write takes all it is given. -/
def obliging : Host := fun _ c =>
  match c with
  | .write _ _ n => ⟨n, fun _ => 0, 0⟩
  | _ => ⟨0, fun _ => 0, 0⟩

/-- Descriptor `d` has a page and a file of its own. -/
def separate : Files := ⟨fun fd => fd.toNat, id, fun _ => 0⟩

/-- Two files, mapped at `0x400000` and `0x500000`, and the page of the
stack. -/
def mappedTwo : Proc where
  trace := []
  mem := fun _ => 0
  pages := fun n => if n = 0x400 ∨ n = 0x500 ∨ n = 0xEEBFD then
    PTE_P ||| PTE_U ||| PTE_W else 0
  maps := ⟨fun i => if i = 0 then ⟨0x400000#32, MAP_SHARED, 0, 0⟩ else
    ⟨0x500000#32, MAP_SHARED, 1, 0⟩, 2, []⟩
  stores := []
  headers := []

def mappedOne : Proc :=
  { mappedTwo with maps := { mappedTwo.maps with cnt := 1 } }

theorem munmap_iff_one :
    MunmapOk obliging separate mappedOne 0x400000#32 100#32 := by
  have hidx : indexOf mappedOne 0x400000#32 = some 0 := by decide +kernel
  refine (munmap_iff fun k hk => ?_).mpr
    ⟨0, hidx, fun _ => ⟨?_, ?_, ?_, rfl, ?_⟩, ?_⟩
  · cases hidx.symm.trans hk
    decide +kernel
  all_goals decide +kernel

/-- With two mappings, taking the first one away takes the second one off the
table. -/
theorem munmap_forgets_other :
    ¬MunmapOk obliging separate mappedTwo 0x400000#32 100#32 := by
  have hidx : indexOf mappedTwo 0x400000#32 = some 0 := by decide +kernel
  have hrun : (munmap obliging 0x400000#32 100#32 mappedTwo).returned.map
      (live ∘ Prod.snd) =
      some [⟨0x400000#32, MAP_SHARED, 0, 0⟩] := by decide +kernel
  unfold MunmapOk
  rw [hidx]
  rintro ⟨t, added, hret, -, -, hlive, -⟩
  rw [hret] at hrun
  exact absurd ((Option.some.inj hrun).symm.trans hlive) (by decide +kernel)

end Mmap

end Jos
