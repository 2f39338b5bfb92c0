import Jos.Fs.Request
import Jos.Lib.Run

/-!
# The table of open files

What holds of `opentab` and the Fd pages in every run of the server and its
clients: the ids of an entry are those of its residue class, and an entry is
given out again only when no client maps its page. `openfile_alloc` gives out
ids until one of them, taken for an `int`, is negative.
-/

namespace Jos

section

variable {s t : Server} {i j : Nat} {r v : Word} {α : Type}

/-! ## The invariant -/

namespace Server

/-- The ids of an entry are in its residue class, and a page that a client maps
has the id it was given out for. -/
structure Table (s : Server) : Prop where
  id : ∀ i, i < MAXOPEN → (s.opentab i).oFileid.toNat % MAXOPEN = i
  held : ∀ h ∈ s.held, h.entry < MAXOPEN ∧ (s.fdPage h.entry).isSome ∧
    h.id = (s.opentab h.entry).oFileid
  arg : ∀ i, s.arg = some i → i < MAXOPEN ∧ (s.fdPage i).isSome

/-- The ids, the pages and who maps them are the same in `t`. -/
structure SameTable (s t : Server) : Prop where
  id : ∀ i, (t.opentab i).oFileid = (s.opentab i).oFileid
  page : ∀ i, (t.fdPage i).isSome = (s.fdPage i).isSome
  held : t.held = s.held
  arg : t.arg = s.arg

theorem SameTable.refl (s : Server) : SameTable s s :=
  ⟨fun _ => rfl, fun _ => rfl, rfl, rfl⟩

theorem SameTable.trans {u : Server} (h : SameTable s t) (h' : SameTable t u) :
    SameTable s u where
  id i := (h'.id i).trans (h.id i)
  page i := (h'.page i).trans (h.page i)
  held := h'.held.trans h.held
  arg := h'.arg.trans h.arg

theorem SameTable.table (h : SameTable s t) (ht : s.Table) : t.Table where
  id i hi := by
    rw [h.id]
    exact ht.id i hi
  held g hg := by
    rw [h.held] at hg
    rw [h.page, h.id]
    exact ht.held g hg
  arg i hi := by
    rw [h.arg] at hi
    rw [h.page]
    exact ht.arg i hi

theorem sameTable_setFd {p : Bytes} (hp : (s.fdPage i).isSome) :
    SameTable s (s.setFd i p) := by
  unfold setFd
  split
  · exact ⟨fun _ => rfl, fun _ => rfl, rfl, rfl⟩
  · refine ⟨fun _ => rfl, fun j => ?_, rfl, rfl⟩
    by_cases hj : j = i
    · subst hj
      simp [hp]
    · simp [Function.update_of_ne hj]

theorem fd_isSome {p : Bytes} (h : s.fd i = some p) : (s.fdPage i).isSome := by
  rw [fd, Option.map_eq_some_iff] at h
  obtain ⟨_, h, _⟩ := h
  rw [h]
  rfl

end Server

open Server

/-! ## Requests that open nothing -/

/-- However `f` ends, it leaves the table as it was. -/
def KeepsTable (f : SrvM α) : Prop := Prog.Keeps SameTable f

theorem KeepsTable.bind {β : Type} {f : SrvM α} {g : α → SrvM β}
    (hf : KeepsTable f)
    (hg : ∀ a, KeepsTable (g a)) : KeepsTable (f >>= g) :=
  Prog.Keeps.bind (R := SameTable) (fun _ _ _ h h' => h.trans h') hf hg

theorem KeepsTable.pure (a : α) : KeepsTable (Pure.pure a) :=
  Prog.Keeps.pure SameTable.refl a

theorem KeepsTable.ask : KeepsTable Prog.ask := Prog.Keeps.ask SameTable.refl

theorem KeepsTable.halt (x : Stop) : KeepsTable (Prog.halt x : SrvM α) :=
  Prog.Keeps.halt SameTable.refl x

theorem KeepsTable.ite {c : Prop} [Decidable c] {f g : SrvM α}
    (hf : KeepsTable f) (hg : KeepsTable g) :
    KeepsTable (if c then f else g) := Prog.Keeps.ite hf hg

theorem keepsTable_inFs (f : FsM α) : KeepsTable (inFs f) := by
  intro s
  rw [inFs, Prog.zoom_apply]
  cases f s.fs <;> exact ⟨fun _ => rfl, fun _ => rfl, rfl, rfl⟩

theorem keepsTable_reqWord (off : Nat) : KeepsTable (reqWord off) :=
  .bind .ask fun _ => .pure _

theorem keepsTable_reqPath : KeepsTable reqPath := .bind .ask fun _ => .pure _

theorem keepsTable_lookup (id : Word) : KeepsTable (openfileLookup id) :=
  .bind .ask fun _ => .ite (.pure _) (.pure _)

theorem keepsTable_oFile (i : Nat) : KeepsTable (oFile i) := by
  refine .bind .ask fun s => ?_
  cases (s.opentab i).oFile with
  | none => exact .halt _
  | some f => exact .pure f

theorem keepsTable_fdWord (i off : Nat) : KeepsTable (fdWord i off) := by
  refine .bind .ask fun s => ?_
  cases s.fd i with
  | none => exact .halt _
  | some p => exact .pure _

theorem keepsTable_setFdWord (i off : Nat) (v : Word) :
    KeepsTable (setFdWord i off v) := by
  intro s
  rw [setFdWord, Prog.ask_bind]
  cases hp : s.fd i with
  | none => exact .refl s
  | some p => exact sameTable_setFd (fd_isSome hp)

theorem keepsTable_serveIo
    (io : FilePtr → Word → Word → FsM (Except Word Word)) :
    KeepsTable (serveIo io) := by
  refine .bind (keepsTable_reqWord 0) fun id =>
    .bind (keepsTable_lookup id) fun x => ?_
  cases x with
  | error e => exact .pure e
  | ok i =>
      refine .bind (.bind (keepsTable_reqWord 4) fun _ => .pure _) fun n =>
        .bind (keepsTable_oFile i) fun f =>
        .bind (keepsTable_fdWord i 4) fun offset =>
          .bind (keepsTable_inFs _) fun y => ?_
      cases y with
      | error e => exact .pure e
      | ok k =>
          exact .bind (keepsTable_fdWord i 4) fun _ =>
            .bind (keepsTable_setFdWord i 4 _) fun _ => .pure k

/-- The requests that look up an open file and work on it. -/
theorem keepsTable_onFile {k : Nat → FilePtr → SrvM Word}
    (hk : ∀ i f, KeepsTable (k i f)) :
    KeepsTable (do
      match ← openfileLookup (← reqWord 0) with
      | .error r => pure r
      | .ok i =>
          let f ← oFile i
          k i f) := by
  refine .bind (keepsTable_reqWord 0) fun id =>
    .bind (keepsTable_lookup id) fun x => ?_
  cases x with
  | error e => exact .pure e
  | ok i => exact .bind (keepsTable_oFile i) fun f => hk i f

theorem keepsTable_handler (req : Word) : KeepsTable (handler req) := by
  refine .ite ?_ (.ite (keepsTable_serveIo _) (.ite (keepsTable_serveIo _)
    (.ite ?_ (.ite ?_ (.ite ?_ (.ite ?_ (.pure _)))))))
  · exact keepsTable_onFile fun i f => .bind (keepsTable_reqWord 4) fun _ =>
      .bind (keepsTable_inFs _) fun _ => .pure _
  · exact keepsTable_onFile fun i f =>
      .bind (keepsTable_inFs _) fun _ => .pure _
  · exact keepsTable_onFile fun i f =>
      .bind (keepsTable_inFs _) fun _ => .pure _
  · exact .bind keepsTable_reqPath fun _ =>
      .bind (keepsTable_inFs _) fun _ => .pure _
  · exact .bind (keepsTable_inFs _) fun _ => .pure _

/-! ## Giving out an entry -/

namespace Server

/-- Entry `i` is the first whose page no one but the server maps. -/
structure Next (s : Server) (i : Nat) : Prop where
  lt : i < MAXOPEN
  free : s.pageref i ≤ 1
  least : ∀ j, j < i → 2 ≤ s.pageref j

/-- The id that entry `i` gets when it is given out. -/
def nextId (s : Server) (i : Nat) : Word :=
  (s.opentab i).oFileid + BitVec.ofNat 32 MAXOPEN

/-- Entry `i` has been given out. -/
def taken (s : Server) (i : Nat) : Server :=
  { s with
    opentab :=
      Function.update s.opentab i { s.opentab i with oFileid := s.nextId i }
    fdPage := Function.update s.fdPage i (some fun _ => 0) }

theorem pageref_zero : s.pageref i = 0 ↔ s.fdPage i = none := by
  unfold pageref
  cases s.fdPage i with
  | none => exact ⟨fun _ => rfl, fun _ => rfl⟩
  | some p =>
      refine ⟨fun h => ?_, nofun⟩
      simp only at h
      omega

/-- No one else maps the page of an entry that is free. -/
theorem Table.of_free (ht : s.Table) (hi : s.pageref i ≤ 1) :
    s.arg ≠ some i ∧ ∀ h ∈ s.held, h.entry ≠ i := by
  cases hp : s.fdPage i with
  | none =>
      constructor
      · intro ha
        have := (ht.arg i ha).2
        rw [hp] at this
        cases this
      · rintro h hh rfl
        have := (ht.held h hh).2.1
        rw [hp] at this
        cases this
  | some p =>
      rw [pageref, hp] at hi
      simp only at hi
      constructor
      · intro ha
        rw [if_pos ha] at hi
        omega
      · intro h hh he
        have hpos : 0 < s.held.countP (fun h => h.entry = i) :=
          List.countP_pos_iff.mpr ⟨h, hh, decide_eq_true he⟩
        omega

/-- An entry that is not free is mapped by a client, or with the request. -/
theorem held_of_busy (hi : 2 ≤ s.pageref i) :
    (∃ h ∈ s.held, h.entry = i) ∨ s.arg = some i := by
  by_cases ha : s.arg = some i
  · exact .inr ha
  · left
    unfold pageref at hi
    cases hp : s.fdPage i with
    | none =>
        rw [hp] at hi
        simp at hi
    | some p =>
        rw [hp, if_neg ha] at hi
        simp only at hi
        have hpos : 0 < s.held.countP (fun h => h.entry = i) := by omega
        obtain ⟨h, hh, he⟩ := List.countP_pos_iff.mp hpos
        exact ⟨h, hh, of_decide_eq_true he⟩

theorem taken_table (ht : s.Table) (hi : s.Next i) : (s.taken i).Table := by
  obtain ⟨harg, hheld⟩ := ht.of_free hi.free
  refine ⟨fun j hj => ?_, fun h hh => ?_, fun j hj => ?_⟩
  · by_cases hji : j = i
    · subst hji
      have hid := ht.id j hj
      have hM : MAXOPEN = 1024 := rfl
      simp only [taken, Function.update_self, nextId, BitVec.toNat_add,
        BitVec.toNat_ofNat]
      rw [hM] at hid ⊢
      omega
    · simp only [taken, Function.update_of_ne hji]
      exact ht.id j hj
  · have hne := hheld h hh
    simp only [taken, Function.update_of_ne hne]
    exact ht.held h hh
  · have hj : s.arg = some j := hj
    have hne : j ≠ i := by
      rintro rfl
      exact harg hj
    simp only [taken, Function.update_of_ne hne]
    exact ht.arg j hj

end Server

theorem openfileTake_ret (harg : s.arg ≠ some i) :
    openfileTake i s = .ret (s.nextId i, some i) (s.taken i) := by
  rw [openfileTake, Prog.update_bind, Prog.update_bind, Prog.ask_bind,
    Server.setFd]
  have harg' : (s.setOpen i { s.opentab i with
      oFileid := (s.opentab i).oFileid + BitVec.ofNat 32 MAXOPEN }).arg
      ≠ some i := harg
  rw [if_neg harg']
  simp only [Prog.pure_apply, setOpen, Function.update_self]
  rfl

/-- The loop passes over entries that are not free. -/
theorem openfileAllocFrom_skip {n k : Nat}
    (h : ∀ j, i ≤ j → j < i + k → 2 ≤ s.pageref j) :
    openfileAllocFrom (k + n) i s = openfileAllocFrom n (i + k) s := by
  induction k generalizing i with
  | zero => rw [Nat.zero_add, Nat.add_zero]
  | succ k ih =>
      have hi := h i le_rfl (by omega)
      have hstep : openfileAllocFrom (k + n + 1) i s =
          openfileAllocFrom (k + n) (i + 1) s := by
        rw [openfileAllocFrom, Prog.ask_bind, if_neg (by omega),
          if_neg (by omega)]
      rw [Nat.succ_add, hstep, ih fun j h1 h2 => h j (by omega) (by omega),
        Nat.succ_add_eq_add_succ]

theorem openfileAlloc_next (hi : s.Next i) :
    openfileAlloc s = openfileAllocFrom (MAXOPEN - i) i s := by
  have hlt := hi.lt
  have hskip := openfileAllocFrom_skip (n := MAXOPEN - i) (i := 0) (k := i)
    (s := s) fun j _ hj => hi.least j (by omega)
  rw [Nat.zero_add, Nat.add_sub_cancel' (Nat.le_of_lt hlt)] at hskip
  exact hskip

/-- The first free entry is given out, if it has a page or can get one. -/
theorem openfileAlloc_taken (ht : s.Table) (hi : s.Next i)
    (hp : (s.fdPage i).isSome ∨ s.memory) :
    openfileAlloc s = .ret (s.nextId i, some i) (s.taken i) := by
  have hlt := hi.lt
  have harg := (ht.of_free hi.free).1
  obtain ⟨n, hn⟩ :=
    Nat.exists_eq_succ_of_ne_zero (show MAXOPEN - i ≠ 0 by omega)
  rw [openfileAlloc_next hi, hn, openfileAllocFrom, Prog.ask_bind]
  by_cases h0 : s.pageref i = 0
  · have hm : s.memory = true :=
      hp.resolve_left (by rw [pageref_zero.mp h0]; decide)
    have htaken : (s.allocFd i).taken i = s.taken i := by
      simp [taken, allocFd, nextId]
    rw [if_pos h0, if_pos hm, Prog.update_bind,
      openfileTake_ret (s := s.allocFd i) harg, htaken]
    rfl
  · have h1 : s.pageref i = 1 := by
      have := hi.free
      omega
    rw [if_neg h0, if_pos h1, openfileTake_ret harg]

theorem openfileAlloc_noMem (hi : s.Next i) (hp : s.fdPage i = none)
    (hm : s.memory = false) :
    openfileAlloc s = .ret (-E_NO_MEM, none) s := by
  have hlt := hi.lt
  obtain ⟨n, hn⟩ :=
    Nat.exists_eq_succ_of_ne_zero (show MAXOPEN - i ≠ 0 by omega)
  rw [openfileAlloc_next hi, hn, openfileAllocFrom, Prog.ask_bind,
    if_pos (pageref_zero.mpr hp), hm]
  rfl

theorem openfileAlloc_full (h : ∀ i, i < MAXOPEN → 2 ≤ s.pageref i) :
    openfileAlloc s = .ret (-E_MAX_OPEN, none) s :=
  openfileAllocFrom_skip (n := 0) (i := 0) (k := MAXOPEN) fun j _ hj =>
    h j (by omega)

/-- Some entry is the first free one, or none is free. -/
theorem Server.next_or_full (s : Server) :
    (∃ i, s.Next i) ∨ ∀ i, i < MAXOPEN → 2 ≤ s.pageref i := by
  by_cases h : ∃ i, i < MAXOPEN ∧ s.pageref i ≤ 1
  · obtain ⟨hlt, hfree⟩ := Nat.find_spec h
    refine .inl ⟨Nat.find h, hlt, hfree, fun j hj => ?_⟩
    have hmin := Nat.find_min h hj
    rw [not_and, Nat.not_le] at hmin
    exact hmin (Nat.lt_trans hj hlt)
  · right
    intro i hi
    by_contra hno
    exact h ⟨i, hi, by omega⟩

/-! ## Every run -/

/-- The end of `serve_open`: entry `i` is for file `f`. -/
def fillFd (i : Nat) (f : FilePtr) (omode : Word) :
    SrvM (Word × Option Nat) := do
  Prog.update fun s => s.setOpen i
    { s.opentab i with oFile := some f, oMode := omode }
  let s ← Prog.ask
  setFdWord i 12 (s.opentab i).oFileid
  setFdWord i 8 (omode &&& O_ACCMODE)
  setFdWord i 0 DEVFILE
  pure (0, some i)

/-- What `serve_open` does once it has entry `i`. -/
def openEntry (path : List (BitVec 8)) (i : Nat) :
    SrvM (Word × Option Nat) := do
  let omode ← reqWord MAXPATHLEN
  match ← inFs (openPath path omode) with
  | .error r => pure (r, none)
  | .ok f =>
      let truncated ←
        if omode &&& O_TRUNC ≠ 0 then inFs (fileSetSize f 0) else pure (.ok ())
      match truncated with
      | .error r => pure (r, none)
      | .ok () => fillFd i f omode

/-- The path of the request. -/
def Server.path (s : Server) : List (BitVec 8) :=
  ((List.range (MAXPATHLEN - 1)).map s.fs.req).takeWhile (· != 0)

theorem serveOpen_alloc {o : Option Nat} (h : openfileAlloc s = .ret (r, o) t) :
    serveOpen s = match o with
      | none => .ret (r, none) t
      | some i =>
          if r.slt 0 then .ret (r, none) t else openEntry s.path i t := by
  have hpath : reqPath s = .ret s.path s := rfl
  rw [serveOpen, Prog.bind_ret hpath, Prog.bind_ret h]
  cases o with
  | none => rfl
  | some i =>
      simp only
      split <;> rfl

theorem keepsTable_setOpen {o : Server → OpenFile}
    (ho : ∀ s, (o s).oFileid = (s.opentab i).oFileid) :
    KeepsTable (Prog.update fun s => s.setOpen i (o s)) := by
  refine Prog.Keeps.update fun s => ⟨fun j => ?_, fun _ => rfl, rfl, rfl⟩
  by_cases hj : j = i
  · subst hj
    simp only [setOpen, Function.update_self, ho]
  · simp only [setOpen, Function.update_of_ne hj]

/-- What is left of `serve_open` leaves the table as it is. -/
theorem keepsTable_openEntry (path : List (BitVec 8)) (i : Nat) :
    KeepsTable (openEntry path i) := by
  refine .bind (keepsTable_reqWord _) fun omode =>
    .bind (keepsTable_inFs _) fun x => ?_
  cases x with
  | error e => exact .pure _
  | ok f =>
      have hend : ∀ y : Except Word Unit, KeepsTable (match y with
          | .error r => Pure.pure (r, none)
          | .ok () => fillFd i f omode) := by
        intro y
        cases y with
        | error e => exact .pure _
        | ok _ =>
            exact .bind (keepsTable_setOpen fun _ => rfl) fun _ =>
              .bind .ask fun _ =>
              .bind (keepsTable_setFdWord _ _ _) fun _ =>
                .bind (keepsTable_setFdWord _ _ _) fun _ =>
                .bind (keepsTable_setFdWord _ _ _) fun _ => .pure _
      exact .ite (.bind (keepsTable_inFs _) hend) (.bind (.pure _) hend)

/-- What it returns is the entry, if anything. -/
theorem openEntry_entry {path : List (BitVec 8)} {a : Word × Option Nat}
    (h : openEntry path i s = .ret a t)
    (ha : a.2 = some j) : j = i := by
  obtain ⟨omode, s₁, _, h⟩ := Prog.bind_eq_ret.mp h
  obtain ⟨x, s₂, _, h⟩ := Prog.bind_eq_ret.mp h
  cases x with
  | error e =>
      cases h
      cases ha
  | ok f =>
      have hfill : ∀ u, fillFd i f omode u = .ret a t → j = i := by
        intro u h
        obtain ⟨_, _, _, h⟩ := Prog.bind_eq_ret.mp h
        obtain ⟨_, _, _, h⟩ := Prog.bind_eq_ret.mp h
        obtain ⟨_, _, _, h⟩ := Prog.bind_eq_ret.mp h
        obtain ⟨_, _, _, h⟩ := Prog.bind_eq_ret.mp h
        obtain ⟨_, _, _, h⟩ := Prog.bind_eq_ret.mp h
        cases h
        cases ha
        rfl
      by_cases htrunc : omode &&& O_TRUNC ≠ 0
      · simp only [if_pos htrunc] at h
        obtain ⟨y, u, _, h⟩ := Prog.bind_eq_ret.mp h
        cases y with
        | error e =>
            cases h
            cases ha
        | ok _ => exact hfill u h
      · simp only [if_neg htrunc] at h
        exact hfill s₂ h

theorem wp_serveOpen (ht : s.Table) :
    Prog.wp serveOpen (fun a t => t.Table ∧ ∀ i, a.2 = some i → i < MAXOPEN ∧
      (t.fdPage i).isSome)
      (fun _ => True) (fun _ _ => True) s := by
  have hfail : ∀ {r : Word}, openfileAlloc s = .ret (r, none) s →
      Prog.wp serveOpen
      (fun a t => t.Table ∧ ∀ i, a.2 = some i → i < MAXOPEN ∧
        (t.fdPage i).isSome)
      (fun _ => True) (fun _ _ => True) s :=
    fun h => Prog.wp_ret (serveOpen_alloc h) ⟨ht, nofun⟩
  rcases s.next_or_full with ⟨i, hi⟩ | hfull
  · by_cases hp : (s.fdPage i).isSome ∨ s.memory
    · have hall := serveOpen_alloc (openfileAlloc_taken ht hi hp)
      have ht' := taken_table ht hi
      simp only at hall
      split at hall
      · exact Prog.wp_ret hall ⟨ht', nofun⟩
      · refine Prog.wp_of_runs (fun a t hret => ?_) (fun _ _ => trivial)
          fun _ _ _ => trivial
        rw [hall] at hret
        have hsame := keepsTable_openEntry s.path i (s.taken i)
        rw [hret] at hsame
        have hsame : SameTable (s.taken i) t := hsame
        refine ⟨hsame.table ht', fun j hj => ?_⟩
        obtain rfl := openEntry_entry hret hj
        refine ⟨hi.lt, ?_⟩
        rw [hsame.page]
        simp [taken]
    · rw [not_or, Bool.not_eq_true, Option.isSome_eq_false_iff,
        Option.isNone_iff_eq_none] at hp
      exact hfail (openfileAlloc_noMem hi hp.1 (by simpa using hp.2))
  · exact hfail (openfileAlloc_full hfull)

theorem unmapReq_table (ht : s.Table) :
    (unmapReq s).Table ∧ (unmapReq s).arg = none := by
  unfold unmapReq
  cases harg : s.arg with
  | none => exact ⟨ht, harg⟩
  | some i =>
      refine ⟨⟨ht.id, fun h hh => ?_, nofun⟩, rfl⟩
      obtain ⟨h1, h2, h3⟩ := ht.held h hh
      refine ⟨h1, ?_, h3⟩
      by_cases hi : h.entry = i
      · simp [hi]
      · simp only [Function.update_of_ne hi]
        exact h2

theorem wp_serve_table {whom req : Word} {accept : Bool} (ht : s.Table) :
    Prog.wp (serve whom req accept) (fun _ t => t.Table ∧ t.arg = none)
      (fun _ => True) (fun _ _ => True) s := by
  have hreq : Prog.wp (serveRequest req)
      (fun a t => t.Table ∧ ∀ i, a.2 = some i → i < MAXOPEN ∧
        (t.fdPage i).isSome)
      (fun _ => True) (fun _ _ => True) s := by
    refine Prog.wp_ite _ (fun _ => wp_serveOpen ht) fun _ => ?_
    apply Prog.wp_bind_intro
    exact (keepsTable_handler req).wp
      (fun r t h => Prog.wp_pure_intro ⟨h.table ht, nofun⟩)
      (fun _ _ => trivial) fun _ _ _ => trivial
  apply Prog.wp_bind_intro
  refine Prog.wp_imp hreq (fun a t h => ?_) (fun _ h => h) fun _ _ h => h
  obtain ⟨r, o⟩ := a
  obtain ⟨htab, ho⟩ := h
  cases o with
  | none =>
      apply Prog.wp_update_bind
      exact Prog.wp_pure_intro (unmapReq_table htab)
  | some i =>
      obtain ⟨hlt, hp⟩ := ho i rfl
      refine Prog.wp_ite _ (fun _ => ?_) fun _ => ?_
      · apply Prog.wp_update_bind
        apply Prog.wp_update_bind
        refine Prog.wp_pure_intro
          (unmapReq_table ⟨htab.id, fun h hh => ?_, htab.arg⟩)
        rcases List.mem_cons.mp hh with rfl | hh
        · exact ⟨hlt, hp, rfl⟩
        · exact htab.held h hh
      · apply Prog.wp_update_bind
        exact Prog.wp_pure_intro (unmapReq_table htab)

/-- The table is in order, and a Fd page is mapped at `fsreq` only while a
request waits. -/
structure World.Ordered (w : World) : Prop where
  table : w.srv.Table
  arg : w.pending = none → w.srv.arg = none

theorem World.Ordered.step {w w' : World} {e : Event} (h : w.Ordered)
    (hstep : w.Step e w') : w'.Ordered := by
  cases hstep with
  | send hp =>
      have harg := h.arg hp
      exact ⟨⟨h.table.id, h.table.held, h.table.arg⟩, nofun⟩
  | @sendFd _ _ i g p hp hg henv hentry hpage =>
      refine ⟨⟨h.table.id, h.table.held, ?_⟩, nofun⟩
      rintro j ⟨⟩
      rw [← hentry]
      exact ⟨(h.table.held g hg).1, (h.table.held g hg).2.1⟩
  | serve hp hret =>
      have := (wp_serve_table h.table).ret hret
      exact ⟨this.1, fun _ => this.2⟩
  | @share g env hg =>
      refine ⟨⟨h.table.id, fun k hk => ?_, h.table.arg⟩, h.arg⟩
      rcases List.mem_cons.mp hk with rfl | hk
      · exact h.table.held g hg
      · exact h.table.held k hk
  | unmap hg =>
      exact ⟨⟨h.table.id, fun k hk => h.table.held k (List.mem_of_mem_erase hk),
        h.table.arg⟩, h.arg⟩
  | @poke g page hg =>
      have hsame := sameTable_setFd (p := page) (h.table.held g hg).2.1
      exact ⟨hsame.table h.table, fun hp => hsame.arg.trans (h.arg hp)⟩
  | memory => exact ⟨⟨h.table.id, h.table.held, h.table.arg⟩, h.arg⟩

theorem World.ordered_init (fs : Fs) : World.Ordered ⟨serveInit fs, none⟩ := by
  refine ⟨⟨fun i hi => ?_, nofun, nofun⟩, fun _ => rfl⟩
  have hM : MAXOPEN = 1024 := rfl
  simp only [serveInit, BitVec.toNat_ofNat]
  rw [hM] at hi ⊢
  omega

/-- The runs of the server and its clients from its start. -/
def World.Reached (fs : Fs) (w : World) : Prop :=
  Runs World.Step (fun _ _ => True) ⟨serveInit fs, none⟩ w

theorem World.Reached.ordered {fs : Fs} {w : World} (h : World.Reached fs w) :
    w.Ordered :=
  Runs.invariant (fun _ _ _ hw _ hstep => hw.step hstep) h
    (World.ordered_init fs)

/-! ## What an open gets -/

namespace Server

/-- No entry can be given out: a client maps the page of each, or there is no
page for one. -/
def Exhausted (s : Server) : Prop :=
  (∀ i, i < MAXOPEN → ∃ h ∈ s.held, h.entry = i) ∨ s.memory = false ∧ ∃ i,
    s.Next i ∧ s.fdPage i = none

/-- The file that is requested can be opened. -/
def Opens (s : Server) : Prop :=
  ∃ f u, openPath s.path (s.fs.req.load32 MAXPATHLEN) s.fs = .ret (.ok f) u ∧
    (s.fs.req.load32 MAXPATHLEN &&& O_TRUNC ≠ 0 → ∃ u', fileSetSize f 0 u =
    .ret (.ok ()) u')

/-- What `openfile_alloc` returns is negative for the lack of an entry only, and
otherwise a new id; and a file that can be opened is opened. -/
structure AllocOk (s : Server) (r : Word) (o : Option Nat) (t : Server) :
    Prop where
  full : r.slt 0 → s.Exhausted
  id : ¬r.slt 0 → ∃ i, o = some i ∧ s.Next i ∧ (t.opentab i).oFileid = r
  fresh : ¬r.slt 0 → ∀ h ∈ s.held, h.id ≠ r
  opens : ¬s.Exhausted → s.Opens → ∃ i u, serveOpen s = .ret (0, some i) u

/-- The entry that is next has ids left below 2^31, and no page that the request
alone maps is in the way. -/
structure Unspent (s : Server) : Prop where
  next : ∀ i, s.Next i → (s.fdPage i).isSome ∨ s.memory →
    (s.opentab i).oFileid.toNat < 2 ^ 31 - MAXOPEN ∨ 2 ^ 32 - MAXOPEN ≤
    (s.opentab i).oFileid.toNat
  request : (∀ i, i < MAXOPEN → 2 ≤ s.pageref i) → ∀ i, s.arg = some i →
    ∃ h ∈ s.held, h.entry = i

theorem nextId_slt : ¬(s.nextId i).slt 0 ↔
    (s.opentab i).oFileid.toNat < 2 ^ 31 - MAXOPEN ∨ 2 ^ 32 - MAXOPEN ≤
      (s.opentab i).oFileid.toNat := by
  have hM : MAXOPEN = 1024 := rfl
  have hlt := (s.opentab i).oFileid.isLt
  have hnat : (s.nextId i).toNat = ((s.opentab i).oFileid.toNat + 1024) %
      2 ^ 32 := BitVec.toNat_add ..
  have hmsb : (s.nextId i).slt 0 = (s.nextId i).msb := BitVec.slt_zero_eq_msb
  rw [hmsb, BitVec.msb_eq_decide, decide_eq_true_eq, hnat, hM]
  omega

theorem Next.unique (hi : s.Next i) (hj : s.Next j) : i = j := by
  rcases Nat.lt_trichotomy i j with h | h | h
  · have := hj.least i h
    have := hi.free
    omega
  · exact h
  · have := hi.least j h
    have := hj.free
    omega

end Server

theorem setFdWord_isSome (off : Nat) (hp : (s.fdPage i).isSome) :
    ∃ u, setFdWord i off v s = .ret () u ∧ (u.fdPage i).isSome := by
  obtain ⟨p, hfd⟩ : ∃ p, s.fd i = some p := by
    obtain ⟨p, hp⟩ := Option.isSome_iff_exists.mp hp
    rw [Server.fd, hp]
    exact ⟨_, rfl⟩
  refine ⟨s.setFd i (p.store32 off v), ?_, ?_⟩
  · rw [setFdWord, Prog.ask_bind, hfd]
    rfl
  · rw [(sameTable_setFd hp).page]
    exact hp

theorem fillFd_ret {f : FilePtr} {omode : Word} (hp : (s.fdPage i).isSome) :
    ∃ u, fillFd i f omode s = .ret (0, some i) u := by
  have h0 : ((s.setOpen i { s.opentab i with
      oFile := some f, oMode := omode }).fdPage i).isSome := hp
  obtain ⟨u₁, h1, hp1⟩ := setFdWord_isSome 12
    (v := ((s.setOpen i { s.opentab i with
    oFile := some f, oMode := omode }).opentab i).oFileid) h0
  obtain ⟨u₂, h2, hp2⟩ := setFdWord_isSome 8 (v := omode &&& O_ACCMODE) hp1
  obtain ⟨u₃, h3, _⟩ := setFdWord_isSome 0 (v := DEVFILE) hp2
  refine ⟨u₃, ?_⟩
  rw [fillFd, Prog.update_bind, Prog.ask_bind, Prog.bind_ret h1,
    Prog.bind_ret h2, Prog.bind_ret h3]
  rfl

/-- With an entry, a file that can be opened is opened. -/
theorem openEntry_ret {path : List (BitVec 8)} {f : FilePtr} {u : Fs}
    (hp : (s.fdPage i).isSome)
    (hopen : openPath path (s.fs.req.load32 MAXPATHLEN) s.fs = .ret (.ok f) u)
    (htrunc : s.fs.req.load32 MAXPATHLEN &&& O_TRUNC ≠ 0 →
      ∃ u', fileSetSize f 0 u = .ret (.ok ()) u') :
    ∃ t, openEntry path i s = .ret (0, some i) t := by
  have hin : ∀ {α : Type} {g : FsM α} {a : α} {v : Server} {u : Fs},
      g v.fs = .ret a u →
      inFs g v = .ret a { v with fs := u } := by
    intro α g a v u h
    rw [inFs, Prog.zoom_apply, h]
  have hmode : reqWord MAXPATHLEN s = .ret (s.fs.req.load32 MAXPATHLEN) s := rfl
  rw [openEntry, Prog.bind_ret hmode, Prog.bind_ret (hin hopen)]
  by_cases h : s.fs.req.load32 MAXPATHLEN &&& O_TRUNC ≠ 0
  · obtain ⟨u', hu'⟩ := htrunc h
    simp only [if_pos h]
    rw [Prog.bind_ret (hin (v := { s with fs := u }) hu')]
    exact fillFd_ret hp
  · simp only [if_neg h]
    exact fillFd_ret hp

/-- In every run, `openfile_alloc` does what it is to do exactly when the entry
that is next has not used up the ids that are not negative. -/
theorem openfile_alloc_ids {fs : Fs} {w : World} (hrun : World.Reached fs w) :
    ∃ r o t, openfileAlloc w.srv = .ret (r, o) t ∧
    (w.srv.AllocOk r o t ↔ w.srv.Unspent) := by
  have ht := hrun.ordered.table
  generalize w.srv = s at ht
  have hbusy : ∀ i, s.Next i → ¬∀ i, i < MAXOPEN → ∃ h ∈ s.held,
      h.entry = i := by
    intro i hi hall
    obtain ⟨h, hh, he⟩ := hall i hi.lt
    exact (ht.of_free hi.free).2 h hh he
  rcases s.next_or_full with ⟨i, hi⟩ | hfull
  · have hnofull : ¬∀ j, j < MAXOPEN → 2 ≤ s.pageref j := by
      intro h
      have := h i hi.lt
      have := hi.free
      omega
    by_cases hp : (s.fdPage i).isSome ∨ s.memory
    · have hall := openfileAlloc_taken ht hi hp
      refine ⟨_, _, _, hall, ?_⟩
      have hspent : s.Unspent ↔ ¬(s.nextId i).slt 0 := by
        rw [nextId_slt]
        constructor
        · exact fun h => h.next i hi hp
        · intro h
          refine ⟨fun j hj _ => ?_, fun h => absurd h hnofull⟩
          rw [← hi.unique hj]
          exact h
      have hleft : ¬s.Exhausted := by
        rintro (h | ⟨hm, j, hj, hnone⟩)
        · exact hbusy i hi h
        · rw [← hi.unique hj] at hnone
          rw [hnone, hm] at hp
          simp at hp
      rw [hspent]
      constructor
      · exact fun h hneg => hleft (h.full hneg)
      · intro hneg
        refine ⟨fun h => absurd h hneg, fun _ => ⟨i, rfl, hi, ?_⟩,
          fun _ h hh he => ?_, fun _ hopens => ?_⟩
        · simp [taken]
        · have hne := (ht.of_free hi.free).2 h hh
          obtain ⟨hlt, _, hid⟩ := ht.held h hh
          have h1 := ht.id _ hlt
          have h2 := (taken_table ht hi).id i hi.lt
          simp only [taken, Function.update_self] at h2
          rw [← hid, he, h2] at h1
          exact hne h1.symm
        · obtain ⟨f, u, hopen, htrunc⟩ := hopens
          have hfs : (s.taken i).fs = s.fs := rfl
          have hpage : ((s.taken i).fdPage i).isSome := by simp [taken]
          have hall := serveOpen_alloc hall
          simp only [if_neg hneg] at hall
          rw [hall]
          obtain ⟨t, ht⟩ := openEntry_ret hpage hopen htrunc
          exact ⟨i, t, ht⟩
    · rw [not_or, Bool.not_eq_true, Option.isSome_eq_false_iff,
        Option.isNone_iff_eq_none, Bool.not_eq_true] at hp
      have hex : s.Exhausted := .inr ⟨hp.2, i, hi, hp.1⟩
      refine ⟨_, _, _, openfileAlloc_noMem hi hp.1 hp.2, ?_⟩
      constructor
      · intro _
        refine ⟨fun j hj h => ?_, fun h => absurd h hnofull⟩
        rw [← hi.unique hj, hp.1, hp.2] at h
        simp at h
      · exact fun _ => ⟨fun _ => hex, fun h => absurd (by decide) h,
          fun h => absurd (by decide) h, fun h => absurd hex h⟩
  · refine ⟨_, _, _, openfileAlloc_full hfull, ?_⟩
    have hnone : ∀ i, ¬s.Next i := by
      intro i hi
      have := hfull i hi.lt
      have := hi.free
      omega
    constructor
    · intro h
      refine ⟨fun i hi => absurd hi (hnone i), fun _ i hi => ?_⟩
      rcases h.full (by decide) with hall | ⟨_, j, hj, _⟩
      · exact hall i (ht.arg i hi).1
      · exact absurd hj (hnone j)
    · intro h
      have hex : s.Exhausted := by
        left
        intro i hi
        rcases held_of_busy (hfull i hi) with hheld | harg
        · exact hheld
        · exact h.request hfull i harg
      exact ⟨fun _ => hex, fun h => absurd (by decide) h,
        fun h => absurd (by decide) h, fun h => absurd hex h⟩

/-- The server with a request to open the root directory. -/
def rootRequest : Server :=
  { serveInit smallFs with fs := { smallFs with req := strOf [SLASH] } }

/-- A client has opened the root directory; the next open gets entry 1. -/
theorem openfile_alloc_ids_second :
    ∃ w, World.Reached smallFs w ∧ w.srv.held.length = 1 ∧
    ∃ r o t, openfileAlloc w.srv = .ret (r, o) t ∧ w.srv.AllocOk r o t := by
  have hrun : (serve 7 FSREQ_OPEN true rootRequest).returned.any
      (fun x => decide (x.2.held.length = 1 ∧
      x.2.pageref 0 = 2 ∧ x.2.pageref 1 = 0 ∧ (x.2.opentab 1).oFileid = 1)) =
        true := by
    decide +kernel
  obtain ⟨⟨r, s⟩, hret, hs⟩ := (Option.any_eq_true _ _).mp hrun
  obtain ⟨hheld, hbusy, hfree, hid⟩ :
      s.held.length = 1 ∧ s.pageref 0 = 2 ∧ s.pageref 1 = 0 ∧
      (s.opentab 1).oFileid = 1 := of_decide_eq_true hs
  have hsend :
      World.Step ⟨serveInit smallFs, none⟩ (.send 7 FSREQ_OPEN (strOf [SLASH]))
      ⟨rootRequest, some (7, FSREQ_OPEN)⟩ := .send rfl
  have hserve : World.Step ⟨rootRequest, some (7, FSREQ_OPEN)⟩ (.serve true)
      ⟨s, none⟩ :=
    .serve rfl (Outcome.returned_eq_some.mp hret)
  have hreached : World.Reached smallFs ⟨s, none⟩ :=
    (Runs.single trivial hsend).tail trivial hserve
  have hnext : s.Next 1 := ⟨by decide, by omega, fun j hj => by
    obtain rfl : j = 0 := by omega
    omega⟩
  obtain ⟨r', o, t, hret', hok⟩ := openfile_alloc_ids hreached
  refine ⟨⟨s, none⟩, hreached, hheld, r', o, t, hret',
    hok.mpr ⟨fun i hi _ => ?_, fun hall => ?_⟩⟩
  · obtain rfl := hnext.unique hi
    rw [hid]
    exact .inl (by decide)
  · have hone : 2 ≤ s.pageref 1 := hall 1 (by decide)
    omega

/-! ## Running out of ids -/

/-- A request for a path whose one component is too long. -/
def longPath : Bytes := fun i => if i < MAXPATHLEN then 0x61#8 else 0

theorem openPath_long {n : Nat} (hn : MAXNAMELEN ≤ n + 1) (u : Fs) :
    openPath (List.replicate (n + 1) 0x61#8) 0 u =
      .ret (.error (-E_BAD_PATH)) u := by
  have hskip : skipSlash (List.replicate (n + 1) 0x61#8) =
      List.replicate (n + 1) 0x61#8 := rfl
  have hname : (List.replicate (n + 1) 0x61#8).takeWhile (· != SLASH) =
      List.replicate (n + 1) 0x61#8 := by
    rw [List.takeWhile_replicate]
    rfl
  have hwalk : walkPath (List.replicate (n + 1) 0x61#8) u =
      .ret (.error (-E_BAD_PATH)) u := by
    rw [walkPath, List.length_replicate, hskip, walkPathFrom, if_neg (by simp),
      hname, List.length_replicate,
      if_pos hn]
    rfl
  have hopen : fileOpen (List.replicate (n + 1) 0x61#8) u =
      .ret (.error (-E_BAD_PATH)) u := by
    rw [fileOpen, Prog.bind_ret hwalk]
    rfl
  rw [openPath, if_neg (by decide)]
  exact hopen

theorem path_longPath (h : s.fs.req = longPath) :
    s.path = List.replicate (MAXPATHLEN - 1) 0x61#8 := by
  have hmap : (List.range (MAXPATHLEN - 1)).map longPath =
      List.replicate (MAXPATHLEN - 1) 0x61#8 := by
    rw [List.eq_replicate_iff]
    refine ⟨by simp, fun b hb => ?_⟩
    obtain ⟨i, hi, rfl⟩ := List.mem_map.mp hb
    have hlt := List.mem_range.mp hi
    exact if_pos (by omega)
  rw [Server.path, h, hmap, List.takeWhile_replicate]
  rfl

/-- Each open that fails takes an id of entry 0. -/
theorem failed_opens (fs : Fs) (k : Nat) :
    ∃ w, World.Reached fs w ∧ w.pending = none ∧ w.srv.arg = none ∧
    w.srv.held = [] ∧ w.srv.memory = true ∧ (w.srv.opentab 0).oFileid =
      BitVec.ofNat 32 (MAXOPEN * k) := by
  induction k with
  | zero => exact ⟨_, Runs.refl _, rfl, rfl, rfl, rfl, rfl⟩
  | succ k ih =>
      obtain ⟨w, hrun, hnone, harg, hheld, hmem, hid⟩ := ih
      let s : Server := { w.srv with fs := { w.srv.fs with req := longPath } }
      have hsend : World.Step w (.send 0 FSREQ_OPEN longPath)
          ⟨s, some (0, FSREQ_OPEN)⟩ := .send hnone
      have hrun' : World.Reached fs ⟨s, some (0, FSREQ_OPEN)⟩ :=
        hrun.tail trivial hsend
      have ht : s.Table := hrun'.ordered.table
      have hpath : s.path = List.replicate (MAXPATHLEN - 1) 0x61#8 :=
        path_longPath rfl
      have hfree : s.pageref 0 ≤ 1 := by
        have hheld : s.held = [] := hheld
        have harg : s.arg = none := harg
        unfold Server.pageref
        rw [hheld, harg]
        split <;> decide
      have hi : s.Next 0 :=
        ⟨by decide, hfree, fun _ h => absurd h (Nat.not_lt_zero _)⟩
      have hall := serveOpen_alloc (openfileAlloc_taken ht hi (.inr hmem))
      have hret : ∃ r, serveOpen s = .ret (r, none) (s.taken 0) := by
        simp only at hall
        by_cases hneg : (s.nextId 0).slt 0
        · rw [if_pos hneg] at hall
          exact ⟨_, hall⟩
        · rw [if_neg hneg] at hall
          refine ⟨-E_BAD_PATH, hall.trans ?_⟩
          have hzero : longPath.load32 MAXPATHLEN = 0 := by decide
          have hmode : reqWord MAXPATHLEN (s.taken 0) = .ret 0 (s.taken 0) := by
            rw [← hzero]
            rfl
          rw [openEntry, Prog.bind_ret hmode]
          have hin : inFs (openPath s.path 0) (s.taken 0) =
              .ret (.error (-E_BAD_PATH)) (s.taken 0) := by
            rw [inFs, Prog.zoom_apply, hpath]
            have hlong : openPath (List.replicate (MAXPATHLEN - 1) 0x61#8) 0
                (s.taken 0).fs
                = .ret (.error (-E_BAD_PATH)) (s.taken 0).fs :=
              openPath_long (n := 1022) (by decide) _
            simp only [hlong]
          rw [Prog.bind_ret hin]
          rfl
      obtain ⟨r, hret⟩ := hret
      have hserve : Jos.serve 0 FSREQ_OPEN true s = .ret r (s.taken 0) := by
        have hreq : serveRequest FSREQ_OPEN s =
            .ret (r, none) (s.taken 0) := hret
        have harg : (s.taken 0).arg = none := harg
        rw [Jos.serve, Prog.bind_ret hreq]
        simp only
        rw [Prog.update_bind, unmapReq]
        simp only [harg]
        rfl
      refine ⟨_, hrun'.tail trivial (.serve rfl hserve), rfl, harg,
        hheld, hmem, ?_⟩
      have hid : (s.opentab 0).oFileid = BitVec.ofNat 32 (MAXOPEN * k) := hid
      simp only [taken, Function.update_self, nextId, hid]
      rw [Nat.mul_succ, BitVec.ofNat_add]

/-- After 2097151 opens of a path that is too long, no client maps a page and
the next id is negative. -/
theorem openfile_alloc_negative :
    ∃ w r o t, World.Reached smallFs w ∧ w.srv.held = [] ∧ w.srv.memory = true ∧
    openfileAlloc w.srv = .ret (r, o) t ∧ r.slt 0 ∧ ¬w.srv.AllocOk r o t := by
  obtain ⟨w, hrun, _, harg, hheld, hmem, hid⟩ :=
    failed_opens smallFs (2 ^ 21 - 1)
  have hi : w.srv.Next 0 := by
    refine ⟨by decide, ?_, fun _ h => absurd h (Nat.not_lt_zero _)⟩
    unfold Server.pageref
    rw [hheld, harg]
    split <;> decide
  have hneg : (w.srv.nextId 0).slt 0 := by
    rw [nextId, hid]
    decide
  refine ⟨w, _, _, _, hrun, hheld, hmem,
    openfileAlloc_taken hrun.ordered.table hi (.inr hmem), hneg, fun h => ?_⟩
  rcases h.full hneg with hall | ⟨hno, _⟩
  · obtain ⟨g, hg, _⟩ := hall 0 (by decide)
    rw [hheld] at hg
    cases hg
  · rw [hmem] at hno
    cases hno

end

end Jos
