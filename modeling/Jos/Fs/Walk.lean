import Jos.Fs.Tree

/-!
# Evaluating a path

`walk_path` of fs/fs.c with what it stores through its arguments, and in its own
`name`. It is `walkPath` with the stores, and on directories that have their
blocks it tells exactly where a path leads: to a file, to no file of a directory
that is there, or to neither.
-/

namespace Jos

open PhysMem

/-- What `walk_path` reads and writes. An argument may be null. -/
structure Walking where
  fs : Fs
  /-- The memory from `name` on. -/
  name : Bytes
  /-- `*pdir`. -/
  pdir : Option (Option FilePtr)
  /-- `*pf`. -/
  pf : Option FilePtr
  /-- The memory from `lastelem` on. -/
  lastelem : Option Bytes

abbrev WalkM (α : Type) : Type := Prog Walking Stop α

def inWalk {α : Type} (f : FsM α) : WalkM α :=
  Prog.zoom Walking.fs (fun t s => { s with fs := t }) f

/-- The string at the start of `b`, which has `MAXNAMELEN` bytes. -/
def cstr (b : Bytes) : List (BitVec 8) :=
  ((List.range MAXNAMELEN).map b).takeWhile (· != 0)

/-- `strcpy(b, c)`. -/
def putString (c : List (BitVec 8)) (b : Bytes) : Bytes :=
  b.copy 0 (c.getD · 0) 0 (c.length + 1)

namespace Walking

/-- The stores of the null pointers. -/
def start (s : Walking) : Walking :=
  { s with name := Function.update s.name 0 0, pdir := s.pdir.map fun _ => none, pf := none }

/-- `*pdir = dir; *pf = f`. -/
def finish (dir : Option FilePtr) (f : FilePtr) (s : Walking) : Walking :=
  { s with pdir := s.pdir.map fun _ => dir, pf := some f }

/-- `*pdir = dir; strcpy(lastelem, name); *pf = 0`. -/
def lacks (dir : FilePtr) (s : Walking) : Walking :=
  { s with pdir := s.pdir.map fun _ => some dir, lastelem :=
    s.lastelem.map (putString (cstr s.name)), pf := none }

end Walking

/-- `memmove(name, p, path - p); name[path - p] = 0`, where the `path - p`
characters are `c`. -/
def copyName (c : List (BitVec 8)) : WalkM Unit := do
  Prog.update fun s => { s with name := s.name.copy 0 (c.getD · 0) 0 c.length }
  Prog.update fun s => { s with name := Function.update s.name c.length 0 }

/-- The loop of `walk_path` at `f`, which is in `dir`, and what follows it. -/
def walkPathLoop : Nat → List (BitVec 8) → Option FilePtr → FilePtr → WalkM Word
  | 0, _, dir, f => do
      Prog.update (Walking.finish dir f)
      pure 0
  | n + 1, path, dir, f => do
      if path = [] then
        Prog.update (Walking.finish dir f)
        pure 0
      else
        let c := path.takeWhile (· != SLASH)
        if MAXNAMELEN ≤ c.length then
          pure (-E_BAD_PATH)
        else
          copyName c
          let path := skipSlash (path.dropWhile (· != SLASH))
          if (← inWalk (readWord f.blk (f.off + 33))) ≠ FTYPE_DIR then
            pure (-E_NOT_FOUND)
          else
            let s ← Prog.ask
            match ← inWalk (dirLookup f (cstr s.name)) with
            | .error r =>
                if r = -E_NOT_FOUND ∧ path = [] then
                  Prog.update (Walking.lacks f)
                pure r
            | .ok g => walkPathLoop n path (some f) g

/-- `walk_path`. -/
def walkPathStores (path : List (BitVec 8)) : WalkM Word := do
  Prog.update Walking.start
  walkPathLoop path.length (skipSlash path) none ROOT

/-- What `walk_path` returns. -/
def Walk.code : Walk → Word
  | .found _ _ => 0
  | .missing _ _ => -E_NOT_FOUND
  | .error r => r

/-- What it stores through its arguments. -/
def Walk.stored : Walk → Walking → Walking
  | .found dir f, s => s.finish dir f
  | .missing dir last, s =>
      { s with pdir := s.pdir.map fun _ => some dir, lastelem :=
        s.lastelem.map (putString last), pf := none }
  | .error _, s => s

section

variable {d m : PhysMem} {s : Walking} {q : Bytes} {c path : List (BitVec 8)}
  {dir : Option FilePtr} {f : FilePtr}
  {n : Nat} {A : Walking → Prop} {E : Stop → Walking → Prop}

/-- The string that has been copied to `name`. -/
theorem cstr_copy {b : Bytes} (hz : 0 ∉ c) (hc : c.length < MAXNAMELEN) :
    cstr (Function.update (b.copy 0 (c.getD · 0) 0 c.length) c.length 0) =
      c := by
  have hsplit : MAXNAMELEN =
      c.length + (MAXNAMELEN - c.length - 1 + 1) := by omega
  have hhead : (List.range c.length).map
      (Function.update (b.copy 0 (c.getD · 0) 0 c.length) c.length 0) = c := by
    refine List.ext_getElem (by simp) fun i hi hi' => ?_
    rw [List.getElem_map, List.getElem_range, Function.update_of_ne (by omega),
      Bytes.copy_of_mem (by omega)]
    simp [hi']
  rw [cstr, hsplit, List.range_add, List.map_append, hhead,
    List.takeWhile_append_of_pos]
  · rw [Nat.add_comm _ 1, List.range_add]
    simp
  · intro x hx
    rw [bne_iff_ne]
    exact fun h => hz (h ▸ hx)

/-- `walk_path` is `walkPath` with its stores, which stay within `name`. -/
theorem wp_walkPathLoop {Q : Word → Walking → Prop} (hz : 0 ∉ path)
    (h : Prog.wp (walkPathFrom n path dir f)
      (fun w u => ∀ name, (∀ i, MAXNAMELEN ≤ i → name i = s.name i) →
      Q w.code (w.stored { s with fs := u, name := name })) (fun u => ∀ name,
      A { s with fs := u, name := name })
      (fun x u => ∀ name, E x { s with fs := u, name := name }) s.fs) :
    Prog.wp (walkPathLoop n path dir f) Q A E s := by
  induction n generalizing path dir f s with
  | zero =>
      rw [walkPathFrom, Prog.wp_pure] at h
      exact Prog.wp_update_bind (Prog.wp_pure_intro (h s.name fun _ _ => rfl))
  | succ n ih =>
      rw [walkPathFrom] at h
      refine Prog.wp_ite _ (fun hnil => ?_) fun hne => ?_
      · rw [if_pos hnil, Prog.wp_pure] at h
        exact Prog.wp_update_bind (Prog.wp_pure_intro (h s.name fun _ _ => rfl))
      rw [if_neg hne] at h
      refine Prog.wp_ite _ (fun hlong => ?_) fun hshort => ?_
      · simp only [if_pos hlong, Prog.wp_pure] at h
        exact Prog.wp_pure_intro (h s.name fun _ _ => rfl)
      simp only [if_neg hshort, Prog.wp_bind] at h
      have hzn : 0 ∉ path.takeWhile (· != SLASH) :=
        fun h0 => hz ((List.takeWhile_sublist _).subset h0)
      have hzr : 0 ∉ skipSlash (path.dropWhile (· != SLASH)) := fun h0 =>
        hz ((List.dropWhile_sublist _).subset
          ((List.dropWhile_sublist _).subset h0))
      generalize path.takeWhile (· != SLASH) = c at *
      generalize skipSlash (path.dropWhile (· != SLASH)) = rest at *
      have hstr := cstr_copy (b := s.name) hzn (Nat.not_le.mp hshort)
      -- the stores to `name`
      have hname : ∀ i, MAXNAMELEN ≤ i →
          Function.update (s.name.copy 0 (c.getD · 0) 0 c.length) c.length 0 i =
            s.name i := by
        intro i hi
        rw [Function.update_of_ne (by omega), Bytes.copy_of_ne (by omega)]
      simp only [copyName, Prog.wp_bind, Prog.wp_update, inWalk, Prog.wp_zoom]
      generalize Function.update (s.name.copy 0 (c.getD · 0) 0 c.length)
        c.length 0 = name at *
      refine Prog.wp_imp h (fun v u h => ?_) (fun u h =>
        h name) fun x u h => h name
      refine Prog.wp_ite _ (fun htype => ?_) fun htype => ?_
      · rw [if_pos htype, Prog.wp_pure] at h
        exact Prog.wp_pure_intro (h name hname)
      rw [if_neg htype, Prog.wp_bind] at h
      simp only [Prog.wp_bind, Prog.wp_ask, Prog.wp_zoom, hstr]
      refine Prog.wp_imp h (fun w u h => ?_) (fun u h =>
        h name) fun x u h => h name
      cases w with
      | error r =>
          simp only at h
          refine Prog.wp_ite _ (fun hlast => ?_) fun hmore => ?_
          · rw [if_pos hlast, Prog.wp_pure] at h
            obtain ⟨rfl, _⟩ := hlast
            refine Prog.wp_update_bind (Prog.wp_pure_intro ?_)
            rw [Walking.lacks, hstr]
            exact h name hname
          · rw [if_neg hmore, Prog.wp_pure] at h
            exact Prog.wp_pure_intro (h name hname)
      | ok g =>
          refine ih hzr (Prog.wp_imp h (fun w u h name' hname' => ?_)
            (fun u h name' => h name') fun x u h name' => h name')
          exact h name' fun i hi => (hname' i hi).trans (hname i hi)

end

/-! ## Where a path leads -/

namespace PhysMem

variable {m : PhysMem} {path pre rest : List (List (BitVec 8))}
  {c name : List (BitVec 8)} {dir dir' f g : FilePtr}
  {r : Word}

/-- All components of a path are shorter than `MAXNAMELEN`. -/
def Short (path : List (List (BitVec 8))) : Prop :=
  ∀ c ∈ path, c.length < MAXNAMELEN

/-- The path leads to directory `dir` with its last component `c` to go, which
`dir` does not have. -/
def Lacks (m : PhysMem) (path : List (List (BitVec 8))) (dir : FilePtr)
    (c : List (BitVec 8)) : Prop :=
  ∃ par, path = par ++ [c] ∧ m.Resolves par dir ∧ m.IsDir dir ∧ ∀ g,
    ¬m.Child dir c g

theorem Resolves.short (h : m.Resolves path f) : Short path := by
  induction h with
  | root => exact nofun
  | child _ hc ih =>
      intro c hmem
      rcases List.mem_append.mp hmem with hpre | hlast
      · exact ih c hpre
      · rw [List.mem_singleton.mp hlast]
        exact hc.isName.short

theorem Arrives.parent {pdir : Option FilePtr} (h : m.Arrives path pdir f) :
    pdir = none ∧ f = ROOT ∨ ∃ d name, pdir = some d ∧ m.Child d name f := by
  cases h with
  | root => exact .inl ⟨rfl, rfl⟩
  | child _ hc => exact .inr ⟨_, _, rfl, hc⟩

theorem Lacks.isDir (h : m.Lacks path dir c) : m.IsDir dir := by
  obtain ⟨_, _, _, hdir, _⟩ := h
  exact hdir

theorem Lacks.short (h : m.Lacks path dir c) (hc : c.length < MAXNAMELEN) :
    Short path := by
  obtain ⟨par, rfl, hr, _⟩ := h
  intro x hx
  rcases List.mem_append.mp hx with hx | hx
  · exact hr.short x hx
  · rwa [List.mem_singleton.mp hx]

theorem Dirs.arrives_unique {pdir pdir' : Option FilePtr} (hm : m.Dirs)
    (h : m.Arrives path pdir f)
    (h' : m.Arrives path pdir' g) : pdir = pdir' ∧ f = g := by
  have hfg := hm.resolves_unique h.resolves h'.resolves
  subst hfg
  refine ⟨?_, rfl⟩
  rcases h.parent with ⟨rfl, rfl⟩ | ⟨d, _, rfl, hc⟩
  · rcases h'.parent with ⟨rfl, _⟩ | ⟨d', _, _, hc'⟩
    · rfl
    · exact absurd rfl (hm.slotOf_ne_root hc'.isDir hc'.slot)
  · rcases h'.parent with ⟨_, rfl⟩ | ⟨d', _, rfl, hc'⟩
    · exact absurd rfl (hm.slotOf_ne_root hc.isDir hc.slot)
    · rw [hm.parent_unique hc.isDir hc'.isDir hc.slot hc'.slot]

theorem Dirs.lacks_unique (hm : m.Dirs) (h : m.Lacks path dir c)
    (h' : m.Lacks path dir' name) :
    dir = dir' ∧ c = name := by
  obtain ⟨par, rfl, hr, _⟩ := h
  obtain ⟨par', hp, hr', _⟩ := h'
  obtain ⟨rfl, hc⟩ := List.append_inj' hp rfl
  exact ⟨hm.resolves_unique hr hr', List.singleton_inj.mp hc⟩

theorem Dirs.not_resolves_of_lacks (hm : m.Dirs) (h : m.Lacks path dir c) :
    ¬m.Resolves path f := by
  obtain ⟨par, rfl, hr, _, hno⟩ := h
  intro hf
  obtain ⟨dir', hr', hc⟩ := resolves_snoc.mp hf
  rw [hm.resolves_unique hr hr'] at hno
  exact hno f hc

/-- A path that gets stuck does not get to the directory of its last
component. -/
theorem Dirs.not_lacks (hm : m.Dirs) (hst : Stuck m m pre name rest r)
    (hshort : Short (pre ++ name :: rest)) :
    ¬m.Lacks (pre ++ name :: rest) dir c := by
  rintro ⟨par, hpar, hr, hdir, _⟩
  induction rest using List.reverseRecOn with
  | nil =>
      obtain ⟨rfl, _⟩ := List.append_inj' hpar rfl
      cases hst with
      | long _ h => exact absurd (hshort name (by simp)) (Nat.not_lt.mpr h)
      | file hr' _ ht =>
          rw [hm.resolves_unique hr' hr] at ht
          exact ht (hm.isDir_type hdir)
      | absent _ _ hne _ => exact hne rfl
      | hole hd h => exact h.1 (hm.whole _ hd)
  | append_singleton rest last =>
      rw [← List.cons_append, ← List.append_assoc] at hpar
      obtain ⟨rfl, _⟩ := List.append_inj' hpar rfl
      exact hm.not_resolves hst hr

/-- What `walk_path` can answer. -/
def Answers (m : PhysMem) (path : List (List (BitVec 8))) : Walk → Prop
  | .found pdir f => m.Arrives path pdir f
  | .missing dir c => IsName c ∧ m.Lacks path dir c
  | .error r => ∃ pre name rest, path = pre ++ name :: rest ∧
      Stuck m m pre name rest r

theorem Dirs.stuck_resolves (hm : m.Dirs) (hst : Stuck m m pre name rest r) :
    ∃ d, m.Resolves pre d := by
  cases hst with
  | long h _ => exact ⟨_, h⟩
  | file h _ _ => exact ⟨_, h⟩
  | absent h _ _ _ => exact ⟨_, h⟩
  | hole hd h => exact absurd (hm.whole _ hd) h.1

/-- A path gets stuck at one place, for one reason. -/
theorem Dirs.stuck_unique {pre' rest' : List (List (BitVec 8))}
    {name' : List (BitVec 8)} {r' : Word} (hm : m.Dirs)
    (hst : Stuck m m pre name rest r) (hst' : Stuck m m pre' name' rest' r')
    (h : pre ++ name :: rest = pre' ++ name' :: rest') : r = r' := by
  obtain ⟨d, hd⟩ := hm.stuck_resolves hst
  obtain ⟨d', hd'⟩ := hm.stuck_resolves hst'
  have hpre : pre = pre' := by
    rcases List.append_eq_append_iff.mp h with ⟨as, rfl, has⟩ | ⟨as, rfl, has⟩
    · cases as with
      | nil => rw [List.append_nil]
      | cons a as =>
          obtain ⟨rfl, _⟩ := List.cons.inj has
          exact absurd hd' (hm.not_resolves hst)
    · cases as with
      | nil => rw [List.append_nil]
      | cons a as =>
          obtain ⟨rfl, _⟩ := List.cons.inj has
          exact absurd hd (hm.not_resolves hst')
  subst hpre
  obtain ⟨rfl, _⟩ := List.cons.inj (List.append_cancel_left h)
  cases hst with
  | long _ hlong =>
      cases hst' with
      | long _ _ => rfl
      | file _ hlt _ => exact absurd hlt (Nat.not_lt.mpr hlong)
      | absent _ hlt _ _ => exact absurd hlt (Nat.not_lt.mpr hlong)
      | hole hd h => exact absurd (hm.whole _ hd) h.1
  | hole hd h => exact absurd (hm.whole _ hd) h.1
  | file _ hlt _ | absent _ hlt _ _ =>
      cases hst' with
      | long _ hlong => exact absurd hlt (Nat.not_lt.mpr hlong)
      | file _ _ _ => rfl
      | absent _ _ _ _ => rfl
      | hole hd h => exact absurd (hm.whole _ hd) h.1

/-- `walk_path` has one answer. -/
theorem Dirs.answers_unique {w w' : Walk} (hm : m.Dirs) (h : m.Answers path w)
    (h' : m.Answers path w') : w = w' := by
  have hfound : ∀ {pd f w'}, m.Arrives path pd f → m.Answers path w' →
      .found pd f = w' := by
    intro pd f w' h h'
    cases w' with
    | found pd' f' =>
        obtain ⟨rfl, rfl⟩ := hm.arrives_unique h h'
        rfl
    | missing dir c => exact absurd h.resolves (hm.not_resolves_of_lacks h'.2)
    | error r =>
        obtain ⟨pre, name, rest, rfl, hst⟩ := h'
        exact absurd h.resolves (hm.not_resolves hst)
  have hstuck : ∀ {dir c r}, IsName c → m.Lacks path dir c →
      ¬m.Answers path (.error r) := by
    rintro dir c r hc hl ⟨pre, name, rest, rfl, hst⟩
    exact hm.not_lacks hst (hl.short hc.short) hl
  cases w with
  | found pd f => exact hfound h h'
  | missing dir c =>
      cases w' with
      | found pd f => exact (hfound h' h).symm
      | missing dir' c' =>
          obtain ⟨rfl, rfl⟩ := hm.lacks_unique h.2 h'.2
          rfl
      | error r => exact absurd h' (hstuck h.1 h.2)
  | error r =>
      cases w' with
      | found pd f => exact (hfound h' h).symm
      | missing dir c => exact absurd h (hstuck h'.1 h'.2)
      | error r' =>
          obtain ⟨pre, name, rest, hp, hst⟩ := h
          obtain ⟨pre', name', rest', hp', hst'⟩ := h'
          rw [hm.stuck_unique hst hst' (hp.symm.trans hp')]

theorem Dirs.stuck_code (hm : m.Dirs) (hst : Stuck m m pre name rest r) :
    r = -E_BAD_PATH ∨ r = -E_NOT_FOUND := by
  cases hst with
  | long _ _ => exact .inl rfl
  | file _ _ _ => exact .inr rfl
  | absent _ _ _ _ => exact .inr rfl
  | hole hd h => exact absurd (hm.whole _ hd) h.1

end PhysMem

/-- `walk_path` on directories that have their blocks. -/
theorem wp_walkPath_dirs {d m : PhysMem} {s : Fs} {q : Bytes}
    {path : List (BitVec 8)} {A : Fs → Prop}
    {E : Stop → Fs → Prop} (hm : m.Dirs) (hz : 0 ∉ path) (hs : s.Shows d m q)
    {Q : Walk → Fs → Prop}
    (hQ : ∀ w t, m.Answers (components path) w → t.Shows d m q → Q w t) :
    Prog.wp (walkPath path) Q A E s := by
  refine wp_walkPath hm.toSound hm.aligned hz hs
    (fun pd g m' t _ hsame harr ht => ?_)
    (fun par last dir m' t hpath _ hsame hr hdir hl hno ht => ?_)
    fun r pre name rest m' t hpath _ hsame hst ht => ?_
  · obtain rfl := hsame hm.whole
    exact hQ _ t harr ht
  · obtain rfl := hsame hm.whole
    exact hQ _ t ⟨hl, par, hpath, hr, hdir, hno⟩ ht
  · obtain rfl := hsame hm.whole
    exact hQ _ t ⟨pre, name, rest, hpath, hst⟩ ht

/-- What `walk_path` leaves in `*pdir`, `*pf` and `lastelem`, if anything, and
that it stays within `name` and `lastelem`. -/
structure Walking.Stored (s t : Walking) (pdir pf : Option FilePtr)
    (last : Option (List (BitVec 8))) : Prop where
  pdir : t.pdir = s.pdir.map fun _ => pdir
  pf : t.pf = pf
  lastelem : t.lastelem = s.lastelem.map (last.elim id putString)
  name : ∀ i, MAXNAMELEN ≤ i → t.name i = s.name i
  within : ∀ b b', s.lastelem = some b → t.lastelem = some b' →
    ∀ i, MAXNAMELEN ≤ i → b' i = b i

/-- `walk_path` returns `r`, with `pdir` and `pf` through its arguments and
`last` in `lastelem`. -/
structure WalkExact (m : PhysMem) (path : List (List (BitVec 8))) (r : Word)
    (pdir pf : Option FilePtr)
    (last : Option (List (BitVec 8))) : Prop where
  found : ∀ dir f, r = 0 ∧ pdir = dir ∧ pf = some f ↔
    Short path ∧ m.Arrives path dir f
  absent : ∀ dir c, r = -E_NOT_FOUND ∧ pdir = some dir ∧ last = some c ↔
    Short path ∧ m.Lacks path dir c
  other :
    ¬(Short path ∧ ((∃ f, m.Resolves path f) ∨ ∃ dir c, m.Lacks path dir c)) →
    r.slt 0 ∧ pdir = none ∧ pf = none ∧ last = none

namespace Walk

def pdir : Walk → Option FilePtr
  | .found dir _ => dir
  | .missing dir _ => some dir
  | .error _ => none

def pf : Walk → Option FilePtr
  | .found _ f => some f
  | .missing _ _ | .error _ => none

def last : Walk → Option (List (BitVec 8))
  | .missing _ c => some c
  | .found _ _ | .error _ => none

end Walk

section

variable {d m : PhysMem} {s : Walking} {q : Bytes} {path : List (BitVec 8)}
  {comps pre rest : List (List (BitVec 8))} {c name : List (BitVec 8)}
  {dir f : FilePtr} {r : Word}

theorem Walking.stored {w : Walk} {u : Fs} {name : Bytes}
    (hname : ∀ i, MAXNAMELEN ≤ i → name i = s.start.name i)
    (hlast : ∀ c, w.last = some c → c.length < MAXNAMELEN) :
    s.Stored (w.stored { s.start with fs := u, name := name }) w.pdir w.pf
    w.last := by
  have hstart : ∀ i, MAXNAMELEN ≤ i → name i = s.name i := by
    intro i hi
    rw [hname i hi]
    exact Function.update_of_ne
      (Nat.ne_of_gt (Nat.lt_of_lt_of_le (by decide) hi)) _ _
  have hkept : ∀ b b' : Bytes, s.lastelem = some b → s.lastelem = some b' →
      ∀ i, MAXNAMELEN ≤ i → b' i = b i := by
    intro b b' hb hb' i _
    rw [Option.some.inj (hb.symm.trans hb')]
  have hpdir : ∀ x : Option FilePtr, s.start.pdir.map (fun _ => x) = s.pdir.map fun _ => x := by
    intro x
    rw [start, Option.map_map]
    rfl
  have hid : s.lastelem = s.lastelem.map id := Option.map_id_apply.symm
  cases w with
  | found dir f => exact ⟨hpdir dir, rfl, hid, hstart, hkept⟩
  | error r => exact ⟨rfl, rfl, hid, hstart, hkept⟩
  | missing dir c =>
      refine ⟨hpdir (some dir), rfl, rfl, hstart, fun b b' hb hb' i hi => ?_⟩
      have hb' : s.lastelem.map (putString c) = some b' := hb'
      rw [hb] at hb'
      have hc := hlast c rfl
      rw [← Option.some.inj hb']
      exact Bytes.copy_of_ne (by omega)

theorem walkExact_found (hm : m.Dirs) {pdir : Option FilePtr}
    (h : m.Arrives comps pdir f) :
    WalkExact m comps 0 pdir (some f) none where
  found dir g := by
    constructor
    · rintro ⟨_, rfl, hfg⟩
      obtain rfl := Option.some.inj hfg
      exact ⟨h.resolves.short, h⟩
    · rintro ⟨_, h'⟩
      obtain ⟨rfl, rfl⟩ := hm.arrives_unique h h'
      exact ⟨rfl, rfl, rfl⟩
  absent dir c := ⟨fun h => absurd h.1 (by decide), fun h' =>
    absurd h.resolves (hm.not_resolves_of_lacks h'.2)⟩
  other hno := absurd ⟨h.resolves.short, .inl ⟨f, h.resolves⟩⟩ hno

theorem walkExact_missing (hm : m.Dirs) (hc : c.length < MAXNAMELEN)
    (h : m.Lacks comps dir c) :
    WalkExact m comps (-E_NOT_FOUND) (some dir) none (some c) := by
  have hshort := h.short hc
  refine ⟨fun dir f => ⟨fun h => absurd h.1 (by decide), fun h' => ?_⟩,
    fun dir' c' => ⟨?_, ?_⟩, fun hno => ?_⟩
  · exact absurd h'.2.resolves (hm.not_resolves_of_lacks h)
  · rintro ⟨_, hd, hc'⟩
    obtain rfl := Option.some.inj hd
    obtain rfl := Option.some.inj hc'
    exact ⟨hshort, h⟩
  · rintro ⟨_, h'⟩
    obtain ⟨rfl, rfl⟩ := hm.lacks_unique h h'
    exact ⟨rfl, rfl, rfl⟩
  · exact absurd ⟨hshort, .inr ⟨dir, c, h⟩⟩ hno

theorem walkExact_error (hm : m.Dirs) (hst : Stuck m m pre name rest r) :
    WalkExact m (pre ++ name :: rest) r none none none where
  found dir f := by
    constructor
    · rintro ⟨_, _, ⟨⟩⟩
    · exact fun h => absurd h.2.resolves (hm.not_resolves hst)
  absent dir c := by
    constructor
    · rintro ⟨_, ⟨⟩, _⟩
    · exact fun h => absurd h.2 (hm.not_lacks hst h.1)
  other _ := by
    refine ⟨?_, rfl, rfl, rfl⟩
    rcases hm.stuck_code hst with rfl | rfl <;> decide

/-- `walk_path` resolves paths exactly, and stays within `name` and
`lastelem`. -/
theorem walk_path_exact (hm : m.Dirs) (hz : 0 ∉ path) (hs : s.fs.Shows d m q) :
    ∃ r t pdir last, walkPathStores path s = .ret r t ∧ t.fs.Shows d m q ∧
    s.Stored t pdir t.pf last ∧
      WalkExact m (components path) r pdir t.pf last := by
  have hend : ∀ (w : Walk) (u : Fs), u.Shows d m q →
      (∀ c, w.last = some c → c.length < MAXNAMELEN) →
      WalkExact m (components path) w.code w.pdir w.pf w.last → ∀ name : Bytes,
      (∀ i, MAXNAMELEN ≤ i → name i = s.start.name i) →
      (w.stored { s.start with fs := u, name := name }).fs.Shows d m q ∧
        ∃ pdir last,
        s.Stored (w.stored { s.start with fs := u, name := name }) pdir
          (w.stored { s.start with fs := u, name := name }).pf last ∧
          WalkExact m (components path) w.code pdir (w.stored
          { s.start with fs := u, name := name }).pf last := by
    intro w u hu hlast hex name hname
    have hst := Walking.stored (u := u) hname hlast
    refine ⟨by cases w <;> exact hu, w.pdir, w.last, ?_⟩
    rw [hst.pf]
    exact ⟨hst, hex⟩
  have hz' : 0 ∉ skipSlash path :=
    fun h => hz ((List.dropWhile_sublist _).subset h)
  have hwp : Prog.wp (walkPathStores path)
      (fun r t => t.fs.Shows d m q ∧ ∃ pdir last, s.Stored t pdir t.pf last ∧
      WalkExact m (components path) r pdir t.pf last) (fun _ =>
        False) (fun _ _ => False) s := by
    apply Prog.wp_update_bind
    refine wp_walkPathLoop hz' (wp_walkPath_dirs hm hz hs fun w u hans hu => ?_)
    cases w with
    | found pd g =>
        exact hend (.found pd g) u hu nofun (walkExact_found hm hans)
    | missing dir c =>
        obtain ⟨hc, hl⟩ := hans
        exact hend (.missing dir c) u hu (fun c' hc' =>
          Option.some.inj hc' ▸ hc.short) (walkExact_missing hm hc.short hl)
    | error r =>
        obtain ⟨pre, name, rest, hpath, hst⟩ := hans
        rw [hpath] at hend ⊢
        exact hend (.error r) u hu nofun (walkExact_error hm hst)
  obtain ⟨r, t, hret, hfs, pdir, last, hst, hex⟩ := hwp.exists_ret
  exact ⟨r, t, pdir, last, hret, hfs, hst, hex⟩

end

/-- A file that the root directory does not have. -/
theorem walk_path_exact_small : ∃ r t pdir last,
    walkPathStores [SLASH, 0x61] ⟨smallFs, fun _ => 1, some none, none,
      some fun _ => 1⟩ = .ret r t ∧
      t.fs.Shows smallDisk smallDisk (fun _ => 0) ∧
      Walking.Stored ⟨smallFs, fun _ => 1, some none, none, some fun _ => 1⟩ t
        pdir t.pf last ∧
      WalkExact smallDisk (components [SLASH, 0x61]) r pdir t.pf last :=
  walk_path_exact smallDisk_tree.dirs (by decide) ⟨rfl, fun _ _ => rfl, nofun,
    fun _ _ _ h => h, fun _ _ _ => rfl⟩

end Jos
