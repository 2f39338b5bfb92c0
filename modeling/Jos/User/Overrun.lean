import Jos.Lib.Run
import Jos.User.Munmap
import Jos.User.Spawn

/-!
# The table of the mappings over a run

The arrays of lib/mmap.c have 32 entries, and nothing looks at `mmap_cnt` before
it is used as an index. An entry comes with each `mmap` and goes with each
`munmap`, whatever address it is given; `spawn` makes one for the head of the
file and one for every page of a segment that is in the file, and takes none
away.
-/

namespace Jos

namespace Mmap

/-- All accesses have been inside the arrays, and the count is that of
entries. -/
structure InTable (p : Proc) : Prop where
  touched : ∀ i ∈ p.maps.touched, 0 ≤ i ∧ i < 32
  nonneg : 0 ≤ p.maps.cnt
  le : p.maps.cnt ≤ 32

/-- There is room for the mapping, if it comes to that. -/
def RoomFor (h : Host) (start length prot mode fd offset : Word)
    (p : Proc) : Prop :=
  ∀ ret q, prepare h start length prot mode fd offset p = .ret (some ret) q →
    p.maps.cnt < 32

/-- `munmap` has a mapping to take away, and the index that it uses as the page
number stays in the arrays. -/
structure Removable (start length : Word) (p : Proc) : Prop where
  some : indexOf p start = none → 0 < p.maps.cnt ∧ p.maps.cnt < 32
  pages :
    MapRow.Shared (p.maps.row ((indexOf p start).getD p.maps.cnt.toNat : Nat)) →
    pagesOf length ≤ 64

end Mmap

namespace Spawn

open Mmap (InTable RoomFor Removable)

/-- The number of pages of a segment that come from the file. -/
def filePages (s : Segment) : Nat :=
  (min (s.pMemsz + pgoff s.pVa).toNat (s.pFilesz + pgoff s.pVa).toNat +
    4095) / 4096

/-- There is room for the segments from header `i` on, for each when it is its
turn. -/
def SegmentsFit (h : Host) (elf child fd : Word) :
    Nat → Nat → Word → Proc → Prop
  | 0, _, _, _ => True
  | n + 1, i, ph, p =>
      i < phnum p elf →
        let q := { p with headers := ph :: p.headers }
        let s := segmentAt p ph
        if s.pType ≠ ELF_PROG_LOAD then
          SegmentsFit h elf child fd n (i + 1) (ph + 32) q
        else
          p.maps.cnt + filePages s ≤ 32 ∧
            ∀ r t, mapSegment h child s.pVa s.pMemsz fd s.pFilesz s.pOffset
            s.perm q = .ret r t → ¬r.slt 0 →
              SegmentsFit h elf child fd n (i + 1) (ph + 32) t

/-- There is room for all that `spawn` maps. -/
structure SpawnFits (h : Host) (elfBuf prog argv : Word) (p : Proc) : Prop where
  head : ¬(h p.trace (.open prog O_RDONLY)).ret.slt 0 →
    RoomFor h elfBuf 512 PROT_READ MAP_SHARED
      (h p.trace (.open prog O_RDONLY)).ret 0
      (p.asked (.open prog O_RDONLY) (h p.trace (.open prog O_RDONLY)))
  segments : ∀ fd elf q child esp u,
    HasStack h elfBuf prog argv p fd elf q child esp u →
    SegmentsFit h elf child fd NHDRS 0 (elfBuf + u.word (elf + 28)) u

end Spawn

/-- A call of a program to its library; or what it does itself, which changes
its memory and makes calls. -/
inductive LibCall where
  | mmap (start length prot mode fd offset : Word)
  | munmap (start length : Word)
  | spawn (elfBuf prog argv : Word)
  | own (mem : Word → BitVec 8) (pages : Nat → Word) (trace : Trace)

namespace LibCall

def run (h : Host) : LibCall → ProcM Word
  | .mmap start length prot mode fd offset =>
      Mmap.mmap h start length prot mode fd offset
  | .munmap start length => Mmap.munmap h start length
  | .spawn elfBuf prog argv => Spawn.spawn h elfBuf prog argv
  | .own mem pages trace => do
      Prog.update fun p => { p with mem := mem, pages := pages, trace := trace }
      pure 0

/-- The table has room for a call. -/
def Fits (h : Host) (p : Proc) : LibCall → Prop
  | .mmap start length prot mode fd offset =>
      Mmap.RoomFor h start length prot mode fd offset p
  | .munmap start length => Mmap.Removable start length p
  | .spawn elfBuf prog argv => Spawn.SpawnFits h elfBuf prog argv p
  | .own _ _ _ => True

/-- The program goes on behind a call that returns. -/
def Returns (h : Host) (p : Proc) (c : LibCall) (t : Proc) : Prop :=
  ∃ r, c.run h p = .ret r t

end LibCall

namespace Mmap

section

variable {h : Host} {p q t : Proc}
  {start st length prot mode fd offset r : Word} {i : Int} {x : MapRow}
  {n k : Nat}

/-! ## What does not use the table -/

/-- The table is as it was. -/
def SameMaps : Proc → Proc → Prop := Prog.Same Proc.maps

theorem InTable.same (hp : InTable p) (hs : SameMaps p t) : InTable t := by
  rw [SameMaps] at hs
  exact ⟨hs ▸ hp.touched, hs ▸ hp.nonneg, hs ▸ hp.le⟩

theorem SameMaps.frame : Spawn.ProcFrame h SameMaps :=
  ⟨Prog.Same.frame, fun _ _ => rfl, fun _ _ _ => rfl⟩

/-! ## What does -/

/-- What `mmap` leaves: the table with at most one entry more. -/
structure Grown (p t : Proc) : Prop where
  inTable : InTable t
  le : t.maps.cnt ≤ p.maps.cnt + 1

theorem Grown.same (hp : InTable p) (hs : SameMaps p t) : Grown p t :=
  ⟨hp.same hs, by rw [show t.maps = p.maps from hs]; omega⟩

theorem wp_mmap (hp : InTable p)
    (hroom : RoomFor h start length prot mode fd offset p) :
    Prog.wp (mmap h start length prot mode fd offset) (fun _ => Grown p) InTable
      (fun _ => InTable) p := by
  rw [mmap_eq]
  apply Prog.wp_bind_intro
  have hkeeps := (SameMaps.frame (h := h)).callFrame.prepare start length
    (fun _ _ _ _ => trivial) prot mode fd offset p
  refine Prog.wp_of_runs (fun o q hret => ?_) (fun q hret => ?_) fun e q hret =>
    ?_ <;> rw [hret] at hkeeps
  · cases o with
    | none => exact Prog.wp_pure_intro (.same hp hkeeps)
    | some ret =>
        have hcnt := hroom ret q hret
        have hmaps : q.maps = p.maps := hkeeps
        refine Prog.wp_ret (t := { q with maps := { q.maps with
          row := Function.update q.maps.row q.maps.cnt ⟨ret, mode, fd, offset⟩,
            cnt := q.maps.cnt + 1,
          touched := q.maps.cnt :: q.maps.touched } }) rfl ⟨⟨fun i hi =>
            ?_, ?_, ?_⟩, ?_⟩
        · rcases List.mem_cons.mp hi with rfl | hi
          · rw [hmaps]
            exact ⟨hp.nonneg, hcnt⟩
          · exact hp.touched i (by rw [← hmaps]; exact hi)
        · show 0 ≤ q.maps.cnt + 1
          have := hp.nonneg
          rw [hmaps]
          omega
        · show q.maps.cnt + 1 ≤ 32
          rw [hmaps]
          omega
        · show q.maps.cnt + 1 ≤ _
          rw [hmaps]
  · exact hp.same hkeeps
  · exact hp.same hkeeps

/-- Only accesses to the table, and calls. -/
structure Looked (p t : Proc) : Prop where
  inTable : InTable t
  cnt : t.maps.cnt = p.maps.cnt
  row : t.maps.row = p.maps.row

theorem Looked.refl (hp : InTable p) : Looked p p := ⟨hp, rfl, rfl⟩

theorem Looked.trans (hpq : Looked p q) (hqt : Looked q t) : Looked p t :=
  ⟨hqt.inTable, hqt.cnt.trans hpq.cnt, hqt.row.trans hpq.row⟩

theorem InTable.looks (hp : InTable p) (hi : 0 ≤ i ∧ i < 32) :
    Looked p (Mmap.touched p i) where
  inTable := by
    refine ⟨fun j hj => ?_, hp.nonneg, hp.le⟩
    rcases List.mem_cons.mp hj with rfl | hj
    · exact hi
    · exact hp.touched j hj
  cnt := rfl
  row := rfl

theorem wp_findRow (n k : Nat) (hp : InTable p) (hk : k + n ≤ 32) :
    Prog.wp (findRow start n k) (fun _ => Looked p) InTable
      (fun _ => InTable) p := by
  induction n generalizing k p with
  | zero => exact Prog.wp_pure_intro (.refl hp)
  | succ n ih =>
      have hlook := hp.looks (i := k) (by omega)
      apply Prog.wp_bind_intro
      refine Prog.wp_ret (getRow_apply _) ?_
      refine Prog.wp_ite _ (fun _ => Prog.wp_pure_intro hlook) fun _ => ?_
      exact Prog.wp_imp (ih (k + 1) hlook.inTable (by omega))
        (fun _ _ h => hlook.trans h) (fun _ h => h) fun _ _ h => h

/-- The page number goes up to half the number of pages. -/
theorem wp_writeLoop (n k : Nat) (hp : InTable p)
    (hpages : pagesOf length + k ≤ 64) :
    Prog.wp (writeLoop h n k st length) (fun _ => Looked p) InTable
      (fun _ => InTable) p := by
  induction n generalizing k p st length with
  | zero => exact Prog.wp_pure_intro (.refl hp)
  | succ n ih =>
      refine Prog.wp_ite _ (fun hk => ?_) fun _ => Prog.wp_pure_intro (.refl hp)
      have hlook := hp.looks (i := k) (by omega)
      have hnext : pagesOf (length - PGSZ) + (k + 1) ≤ 64 := by
        rw [pagesOf_sub (by omega)]
        omega
      apply Prog.wp_bind_intro
      refine Prog.wp_ret (getRow_apply _) ?_
      apply Prog.wp_bind_intro
      refine wp_call ?_
      have hasked : ∀ c a, Looked p ((touched p k).asked c a) :=
        fun c a => ⟨hlook.inTable.same rfl, rfl, rfl⟩
      apply Prog.wp_bind_intro
      refine wp_panicOn (fun _ => (hasked _ _).inTable) fun _ => ?_
      exact Prog.wp_imp (ih (k + 1) (hasked _ _).inTable hnext)
        (fun _ _ h => (hasked _ _).trans h) (fun _ h => h)
        fun _ _ h => h

theorem wp_writeBack (hp : InTable p) (hi : 0 ≤ i ∧ i < 32)
    (hpages : MapRow.Shared (p.maps.row i) → pagesOf length ≤ 64) :
    Prog.wp (writeBack h i start length) (fun j t => 0 ≤ j ∧ Looked p t) InTable
      (fun _ => InTable) p := by
  have hlook := hp.looks hi
  unfold writeBack
  apply Prog.wp_bind_intro
  refine Prog.wp_ret (getRow_apply _) ?_
  refine Prog.wp_ite _ (fun hx => ?_) fun _ => Prog.wp_pure_intro ⟨hi.1, hlook⟩
  have hlook' := hlook.trans (hlook.inTable.looks hi)
  apply Prog.wp_bind_intro
  refine Prog.wp_ret (getRow_apply _) ?_
  apply Prog.wp_bind_intro
  refine wp_call ?_
  have hasked : ∀ c a, Looked p ((touched (touched p i) i).asked c a) :=
    fun c a => ⟨hlook'.inTable.same rfl, rfl, rfl⟩
  apply Prog.wp_bind_intro
  refine Prog.wp_imp (wp_writeLoop NPAGES 0 (hasked _ _).inTable (hpages hx))
    (fun j t h => ?_) (fun _ h => h) fun _ _ h => h
  exact Prog.wp_pure_intro ⟨Int.natCast_nonneg j, (hasked _ _).trans h⟩

theorem wp_shiftRows (n : Nat) (hp : InTable p) (hi : 0 ≤ i) (hn : i + n ≤ 31) :
    Prog.wp (shiftRows n i) (fun _ t => InTable t ∧ t.maps.cnt = p.maps.cnt)
      InTable (fun _ => InTable) p := by
  induction n generalizing i p with
  | zero => exact Prog.wp_pure_intro ⟨hp, rfl⟩
  | succ n ih =>
      have hnext := hp.looks (i := i + 1) (by omega)
      have hboth := hnext.inTable.looks (i := i) (by omega)
      apply Prog.wp_bind_intro
      refine Prog.wp_ret (getRow_apply _) ?_
      apply Prog.wp_bind_intro
      refine Prog.wp_ret (putRow_apply _ _) ?_
      have hput : InTable (rowPut (touched p (i + 1)) i (p.maps.row (i + 1))) :=
        ⟨hboth.inTable.touched, hp.nonneg, hp.le⟩
      exact ih hput (by omega) (by omega)

theorem wp_munmap (hp : InTable p) (hrem : Removable start length p) :
    Prog.wp (munmap h start length) (fun _ => InTable) InTable
      (fun _ => InTable) p := by
  have hnonneg := hp.nonneg
  have hle := hp.le
  -- the search ends at a mapping, or behind the last one
  obtain ⟨q, hret, hlater⟩ := @findRow_ret start p.maps.cnt.toNat 0 p
  rw [← List.range_eq_range'] at hret
  change findRow start p.maps.cnt.toNat 0 p =
    .ret (((indexOf p start).getD _ : Nat) : Int) q at hret
  rw [Nat.zero_add] at hret
  have hlook := (@wp_findRow _ start p.maps.cnt.toNat 0 hp (by omega)).ret hret
  have hidx : (indexOf p start).getD p.maps.cnt.toNat < 32 ∧
      0 < p.maps.cnt := by
    cases hk : indexOf p start with
    | none =>
        have hsome := hrem.some hk
        exact ⟨by rw [Option.getD_none]; omega, hsome.1⟩
    | some k =>
        have hlt := indexOf_lt hk
        exact ⟨by rw [Option.getD_some]; omega, by omega⟩
  unfold munmap
  apply Prog.wp_ask_bind
  apply Prog.wp_bind_intro
  refine Prog.wp_ret hret ?_
  apply Prog.wp_bind_intro
  have hback := @wp_writeBack h _ start length
    ((indexOf p start).getD p.maps.cnt.toNat : Nat)
    hlook.inTable (by omega) (by rw [hlook.row]; exact hrem.pages)
  refine Prog.wp_imp hback (fun j t ht => ?_) (fun _ h => h) fun _ _ h => h
  have hcnt : t.maps.cnt = p.maps.cnt := ht.2.cnt.trans hlook.cnt
  have hshift : Prog.wp (shiftRows (p.maps.cnt - 1 - j).toNat j)
      (fun _ u => InTable u ∧ u.maps.cnt = t.maps.cnt) InTable
        (fun _ => InTable) t := by
    by_cases hj : j < p.maps.cnt - 1
    · exact wp_shiftRows _ ht.2.inTable ht.1 (by omega)
    · rw [show (p.maps.cnt - 1 - j).toNat = 0 by omega]
      exact Prog.wp_pure_intro ⟨ht.2.inTable, rfl⟩
  apply Prog.wp_bind_intro
  refine Prog.wp_imp hshift (fun _ u hu => ?_) (fun _ h => h) fun _ _ h => h
  refine Prog.wp_ret rfl ⟨hu.1.touched, ?_, ?_⟩
  · show 0 ≤ p.maps.cnt - 1
    omega
  · show p.maps.cnt - 1 ≤ 32
    omega

end

end Mmap

namespace Spawn

open Mmap

section

variable {h : Host} {p q t : Proc}
  {elfBuf prog argv elf child fd ph va memsz filesz off perm i esp : Word}
  {n k : Nat}
  {msg : String} {s : Segment}

/-! ## The segments -/

theorem wp_same {α : Type} {f : ProcM α} (hf : Prog.Keeps SameMaps f)
    (hp : InTable p) :
    Prog.wp f (fun _ t => InTable t ∧ t.maps.cnt = p.maps.cnt) InTable
      (fun _ => InTable) p :=
  hf.wp (fun _ _ hs => ⟨hp.same hs, by rw [show _ = p.maps from hs]⟩)
    (fun _ hs => hp.same hs) fun _ _ hs => hp.same hs

/-- A page takes an entry only if it comes from the file. -/
theorem wp_mapPage (hp : InTable p) (hroom : i < filesz → p.maps.cnt < 32) :
    Prog.wp (mapPage h child va fd filesz off perm i)
      (fun _ t => InTable t ∧ t.maps.cnt ≤ p.maps.cnt + if i < filesz then
        1 else 0) InTable (fun _ => InTable) p := by
  refine Prog.wp_ite _ (fun hpast => ?_) fun hfile => ?_
  · have hnot : ¬i < filesz := BitVec.not_lt.mpr hpast
    refine Prog.wp_imp (wp_same (SameMaps.frame.allocPage _ _ _) hp)
      (fun _ t ht => ⟨ht.1, ?_⟩) (fun _ h => h) fun _ _ h => h
    rw [if_neg hnot, ht.2, add_zero]
  · have hlt : i < filesz := BitVec.not_le.mp hfile
    rw [if_pos hlt]
    apply Prog.wp_bind_intro
    refine Prog.wp_imp (wp_same (SameMaps.frame.allocPage _ _ _) hp)
      (fun r q hq => ?_) (fun _ h => h) fun _ _ h => h
    have hcnt := hroom hlt
    refine Prog.wp_ite _ (fun _ => Prog.wp_pure_intro ⟨hq.1, by omega⟩)
      fun _ => ?_
    apply Prog.wp_bind_intro
    refine Prog.wp_imp (wp_mmap hq.1 fun _ _ _ => by omega) (fun m u hu => ?_)
      (fun _ h => h) fun _ _ h => h
    refine Prog.wp_ite _ (fun _ => Prog.wp_halt_intro hu.inTable) fun _ => ?_
    have hsame := SameMaps.frame (h := h)
    have hrest : Prog.Keeps SameMaps (do
        let a ← call h (.pageMap 0 UTEMP child (va + i) perm)
        panicOn a.ret "spawn: sys_page_map data: %e"
        let _ ← call h (.pageUnmap 0 UTEMP)
        pure 0 : ProcM Word) :=
      .bind hsame.trans (hsame.asks _) fun _ =>
        .bind hsame.trans (hsame.panicOn _ _) fun _ =>
        .bind hsame.trans (hsame.asks _) fun _ => .pure hsame.refl _
    refine Prog.wp_imp (wp_same hrest hu.inTable) (fun _ t ht => ⟨ht.1, ?_⟩)
      (fun _ h => h) fun _ _ h => h
    have := hu.le
    omega

theorem wp_mapLoop (hp : InTable p) (hk : i = BitVec.ofNat 32 (4096 * k))
    (hn : k + n ≤ NPAGES)
    (hroom : p.maps.cnt + ((min memsz.toNat filesz.toNat + 4095) / 4096 - k :
      Nat) ≤ 32) :
    Prog.wp (mapLoop h child va memsz fd filesz off perm n i)
      (fun _ => InTable) InTable (fun _ => InTable) p := by
  induction n generalizing p i k with
  | zero => exact Prog.wp_away rfl hp
  | succ n ih =>
      simp only [NPAGES] at hn
      have hik : i.toNat = 4096 * k := by
        rw [hk, BitVec.toNat_ofNat, Nat.mod_eq_of_lt (by omega)]
      refine Prog.wp_ite _ (fun hmem => ?_) fun _ => Prog.wp_pure_intro hp
      rw [BitVec.lt_def, hik] at hmem
      have hpage := @wp_mapPage h _ child fd va filesz off perm i hp
        fun hfile => by
          rw [BitVec.lt_def, hik] at hfile
          omega
      apply Prog.wp_bind_intro
      refine Prog.wp_imp hpage (fun r q hq => ?_) (fun _ h => h) fun _ _ h => h
      refine Prog.wp_ite _ (fun _ => Prog.wp_pure_intro hq.1) fun _ => ?_
      refine ih hq.1 (k := k + 1) ?_ (by simp only [NPAGES]; omega) ?_
      · rw [hk, PGSZ, PGSIZE, ← BitVec.ofNat_add]
        congr 1
      · have hcnt := hq.2
        by_cases hfile : i < filesz
        · rw [if_pos hfile] at hcnt
          rw [BitVec.lt_def, hik] at hfile
          omega
        · rw [if_neg hfile] at hcnt
          rw [BitVec.lt_def, hik] at hfile
          omega

theorem wp_mapSegment (hp : InTable p) (hroom : p.maps.cnt + filePages s ≤ 32) :
    Prog.wp (mapSegment h child s.pVa s.pMemsz fd s.pFilesz s.pOffset s.perm)
      (fun _ => InTable) InTable
      (fun _ => InTable) p :=
  wp_mapLoop hp (k := 0) rfl (Nat.le_of_eq (Nat.zero_add _)) hroom

theorem wp_mapSegments (hp : InTable p)
    (hfit : SegmentsFit h elf child fd n k ph p) :
    Prog.wp (mapSegments h elf child fd n k ph) (fun _ => InTable) InTable
      (fun _ => InTable) p := by
  induction n generalizing p k ph with
  | zero => exact Prog.wp_pure_intro hp
  | succ n ih =>
      apply Prog.wp_ask_bind
      refine Prog.wp_ite _ (fun hk => ?_) fun _ => Prog.wp_pure_intro hp
      replace hfit := hfit hk
      have hq : InTable { p with headers := ph :: p.headers } := hp.same rfl
      apply Prog.wp_bind_intro
      refine Prog.wp_ret (b := segmentAt p ph) rfl ?_
      refine Prog.wp_ite _ (fun htype => ?_) fun htype => ?_
      · exact ih hq (by simpa only [if_pos htype] using hfit)
      · dsimp only at hfit
        rw [if_neg htype] at hfit
        have hseg := @wp_mapSegment h _ child fd _ hq hfit.1
        apply Prog.wp_bind_intro
        refine Prog.wp_of_runs (fun r t hret => ?_)
          (fun t hret => hseg.away hret) fun e t hret => hseg.stop hret
        exact Prog.wp_ite _ (fun _ => Prog.wp_pure_intro (hseg.ret hret))
          fun hok => ih (hseg.ret hret) (hfit.2 r t hret hok)

/-! ## All of `spawn` -/

theorem wp_loadChild (eip : Word) (hp : InTable p)
    (hfit : SegmentsFit h elf child fd NHDRS 0 (elfBuf + p.word (elf + 28)) p) :
    Prog.wp (loadChild h elfBuf elf fd child eip esp) (fun _ => InTable) InTable
      (fun _ => InTable) p := by
  apply Prog.wp_ask_bind
  apply Prog.wp_bind_intro
  refine Prog.wp_imp (wp_mapSegments hp hfit) (fun r q hq => ?_) (fun _ h => h)
    fun _ _ h => h
  have hsame := SameMaps.frame (h := h)
  have hrest : Prog.Keeps SameMaps (do
      let _ ← call h (.envDestroy child)
      let _ ← call h (.close fd)
      pure r : ProcM Word) :=
    .bind hsame.trans (hsame.asks _) fun _ =>
      .bind hsame.trans (hsame.asks _) fun _ =>
      .pure hsame.refl _
  have hstart : Prog.Keeps SameMaps (do
      let _ ← call h (.close fd)
      startChild h child eip esp : ProcM Word) :=
    .bind hsame.trans (hsame.asks _) fun _ => hsame.startChild _ _ _
  exact Prog.wp_ite _ (fun _ => hrest.wp (fun _ _ => hq.same) (fun _ => hq.same)
    fun _ _ => hq.same)
    fun _ => hstart.wp (fun _ _ => hq.same) (fun _ => hq.same)
    fun _ _ => hq.same

theorem wp_spawn (hp : InTable p) (hfit : SpawnFits h elfBuf prog argv p) :
    Prog.wp (spawn h elfBuf prog argv) (fun _ => InTable) InTable
      (fun _ => InTable) p := by
  have hp' : InTable (p.asked (.open prog O_RDONLY)
      (h p.trace (.open prog O_RDONLY))) := hp.same rfl
  apply Prog.wp_bind_intro
  refine wp_call ?_
  refine Prog.wp_ite _ (fun _ => Prog.wp_pure_intro hp') fun hopen => ?_
  have hmmap := wp_mmap hp' (hfit.head hopen)
  apply Prog.wp_bind_intro
  refine Prog.wp_of_runs (fun elf q hret => ?_) (fun q hret => hmmap.away hret)
    fun e q hret => hmmap.stop hret
  have hq := (hmmap.ret hret).inTable
  have himage : HasImage h elfBuf prog p _ elf q := ⟨rfl, hopen, hret⟩
  apply Prog.wp_ask_bind
  refine Prog.wp_ite _ (fun _ => Prog.wp_halt_intro hq) fun helf => ?_
  refine Prog.wp_ite _ (fun _ => ?_) fun hmagic => ?_
  · apply Prog.wp_bind_intro
    exact wp_call (Prog.wp_pure_intro (hq.same rfl))
  · have hq' : InTable (q.asked .exofork (h q.trace .exofork)) := hq.same rfl
    apply Prog.wp_bind_intro
    refine wp_call ?_
    refine Prog.wp_ite _ (fun _ => Prog.wp_pure_intro hq') fun hchild => ?_
    apply Prog.wp_ask_bind
    have hinit := wp_same ((SameMaps.frame (h := h)).initStack
      (h q.trace .exofork).ret argv) hq'
    apply Prog.wp_bind_intro
    refine Prog.wp_of_runs (fun s t hs => ?_) (fun t hs => hinit.away hs)
      fun e t hs => hinit.stop hs
    have ht := (hinit.ret hs).1
    refine Prog.wp_ite _ (fun _ => Prog.wp_pure_intro ht) fun hok => ?_
    exact wp_loadChild _ ht (hfit.segments _ _ _ _ _ _
      ⟨⟨himage, helf, not_not.mp hmagic⟩, rfl, hchild, s.ret, hs, hok⟩)

end

end Spawn

namespace Mmap

variable {h : Host} {p t : Proc}

theorem InTable.called (hp : InTable p) (c : LibCall) (hfit : c.Fits h p) :
    InTable (c.run h p).state := by
  cases c with
  | mmap start length prot mode fd offset =>
      exact (Prog.wp_imp (wp_mmap hp hfit) (fun _ _ hg => hg.inTable)
        (fun _ h => h) fun _ _ h => h).state
  | munmap start length => exact (wp_munmap hp hfit).state
  | spawn elfBuf prog argv => exact (Spawn.wp_spawn hp hfit).state
  | own mem pages trace => exact hp.same rfl

/-- In a run in which each call finds room, the table is not overrun, in no call
either. -/
theorem table_holds (hcnt : p.maps.cnt = 0) (hnew : p.maps.touched = [])
    (hrun : Runs (fun p c t => LibCall.Returns h p c t)
      (fun p c => c.Fits h p) p t) :
    InTable t ∧ ∀ c : LibCall, c.Fits h t → InTable (c.run h t).state := by
  have hstart : InTable p := ⟨by rw [hnew]; exact nofun, by omega, by omega⟩
  have hend : InTable t := by
    refine hrun.invariant (fun p c t hp hfit hret => ?_) hstart
    obtain ⟨r, hret⟩ := hret
    have hcall := hp.called c hfit
    rw [hret] at hcall
    exact hcall
  exact ⟨hend, hend.called⟩

/-- A process that has mapped nothing yet. -/
def unmapped : Proc :=
  { mappedTwo with maps := { mappedTwo.maps with cnt := 0 } }

/-- A page of its own at `0x600000`. -/
def mapOwn : LibCall := .mmap 0x600000#32 4096#32 PROT_READ MAP_ANONYMOUS (-1) 0

theorem mapOwn_returns (p : Proc) :
    ∃ t, mapOwn.Returns obliging p t ∧ t.maps.cnt = p.maps.cnt + 1 :=
  ⟨_, ⟨_, rfl⟩, rfl⟩

/-- A system with a file that can be read and written. -/
def serving : Host := fun _ c =>
  match c with
  | .read _ _ n => ⟨n, fun _ => 0x61, 0⟩
  | .write _ _ n => ⟨n, fun _ => 0, 0⟩
  | .fdLookup _ => ⟨0, fun _ => 0, O_RDWR⟩
  | _ => ⟨0, fun _ => 0, 0⟩

/-- A file is mapped, and a page, and the file is taken away again. -/
theorem table_holds_thrice :
    ∃ t, Runs (fun p c t => LibCall.Returns serving p c t)
    (fun p c => c.Fits serving p) unmapped t ∧ t.maps.cnt = 1 ∧ InTable t := by
  let mapFile : LibCall :=
    .mmap 0x700000#32 100#32 (PROT_READ ||| PROT_WRITE) MAP_SHARED 3 0
  let unmapFile : LibCall := .munmap 0x700000#32 100#32
  have hrun : (mapFile.run serving unmapped).returned.any (fun x =>
      (mapOwn.run serving x.2).returned.any fun y =>
        (unmapFile.run serving y.2).returned.any fun z =>
        decide (x.2.maps.cnt = 1 ∧ indexOf y.2 0x700000#32 = some 0 ∧
          z.2.maps.cnt = 1)) = true := by
    decide +kernel
  obtain ⟨⟨r, x⟩, hx, hrun⟩ := (Option.any_eq_true _ _).mp hrun
  obtain ⟨⟨r', y⟩, hy, hrun⟩ := (Option.any_eq_true _ _).mp hrun
  obtain ⟨⟨r'', z⟩, hz, hrun⟩ := (Option.any_eq_true _ _).mp hrun
  obtain ⟨hcnt, hidx, hend⟩ : x.maps.cnt = 1 ∧ indexOf y 0x700000#32 = some 0 ∧
      z.maps.cnt = 1 :=
    of_decide_eq_true hrun
  have hfile : mapFile.Fits serving unmapped :=
    fun _ _ _ => (by decide : (0 : Int) < 32)
  have hown : mapOwn.Fits serving x := fun _ _ _ => by
    rw [hcnt]
    decide
  have hun : unmapFile.Fits serving y :=
    ⟨fun hnone => (by cases hidx.symm.trans hnone), fun _ =>
      (by decide : pagesOf 100#32 ≤ 64)⟩
  have hrun : Runs (fun p c t => LibCall.Returns serving p c t)
      (fun p c => c.Fits serving p) unmapped z :=
    ((Runs.single hfile ⟨r, Outcome.returned_eq_some.mp hx⟩).tail hown
      ⟨r', Outcome.returned_eq_some.mp hy⟩).tail hun ⟨r'',
      Outcome.returned_eq_some.mp hz⟩
  exact ⟨z, hrun, hend, (table_holds rfl rfl hrun).1⟩

/-- Without the condition, 33 mappings are too many. -/
theorem table_overrun : ¬∀ (h : Host) (p t : Proc), p.maps.cnt = 0 →
      p.maps.touched = [] →
    Runs (fun p c t => LibCall.Returns h p c t) (fun _ _ => True) p t →
    InTable t := by
  intro hall
  have hmany : ∀ n : Nat, ∃ t, Runs (fun p c t =>
      LibCall.Returns obliging p c t) (fun _ _ => True) unmapped t ∧
      t.maps.cnt = n := by
    intro n
    induction n with
    | zero => exact ⟨_, .refl _, rfl⟩
    | succ n ih =>
        obtain ⟨t, hrun, hcnt⟩ := ih
        obtain ⟨u, hret, hcnt'⟩ := mapOwn_returns t
        exact ⟨u, hrun.tail trivial hret, by rw [hcnt', hcnt]; rfl⟩
  obtain ⟨t, hrun, hcnt⟩ := hmany 33
  have hle := (hall obliging unmapped t rfl rfl hrun).le
  rw [hcnt] at hle
  exact absurd hle (by decide)

end Mmap

end Jos
