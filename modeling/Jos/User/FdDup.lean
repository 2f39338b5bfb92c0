import Jos.User.Fd

/-!
# Duplicating a descriptor

`dup` of lib/fd.c closes `newfdnum` and then maps the pages of `oldfdnum` in its
slots. The range check is in `close`, whose result is dropped: for a number that
is no descriptor the slots are computed all the same, and for `oldfdnum` itself
the pages that are to be mapped are gone.
-/

namespace Jos

open Slot (target)
open Lib

/-- `va` is a slot of descriptor `fdnum`, if that is one. -/
def SlotOf (fdnum va : Word) : Prop :=
  fdnum.toNat < MAXFD ∧ (va = index2fd fdnum ∨ va = index2data fdnum)

/-- A `dup` of `c` that took `s` to `t` and returned `r` has failed: it has
closed `newfdnum` at most. -/
structure DupFails (s t : Kern) (c : Nat) (oldfdnum newfdnum r : Word) :
    Prop where
  neg : r.slt 0 = true
  isOpen : FdOpen s c oldfdnum → FdOpen t c oldfdnum
  kept : ∀ va, userPage va → ¬SlotOf newfdnum va → t.pteOf c va = s.pteOf c va

/-- It has made `newfdnum` a duplicate of `oldfdnum`. -/
structure DupDone (s t : Kern) (c : Nat) (oldfdnum newfdnum r : Word) :
    Prop where
  ret : r = newfdnum
  lt : newfdnum.toNat < MAXFD
  isOpen : FdOpen t c oldfdnum
  fd : mapped (t.pteOf c (index2fd newfdnum)) =
    mapped (t.pteOf c (index2fd oldfdnum))
  data : mapped (t.pteOf c (index2data newfdnum)) =
    mapped (t.pteOf c (index2data oldfdnum))
  kept : ∀ va, userPage va → ¬SlotOf newfdnum va → t.pteOf c va = s.pteOf c va

/-- What `dup` is to do: to duplicate, or nothing. -/
def Dups (fsipc : FsCall) (s : Kern) (c : Nat)
    (oldfdnum newfdnum : Word) : Prop :=
  ∃ r t, dup fsipc oldfdnum newfdnum s = .ret r t
    ∧ (DupFails s t c oldfdnum newfdnum r ∨ DupDone s t c oldfdnum newfdnum r)

/-- There is no page table for `va`, so that nothing can be unmapped there. -/
def Inert (s : Kern) (c : Nat) (va : Word) : Prop :=
  UTOP ≤ va ∨ s.vm.mem.link (s.envs c).envPgdir (pdx va) = none

/-- The kernel maps the page of entry `w` at `va` if `c` asks for it. -/
structure Mappable (s : Kern) (c : Nat) (w va : Word) : Prop where
  user : UserPte w
  page : userPage va
  table : s.vm.mem.link (s.envs c).envPgdir (pdx va) ≠ none
    ∨ s.vm.pageFreeList.first ≠ none

/-- The page of entry `w` is mapped at `va` as it would be if it were mapped
again. -/
structure Already (s : Kern) (c : Nat) (w va : Word) : Prop where
  user : UserPte w
  page : userPage va
  entry : s.pteOf c va = again w

/-- The page that is in front of the free list when `va` has a page table. -/
def spare (s : Kern) (c : Nat) (va : Word) : Option Nat :=
  if s.vm.mem.link (s.envs c).envPgdir (pdx va) = none then
    s.vm.pageFreeList.first.bind s.vm.pageFreeList.next
  else s.vm.pageFreeList.first

/-- `newfdnum` is no descriptor, and yet `dup` does no harm: the first mapping
fails and there is nothing to undo; or the pages are where they would be mapped,
and the number that comes back is negative; or only the data page can be mapped,
where nothing was, and it is unmapped again. -/
inductive StrayDup (s : Kern) (c : Nat) (oldfdnum newfdnum : Word) : Prop where
  | nothing
      (hfirst : if present (s.pteOf c (index2data oldfdnum)) then
          ¬Mappable s c (s.pteOf c (index2data oldfdnum)) (index2data newfdnum)
        else ¬Mappable s c (s.pteOf c (index2fd oldfdnum)) (index2fd newfdnum))
      (hfd : Inert s c (index2fd newfdnum))
      (hdata : Inert s c (index2data newfdnum))
  | already (hneg : newfdnum.slt 0 = true)
      (hfd : Already s c (s.pteOf c (index2fd oldfdnum)) (index2fd newfdnum))
      (hdata : present (s.pteOf c (index2data oldfdnum)) = true →
        Already s c (s.pteOf c (index2data oldfdnum)) (index2data newfdnum))
  | undone (hpres : present (s.pteOf c (index2data oldfdnum)) = true)
      (hdata : Mappable s c (s.pteOf c (index2data oldfdnum))
      (index2data newfdnum))
      (hempty : s.pteOf c (index2data newfdnum) = 0)
      (hfd : UTOP ≤ index2fd newfdnum
        ∨ (s.vm.mem.link (s.envs c).envPgdir (pdx (index2fd newfdnum)) = none
          ∧ pdx (index2fd newfdnum) ≠ pdx (index2data newfdnum)
          ∧ (¬UserPte (s.pteOf c (index2fd oldfdnum))
          ∨ spare s c (index2data newfdnum) = none)))

/-- When `dup` does what it is to do. -/
inductive Dupable (s : Kern) (c : Nat) (oldfdnum newfdnum : Word) : Prop where
  | closed (hno : ¬FdOpen s c oldfdnum)
  | slot (hlt : newfdnum.toNat < MAXFD) (hne : newfdnum ≠ oldfdnum)
      (hfd : UserPte (s.pteOf c (index2fd oldfdnum)))
      (hdata : present (s.pteOf c (index2data oldfdnum)) = true →
        UserPte (s.pteOf c (index2data oldfdnum)))
      (hstale : present (s.pteOf c (index2data oldfdnum)) = true
        ∨ ¬present (s.pteOf c (index2data newfdnum)))
      (hnew : FdOpen s c newfdnum → UserPte (s.pteOf c (index2fd newfdnum)))
  | stray (hno : ¬newfdnum.toNat < MAXFD) (h : StrayDup s c oldfdnum newfdnum)

section

variable {L : Layout} {u s t : Kern} {c : Nat} {old new r w va x : Word}
  {v v' : Vm} {fsipc : FsCall}
  {Q : Word → Kern → Prop} {A : Kern → Prop} {E : UserStop → Kern → Prop}

theorem index2fd_ne (i : Word) : index2fd i ≠ index2data i := by
  intro he
  have h := congrArg BitVec.toNat he
  simp only [index2fd, index2data, FILEDATA, FDTABLE, MAXFD, PGSIZE,
    BitVec.toNat_add, BitVec.toNat_mul,
    BitVec.toNat_ofNat] at h
  omega

theorem mapped_again (hu : UserPte w) : mapped (again w) = some (ppn w) :=
  mapped_remap (validPerm_lt (validPerm_user.mpr hu))

theorem present_again (hu : UserPte w) : present (again w) = true :=
  (mapped_eq_some.mp (mapped_again hu)).1

theorem not_inert (h : InUser L u c) (hx : x < UTOP)
    (hp : present ((u.withVm v).pteOf c x) = true) :
    ¬Inert (u.withVm v) c x := by
  obtain ⟨pt, hpt⟩ := table_of_present h.dirs hp
  rintro (hle | hnone)
  · exact BitVec.not_lt.mpr hle hx
  · cases hpt.symm.trans hnone

/-- `err:` unmaps what is in the two slots, the Fd page first. -/
theorem wp_undoDup {fd nva : Word} (h : InUser L u c) (hv : Shaped L u.dirs v)
    (hfda : fd.toNat % PGSIZE = 0) (hnva : nva.toNat % PGSIZE = 0)
    (hkeep : Inert (u.withVm v) c fd → Inert (u.withVm v) c nva →
      Q r (u.withVm v))
    (hdata : Inert (u.withVm v) c fd → nva < UTOP →
      present ((u.withVm v).pteOf c nva) = true →
      ∀ v', Shaped.Put L u.dirs c nva 0 v v' → Q r (u.withVm v'))
    (hfd : fd < UTOP → present ((u.withVm v).pteOf c fd) = true →
      ∀ v', (u.withVm v').pteOf c fd = 0 → Q r (u.withVm v'))
    (hstop : ¬Inert (u.withVm v) c fd
      ∨ (¬Inert (u.withVm v) c nva ∧ ¬present ((u.withVm v).pteOf c nva)) →
      ∀ t, E (.kernel .nullPointer) t) :
      Prog.wp (undoDup fd nva r) Q A E (u.withVm v) := by
  have hnot : ∀ {y}, y < UTOP → v.mem.link (u.envs c).envPgdir (pdx y) ≠ none →
      ¬Inert (u.withVm v) c y :=
    fun hlt htab => not_or.mpr ⟨BitVec.not_le.mpr hlt, htab⟩
  apply Prog.wp_bind_intro
  refine wp_sysPageUnmap h hv hfda (fun hin _ => ?_) (fun hlt hp v₁ hset => ?_)
    fun hlt htab _ => hstop (.inl (hnot hlt htab)) _
  · apply Prog.wp_bind_intro
    exact wp_sysPageUnmap h hv hnva
      (fun hin' _ => Prog.wp_pure_intro (hkeep hin hin'))
      (fun hlt hp v₂ hset => Prog.wp_pure_intro (hdata hin hlt hp v₂ hset))
      fun hlt htab hno => hstop (.inr ⟨hnot hlt htab, hno⟩) _
  · have hzero : (u.withVm v₁).pteOf c fd = 0 := by
      rw [hset.pteOf h.lt ⟨hlt, hfda⟩ ⟨hlt, hfda⟩, if_pos rfl]
    have hfd := hfd hlt hp
    apply Prog.wp_bind_intro
    refine wp_sysPageUnmap h hset.shaped hnva
      (fun _ _ => Prog.wp_pure_intro (hfd v₁ hzero))
      (fun hlt' _ v₂ hset₂ => Prog.wp_pure_intro (hfd v₂ ?_))
      fun _ _ _ => hstop (.inl (not_inert h hlt hp)) _
    rw [hset₂.pteOf h.lt ⟨hlt', hnva⟩ ⟨hlt, hfda⟩, hzero, ite_self]

/-! ## A number that is a descriptor -/

section Slots

variable {i j : Word} (hi : i.toNat < MAXFD) (hj : j.toNat < MAXFD)
include hi hj

theorem index2fd_ne_data : index2fd i ≠ index2data j := by
  have hlt : i.toNat < 32 := hi
  intro he
  have h := congrArg BitVec.toNat he
  rw [index2fd_toNat hi, index2data_toNat hj] at h
  omega

theorem index2fd_inj (he : index2fd i = index2fd j) : i = j := by
  rw [← fd2num_index2fd hi, he, fd2num_index2fd hj]

end Slots

theorem dupable_slot (hlt : new.toNat < MAXFD) (hold : FdOpen s c old)
    (hnew : FdOpen s c new → UserPte (s.pteOf c (index2fd new))) :
    Dupable s c old new ↔
      new ≠ old ∧ UserPte (s.pteOf c (index2fd old))
        ∧ (present (s.pteOf c (index2data old)) = true →
          UserPte (s.pteOf c (index2data old)))
        ∧ (present (s.pteOf c (index2data old)) = true
          ∨ ¬present (s.pteOf c (index2data new))) := by
  constructor
  · rintro (hno | ⟨-, hne, hfd, hdata, hstale, -⟩ | ⟨hno, -⟩)
    · exact absurd hold hno
    · exact ⟨hne, hfd, hdata, hstale⟩
    · exact absurd hlt hno
  · rintro ⟨hne, hfd, hdata, hstale⟩
    exact .slot hlt hne hfd hdata hstale hnew

/-- The address space in the middle of `dup`, in the slots of a descriptor: only
the data slot has changed. -/
structure SlotsReady (L : Layout) (s u : Kern) (c : Nat) (old new : Word)
    (v : Vm) : Prop where
  user : InUser L u c
  shaped : Shaped L u.dirs v
  table : ∃ pt, v.mem.link (u.envs c).envPgdir (pdx FDTABLE) = some pt
  empty : ¬present ((u.withVm v).pteOf c (index2fd new))
  same : ∀ va, userPage va → va ≠ index2fd new → va ≠ index2data new →
    (u.withVm v).pteOf c va = s.pteOf c va

namespace SlotsReady

variable (h : SlotsReady L s u c old new v) (hlt : new.toNat < MAXFD)
  (hold : FdOpen s c old)
include h hlt

/-- The error path finds the Fd slot empty, and the kernel stops. -/
theorem wp_undoDup (hE : ∀ t, E (.kernel .nullPointer) t) :
    Prog.wp (undoDup (index2fd new) (fd2data (index2fd new)) r) Q A E
      (u.withVm v) := by
  have hlive : ¬Inert (u.withVm v) c (index2fd new) := by
    obtain ⟨pt, hpt⟩ := h.table
    refine not_or.mpr ⟨BitVec.not_le.mpr (userPage_index2fd hlt).1, ?_⟩
    rw [pdx_index2fd hlt]
    exact fun hno => absurd (hpt.symm.trans hno) nofun
  rw [fd2data_index2fd]
  exact Jos.wp_undoDup h.user h.shaped (index2fd_aligned new)
    (index2data_aligned new)
    (fun hin => absurd hin hlive) (fun hin => absurd hin hlive)
    (fun _ hp => absurd hp h.empty) fun _ => hE

include hold

/-- The second mapping. -/
theorem wp_dupFd (hnew : FdOpen s c new → UserPte (s.pteOf c (index2fd new)))
    (hok : present (s.pteOf c (index2data old)) = true →
      UserPte (s.pteOf c (index2data old)))
    (hdata : new ≠ old → (mapped ((u.withVm v).pteOf c (index2data new)) =
      mapped (s.pteOf c (index2data old))
      ↔ present (s.pteOf c (index2data old)) = true ∨ ¬present
      (s.pteOf c (index2data new)))) :
    Prog.wp (dupFd (index2fd old) (index2fd new) (fd2data (index2fd new)) new)
      (fun r t => DupFails s t c old new r ∨ DupDone s t c old new r ↔
        Dupable s c old new)
      (fun _ => False) (fun _ _ => ¬Dupable s c old new) (u.withVm v) := by
  obtain ⟨pt, hpt⟩ := h.table
  have hsrc := userPage_index2fd hold.1
  have hdst := userPage_index2fd hlt
  rw [dupable_slot hlt hold hnew]
  have hptsrc : v.mem.link (u.envs c).envPgdir (pdx (index2fd old)) =
      some pt := by
    rwa [pdx_index2fd hold.1]
  have hptdst : v.mem.link (u.envs c).envPgdir (pdx (index2fd new)) =
      some pt := by
    rwa [pdx_index2fd hlt]
  apply Prog.wp_bind_intro
  by_cases hu : UserPte ((u.withVm v).pteOf c (index2fd old))
  swap
  · refine wp_mapAgain_refused h.user h.shaped hsrc hptsrc rfl
      (fun hno => hu hno.1) ?_
    refine Prog.wp_ite _ (fun _ => h.wp_undoDup hlt fun _ => ?_) fun hno =>
      absurd (by decide) hno
    rintro ⟨hne, hfd, -, -⟩
    rw [h.same _ hsrc (fun he => hne (index2fd_inj hold.1 hlt he).symm)
      (index2fd_ne_data hold.1 hlt)] at hu
    exact hu hfd
  have hne : new ≠ old := by
    rintro rfl
    exact h.empty hu.1
  have hfdne : index2fd old ≠ index2fd new :=
    fun he => hne (index2fd_inj hold.1 hlt he).symm
  have hfd := h.same _ hsrc hfdne (index2fd_ne_data hold.1 hlt)
  refine wp_mapAgain_table h.user h.shaped hsrc hptsrc rfl hu hdst hptdst
    fun v' hset _ => ?_
  refine Prog.wp_ite _ (fun hneg => absurd hneg (by decide)) fun _ =>
    Prog.wp_pure_intro ?_
  have hpte : ∀ va, userPage va → va ≠ index2fd new →
      (u.withVm v').pteOf c va = (u.withVm v).pteOf c va := fun va hva hv => by
    rw [hset.pteOf h.user.lt hdst hva, if_neg hv]
  have hdata_ne : index2data old ≠ index2data new := fun he => hne <| by
    have hnat := congrArg BitVec.toNat he
    rw [index2data_toNat hold.1, index2data_toNat hlt] at hnat
    exact BitVec.eq_of_toNat_eq (by omega)
  have hboth : mapped ((u.withVm v').pteOf c (index2data new)) =
      mapped ((u.withVm v').pteOf c (index2data old))
      ↔ present (s.pteOf c (index2data old)) = true
        ∨ ¬present (s.pteOf c (index2data new)) := by
    rw [← hdata hne, hpte _ (userPage_index2data hlt) (index2fd_ne new).symm,
      hpte _ (userPage_index2data hold.1) (index2fd_ne_data hlt hold.1).symm,
      h.same _ (userPage_index2data hold.1)
      (index2fd_ne_data hlt hold.1).symm hdata_ne]
  constructor
  · rintro (hfail | hdone)
    · have hpos : ¬new.slt 0 := fun hneg => not_maxfd.mp (.inl hneg) hlt
      exact absurd hfail.neg hpos
    · exact ⟨hne, hfd ▸ hu, hok, hboth.mp hdone.data⟩
  · rintro ⟨-, -, -, hstale⟩
    right
    constructor
    case ret => rfl
    case lt => exact hlt
    case isOpen =>
      refine ⟨hold.1, ?_⟩
      rw [hpte _ hsrc hfdne]
      exact hu.1
    case fd =>
      rw [hset.pteOf h.user.lt hdst hdst, if_pos rfl, mapped_again hu,
        hpte _ hsrc hfdne]
      exact (mapped_of_present hu.1).symm
    case data => exact hboth.mpr hstale
    case kept =>
      intro va hva hno
      have hfd : va ≠ index2fd new := fun he => hno ⟨hlt, .inl he⟩
      rw [hpte va hva hfd]
      exact h.same va hva hfd fun he => hno ⟨hlt, .inr he⟩

/-- `dup` after `close`. -/
theorem wp_dupPages (hnew : FdOpen s c new → UserPte (s.pteOf c (index2fd new)))
    (hnva : (u.withVm v).pteOf c (index2data new) =
      s.pteOf c (index2data new)) :
    Prog.wp (dupPages (index2fd old) new)
      (fun r t => DupFails s t c old new r ∨ DupDone s t c old new r ↔
        Dupable s c old new)
      (fun _ => False) (fun _ _ => ¬Dupable s c old new) (u.withVm v) := by
  have hova : (u.withVm v).pteOf c (index2data old) =
      s.pteOf c (index2data old) := by
    by_cases he : index2data old = index2data new
    · rw [he, hnva]
    · exact h.same _ (userPage_index2data hold.1)
        (index2fd_ne_data hlt hold.1).symm he
  have hsrc := userPage_index2data hold.1
  have hdst := userPage_index2data hlt
  apply Prog.wp_bind_intro
  rw [fd2data_index2fd old]
  apply Prog.wp_bind_intro
  refine wp_pagePresent h.user h.shaped hsrc.1 ?_
  refine Prog.wp_ite _ (fun hp => ?_) fun hno => Prog.wp_pure_intro ?_
  swap
  · refine Prog.wp_ite _ (fun hneg => absurd hneg (by decide)) fun _ => ?_
    rw [hova] at hno
    refine h.wp_dupFd hlt hold hnew (fun hp => absurd hp hno) fun _ => ?_
    rw [hnva, mapped_eq_none.mpr hno, mapped_eq_none]
    exact (or_iff_right hno).symm
  obtain ⟨pt, hpt⟩ := h.table
  rw [← pdx_index2data hold.1] at hpt
  rw [fd2data_index2fd new]
  by_cases hu : UserPte ((u.withVm v).pteOf c (index2data old))
  swap
  · refine wp_mapAgain_refused h.user h.shaped hsrc hpt rfl
      (fun hno => hu hno.1) ?_
    refine Prog.wp_ite _ (fun _ => ?_) fun hno => absurd (by decide) hno
    rw [← fd2data_index2fd new]
    refine h.wp_undoDup hlt fun _ => ?_
    rw [dupable_slot hlt hold hnew]
    rw [hova] at hu hp
    exact fun hno => hu (hno.2.2.1 hp)
  have hptdst : v.mem.link (u.envs c).envPgdir (pdx (index2data new)) =
      some pt := by
    rwa [pdx_index2data hlt, ← pdx_index2data hold.1]
  refine wp_mapAgain_table h.user h.shaped hsrc hpt rfl hu hdst hptdst
    fun v' hset _ => ?_
  refine Prog.wp_ite _ (fun hneg => absurd hneg (by decide)) fun _ => ?_
  have hpte : ∀ va, userPage va → va ≠ index2data new →
      (u.withVm v').pteOf c va = (u.withVm v).pteOf c va := fun va hva hv => by
    rw [hset.pteOf h.user.lt hdst hva, if_neg hv]
  have hready : SlotsReady L s u c old new v' := by
    refine ⟨h.user, hset.shaped, ⟨pt, ?_⟩, ?_, fun va hva hfd hd => ?_⟩
    · rw [← pdx_index2data hold.1, hset.link c _ _ h.user.dirs, hpt]
    · rw [hpte _ (userPage_index2fd hlt) (index2fd_ne new)]
      exact h.empty
    · rw [hpte va hva hd]
      exact h.same va hva hfd hd
  rw [← fd2data_index2fd new]
  refine hready.wp_dupFd hlt hold hnew (fun _ => hova ▸ hu) fun _ =>
    iff_of_true ?_ (.inl (hova ▸ hp))
  rw [hset.pteOf h.user.lt hdst hdst, if_pos rfl, mapped_again hu, hova]
  exact (mapped_of_present (hova ▸ hp)).symm

end SlotsReady

/-! ## A number that is no descriptor -/

/-- The first mapping of a stray `dup`: the page of entry `w` has come to be
mapped at `dst`. -/
structure FirstMap (L : Layout) (s : Kern) (c : Nat) (dst w : Word) (v : Vm) :
    Prop where
  shaped : Shaped L s.dirs v
  pte : ∀ va, userPage va → (s.withVm v).pteOf c va = if va = dst then
    again w else s.pteOf c va
  table : ∀ i, v.mem.link (s.envs c).envPgdir i = none
    ↔ s.vm.mem.link (s.envs c).envPgdir i = none ∧ i ≠ pdx dst
  first : ∀ q, v.pageFreeList.first = some q →
    L.User q ∧ q ≠ (s.envs c).envPgdir
  spare : ¬present (s.pteOf c dst) → v.pageFreeList.first = spare s c dst

/-- Nothing has changed, and the result is negative. -/
def Unchanged (s : Kern) (c : Nat) (r : Word) (t : Kern) : Prop :=
  r.slt 0 = true ∧ ∀ va, userPage va → t.pteOf c va = s.pteOf c va

/-- When the data page has been mapped, there is still no page table for the Fd
slot. -/
def Undoable (s : Kern) (c : Nat) (newfdnum : Word) : Prop :=
  UTOP ≤ index2fd newfdnum
    ∨ (s.vm.mem.link (s.envs c).envPgdir (pdx (index2fd newfdnum)) = none
    ∧ pdx (index2fd newfdnum) ≠ pdx (index2data newfdnum))

section Stray

variable {src dst : Word} (h : InUser L s c)
include h

theorem not_dir {q : Nat} (hq : ∀ e, ¬NodeOf L s.vm.mem s.dirs e q) :
    q ≠ (s.envs c).envPgdir :=
  fun he => hq c (he ▸ nodeOf_dir h.lt h.dirs)

/-- A mapping for which a page table is added. -/
theorem firstMap_new {q : Nat} (hsrc : userPage src) (hw : s.pteOf c src = w)
    (hu : UserPte w)
    (hdst : userPage dst)
    (hq : s.vm.mem.link (s.envs c).envPgdir (pdx dst) = none)
    (hfirst : s.vm.pageFreeList.first = some q)
    (hret : pageMapAt (s.envs c).envPgdir src (s.envs c).envPgdir dst
      (w &&& PTE_USER) s.vm
      = .ret (.ok ()) v') (hlist :
      v'.pageFreeList = s.vm.pageFreeList.remove q) :
    FirstMap L s c dst w v' := by
  have hperm := validPerm_lt (validPerm_user.mpr hu)
  have hsrcp : target s.vm.mem s.dirs (.pte c (pdx src) (ptx src)) =
      some (ppn w) :=
    target_src (u := s) (v := s.vm) hw hu
  rcases h.pages.owned.pageMapAt h.lt h.dirs hsrc.1 h.lt h.dirs hdst.1
    hperm with
    ⟨v₁, p, hret₁, hpp, -, hst⟩ | ⟨hret₁, -⟩ | ⟨p, hret₁, -⟩
  · cases hret.symm.trans hret₁
    obtain rfl := Option.some.inj (hsrcp.symm.trans hpp)
    have hop := h.pages.owned.pageMapAt_opened h.opened h.lt h.dirs hsrc.1 hpp
      h.lt h.dirs hdst.1 hperm
      hret hst
    have hown := hst.owned fun p hp => by
      rw [target_pte_none h.dirs hq] at hp
      cases hp
    constructor
    case shaped => exact hown.shaped hop
    case pte =>
      intro va hva
      refine (hst.pte c (pdx va) (ptx va) h.lt (pdx_lt_of_lt_UTOP hva.1)
        (ptx_lt va)).trans ?_
      exact if_congr ((and_iff_right rfl).trans (page_ext hva hdst)) rfl rfl
    case table =>
      intro i
      by_cases hi : i = pdx dst
      · obtain ⟨pt, hpt⟩ := hst.table _ h.dirs
        rw [hi, hpt]
        exact iff_of_false nofun fun hno => hno.2 rfl
      · rw [PhysMem.link, hst.pdes _ i h.dirs (.inl hi)]
        exact (and_iff_left hi).symm
    case first =>
      intro q' hq'
      obtain ⟨huser, hfresh, -⟩ := hown.first hq'
      refine ⟨huser, fun he => hfresh (.dir c) (mem_slots.mpr h.lt) ?_⟩
      rw [he]
      exact h.dirs
    case spare =>
      intro _
      obtain ⟨xs, hrep, -⟩ := h.pages.owned.pool
      obtain ⟨ys, rfl⟩ := hrep.eq_cons hfirst
      rw [hlist, Queue.remove_first hrep, Jos.spare, if_pos hq, hfirst]
      rfl
  · cases hret.symm.trans hret₁
  · cases hret.symm.trans hret₁

/-- The first mapping, of a page that is present. -/
theorem wp_mapAgain_first (hsrc : userPage src) (hw : s.pteOf c src = w)
    (hp : present w = true)
    (hno : ¬Mappable s c w dst → ∀ r v', r.slt 0 = true → v'.mem = s.vm.mem →
      Shaped L s.dirs v' →
      Q r (s.withVm v'))
    (hyes : Mappable s c w dst → ∀ v', FirstMap L s c dst w v' →
      Q 0 (s.withVm v')) :
    Prog.wp (mapAgain src dst) Q A E s := by
  have hv := h.shaped
  obtain ⟨pt, hpt⟩ := table_of_present (v := s.vm) h.dirs
    (show present (s.pteOf c src) = true by rwa [hw])
  by_cases hok : UserPte w ∧ userPage dst
  swap
  · exact wp_mapAgain_refused (u := s) (v := s.vm) h hv hsrc hpt hw hok
      (hno (fun hm => hok ⟨hm.user, hm.page⟩) _ s.vm (by decide) rfl hv)
  obtain ⟨hu, hdst⟩ := hok
  cases hq : s.vm.mem.link (s.envs c).envPgdir (pdx dst) with
  | some q =>
      have hm : Mappable s c w dst := ⟨hu, hdst, .inl (hq ▸ nofun)⟩
      refine wp_mapAgain_table (u := s) (v := s.vm) h hv hsrc hpt hw hu hdst hq
        fun v' hset hlist => ?_
      refine hyes hm v' ⟨hset.shaped, fun va hva => hset.pteOf h.lt hdst hva,
        fun i => ?_, fun q' hq' => ?_,
        fun habs => ?_⟩
      · rw [hset.link c _ i h.dirs]
        refine ⟨fun hi => ⟨hi, ?_⟩, And.left⟩
        rintro rfl
        cases hq.symm.trans hi
      · rcases hlist with hlist | ⟨p, hp', hlist⟩
        · rw [hlist] at hq'
          obtain ⟨huser, hfresh, -⟩ := h.pages.owned.first hq'
          exact ⟨huser, not_dir h fun e ⟨k, hk, _, _, hkq⟩ => hfresh k hk hkq⟩
        · obtain rfl := Option.some.inj (hlist.symm.trans hq')
          have hslot : Slot.pte c (pdx dst) (ptx dst) ∈ L.slots :=
            mem_slots.mpr ⟨h.lt, pdx_lt_of_lt_UTOP hdst.1, ptx_lt dst⟩
          exact ⟨hv.tree.user _ hslot p hp',
            not_dir h (hv.tree.not_nodeOf hslot Slot.not_node hp')⟩
      · rw [Jos.spare, if_neg (by rw [hq]; nofun)]
        rcases hlist with hlist | ⟨p, hp', -⟩
        · rw [hlist]
        · exact absurd (mapped_eq_some.mp hp').1 habs
  | none =>
      cases hfirst : s.vm.pageFreeList.first with
      | none =>
          have hm : ¬Mappable s c w dst :=
            fun hm => hm.table.elim (fun hno => hno hq) fun hno => hno hfirst
          exact wp_mapAgain_noMem (u := s) (v := s.vm) h hv hsrc hpt hw hu
            hdst hq hfirst
            (hno hm _ _ (by decide) rfl ⟨hv.npage, hv.tree, hv.opened,
            hv.dir_lt⟩)
      | some q =>
          have hm : Mappable s c w dst := ⟨hu, hdst, .inr (hfirst ▸ nofun)⟩
          obtain ⟨huser, hfresh, -⟩ := h.pages.owned.first hfirst
          refine wp_mapAgain_new (u := s) (v := s.vm) h hv hsrc hpt hw hu hdst
            hq hfirst huser
            (not_dir h fun e ⟨k, hk, _, _, hkq⟩ => hfresh k hk hkq)
            fun v' hret _ hlist => ?_
          exact hyes hm v' (firstMap_new h hsrc hw hu hdst hq hfirst hret hlist)

omit h in
theorem already_mappable (h : InUser L s c)
    (ha : Already s c w dst) : Mappable s c w dst := by
  obtain ⟨pt, hpt⟩ := table_of_present (v := s.vm) h.dirs
    (show present (s.pteOf c dst) =
    true by rw [ha.entry]; exact present_again ha.user)
  exact ⟨ha.user, ha.page, .inl (hpt ▸ nofun)⟩

/-- The error path after the first mapping has failed. -/
theorem wp_undoDup_first (hneg : r.slt 0 = true) (hmem : v.mem = s.vm.mem)
    (hv : Shaped L s.dirs v) :
    Prog.wp (undoDup (index2fd new) (index2data new) r)
      (fun r t => Unchanged s c r t ↔ Inert s c (index2fd new)
        ∧ Inert s c (index2data new))
      (fun _ => False) (fun _ _ =>
        ¬(Inert s c (index2fd new) ∧ Inert s c (index2data new)))
      (s.withVm v) := by
  have hpte : ∀ va, (s.withVm v).pteOf c va = s.pteOf c va := fun va => by
    simp only [Kern.pteOf]
    exact congrArg (pteAt · s.dirs c (pdx va) (ptx va)) hmem
  have hinert : ∀ va, Inert (s.withVm v) c va ↔ Inert s c va := fun va => by
    unfold Inert
    rw [show (s.withVm v).vm = v from rfl, hmem]
    rfl
  have hlive : ∀ {va}, va < UTOP → present (s.pteOf c va) = true →
      ¬Inert s c va := fun hlt hp =>
    not_inert (v := s.vm) h hlt hp
  refine wp_undoDup h hv (index2fd_aligned new) (index2data_aligned new)
    (fun hfd hdata => ?_)
    (fun _ hlt hp v' hset => ?_) (fun hlt hp v' hzero => ?_) fun hstop _ => ?_
  · rw [hinert] at hfd hdata
    exact iff_of_true ⟨hneg, fun va _ => hpte va⟩ ⟨hfd, hdata⟩
  · rw [hpte] at hp
    refine iff_of_false (fun hun => ?_) fun hin => hlive hlt hp hin.2
    have hsame := hun.2 _ ⟨hlt, index2data_aligned new⟩
    rw [hset.pteOf h.lt ⟨hlt, index2data_aligned new⟩
      ⟨hlt, index2data_aligned new⟩, if_pos rfl] at hsame
    rw [← hsame] at hp
    exact absurd hp (by decide)
  · rw [hpte] at hp
    refine iff_of_false (fun hun => ?_) fun hin => hlive hlt hp hin.1
    have hsame := hun.2 _ ⟨hlt, index2fd_aligned new⟩
    rw [hzero] at hsame
    rw [← hsame] at hp
    exact absurd hp (by decide)
  · rw [hinert, hinert] at hstop
    rintro ⟨hfd, hdata⟩
    exact hstop.elim (fun hno => hno hfd) fun hno => hno.1 hdata

/-- The error path after the data page has been mapped. -/
theorem wp_undoDup_second {v₁ : Vm} (hneg : r.slt 0 = true) (hu : UserPte w)
    (hdst : userPage (index2data new))
    (hfm : FirstMap L s c (index2data new) w v₁) (hmem : v.mem = v₁.mem)
    (hv : Shaped L s.dirs v) :
    Prog.wp (undoDup (index2fd new) (index2data new) r)
      (fun r t => Unchanged s c r t ↔ s.pteOf c (index2data new) = 0
        ∧ Undoable s c new)
      (fun _ => False) (fun _ _ =>
        ¬(s.pteOf c (index2data new) = 0 ∧ Undoable s c new)) (s.withVm v) := by
  have hpte : ∀ va, userPage va → (s.withVm v).pteOf c va
      = if va = index2data new then again w else s.pteOf c va :=
    fun va hva => by
    rw [← hfm.pte va hva]
    simp only [Kern.pteOf]
    exact congrArg (pteAt · s.dirs c (pdx va) (ptx va)) hmem
  have hinert : Inert (s.withVm v) c (index2fd new) ↔ Undoable s c new := by
    unfold Inert Undoable
    rw [show (s.withVm v).vm = v from rfl, hmem]
    exact or_congr_right (hfm.table _)
  have hpres : present ((s.withVm v).pteOf c (index2data new)) = true := by
    rw [hpte _ hdst, if_pos rfl]
    exact present_again hu
  refine wp_undoDup h hv (index2fd_aligned new) (index2data_aligned new)
    (fun _ hdata => ?_)
    (fun hfd hlt hp v' hset => ?_) (fun hlt hp v' hzero => ?_) fun hstop _ => ?_
  · exact absurd hdata (not_inert h hdst.1 hpres)
  · rw [and_iff_left (hinert.mp hfd)]
    constructor
    · intro hun
      rw [← hun.2 _ hdst, hset.pteOf h.lt hdst hdst, if_pos rfl]
    · intro hz
      refine ⟨hneg, fun va hva => ?_⟩
      rw [hset.pteOf h.lt hdst hva]
      by_cases he : va = index2data new
      · rw [if_pos he, he, hz]
      · rw [if_neg he, hpte va hva, if_neg he]
  · have hfda : userPage (index2fd new) := ⟨hlt, index2fd_aligned new⟩
    refine iff_of_false (fun hun => ?_) fun hz =>
      not_inert h hlt hp (hinert.mpr hz.2)
    have hsame := hun.2 _ hfda
    rw [hpte _ hfda, if_neg (index2fd_ne new), ← hsame, hzero] at hp
    exact absurd hp (by decide)
  · rintro ⟨-, hfd⟩
    rcases hstop with hno | ⟨-, hno⟩
    · exact hno (hinert.mpr hfd)
    · exact hno hpres

/-- The second mapping, when the data page has been mapped. -/
theorem wp_dupFd_stray {v₁ : Vm} (hold : FdOpen s c old)
    (hpres : present (s.pteOf c (index2data old)) = true)
    (hm : Mappable s c (s.pteOf c (index2data old)) (index2data new))
    (hfm : FirstMap L s c (index2data new) (s.pteOf c (index2data old)) v₁) :
    Prog.wp (dupFd (index2fd old) (index2fd new) (index2data new) new)
      (fun r t => Unchanged s c r t ↔ StrayDup s c old new) (fun _ => False)
      (fun _ _ => ¬StrayDup s c old new) (s.withVm v₁) := by
  have hsrc := userPage_index2fd hold.1
  have hdata := hfm.pte _ hsrc
  have hpte_present : present ((s.withVm v₁).pteOf c (index2fd old)) =
      true := by
    rw [hdata]
    split
    · exact present_again hm.user
    · exact hold.2
  obtain ⟨pt, hpt⟩ := table_of_present h.dirs hpte_present
  -- the entry that the second mapping reads
  have hentry : s.pteOf c (index2data new) = 0 ∨ s.pteOf c (index2data new) =
      again (s.pteOf c (index2data old)) →
      (s.withVm v₁).pteOf c (index2fd old) = s.pteOf c (index2fd old) := by
    intro hz
    rw [hdata]
    by_cases he : index2fd old = index2data new
    · rw [if_pos he, he]
      refine (hz.resolve_left fun hz => ?_).symm
      have hp := hold.2
      rw [he, hz] at hp
      exact absurd hp (by decide)
    · exact if_neg he
  have hnothing : ¬(if present (s.pteOf c (index2data old)) then
      ¬Mappable s c (s.pteOf c (index2data old)) (index2data new)
      else ¬Mappable s c (s.pteOf c (index2fd old)) (index2fd new)) := by
    rw [if_pos hpres]
    exact not_not.mpr hm
  have hundo : ∀ r v', r.slt 0 = true → v'.mem = v₁.mem → Shaped L s.dirs v' →
      (StrayDup s c old new ↔ s.pteOf c (index2data new) = 0
        ∧ Undoable s c new) →
      Prog.wp (undoDup (index2fd new) (index2data new) r)
        (fun r t => Unchanged s c r t ↔ StrayDup s c old new) (fun _ => False)
        (fun _ _ => ¬StrayDup s c old new) (s.withVm v') := by
    intro r v' hneg hmem hv' hiff
    simp only [hiff]
    exact wp_undoDup_second h hneg hm.user hm.page hfm hmem hv'
  apply Prog.wp_bind_intro
  by_cases hok : UserPte ((s.withVm v₁).pteOf c (index2fd old))
    ∧ userPage (index2fd new)
  swap
  · -- the kernel refuses the Fd page
    refine wp_mapAgain_refused h hfm.shaped hsrc hpt rfl hok ?_
    refine Prog.wp_ite _ (fun hneg => hundo _ _ hneg rfl hfm.shaped ⟨?_, ?_⟩)
      fun hno => absurd (by decide) hno
    · rintro (⟨hno, -⟩ | ⟨-, hfd, ha⟩ | ⟨-, -, hz, hfd⟩)
      · exact absurd hno hnothing
      · refine absurd ⟨?_, hfd.page⟩ hok
        rw [hentry (.inr (ha hpres).entry)]
        exact hfd.user
      · exact ⟨hz, hfd.imp_right fun hfd => ⟨hfd.1, hfd.2.1⟩⟩
    · rintro ⟨hz, hfd⟩
      refine .undone hpres hm hz ?_
      by_cases hF : userPage (index2fd new)
      · refine hfd.imp_right fun hfd =>
          ⟨hfd.1, hfd.2, .inl fun hu => hok ⟨?_, hF⟩⟩
        rwa [hentry (.inl hz)]
      · exact .inl (BitVec.not_lt.mp fun hlt => hF ⟨hlt, index2fd_aligned new⟩)
  obtain ⟨hu, hF⟩ := hok
  have hlow : ¬UTOP ≤ index2fd new := BitVec.not_le.mpr hF.1
  cases hq : v₁.mem.link (s.envs c).envPgdir (pdx (index2fd new)) with
  | some q =>
      -- both pages are mapped
      refine wp_mapAgain_table h hfm.shaped hsrc hpt rfl hu hF hq
        fun v₂ hset _ => ?_
      refine Prog.wp_ite _ (fun hneg => absurd hneg (by decide)) fun _ =>
        Prog.wp_pure_intro ⟨?_, ?_⟩
      · rintro ⟨hneg, hun⟩
        have hD := hun _ hm.page
        rw [hset.pteOf h.lt hF hm.page, if_neg (index2fd_ne new).symm,
          hfm.pte _ hm.page, if_pos rfl] at hD
        have hFd := hun _ hF
        rw [hset.pteOf h.lt hF hF, if_pos rfl, hentry (.inr hD.symm)] at hFd
        rw [hentry (.inr hD.symm)] at hu
        exact .already hneg ⟨hu, hF, hFd.symm⟩ fun _ =>
          ⟨hm.user, hm.page, hD.symm⟩
      · rintro (⟨hno, -⟩ | ⟨hneg, hfd, ha⟩ | ⟨-, -, hz, hfd⟩)
        · exact absurd hno hnothing
        · refine ⟨hneg, fun va hva => ?_⟩
          rw [hset.pteOf h.lt hF hva, hfm.pte va hva,
            hentry (.inr (ha hpres).entry)]
          by_cases hvF : va = index2fd new
          · rw [if_pos hvF, hvF, hfd.entry]
          · rw [if_neg hvF]
            by_cases hvD : va = index2data new
            · rw [if_pos hvD, hvD, (ha hpres).entry]
            · rw [if_neg hvD]
        · have hnone := (hfm.table _).mpr ⟨(hfd.resolve_left hlow).1,
            (hfd.resolve_left hlow).2.1⟩
          cases hq.symm.trans hnone
  | none =>
      have hno := (hfm.table _).mp hq
      have habs : s.pteOf c (index2fd new) = 0 :=
        pteOf_noTable (u := s) (v := s.vm) h.dirs hno.1
      have hFd_ne : s.pteOf c (index2fd new) ≠ again (s.pteOf c (index2fd old))
          ∨ ¬UserPte (s.pteOf c (index2fd old)) := by
        by_cases hu : UserPte (s.pteOf c (index2fd old))
        · refine .inl fun he => ?_
          have hp := present_again hu
          rw [← he, habs] at hp
          exact absurd hp (by decide)
        · exact .inr hu
      cases hfirst : v₁.pageFreeList.first with
      | none =>
          -- there is no memory for the page table of the Fd slot
          refine wp_mapAgain_noMem h hfm.shaped hsrc hpt rfl hu hF hq hfirst ?_
          refine Prog.wp_ite _ (fun hneg => hundo _ _ hneg rfl ?_ ⟨?_, ?_⟩)
            fun hno => absurd (by decide) hno
          · exact ⟨hfm.shaped.npage, hfm.shaped.tree, hfm.shaped.opened,
              hfm.shaped.dir_lt⟩
          · rintro (⟨hno, -⟩ | ⟨-, hfd, -⟩ | ⟨-, -, hz, -⟩)
            · exact absurd hno hnothing
            · exact absurd hfd.user (hFd_ne.resolve_left fun hne =>
                hne hfd.entry)
            · exact ⟨hz, .inr hno⟩
          · rintro ⟨hz, -⟩
            refine .undone hpres hm hz (.inr ⟨hno.1, hno.2, .inr ?_⟩)
            rw [← hfm.spare (by rw [hz]; decide), hfirst]
      | some q =>
          -- a page table is added, and the Fd page is mapped where nothing was
          obtain ⟨hqu, hqd⟩ := hfm.first q hfirst
          refine wp_mapAgain_new h hfm.shaped hsrc hpt rfl hu hF hq hfirst hqu
            hqd fun v₂ _ hnew _ => ?_
          refine Prog.wp_ite _ (fun hneg => absurd hneg (by decide)) fun _ =>
            Prog.wp_pure_intro ?_
          refine iff_of_false (fun hun => ?_) ?_
          · have hsame := hun.2 _ hF
            rw [hnew, habs] at hsame
            have hp := present_again hu
            rw [hsame] at hp
            exact absurd hp (by decide)
          · rintro (⟨hno, -⟩ | ⟨-, hfd, -⟩ | ⟨-, -, hz, hfd⟩)
            · exact absurd hno hnothing
            · exact absurd hfd.user (hFd_ne.resolve_left fun hne =>
                hne hfd.entry)
            · rw [hentry (.inl hz)] at hu
              rcases (hfd.resolve_left hlow).2.2 with hno | hnone
              · exact hno hu
              · rw [← hfm.spare (by rw [hz]; decide), hfirst] at hnone
                cases hnone

/-- `dup` after `close`, for a number that is no descriptor. -/
theorem wp_dupPages_stray (hold : FdOpen s c old) :
    Prog.wp (dupPages (index2fd old) new) (fun r t => Unchanged s c r t ↔
      StrayDup s c old new)
      (fun _ => False) (fun _ _ => ¬StrayDup s c old new) s := by
  have hv := h.shaped
  have hsrc := userPage_index2data hold.1
  apply Prog.wp_bind_intro
  rw [fd2data_index2fd old, fd2data_index2fd new]
  apply Prog.wp_bind_intro
  refine wp_pagePresent (u := s) (v := s.vm) h hv hsrc.1 ?_
  refine Prog.wp_ite _ (fun hpres => ?_) fun hpres => Prog.wp_pure_intro ?_
  · refine wp_mapAgain_first h hsrc rfl hpres (fun hno r v' hneg hmem hv' => ?_)
      fun hm v₁ hfm => ?_
    · refine Prog.wp_ite _ (fun _ => ?_) fun hpos => absurd hneg hpos
      have hiff : StrayDup s c old new ↔ Inert s c (index2fd new)
          ∧ Inert s c (index2data new) := by
        refine ⟨?_, fun hin => .nothing (by
          rw [if_pos (show present (s.pteOf c (index2data old)) from hpres)];
          exact hno) hin.1 hin.2⟩
        rintro (⟨-, hfd, hdata⟩ | ⟨-, -, ha⟩ | ⟨-, hm, -⟩)
        · exact ⟨hfd, hdata⟩
        · exact absurd (already_mappable h (ha hpres)) hno
        · exact absurd hm hno
      simp only [hiff]
      exact wp_undoDup_first h hneg hmem hv'
    · refine Prog.wp_ite _ (fun hneg => absurd hneg (by decide)) fun _ => ?_
      exact wp_dupFd_stray h hold hpres hm hfm
  · refine Prog.wp_ite _ (fun hneg => absurd hneg (by decide)) fun _ => ?_
    have hnp : ¬present (s.pteOf c (index2data old)) = true := hpres
    apply Prog.wp_bind_intro
    refine wp_mapAgain_first h (userPage_index2fd hold.1) rfl hold.2
      (fun hno r v' hneg hmem hv' => ?_)
      fun hm v₁ hfm => ?_
    · refine Prog.wp_ite _ (fun _ => ?_) fun hpos => absurd hneg hpos
      have hiff : StrayDup s c old new ↔ Inert s c (index2fd new)
          ∧ Inert s c (index2data new) := by
        refine ⟨?_, fun hin => .nothing (by rw [if_neg hnp]; exact hno)
          hin.1 hin.2⟩
        rintro (⟨-, hfd, hdata⟩ | ⟨-, ha, -⟩ | ⟨hp, -⟩)
        · exact ⟨hfd, hdata⟩
        · exact absurd (already_mappable h ha) hno
        · exact absurd hp hnp
      simp only [hiff]
      exact wp_undoDup_first h hneg hmem hv'
    · refine Prog.wp_ite _ (fun hneg => absurd hneg (by decide)) fun _ =>
        Prog.wp_pure_intro ⟨?_, ?_⟩
      · rintro ⟨hneg, hun⟩
        have hF := hun _ hm.page
        rw [hfm.pte _ hm.page, if_pos rfl] at hF
        exact .already hneg ⟨hm.user, hm.page, hF.symm⟩ fun hp => absurd hp hnp
      · rintro (⟨hno, -⟩ | ⟨hneg, ha, -⟩ | ⟨hp, -⟩)
        · rw [if_neg hnp] at hno
          exact absurd hm hno
        · refine ⟨hneg, fun va hva => ?_⟩
          rw [hfm.pte va hva]
          by_cases he : va = index2fd new
          · rw [if_pos he, he, ha.entry]
            rfl
          · rw [if_neg he]
            rfl
        · exact absurd hp hnp

end Stray

/-! ## The whole call -/

theorem good_stray (hno : ¬new.toNat < MAXFD) :
    DupFails s t c old new r ∨ DupDone s t c old new r ↔ Unchanged s c r t := by
  constructor
  · rintro (hfail | hdone)
    · exact ⟨hfail.neg, fun va hva =>
        hfail.kept va hva fun hslot => hno hslot.1⟩
    · exact absurd hdone.lt hno
  · rintro ⟨hneg, hun⟩
    refine .inl ⟨hneg, fun ho => ⟨ho.1, ?_⟩, fun va hva _ => hun va hva⟩
    rw [hun _ (userPage_index2fd ho.1)]
    exact ho.2

theorem dupable_stray (hno : ¬new.toNat < MAXFD) (hold : FdOpen s c old) :
    Dupable s c old new ↔ StrayDup s c old new := by
  constructor
  · rintro (hclosed | hlt | ⟨-, h⟩)
    · exact absurd hold hclosed
    · exact absurd hlt hno
    · exact h
  · exact .stray hno

theorem wp_dup (h : InUser L s c) (ha : Flushes L fsipc s c) :
    Prog.wp (dup fsipc old new)
    (fun r t => DupFails s t c old new r ∨ DupDone s t c old new r ↔
      Dupable s c old new)
    (fun _ => False) (fun _ _ => ¬Dupable s c old new) s := by
  apply Prog.wp_bind_intro
  refine wp_lookup (u := s) (v := s.vm) h h.shaped (fun hold => ?_) fun hno =>
    Prog.wp_pure_intro ?_
  swap
  · exact iff_of_true (.inl ⟨by decide, fun ho => absurd ho hno, fun _ _ _ =>
      rfl⟩) (.closed hno)
  replace hold : FdOpen s c old := hold
  obtain ⟨pt, hpt⟩ := table_of_present (v := s.vm) h.dirs hold.2
  rw [pdx_index2fd hold.1] at hpt
  apply Prog.wp_bind_intro
  refine wp_close h ha (fun hno _ => ?_) (fun hopen hbad _ => ?_)
    fun hopen hu _ u v hin hv htab hsame => ?_
  · by_cases hlt : new.toNat < MAXFD
    · have hready : SlotsReady L s s c old new s.vm :=
        ⟨h, h.shaped, ⟨pt, hpt⟩, fun hp => hno ⟨hlt, hp⟩, fun _ _ _ _ => rfl⟩
      exact hready.wp_dupPages hlt hold (fun ho => absurd ho hno) rfl
    · simp only [good_stray hlt, dupable_stray hlt hold]
      exact wp_dupPages_stray h hold
  · rintro (hclosed | ⟨-, -, -, -, -, hnew⟩ | ⟨hstray, -⟩)
    · exact hclosed hold
    · exact hbad (hnew hopen)
    · exact hstray hopen.1
  · have hready : SlotsReady L s u c old new v := by
      refine ⟨hin, hv, htab, ?_, fun va hva hne _ => ?_⟩
      · rw [hsame _ (userPage_index2fd hopen.1), if_pos rfl]
        decide
      · rw [hsame va hva, if_neg hne]
        rfl
    refine hready.wp_dupPages hopen.1 hold (fun _ => hu) ?_
    rw [hsame _ (userPage_index2data hopen.1), if_neg (index2fd_ne new).symm]
    rfl

/-- `dup` duplicates or does nothing if `oldfdnum` is closed, or if `newfdnum`
is another descriptor, and in the few cases in which a `newfdnum` that is none
does no harm; and only then. -/
theorem dup_duplicates (h : InUser L s c) (ha : Flushes L fsipc s c) :
    Dups fsipc s c old new ↔ Dupable s c old new := by
  have hwp : Prog.wp (dup fsipc old new) _ _ _ s := wp_dup h ha
  constructor
  · rintro ⟨r, t, hret, hgood⟩
    exact (hwp.ret hret).mp hgood
  · intro hd
    cases hrun : dup fsipc old new s with
    | ret r t => exact ⟨r, t, hrun, (hwp.ret hrun).mpr hd⟩
    | away t => exact (hwp.away hrun).elim
    | stop x t => exact absurd hd (hwp.stop hrun)

end

/-! ## A small instance -/

/-- The small kernel when environment 2 has a page in the slot of descriptor
0. -/
def fdKern : Kern := (Jos.sysPageAlloc 0 FDTABLE (PTE_P ||| PTE_U ||| PTE_W)
  (smallUserKern 5)).state

theorem fdKern_inUser : InUser (smallLayout 5 (by decide)) fdKern 2 :=
  (smallUserKern_inUser (by decide)).sysPageAlloc_state (by decide) (by decide)
    (target_pte_none (smallUserKern_inUser (k := 5) (by decide)).dirs
    (smallUserVm_link (by decide)))

/-- A file server that always answers 0. -/
def quietServer : FsCall := fun _ _ _ => pure 0

theorem quietServer_flushes {L : Layout} {s : Kern} {c : Nat}
    (h : InUser L s c) : Flushes L quietServer s c :=
  fun _ => ⟨0, s, rfl, h, fun _ _ => rfl⟩

/-- `dup(0, 1)` makes descriptor 1 a duplicate of 0. -/
theorem dup_duplicates_one : Dups quietServer fdKern 2 0 1 := by
  refine (dup_duplicates fdKern_inUser
    (quietServer_flushes fdKern_inUser)).mpr ?_
  refine .slot (by decide) (by decide) ?_ ?_ ?_ ?_
  all_goals decide +kernel

/-- `dup(0, 32)` returns 32, which is no descriptor. -/
theorem dup_stray : ¬∀ (L : Layout) (fsipc : FsCall) (s : Kern) (c : Nat)
      (oldfdnum newfdnum : Word),
    InUser L s c → Flushes L fsipc s c → Dups fsipc s c oldfdnum newfdnum := by
  intro hall
  obtain ⟨r, t, hret, hgood⟩ :=
    hall _ quietServer fdKern 2 0 32 fdKern_inUser
      (quietServer_flushes fdKern_inUser)
  have hrun : (dup quietServer 0 32 fdKern).returned.map Prod.fst =
      some 32 := by decide +kernel
  rw [hret] at hrun
  obtain rfl : r = 32 := Option.some.inj hrun
  rcases hgood with hfail | hdone
  · exact absurd hfail.neg (by decide)
  · exact absurd hdone.lt (by decide)

end Jos
