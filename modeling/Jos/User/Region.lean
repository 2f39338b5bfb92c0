import Jos.Lib.Window
import Jos.User.Munmap

/-!
# Where `mmap` puts a mapping

The search for an address steps through the bytes of the address space and
counts the ones in a row that are not mapped, but it stops at the number of
pages that are needed, and goes back from there by pages. For one page the two
are the same.
-/

namespace Jos

/-- The pages that are mapped after a call, where `M` are mapped before it. -/
def mapsAfter (x : Call × Answer) (M : Nat → Bool) : Nat → Bool :=
  match x.1 with
  | .pageAlloc env va _ | .pageMap _ _ env va _ =>
      if env = 0 ∧ ¬x.2.ret.slt 0 then Function.update M (ppn va) true else M
  | .pageUnmap env va =>
      if env = 0 ∧ ¬x.2.ret.slt 0 then Function.update M (ppn va) false else M
  | _ => M

/-- The pages that are mapped after the calls of `T`. -/
def mappedIn (M : Nat → Bool) (T : Trace) : Nat → Bool := T.foldr mapsAfter M

/-- `pageref` tells which pages are mapped, which are `M` after the calls of
`T`. -/
def Truthful (h : Host) (M : Nat → Bool) (T : Trace) : Prop :=
  ∀ added va, (h (added ++ T) (.pageref va)).ret = 0 ↔
    ¬mappedIn M added (ppn va)

section

variable {h : Host} {M : Nat → Bool} {T : Trace} {c : Call} {a : Answer}

theorem mappedIn_append {T' : Trace} :
    mappedIn M (T' ++ T) = mappedIn (mappedIn M T) T' := List.foldr_append

theorem Truthful.asked (ht : Truthful h M T) :
    Truthful h (mapsAfter (c, a) M) ((c, a) :: T) := by
  intro added va
  have htrue := ht (added ++ [(c, a)]) va
  rw [mappedIn_append, List.append_assoc] at htrue
  exact htrue

theorem Truthful.pageref (ht : Truthful h M T) (va : Word) :
    (h T (.pageref va)).ret = 0 ↔ ¬M (ppn va) := ht [] va

end

namespace Mmap

/-- The number of pages that a mapping needs. -/
def sizePages (length : Word) : Nat := (length.toNat + (PGSIZE - 1)) / PGSIZE

/-- The first page that a mapping may have, and the one behind the last. -/
def lowPage : Nat := ppn UTEXT
def highPage : Nat := ppn (USTACKTOP - PGSZ)

/-- `n` pages from `s` on that are not mapped, where mappings go. -/
abbrev Region (M : Nat → Bool) (n s : Nat) : Prop :=
  Window (fun i => ¬M i) lowPage highPage n s

/-- The answer of `mmap` is a region, or there is none. -/
def Chooses (M : Nat → Bool) (length r : Word) : Prop :=
  if r = MAP_FAILED then ∀ s, ¬Region M (sizePages length) s
  else r = page2pa (ppn r) ∧ Region M (sizePages length) (ppn r)

/-- The descriptor can be mapped with this protection; an anonymous mapping has
none. -/
def Mappable (h : Host) (prot mode fd : Word) (T : Trace) : Prop :=
  if mode &&& MAP_ANONYMOUS ≠ 0 then fd = -1
  else ¬(h T (.fdLookup fd)).ret.slt 0 ∧ ¬Denies prot (h T (.fdLookup fd)).omode

/-- The number of pages that hold as many bytes as the mapping has pages. -/
def searchPages (length : Word) : Nat :=
  (sizePages length + (PGSIZE - 1)) / PGSIZE

/-- When the search is right: for one page; for a size whose count of bytes
never comes up; and where there is not even place for as many bytes as there are
pages, or the address that comes of the first such place happens to be
`MAP_FAILED`, and rightly so. -/
def Searchable (M : Nat → Bool) (length : Word) : Prop :=
  length.toNat ≤ PGSIZE ∨ 0xFFFFF000 < length.toNat ∨
    ∀ s, FirstWindow (fun i => ¬M i) lowPage highPage (searchPages length) s →
      PGSIZE * s + 1 = (PGSIZE - 1) * (sizePages length - 1) ∧ ∀ s',
      ¬Region M (sizePages length) s'

section

variable {h : Host} {M : Nat → Bool} {p t : Proc}
  {length prot mode fd offset st cnt r : Word} {m n s : Nat}
  {A : Proc → Prop} {E : UserStop → Proc → Prop}

/-! ## The search -/

theorem le_size_iff {c : Nat} (hc : c < 2 ^ 20) :
    length ≤ BitVec.ofNat 32 c * PGSZ ↔ sizePages length ≤ c := by
  have hlt := length.isLt
  have hP : PGSZ.toNat = 4096 := rfl
  rw [BitVec.le_def, BitVec.toNat_mul, hP, BitVec.toNat_ofNat,
    sizePages, PGSIZE]
  omega

/-- The search finds the first place for as many bytes as there are pages. -/
theorem wp_searchLoop (htrue : Truthful h M p.trace)
    (hpos : 0 < sizePages length) (hlt : sizePages length < 2 ^ 20)
    (hcount : Counting (fun a => ¬M (a / PGSIZE)) UTEXT.toNat
      (sizePages length) st.toNat s cnt.toNat)
    (hcnt : cnt.toNat < sizePages length)
    (hend : st.toNat + n = (USTACKTOP - PGSZ).toNat) :
    Prog.wp (searchLoop h length n st cnt) (fun o _ =>
      (∀ r, o = some r → ∃ s, FirstWindow (fun a => ¬M (a / PGSIZE)) UTEXT.toNat
        (USTACKTOP - PGSZ).toNat
        (sizePages length) s ∧ (r.toNat + PGSIZE * (sizePages length - 1)) %
          2 ^ 32 = s + (sizePages length - 1)) ∧
      (o = none → ∀ s, ¬Window (fun a => ¬M (a / PGSIZE)) UTEXT.toNat
        (USTACKTOP - PGSZ).toNat (sizePages length) s))
      A E p := by
  have htop : (USTACKTOP - PGSZ).toNat = 0xEEBFD000 := rfl
  induction n generalizing st cnt p s with
  | zero =>
      rw [Nat.add_zero] at hend
      exact Prog.wp_pure_intro ⟨nofun, fun _ => hend ▸ hcount.none⟩
  | succ n ih =>
      have hnext : (st + 1).toNat = st.toNat + 1 := by
        rw [BitVec.toNat_add, show (1 : Word).toNat = 1 from rfl]
        omega
      have hppn : ppn st = st.toNat / PGSIZE := ppn_eq st
      apply Prog.wp_bind_intro
      refine wp_call ?_
      have htrue' :=
        htrue.asked (c := .pageref st) (a := h p.trace (.pageref st))
      by_cases hfree : M (ppn st)
      · -- a mapped byte: the count begins anew
        rw [if_neg fun hzero => (htrue.pageref st).mp hzero hfree]
        have hmore : ¬length ≤ (0 : Word) * PGSZ := by
          rw [show (0 : Word) = BitVec.ofNat 32 0 from rfl,
            le_size_iff (by omega)]
          omega
        rw [hppn] at hfree
        have hreset := hcount.reset (not_not.mpr hfree) hpos
        rw [← hnext] at hreset
        exact Prog.wp_ite _ (fun hle => absurd hle hmore) fun _ =>
          ih htrue' hreset hpos (by omega)
      · rw [if_pos ((htrue.pageref st).mpr hfree)]
        have hsucc : cnt + 1 = BitVec.ofNat 32 (cnt.toNat + 1) := by
          rw [BitVec.ofNat_add, BitVec.ofNat_toNat, BitVec.setWidth_eq]
          rfl
        have hcntnat : (cnt + 1).toNat = cnt.toNat + 1 := by
          rw [hsucc, BitVec.toNat_ofNat]
          omega
        rw [hppn] at hfree
        refine Prog.wp_ite _ (fun hle =>
          Prog.wp_pure_intro ⟨fun r hr => ?_, nofun⟩) fun hmore => ?_
        · rw [hsucc, le_size_iff (by omega)] at hle
          have hlast : cnt.toNat + 1 = sizePages length := by omega
          have hhere := hcount.here
          refine ⟨s, hcount.found hfree hlast (by omega), ?_⟩
          have hP : PGSZ.toNat = 4096 := rfl
          have hst := st.isLt
          obtain rfl := Option.some.inj hr
          rw [← hlast, Nat.add_sub_cancel, BitVec.toNat_sub, BitVec.toNat_mul,
            hP, BitVec.toNat_sub, hcntnat,
            show (1 : Word).toNat = 1 from rfl, PGSIZE]
          omega
        · rw [hsucc, le_size_iff (by omega)] at hmore
          have hstep := hcount.step hfree (by omega)
          rw [← hnext, ← hcntnat] at hstep
          exact ih htrue' hstep (by omega) (by omega)

/-- A count of bytes in units of pages does not come up to the largest sizes. -/
theorem wp_searchLoop_huge (hlen : 0xFFFFF000 < length.toNat) :
    Prog.wp (searchLoop h length n st cnt) (fun o _ => o = none) A E p := by
  have hnever : ∀ c : Word, ¬length ≤ c * PGSZ := by
    intro c hle
    have hP : PGSZ.toNat = 4096 := rfl
    rw [BitVec.le_def, BitVec.toNat_mul, hP] at hle
    omega
  induction n generalizing st cnt p with
  | zero => exact Prog.wp_pure_intro rfl
  | succ n ih =>
      apply Prog.wp_bind_intro
      refine wp_call (Prog.wp_ite _ (fun hle => absurd hle (hnever _))
        fun _ => ih)

/-- What the search comes to: the address that it computes from the first place
for as many bytes as there are pages. -/
structure Searched (M : Nat → Bool) (length : Word) (o : Option Word) :
    Prop where
  found : ∀ r, o = some r → sizePages length < 2 ^ 20 ∧ ∃ s,
    FirstWindow (fun i => ¬M i) lowPage highPage (searchPages length) s ∧
    (r.toNat + PGSIZE * (sizePages length - 1)) % 2 ^ 32 =
      PGSIZE * s + (sizePages length - 1)
  missed : o = none → 0xFFFFF000 < length.toNat ∨ ∀ s,
    ¬Region M (searchPages length) s

theorem sizePages_pos (h0 : length ≠ 0) : 0 < sizePages length := by
  have hne : length.toNat ≠ 0 := fun hz => h0 (BitVec.eq_of_toNat_eq hz)
  rw [sizePages, PGSIZE]
  omega

theorem wp_choose (h0 : length ≠ 0) (htrue : Truthful h M p.trace) :
    Prog.wp (choose h 0 length) (fun o _ => Searched M length o) A E p := by
  have hpos := sizePages_pos h0
  have hlow : UTEXT.toNat = PGSIZE * lowPage := rfl
  have hhigh : (USTACKTOP - PGSZ).toNat = PGSIZE * highPage := rfl
  have hk : PGSIZE * searchPages length < sizePages length + PGSIZE ∧
      sizePages length ≤ PGSIZE * searchPages length := by
    rw [searchPages, PGSIZE]
    omega
  rw [choose, if_neg (not_not.mpr rfl)]
  by_cases hhuge : 0xFFFFF000 < length.toNat
  · refine Prog.wp_imp (wp_searchLoop_huge hhuge)
      (fun o _ hnone => ⟨fun r hr => ?_, fun _ => .inl hhuge⟩)
      (fun _ h => h) fun _ _ h => h
    rw [hnone] at hr
    cases hr
  · have hlt : sizePages length < 2 ^ 20 := by
      rw [sizePages, PGSIZE]
      omega
    have hcount : Counting (fun a => ¬M (a / PGSIZE)) UTEXT.toNat
        (sizePages length) UTEXT.toNat UTEXT.toNat
      (0 : Word).toNat := Counting.start hpos
    refine Prog.wp_imp (wp_searchLoop htrue hpos hlt hcount hpos rfl)
      (fun o _ ho => ⟨fun r hr => ⟨hlt, ?_⟩, fun hr => .inr ?_⟩)
      (fun _ h => h) fun _ _ h => h
    · obtain ⟨s, hfirst, hr⟩ := ho.1 r hr
      rw [hlow, hhigh] at hfirst
      obtain ⟨hs, hblocks⟩ := @FirstWindow.blocks (fun i => ¬M i) _ _ _ _ _ _
        hfirst (by decide) hpos hk.1 hk.2
      exact ⟨_, hblocks, hs ▸ hr⟩
    · intro s hwin
      have hnone := ho.2 hr
      rw [hlow, hhigh] at hnone
      exact hnone _ (hwin.positions hk.2 (by decide))

/-- The tests of a file that can be mapped. -/
theorem refuses_file (hmode : mode &&& MAP_ANONYMOUS = 0)
    (hmap : Mappable h prot mode fd p.trace) :
    refuses h prot mode fd p =
      .ret false (p.asked (.fdLookup fd) (h p.trace (.fdLookup fd))) := by
  rw [Mappable, if_neg (not_not.mpr hmode)] at hmap
  rw [refuses, if_neg (not_not.mpr hmode), Prog.bind_ret call_apply, panicOn,
    if_neg hmap.1,
    Prog.bind_ret (by rfl), decide_eq_false hmap.2]
  rfl

/-- What `mmap` returns is what the search comes to. -/
theorem searched_of_mmap (h0 : length ≠ 0) (htrue : Truthful h M p.trace)
    (hmap : Mappable h prot mode fd p.trace)
    (hret : mmap h 0 length prot mode fd offset p = .ret r t) :
    ∃ o, Searched M length o ∧ (o = none ∧ r = MAP_FAILED ∨ o = some r) := by
  have hrefuses : ∃ q, refuses h prot mode fd p = .ret false q ∧
      Truthful h M q.trace := by
    by_cases hanon : mode &&& MAP_ANONYMOUS = 0
    · exact ⟨_, refuses_file hanon hmap, htrue.asked (c := .fdLookup fd)⟩
    · refine ⟨p, ?_, htrue⟩
      rw [Mappable, if_pos hanon] at hmap
      rw [refuses, if_pos hanon, hmap]
      rfl
  obtain ⟨q, hq, htrue'⟩ := hrefuses
  have hwp : Prog.wp (mmap h 0 length prot mode fd offset)
      (fun r _ => ∃ o, Searched M length o ∧
        (o = none ∧ r = MAP_FAILED ∨ o = some r)) (fun _ =>
          True) (fun _ _ => True) p := by
    rw [mmap]
    apply Prog.wp_bind_intro
    refine Prog.wp_ret hq
      (Prog.wp_ite _ (fun hb => absurd hb Bool.false_ne_true) fun _ => ?_)
    apply Prog.wp_bind_intro
    refine Prog.wp_imp (wp_choose h0 htrue') (fun o u ho => ?_) (fun _ h => h)
      fun _ _ h => h
    cases o with
    | none => exact Prog.wp_pure_intro ⟨none, ho, .inl ⟨rfl, rfl⟩⟩
    | some x =>
        have hrecord :
            ∀ u, Prog.wp (do record ⟨x, mode, fd, offset⟩; pure x : ProcM Word)
            (fun r _ => ∃ o, Searched M length o ∧
              (o = none ∧ r = MAP_FAILED ∨ o = some r)) (fun _ => True)
            (fun _ _ => True) u := fun u =>
            Prog.wp_ret rfl ⟨some x, ho, .inr rfl⟩
        refine Prog.wp_ite _ (fun _ => ?_) fun _ => hrecord u
        apply Prog.wp_bind_intro
        exact Prog.wp_of_runs (fun _ u _ => hrecord u) (fun _ _ => trivial)
          fun _ _ _ => trivial
  exact hwp.ret hret

/-! ## What comes of it -/

theorem Region.few {k : Nat} (h : Region M n s) (hk : k ≤ n) : Region M k s :=
  ⟨h.le, Nat.le_trans (Nat.add_le_add_left hk _) h.fits, fun i hi =>
    h.all i (Nat.lt_of_lt_of_le hi hk)⟩

/-- With more than one page the address is not that of a region. -/
theorem not_region_of_pages (hn : 1 < sizePages length)
    (hlt : sizePages length < 2 ^ 20)
    (hfirst : FirstWindow (fun i => ¬M i) lowPage highPage
      (searchPages length) s)
    (hr : (r.toNat + PGSIZE * (sizePages length - 1)) % 2 ^ 32 =
      PGSIZE * s + (sizePages length - 1)) :
    ¬(r = page2pa (ppn r) ∧ Region M (sizePages length) (ppn r)) := by
  rintro ⟨hpage, hregion⟩
  have hrlt := r.isLt
  have hnum := ppn_eq r
  have hlow : lowPage = 2048 := rfl
  have hhigh : highPage = 977917 := rfl
  have hnat := congrArg BitVec.toNat hpage
  rw [page2pa_toNat (by omega)] at hnat
  have hle := hregion.le
  have hfits := hregion.fits
  have hsfits := hfirst.window.fits
  have hsle := hfirst.window.le
  have hsum : r.toNat + PGSIZE * (sizePages length - 1) < 2 ^ 32 := by
    rw [PGSIZE]
    omega
  rw [Nat.mod_eq_of_lt hsum, PGSIZE] at hr
  by_cases hbefore : ppn r < s
  · -- the page before the first place is one of the region
    refine hfirst.edge (by omega) ?_
    have hfree := hregion.all (s - 1 - ppn r) (by omega)
    rwa [show ppn r + (s - 1 - ppn r) = s - 1 by omega] at hfree
  · omega

theorem chooses_iff (h0 : length ≠ 0) {o : Option Word}
    (ho : Searched M length o)
    (hr : o = none ∧ r = MAP_FAILED ∨ o = some r) :
    Chooses M length r ↔ Searchable M length := by
  have hpos := sizePages_pos h0
  have hfailed : MAP_FAILED.toNat = 0xFFFFFFFF := rfl
  have hlow : lowPage = 2048 := rfl
  have hhigh : highPage = 977917 := rfl
  have hone : length.toNat ≤ PGSIZE ↔ sizePages length = 1 := by
    rw [sizePages, PGSIZE]
    rw [sizePages, PGSIZE] at hpos
    omega
  have hhuge : 0xFFFFF000 < length.toNat ↔ 2 ^ 20 ≤ sizePages length := by
    rw [sizePages, PGSIZE]
    omega
  have hfew : searchPages length ≤ sizePages length := by
    rw [searchPages, PGSIZE]
    omega
  rw [Chooses, Searchable, hone, hhuge]
  rcases hr with ⟨hnone, rfl⟩ | hsome
  · rw [if_pos rfl]
    refine iff_of_true (fun s hregion => ?_) ?_
    · rcases ho.missed hnone with hlen | hno
      · have hfits := hregion.fits
        have := hhuge.mp hlen
        omega
      · exact hno s (hregion.few hfew)
    · rcases ho.missed hnone with hlen | hno
      · exact .inr (.inl (hhuge.mp hlen))
      · exact .inr (.inr fun s hfirst => absurd hfirst.window (hno s))
  · obtain ⟨hlt, s, hfirst, haddr⟩ := ho.found r hsome
    have hrlt := r.isLt
    have hsfits := hfirst.window.fits
    have hsle := hfirst.window.le
    by_cases hn : sizePages length = 1
    · -- one page: the first one that is not mapped
      have hk : searchPages length = 1 := by
        rw [searchPages, hn]
        rfl
      have hstart : r.toNat = PGSIZE * s := by
        simp only [PGSIZE, hn] at haddr ⊢
        omega
      have hppn : ppn r = s := by
        rw [ppn_eq, hstart, PGSIZE]
        omega
      refine iff_of_true ?_ (.inl hn)
      rw [if_neg]
      · refine ⟨BitVec.eq_of_toNat_eq ?_, ?_⟩
        · rw [page2pa_toNat (by omega), hppn, hstart, PGSIZE]
          omega
        · rw [hn, hppn, ← hk]
          exact hfirst.window
      · intro hr
        rw [hr, hfailed, PGSIZE] at hstart
        omega
    · have hmany : 1 < sizePages length := by omega
      have haccident : r = MAP_FAILED ↔
          PGSIZE * s + 1 = (PGSIZE - 1) * (sizePages length - 1) := by
        rw [← BitVec.toNat_inj, hfailed]
        simp only [PGSIZE] at haddr ⊢
        omega
      by_cases heq : r = MAP_FAILED
      · rw [if_pos heq]
        constructor
        · exact fun hno => .inr (.inr fun s' hfirst' =>
            ⟨hfirst.unique hfirst' ▸ haccident.mp heq, hno⟩)
        · rintro (hone' | hhuge' | hall)
          · exact absurd hone' hn
          · omega
          · exact (hall s hfirst).2
      · rw [if_neg heq]
        refine iff_of_false (not_region_of_pages hmany hlt hfirst haddr) ?_
        rintro (hone' | hhuge' | hall)
        · exact hn hone'
        · omega
        · exact heq (haccident.mpr (hall s hfirst).1)

/-- What `mmap` returns for a mapping anywhere is a region, or there is none,
exactly for these sizes. -/
theorem mmap_chooses_iff (h0 : length ≠ 0) (htrue : Truthful h M p.trace)
    (hmap : Mappable h prot mode fd p.trace)
    (hret : mmap h 0 length prot mode fd offset p = .ret r t) :
    Chooses M length r ↔ Searchable M length := by
  obtain ⟨o, ho, hr⟩ := searched_of_mmap h0 htrue hmap hret
  exact chooses_iff h0 ho hr

end

/-! ## In an empty address space -/

/-- Where the pages of `M` are mapped, and every call succeeds. -/
def spaceHost (M : Nat → Bool) : Host := fun T c =>
  match c with
  | .pageref va => ⟨if mappedIn M T (ppn va) then 1 else 0, fun _ => 0, 0⟩
  | _ => ⟨0, fun _ => 0, O_RDWR⟩

theorem spaceHost_truthful (M : Nat → Bool) : Truthful (spaceHost M) M [] := by
  intro added va
  rw [List.append_nil]
  show (if mappedIn M added (ppn va) then (1 : Word) else 0) = 0 ↔ _
  split_ifs with hmapped
  · exact iff_of_false (by decide) (not_not.mpr hmapped)
  · exact iff_of_true rfl hmapped

theorem spaceHost_mappable (M : Nat → Bool) (fd : Word) (T : Trace) :
    Mappable (spaceHost M) PROT_READ MAP_PRIVATE fd T := by
  rw [Mappable, if_neg (by decide)]
  exact ⟨(by decide : ¬(0 : Word).slt 0),
    (by decide : ¬Denies PROT_READ O_RDWR)⟩

/-- The address that `mmap` returns for `length` bytes of a file. -/
theorem mmap_empty {length r : Word}
    (h : (mmap (spaceHost fun _ => false) 0 length PROT_READ MAP_PRIVATE 0 0
      mappedOne).returned.map Prod.fst = some r) :
    ∃ t, mmap (spaceHost fun _ => false) 0 length PROT_READ MAP_PRIVATE 0 0
      mappedOne = .ret r t := by
  obtain ⟨⟨r, t⟩, hret, rfl⟩ := Option.map_eq_some_iff.mp h
  exact ⟨t, Outcome.returned_eq_some.mp hret⟩

theorem mmap_chooses_page : ∃ t, mmap (spaceHost fun _ => false) 0 1 PROT_READ
      MAP_PRIVATE 0 0 mappedOne = .ret UTEXT t ∧
    (Chooses (fun _ => false) 1 UTEXT ↔ Searchable (fun _ => false) 1) := by
  obtain ⟨t, ht⟩ := @mmap_empty 1 UTEXT (by decide +kernel)
  exact ⟨t, ht, mmap_chooses_iff (by decide) (spaceHost_truthful _)
    (spaceHost_mappable _ _ _) ht⟩

end Mmap

end Jos
