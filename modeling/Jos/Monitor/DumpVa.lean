import Jos.Monitor.Dump

/-!
# Dumping virtual addresses

The outer loop of `mon_dump_contents_va` goes from page to page, and the inner
one over the words of a page that has a page table. In the last page of the
address space the end of the page is 0, so that the inner loop does nothing and
the outer one does not get on.
-/

namespace Jos

namespace Dump

section

variable {v : Vm} {d n m : Nat} {a b now start last stop next next' cr3 : Word}
  {argv : Nat → Bytes} {as : List Word}
  {l lines : List Line} {t : Vm}

/-! ## The words of a page -/

/-- The addresses from `a` up to, and without, `m`. -/
def upTo (a : Word) (m : Nat) : List Word :=
  (List.range' a.toNat (m - a.toNat)).map (BitVec.ofNat 32)

theorem upTo_empty (h : m ≤ a.toNat) : upTo a m = [] := by
  rw [upTo, Nat.sub_eq_zero_of_le h]
  rfl

theorem upTo_cons (h : a.toNat < m) (hm : m < 2 ^ 32) :
    (a + 1).toNat = a.toNat + 1 ∧ upTo a m = a :: upTo (a + 1) m := by
  have hnext : (a + 1).toNat = a.toNat + 1 := by
    rw [BitVec.toNat_add, show (1 : Word).toNat = 1 from rfl]
    omega
  refine ⟨hnext, ?_⟩
  rw [upTo, upTo, hnext, show m - a.toNat = m - (a.toNat + 1) + 1 by omega,
    List.range'_succ, List.map_cons,
    BitVec.ofNat_toNat, BitVec.setWidth_eq]

theorem upTo_append (hab : a ≤ b) (hbm : b.toNat ≤ m) :
    upTo a m = upTo a b.toNat ++ upTo b m := by
  rw [BitVec.le_def] at hab
  rw [upTo, upTo, upTo, ← List.map_append]
  congr 1
  have happend := @List.range'_append a.toNat (b.toNat - a.toNat)
    (m - b.toNat) 1
  rw [Nat.one_mul, Nat.add_sub_cancel' hab,
    show b.toNat - a.toNat + (m - b.toNat) = m - a.toNat by omega] at happend
  exact happend.symm

theorem mem_upTo (hm : m ≤ 2 ^ 32) : b ∈ upTo a m ↔ a ≤ b ∧ b.toNat < m := by
  rw [upTo, List.mem_map, BitVec.le_def]
  constructor
  · rintro ⟨i, hi, rfl⟩
    rw [List.mem_range'_1] at hi
    rw [BitVec.toNat_ofNat, Nat.mod_eq_of_lt (by omega)]
    omega
  · rintro ⟨hab, hbm⟩
    refine ⟨b.toNat, ?_, by rw [BitVec.ofNat_toNat, BitVec.setWidth_eq]⟩
    rw [List.mem_range'_1]
    omega

/-- Where the words of the page of `a` end. -/
def segmentEnd (last a : Word) : Nat :=
  min (last.toNat + 1) (roundUpPage (a + 1)).toNat

theorem segment_eq : segment last a = upTo a (segmentEnd last a) := rfl

theorem addressesOf_eq :
    addressesOf start last = upTo start (last.toNat + 1) := rfl

/-- The inner loop returns exactly where all that it reads is mapped. -/
theorem dumpWords_iff (hm : m = min (last.toNat + 1) stop.toNat)
    (hn : m - next.toNat < n) :
    dumpWords cr3 last stop n next v = .ret (l, next') t ↔
    (∀ a ∈ upTo next m, Readable v cr3 a) ∧
      l = ((upTo next m).map fun a => .word a (wordAt v cr3 a)) ∧
      next' = (if next.toNat < m then BitVec.ofNat 32 m else next) ∧ t = v := by
  have hstop := stop.isLt
  have hcond : next ≤ last ∧ next < stop ↔ next.toNat < m := by
    rw [BitVec.le_def, BitVec.lt_def]
    omega
  induction n generalizing next l with
  | zero => exact absurd hn (Nat.not_lt_zero _)
  | succ n ih =>
      by_cases hlt : next.toNat < m
      · obtain ⟨hnext, hcons⟩ := upTo_cons hlt (by omega)
        have hend : (if (next + 1).toNat < m then BitVec.ofNat 32 m else
            next + 1) = BitVec.ofNat 32 m := by
          split_ifs with h
          · rfl
          · apply BitVec.eq_of_toNat_eq
            rw [BitVec.toNat_ofNat]
            omega
        have hrest := @ih (next + 1)
        rw [hend] at hrest
        rw [dumpWords, if_pos (hcond.mpr hlt), if_pos hlt, hcons,
          List.forall_mem_cons, List.map_cons]
        constructor
        · intro hret
          obtain ⟨w, u, hw, hret⟩ := Prog.bind_eq_ret.mp hret
          by_cases hread : Readable v cr3 next
          · rw [loadWord_ret hread] at hw
            cases hw
            obtain ⟨⟨l', q⟩, u', hloop, hpure⟩ := Prog.bind_eq_ret.mp hret
            cases hpure
            obtain ⟨hall, rfl, rfl, rfl⟩ := (hrest (by omega) (by
              rw [BitVec.le_def, BitVec.lt_def]
              omega)).mp hloop
            exact ⟨⟨hread, hall⟩, rfl, rfl, rfl⟩
          · exact absurd hw (loadWord_bad hread _ _)
        · rintro ⟨⟨hread, hall⟩, rfl, rfl, rfl⟩
          rw [Prog.bind_ret (loadWord_ret hread)]
          have hloop := (hrest (l := (upTo (next + 1) m).map fun a =>
            .word a (wordAt t cr3 a)) (by omega) (by
            rw [BitVec.le_def, BitVec.lt_def]
            omega)).mpr ⟨hall, rfl, rfl, rfl⟩
          rw [Prog.bind_ret hloop]
          rfl
      · rw [dumpWords, if_neg fun h => hlt (hcond.mp h), if_neg hlt,
          upTo_empty (Nat.not_lt.mp hlt)]
        constructor
        · intro hret
          cases hret
          exact ⟨nofun, rfl, rfl, rfl⟩
        · rintro ⟨-, rfl, rfl, rfl⟩
          rfl

/-! ## From page to page -/

/-- The turn at `a` comes to its end. -/
def PageOk (v : Vm) (cr3 : Word) (d : Nat) (last a : Word) : Prop :=
  LookupOk v d a ∧ ((v.mem.link d (pdx a)).isSome → ∀ b ∈ segment last a,
    Readable v cr3 b)

/-- What it prints. -/
def pageLines (v : Vm) (cr3 : Word) (d : Nat) (last a : Word) : List Line :=
  match v.mem.link d (pdx a) with
  | none => [.none a]
  | some _ => .page a :: (segment last a).map fun b => .word b (wordAt v cr3 b)

/-- Where it goes on. -/
def pageNext (v : Vm) (d : Nat) (last a : Word) : Word :=
  match v.mem.link d (pdx a) with
  | none => roundUpPage (a + 1)
  | some _ => if a.toNat < segmentEnd last a then
      BitVec.ofNat 32 (segmentEnd last a) else a

theorem segmentEnd_lt : segmentEnd last a < 2 ^ 32 := by
  have hlt := (roundUpPage (a + 1)).isLt
  rw [segmentEnd]
  omega

theorem dumpPage_turns :
    Turns (dumpPage cr3 d last) (PageOk v cr3 d last) (pageLines v cr3 d last)
      (pageNext v d last) v where
  ret a h := by
    have hlookup := lookup_ret h.1
    rw [dumpPage, pageLines, pageNext]
    cases hpt : v.mem.link d (pdx a) with
    | none =>
        rw [hpt] at hlookup
        rw [Prog.bind_ret hlookup]
        rfl
    | some pt =>
        rw [hpt] at hlookup
        have hfuel : segmentEnd last a - a.toNat < NADDR := by
          have hlt := @segmentEnd_lt a last
          rw [NADDR]
          omega
        have hwords := (@dumpWords_iff _ _ (segmentEnd last a) last
          (roundUpPage (a + 1)) _ _ _ _ _ rfl hfuel).mpr
          ⟨h.2 (by rw [hpt]; rfl), rfl, rfl, rfl⟩
        rw [Prog.bind_ret hlookup]
        exact Prog.bind_ret hwords
  bad a h r t hret := by
    by_cases hlook : LookupOk v d a
    · have hlookup := lookup_ret hlook
      cases hpt : v.mem.link d (pdx a) with
      | none => exact h ⟨hlook, fun hsome => by rw [hpt] at hsome; cases hsome⟩
      | some pt =>
          rw [hpt] at hlookup
          rw [dumpPage, Prog.bind_ret hlookup] at hret
          obtain ⟨⟨l, q⟩, u, hwords, -⟩ := Prog.bind_eq_ret.mp hret
          have hfuel : segmentEnd last a - a.toNat < NADDR := by
            have hlt := @segmentEnd_lt a last
            rw [NADDR]
            omega
          exact h ⟨hlook, fun _ => ((@dumpWords_iff _ _ (segmentEnd last a) _ _
            _ _ _ _ _ rfl hfuel).mp hwords).1⟩
    · rw [dumpPage] at hret
      obtain ⟨x, u, hx, -⟩ := Prog.bind_eq_ret.mp hret
      exact lookup_bad hlook _ _ hx

/-- The end of the page of `a`, which is 0 for the last page. -/
theorem pageEnd_toNat : (roundUpPage (a + 1)).toNat =
      (a.toNat / 4096 + 1) * 4096 % 2 ^ 32 := by
  have hlt := a.isLt
  rw [roundUpPage_toNat, BitVec.toNat_add, show (1 : Word).toNat = 1 from rfl]
  omega

/-- The walk does not get past a bound in the last page. -/
theorem pageNext_le (htop : 0xFFFFF000 ≤ last) (h : a ≤ last) :
    pageNext v d last a ≤ last := by
  have halt := a.isLt
  have hend := pageEnd_toNat (a := a)
  rw [BitVec.le_def, show (0xFFFFF000 : Word).toNat = 0xFFFFF000 from
    rfl] at htop
  rw [BitVec.le_def] at h ⊢
  rw [pageNext]
  cases v.mem.link d (pdx a) with
  | none =>
      show (roundUpPage (a + 1)).toNat ≤ _
      omega
  | some pt =>
      show (if a.toNat < segmentEnd last a then
        BitVec.ofNat 32 (segmentEnd last a) else a).toNat ≤ _
      split_ifs with hlt
      · rw [BitVec.toNat_ofNat, Nat.mod_eq_of_lt segmentEnd_lt]
        rw [segmentEnd] at hlt ⊢
        omega
      · exact h

/-- Below the last page it goes to the end of the page, or past the bound. -/
theorem pageNext_cases (htop : last < 0xFFFFF000) (h : a ≤ last) :
    (segmentEnd last a = last.toNat + 1 ∧ last < pageNext v d last a) ∨
      (segmentEnd last a = (pageNext v d last a).toNat ∧
        a < pageNext v d last a ∧ pageNext v d last a ≤ last) := by
  have hend := pageEnd_toNat (a := a)
  rw [BitVec.lt_def, show (0xFFFFF000 : Word).toNat = 0xFFFFF000 from
    rfl] at htop
  rw [BitVec.le_def] at h
  rw [BitVec.lt_def, BitVec.lt_def, BitVec.le_def, pageNext]
  cases v.mem.link d (pdx a) with
  | none =>
      show (_ ∧ _ < (roundUpPage (a + 1)).toNat) ∨
        (_ = (roundUpPage (a + 1)).toNat ∧ _ < (roundUpPage (a + 1)).toNat ∧
        (roundUpPage (a + 1)).toNat ≤ _)
      rw [segmentEnd]
      omega
  | some pt =>
      have hlt : a.toNat < segmentEnd last a := by
        rw [segmentEnd]
        omega
      have hnext : (if a.toNat < segmentEnd last a then
          BitVec.ofNat 32 (segmentEnd last a) else a).toNat =
          segmentEnd last a := by
        rw [if_pos hlt, BitVec.toNat_ofNat, Nat.mod_eq_of_lt segmentEnd_lt]
      show (_ ∧ _ < (if a.toNat < segmentEnd last a then
        BitVec.ofNat 32 (segmentEnd last a) else a).toNat) ∨
        (_ = (if a.toNat < segmentEnd last a then
        BitVec.ofNat 32 (segmentEnd last a) else a).toNat ∧ _)
      rw [hnext]
      rw [segmentEnd] at hlt ⊢
      omega

/-- Below the last page the segments that are visited make up the range. -/
theorem walk_segments (htop : last < 0xFFFFF000)
    (hn : last.toNat + 1 - start.toNat < n) :
    ∃ as, walk (pageNext v d last) last n start = some as ∧
    as.flatMap (segment last) = addressesOf start last := by
  induction n generalizing start with
  | zero => exact absurd hn (Nat.not_lt_zero _)
  | succ n ih =>
      by_cases hle : start ≤ last
      · rw [walk_step hle]
        rcases pageNext_cases (v := v) (d := d) htop hle with
          ⟨hend, hover⟩ | ⟨hend, hlt, hnext⟩
        · have hnat := BitVec.le_def.mp hle
          obtain ⟨n, rfl⟩ := Nat.exists_eq_succ_of_ne_zero (show n ≠ 0 by omega)
          refine ⟨[start], by rw [walk_stop (BitVec.not_le.mpr hover)]; rfl, ?_⟩
          rw [List.flatMap_singleton, segment_eq, hend, addressesOf_eq]
        · have hnat := BitVec.lt_def.mp hlt
          have hnat' := BitVec.le_def.mp hnext
          obtain ⟨as, has, hcover⟩ := @ih (pageNext v d last start) (by omega)
          refine ⟨start :: as, by rw [has]; rfl, ?_⟩
          rw [List.flatMap_cons, hcover, segment_eq, hend, addressesOf_eq,
            addressesOf_eq]
          exact (upTo_append (BitVec.le_of_lt hlt) (by omega)).symm
      · exact ⟨[], walk_stop hle, by rw [addressesOf_empty hle]; rfl⟩

theorem segment_page (h : b ∈ segment last a) :
    pdx b = pdx a ∧ ptx b = ptx a := by
  rw [segment_eq, mem_upTo (Nat.le_of_lt segmentEnd_lt), BitVec.le_def] at h
  have hend := pageEnd_toNat (a := a)
  have hlt := a.isLt
  rw [segmentEnd] at h
  rw [pdx_eq, pdx_eq, ptx_eq, ptx_eq]
  omega

theorem self_mem_segment (htop : last < 0xFFFFF000) (h : a ≤ last) :
    a ∈ segment last a := by
  have hend := pageEnd_toNat (a := a)
  rw [BitVec.lt_def, show (0xFFFFF000 : Word).toNat = 0xFFFFF000 from
    rfl] at htop
  have hnat := BitVec.le_def.mp h
  rw [segment_eq, mem_upTo (Nat.le_of_lt segmentEnd_lt), BitVec.le_def,
    segmentEnd]
  omega

theorem addressOk_iff (h : b ∈ segment last a) : AddressOk v cr3 d b ↔
    LookupOk v d a ∧ ((v.mem.link d (pdx a)).isSome → Readable v cr3 b) := by
  obtain ⟨hpdx, hptx⟩ := segment_page h
  rw [AddressOk, LookupOk, LookupOk, hpdx, hptx]

theorem pageOk_iff (htop : last < 0xFFFFF000) (h : a ≤ last) :
    PageOk v cr3 d last a ↔ ∀ b ∈ segment last a, AddressOk v cr3 d b := by
  constructor
  · rintro ⟨hlook, hread⟩ b hb
    exact (addressOk_iff hb).mpr ⟨hlook, fun hsome => hread hsome b hb⟩
  · intro hall
    have hself := (addressOk_iff (self_mem_segment htop h)).mp
      (hall a (self_mem_segment htop h))
    exact ⟨hself.1, fun hsome b hb =>
      ((addressOk_iff hb).mp (hall b hb)).2 hsome⟩

theorem pageLines_covers :
    (pageLines v cr3 d last a).flatMap (Line.covers last) = segment last a := by
  rw [pageLines]
  cases v.mem.link d (pdx a) with
  | none => exact List.append_nil _
  | some pt =>
      show (((segment last a).map fun b => Line.word b (wordAt v cr3 b)).flatMap
        (Line.covers last)) = _
      rw [List.flatMap_map]
      exact List.flatMap_singleton' _

theorem pageLines_right : ∀ x ∈ pageLines v cr3 d last a, x.Right v cr3 d := by
  intro x hx
  rw [pageLines] at hx
  cases hpt : v.mem.link d (pdx a) with
  | none =>
      rw [hpt] at hx
      rw [List.mem_singleton.mp hx]
      exact hpt
  | some pt =>
      rw [hpt] at hx
      rcases List.mem_cons.mp hx with rfl | hx
      · rw [Line.Right, hpt]
        rfl
      · obtain ⟨b, hb, rfl⟩ := List.mem_map.mp hx
        refine ⟨rfl, ?_⟩
        rw [(segment_page hb).1, hpt]
        rfl

/-! ## The command -/

/-- The range is accounted for. -/
def Accounts (run : MonM (Word × List Line)) (v : Vm) (cr3 : Word) (d : Nat)
    (start last : Word) : Prop :=
  ∃ lines, run v = .ret (0, lines) v ∧ lines.flatMap (Line.covers last) =
    addressesOf start last ∧
    ∀ x ∈ lines, x.Right v cr3 d

/-- The loops account for the range exactly if it does not reach the last page,
and each address of a page with a page table can be looked up and read. -/
theorem dumpRange_iff :
    Accounts (dumpRange cr3 d start last) v cr3 d start last ↔
    (start ≤ last → last < 0xFFFFF000) ∧ ∀ a, start ≤ a → a ≤ last →
    AddressOk v cr3 d a := by
  have hrun : ∀ l, dumpRange cr3 d start last v = .ret (0, l) v ↔
      whileLe .endless (dumpPage cr3 d last) last NADDR start v = .ret l v :=
    fun l => lines_iff
  have hllt := last.isLt
  simp only [Accounts, hrun, whileLe_ret_iff dumpPage_turns]
  by_cases hle : start ≤ last
  case neg =>
    refine iff_of_true ⟨[], ⟨[], walk_stop hle, nofun, rfl, trivial⟩,
      (addressesOf_empty hle).symm, nofun⟩ ⟨fun h => absurd h hle, ?_⟩
    intro a hs hl
    exact absurd (BitVec.le_trans hs hl) hle
  by_cases htop : last < 0xFFFFF000
  · obtain ⟨as, has, hcover⟩ := @walk_segments v d NADDR start last htop (by
      rw [BitVec.lt_def, show (0xFFFFF000 : Word).toNat = 0xFFFFF000 from
        rfl] at htop
      rw [NADDR]
      omega)
    have hok : (∀ a ∈ as, PageOk v cr3 d last a) ↔ ∀ b ∈ addressesOf start last,
        AddressOk v cr3 d b := by
      rw [← hcover]
      constructor
      · intro hall b hb
        obtain ⟨a, ha, hba⟩ := List.mem_flatMap.mp hb
        exact (pageOk_iff htop (walk_le has a ha)).mp (hall a ha) b hba
      · intro hall a ha
        exact (pageOk_iff htop (walk_le has a ha)).mpr fun b hb =>
          hall b (List.mem_flatMap.mpr ⟨a, ha, hb⟩)
    constructor
    · rintro ⟨lines, ⟨as', has', hall, -, -⟩, -, -⟩
      rw [has] at has'
      cases has'
      exact ⟨fun _ => htop, fun a hs hl =>
        hok.mp hall a (mem_addressesOf.mpr ⟨hs, hl⟩)⟩
    · rintro ⟨-, hall⟩
      have hpages := hok.mpr fun b hb =>
        hall b (mem_addressesOf.mp hb).1 (mem_addressesOf.mp hb).2
      refine ⟨_, ⟨as, has, hpages, rfl, trivial⟩, ?_, fun x hx => ?_⟩
      · rw [List.flatMap_assoc, ← hcover]
        exact congrArg (as.flatMap ·) (funext fun a => pageLines_covers)
      · obtain ⟨a, -, hxa⟩ := List.mem_flatMap.mp hx
        exact pageLines_right x hxa
  · refine iff_of_false ?_ fun h => htop (h.1 hle)
    rintro ⟨lines, ⟨as, has, -⟩, -⟩
    rw [walk_endless (P := fun a => a ≤ last) (fun _ h => h)
      (fun a h => pageNext_le (BitVec.not_lt.mp htop) h) hle] at has
    cases has

/-- The command line has the range as its arguments from `i` on. -/
structure Range (argv : Nat → Bytes) (i : Nat) (start last : Word) : Prop where
  start : ∃ log, atox (argv i) [] = .ret start log
  last : ∃ log, atox (argv (i + 1)) [] = .ret last log

theorem dumpsVa_iff {envPgdir : Word → Option Nat}
    (h : Range argv 1 start last) :
    DumpsVa envPgdir cr3 3 argv v v.bootPgdir start last ↔
      (start ≤ last → last < 0xFFFFF000) ∧ ∀ a, start ≤ a → a ≤ last →
      AddressOk v cr3 v.bootPgdir a := by
  obtain ⟨⟨log₁, hstart⟩, log₂, hlast⟩ := h
  have hrun : monDumpContentsVa envPgdir cr3 3 argv v =
      dumpRange cr3 v.bootPgdir start last v := by
    rw [monDumpContentsVa, if_neg (by decide), if_neg (by decide),
      Prog.bind_ret (inScan_value hstart),
      Prog.bind_ret (inScan_value hlast)]
    rfl
  rw [← dumpRange_iff, DumpsVa, Accounts, hrun]

theorem dumpsVa_env_iff {envPgdir : Word → Option Nat} {envid : Word}
    {log : List Nat} (henv : atox (argv 1) [] = .ret envid log)
    (hd : envPgdir envid = some d) (h : Range argv 2 start last) :
    DumpsVa envPgdir cr3 4 argv v d start last ↔
      (start ≤ last → last < 0xFFFFF000) ∧ ∀ a, start ≤ a → a ≤ last →
      AddressOk v cr3 d a := by
  obtain ⟨⟨log₁, hstart⟩, log₂, hlast⟩ := h
  have hrun : monDumpContentsVa envPgdir cr3 4 argv v =
      dumpRange cr3 d start last v := by
    rw [monDumpContentsVa, if_neg (by decide), if_pos rfl,
      Prog.bind_ret (inScan_value henv),
      Prog.bind_ret (inScan_value hstart),
      Prog.bind_ret (inScan_value hlast), hd]
  rw [← dumpRange_iff, DumpsVa, Accounts, hrun]

/-- Where each listing covers its range. -/
theorem listings_iff {argv' : Nat → Bytes} {envPgdir : Word → Option Nat}
    {envid : Word} {log : List Nat}
    (h : Range argv 1 start last) (henv : atox (argv' 1) [] = .ret envid log)
    (hd : envPgdir envid = some d)
    (h' : Range argv' 2 start last) :
    (Shows argv v start last ↔
      ShowBounds start last ∧ ∀ a, start ≤ a → a ≤ last →
      LookupOk v v.bootPgdir a) ∧
    (DumpsPa cr3 argv v start last ↔
      (start ≤ last → last ≠ 0xFFFFFFFF) ∧
        ∀ a, start ≤ a → a ≤ last → ppn a < v.npage ∧
        Readable v cr3 (a + KERNBASE)) ∧
    (DumpsVa envPgdir cr3 3 argv v v.bootPgdir start last ↔
      (start ≤ last → last < 0xFFFFF000) ∧ ∀ a, start ≤ a → a ≤ last →
      AddressOk v cr3 v.bootPgdir a) ∧
    (DumpsVa envPgdir cr3 4 argv' v d start last ↔
      (start ≤ last → last < 0xFFFFF000) ∧ ∀ a, start ≤ a → a ≤ last →
      AddressOk v cr3 d a) := by
  obtain ⟨⟨log₁, hstart⟩, log₂, hlast⟩ := h
  refine ⟨shows_iff hstart hlast, dumpsPa_iff hstart hlast, ?_, ?_⟩
  · exact dumpsVa_iff ⟨⟨log₁, hstart⟩, log₂, hlast⟩
  · exact dumpsVa_env_iff henv hd h'

theorem zeroArgument_range (i : Nat) : Range zeroArgument i 0 0 where
  start := ⟨_, zeroArgument_value⟩
  last := ⟨_, zeroArgument_value⟩

/-- Directory 1 has its page table at `KERNBASE` as well. -/
def listedVm : Vm :=
  { entryVm 0x3007 with
    mem := (entryVm 0x3007).mem.setEntry 1 (pdx KERNBASE)
      (page2pa 2 ||| PTE_W ||| PTE_P) }

/-- One address, which is mapped. -/
theorem listings_zero : Shows zeroArgument listedVm 0 0 ∧
    DumpsPa (page2pa 1) zeroArgument listedVm 0 0 ∧
    DumpsVa (fun _ => some 1) (page2pa 1) 3 zeroArgument listedVm 1 0 0 ∧
    DumpsVa (fun _ => some 1) (page2pa 1) 4 zeroArgument listedVm 1 0 0 := by
  obtain ⟨hshow, hpa, hva, henv⟩ := @listings_iff listedVm _ _ _ (page2pa 1) _ _
    (fun _ => some 1) _ _ (zeroArgument_range 1) zeroArgument_value rfl
    (zeroArgument_range 2)
  have hzero : ∀ {P : Word → Prop}, P 0 → ∀ a : Word, 0 ≤ a → a ≤ 0 → P a :=
    fun hP a hge hle => by
    rwa [BitVec.le_antisymm hle hge]
  have hlookup : LookupOk listedVm 1 0 := fun pt hpt => by
    obtain rfl : pt = 2 :=
      (Option.some.inj (hpt.symm.trans (by decide +kernel)))
    exact ⟨by decide, fun h => absurd h.2 (by decide +kernel)⟩
  have haddr : AddressOk listedVm (page2pa 1) 1 0 :=
    ⟨hlookup, fun _ => by unfold Readable; decide +kernel⟩
  refine ⟨hshow.mpr ⟨?_, hzero hlookup⟩,
    hpa.mpr ⟨by decide, hzero ⟨by decide, ?_⟩⟩,
    hva.mpr ⟨by decide, hzero haddr⟩, henv.mpr ⟨by decide, hzero haddr⟩⟩
  · unfold ShowBounds
    decide
  · unfold Readable
    decide +kernel

/-- `command 0x0 0x1`. -/
def oneArgument (i : Nat) : Bytes :=
  if i = 1 then zeroArgument 1 else strOf [0x30, 0x78, 0x31]

/-- `command 0x0 0xffffffff`. -/
def topArgument (i : Nat) : Bytes := if i = 1 then zeroArgument 1 else
  strOf ([0x30, 0x78] ++ List.replicate 8 0x66)

/-- `showmappings` goes on to a page after the range, the dumps do not come to
an end at the last address, and a page that is not present is read. -/
theorem listings_stray :
    (Range oneArgument 1 0 1 ∧ ¬Shows oneArgument (smallVm 0) 0 1) ∧
    (Range topArgument 1 0 0xFFFFFFFF ∧
      ¬DumpsPa (page2pa 300) topArgument (smallVm 0) 0 0xFFFFFFFF ∧
      ¬DumpsVa (fun _ => none) (page2pa 300) 3 topArgument
        (smallVm 0) 300 0 0xFFFFFFFF) ∧
    (Range zeroArgument 1 0 0 ∧ ¬DumpsVa (fun _ => none)
      (page2pa 1) 3 zeroArgument (entryVm 0) 1 0 0) := by
  have hone : Range oneArgument 1 0 1 :=
    ⟨⟨_, zeroArgument_value⟩, [3, 2, 1, 0, 0], by decide +kernel⟩
  have htop : Range topArgument 1 0 0xFFFFFFFF :=
    ⟨⟨_, zeroArgument_value⟩, [10, 9, 8, 7, 6, 5, 4, 3, 2, 1, 0, 0],
      by decide +kernel⟩
  have hzero := zeroArgument_range 1
  refine ⟨⟨hone, fun h => ?_⟩, ⟨htop, fun h => ?_, fun h => ?_⟩, hzero,
    fun h => ?_⟩
  · obtain ⟨⟨log₁, hstart⟩, log₂, hlast⟩ := hone
    exact absurd ((shows_iff hstart hlast).mp h).1 (by rw [ShowBounds]; decide)
  · obtain ⟨⟨log₁, hstart⟩, log₂, hlast⟩ := htop
    exact ((dumpsPa_iff hstart hlast).mp h).1 (by decide) rfl
  · exact absurd (((dumpsVa_iff (v := smallVm 0) htop).mp h).1 (by decide))
      (by decide)
  · have hok := ((dumpsVa_iff (v := entryVm 0) hzero).mp h).2 0 (by decide)
      (by decide)
    have hread := hok.2 (by decide +kernel)
    rw [Readable] at hread
    exact absurd (hread 0 (by decide)) (by decide +kernel)

end

end Dump

end Jos
