import Jos.Kern.PageCalls

/-!
# Checks of what user programs name

What `user_mem_check` decides, and the system calls that rely on it or should:
`sys_cputs` and `sys_env_set_trapframe`. A range of addresses is a range of
natural numbers here, so that it does not wrap around.
-/

namespace Jos

/-- The page tables of directory `d` are in physical memory, as `KADDR`
asserts. -/
def TablesIn (v : Vm) (d : Nat) : Prop :=
  ∀ i pt, v.mem.link d i = some pt → pt < v.npage

/-- The page-table entry for `va`, 0 without a page table. -/
def pteOf (m : PhysMem) (d : Nat) (va : Word) : Word :=
  (m.link d (pdx va)).elim 0 fun pt => m.entry pt (ptx va)

/-- Address `a` is below `ULIM`, and its page-table entry has all of `perm`. -/
def Allows (m : PhysMem) (d : Nat) (perm : Word) (a : Nat) : Prop :=
  a < ULIM.toNat ∧ pteOf m d (BitVec.ofNat 32 a) &&& perm = perm

/-- The small kernel has no page tables. -/
theorem smallVm_tablesIn (k d : Nat) : TablesIn (smallVm k) d :=
  fun i pt h => by
  rw [smallVm_link] at h
  cases h

section

variable {v : Vm} {d i : Nat} {va len perm p stop w x : Word}

theorem pteAddr_toNat : (pteAddr w).toNat = w.toNat / 4096 * 4096 := by
  have h : ppn w < 2 ^ 20 := by
    have := w.isLt
    rw [ppn_eq]
    omega
  rw [(pteAddr_eq_page2pa_iff h w).mpr rfl, page2pa_toNat h, ppn_eq]

theorem pgdirWalk_pteOf (h : TablesIn v d) (va : Word) :
    ∃ pte, pgdirWalk d va false v = .ret pte v ∧
    (pte.elim 0 fun pte => v.mem.entry pte.1 pte.2) = pteOf v.mem d va := by
  cases hpt : v.mem.link d (pdx va) with
  | none => exact ⟨none, pgdirWalk_none hpt, by rw [pteOf, hpt]; rfl⟩
  | some pt =>
      exact ⟨_, pgdirWalk_table hpt (h _ _ hpt), by rw [pteOf, hpt]; rfl⟩

/-- An entry is for a whole page, and `ULIM` is at the start of one. -/
theorem Allows.samePage {m : PhysMem} {a b : Nat} (h : Allows m d p a)
    (ha : a < 2 ^ 32)
    (hab : a / 4096 = b / 4096) : Allows m d p b := by
  have hu : ULIM.toNat = 0xEF800 * 4096 := rfl
  have hb : b < 2 ^ 32 := by omega
  have hp : pdx (BitVec.ofNat 32 b) = pdx (BitVec.ofNat 32 a) := by
    rw [pdx_eq, pdx_eq, BitVec.toNat_ofNat, BitVec.toNat_ofNat,
      Nat.mod_eq_of_lt ha,
      Nat.mod_eq_of_lt hb]
    omega
  have ht : ptx (BitVec.ofNat 32 b) = ptx (BitVec.ofNat 32 a) := by
    rw [ptx_eq, ptx_eq, BitVec.toNat_ofNat, BitVec.toNat_ofNat,
      Nat.mod_eq_of_lt ha,
      Nat.mod_eq_of_lt hb, hab]
  refine ⟨?_, ?_⟩
  · have := h.1
    omega
  · rw [pteOf, hp, ht]
    exact h.2

/-- `r` is right about the addresses from `lo` up to `hi`: all are allowed, or
the first that is not is named. -/
def Decides (m : PhysMem) (d : Nat) (perm : Word) (lo hi : Nat) :
    Except Word Unit → Prop
  | .ok () => ∀ a, lo ≤ a → a < hi → Allows m d perm a
  | .error x => IsLeast {a | lo ≤ a ∧ a < hi ∧ ¬Allows m d perm a} x.toNat

/-- The loop decides what is left of the range, if there is fuel for its
pages. -/
theorem userMemCheckLoop_decides (h : TablesIn v d) (w stop p : Word)
    (fuel : Nat)
    (hfuel : stop.toNat ≤ w.toNat / 4096 * 4096 + fuel * 4096) :
    ∃ r, userMemCheckLoop d stop p fuel w v = .ret r v ∧
      Decides v.mem d p w.toNat stop.toNat r := by
  induction fuel generalizing w with
  | zero => exact ⟨.ok (), rfl, fun a _ _ => by omega⟩
  | succ fuel ih =>
      by_cases hlt : w < stop
      · obtain ⟨pte, hwalk, hpte⟩ := pgdirWalk_pteOf h w
        have hw : BitVec.ofNat 32 w.toNat = w := by simp
        have hltn : w.toNat < stop.toNat := hlt
        by_cases hno : ULIM ≤ w ∨ pteOf v.mem d w &&& p ≠ p
        · refine ⟨.error w, ?_, ⟨le_rfl, hltn, ?_⟩, fun a ha => ha.1⟩
          · rw [userMemCheckLoop, if_pos hlt, Prog.bind_ret hwalk,
              Prog.ask_bind]
            simp only [hpte]
            rw [if_pos hno]
            rfl
          · rintro ⟨hu, hp⟩
            rw [hw] at hp
            exact hno.elim (fun hle => Nat.not_le.mpr hu hle) (· hp)
        · have hok : Allows v.mem d p w.toNat := by
            rw [not_or, not_not] at hno
            refine ⟨?_, by rw [hw]; exact hno.2⟩
            have hle : ¬ULIM.toNat ≤ w.toNat := hno.1
            omega
          have hu : ULIM.toNat = 0xEF800 * 4096 := rfl
          have hnext : (pteAddr w + 0x1000#32).toNat = w.toNat / 4096 * 4096 +
              4096 := by
            have := hok.1
            have h4 : (0x1000#32).toNat = 4096 := by decide
            rw [BitVec.toNat_add, pteAddr_toNat, h4]
            omega
          have hleft : stop.toNat ≤
              (pteAddr w + 0x1000#32).toNat / 4096 * 4096 + fuel * 4096 := by
            have hdiv : ∀ k, (k * 4096 + 4096) / 4096 * 4096 =
                k * 4096 + 4096 := by omega
            rw [hnext, hdiv]
            calc stop.toNat ≤ w.toNat / 4096 * 4096 + (fuel + 1) * 4096 := hfuel
              _ = w.toNat / 4096 * 4096 + 4096 + fuel * 4096 := by ring
          obtain ⟨r, hr, hdec⟩ := ih _ hleft
          refine ⟨r, ?_, ?_⟩
          · rw [userMemCheckLoop, if_pos hlt, Prog.bind_ret hwalk,
              Prog.ask_bind]
            simp only [hpte]
            rw [if_neg hno, hr]
          · -- the rest of this page is allowed as its first address is
            have hpage : ∀ a, w.toNat ≤ a → a < w.toNat / 4096 * 4096 + 4096 →
                Allows v.mem d p a := fun a _ _ =>
                hok.samePage w.isLt (by omega)
            rw [hnext] at hdec
            cases r with
            | ok =>
                intro a ha hlta
                by_cases hin : a < w.toNat / 4096 * 4096 + 4096
                · exact hpage a ha hin
                · exact hdec a (by omega) hlta
            | error x =>
                obtain ⟨⟨hx, hxs, hxn⟩, hleast⟩ := hdec
                refine ⟨⟨by omega, hxs, hxn⟩, fun a ⟨ha, hlta, hna⟩ => ?_⟩
                by_cases hin : a < w.toNat / 4096 * 4096 + 4096
                · exact absurd (hpage a ha hin) hna
                · exact hleast ⟨by omega, hlta, hna⟩
      · refine ⟨.ok (), ?_, fun a ha hs => ?_⟩
        · rw [userMemCheckLoop, if_neg hlt]
          rfl
        · have hle : ¬w.toNat < stop.toNat := hlt
          omega

/-- What `user_mem_check` is for: it decides whether the environment may access
every address from `va` up to `va + len`, and finds the first that it may
not. -/
def CheckExact (v : Vm) (d : Nat) (va len perm : Word) : Prop :=
  ∃ r, userMemCheck d va len perm v = .ret r v ∧
    Decides v.mem d (perm ||| PTE_P ||| PTE_U) va.toNat (va.toNat + len.toNat) r

/-- The check is right about exactly the ranges that do not wrap around. -/
theorem checkExact_iff (h : TablesIn v d) :
    CheckExact v d va len perm ↔ va.toNat + len.toNat < 2 ^ 32 := by
  obtain ⟨r, hr, hdec⟩ := userMemCheckLoop_decides h va (va + len)
    (perm ||| PTE_P ||| PTE_U) (2 ^ 20 + 1) (by
      have := (va + len).isLt
      omega)
  constructor
  · rintro ⟨r', hr', hdec'⟩
    by_contra hwrap
    have hstop : (va + len).toNat = va.toNat + len.toNat - 2 ^ 32 := by
      have := va.isLt
      have := len.isLt
      rw [BitVec.toNat_add]
      omega
    have hlen := len.isLt
    obtain rfl : r = r' := by
      have he := hr.symm.trans hr'
      cases he
      rfl
    cases r with
    | ok =>
        -- the last address of all is in the range
        have hva := va.isLt
        have htop := (hdec' (2 ^ 32 - 1) (by omega) (by omega)).1
        exact absurd htop (by decide)
    | error x =>
        obtain ⟨⟨hx, hxs, _⟩, _⟩ := hdec
        rw [hstop] at hxs
        omega
  · intro hlt
    have hstop : (va + len).toNat = va.toNat + len.toNat := by
      rw [BitVec.toNat_add, Nat.mod_eq_of_lt hlt]
    rw [hstop] at hdec
    exact ⟨r, hr, hdec⟩

/-! ## Printing -/

/-- The byte the kernel reads at `va`. -/
def shownByte (m : PhysMem) (cr3 va : Word) : Option (BitVec 8) :=
  (translate m cr3 va).map fun t => m t.1 (pgoff va)

theorem kload_shown {cr3 : Word} {n : Nat} {b : Bytes} {v' : Vm}
    (h : kload cr3 va n v = .ret b v')
    {k : Nat} (hk : k < n) :
    shownByte v.mem cr3 (va + BitVec.ofNat 32 k) = some (b k) := by
  unfold kload at h
  rw [Prog.ask_bind] at h
  split at h
  · rename_i hall
    obtain ⟨t, ht⟩ := Option.isSome_iff_exists.mp (hall k hk)
    cases h
    simp [shownByte, ht]
  · cases h

/-- A string is printed up to its terminator at most, and no further than a
precision that is not negative. -/
theorem printString_length {cr3 : Word} {fuel : Nat} {prec : Int}
    {cs : List (BitVec 8)}
    {v' : Vm} (h : printString cr3 fuel va prec v = .ret cs v') :
    (0 ≤ prec → cs.length ≤ prec.toNat) ∧
      ∀ k, shownByte v.mem cr3 (va + BitVec.ofNat 32 k) = some 0 →
      cs.length ≤ k := by
  induction fuel generalizing va prec cs v' with
  | zero => cases h
  | succ fuel ih =>
      obtain ⟨b, v₁, hb, hrest⟩ := Prog.bind_eq_ret.mp h
      obtain rfl := (kload_reads ..).ret_state hb
      have h0 := kload_shown hb (k := 0) (by decide)
      split at hrest
      · cases hrest
        exact ⟨fun _ => Nat.zero_le _, fun k _ => Nat.zero_le _⟩
      · rename_i hgo
        rw [not_or] at hgo
        obtain ⟨rest, v₂, hr, hret⟩ := Prog.bind_eq_ret.mp hrest
        cases hret
        obtain ⟨hlen, hnul⟩ := ih hr
        refine ⟨fun hp => ?_, fun k hk => ?_⟩
        · rw [if_neg (by omega)] at hlen
          have := hlen (by omega)
          rw [List.length_cons]
          omega
        · cases k with
          | zero =>
              rw [h0] at hk
              exact absurd (Option.some.inj hk) hgo.1
          | succ k =>
              rw [List.length_cons]
              refine Nat.succ_le_succ (hnul k ?_)
              rw [← hk]
              congr 1
              have h1 : (1 : Word).toNat = 1 := rfl
              apply BitVec.eq_of_toNat_eq
              simp only [BitVec.toNat_add, BitVec.toNat_ofNat, h1]
              omega

end

section

variable {s t : Kern} {c e : Nat} {envid str len tf va perm : Word}

/-- An environment that destroys itself is not returned to. -/
theorem envDestroy_cur (hc : s.curenv = some c) :
    envDestroy c s ≠ .ret () t := by
  have h : Prog.wp (envDestroy c) (fun _ _ => False) (fun _ => True)
      (fun _ _ => True) s :=
    wp_envDestroy (fun _ _ hne => absurd hc hne) (fun _ _ _ _ _ _ => trivial)
      fun _ _ _ => trivial
  exact fun hret => h.ret hret

/-- When `sys_cputs` returns, the check has passed. -/
theorem sysCputs_checked (hc : s.curenv = some c)
    (h : sysCputs str len s = .ret () t) :
    userMemCheck (s.envs c).envPgdir str len (PTE_U ||| PTE_U) s.vm =
      .ret (.ok ()) s.vm ∧
      (str ≠ 0 → ∃ cs, printString s.cr3 (2 ^ 32) str len.toInt s.vm =
        .ret cs s.vm) := by
  have key : Prog.wp (sysCputs str len) (fun _ _ =>
      userMemCheck (s.envs c).envPgdir str len (PTE_U ||| PTE_U) s.vm =
        .ret (.ok ()) s.vm ∧
        (str ≠ 0 → ∃ cs, printString s.cr3 (2 ^ 32) str len.toInt s.vm =
          .ret cs s.vm))
      (fun _ => True) (fun _ _ => True) s := by
    unfold sysCputs
    apply Prog.wp_bind_intro
    apply Prog.wp_ret (currentEnv_apply hc)
    apply Prog.wp_bind_intro
    apply Prog.wp_ask_bind
    simp only [Prog.wp_bind, inVm, Prog.wp_zoom]
    refine (userMemCheck_reads ..).wp (fun r hr => ?_) fun _ _ => trivial
    cases r with
    | error x =>
        exact Prog.wp_of_runs (fun _ _ hret => absurd hret (envDestroy_cur hc))
          (fun _ _ => trivial) fun _ _ _ => trivial
    | ok _ =>
        apply Prog.wp_pure_intro
        apply Prog.wp_ite
        · intro hne
          simp only [Prog.wp_bind, Prog.wp_ask, Prog.wp_zoom]
          refine (printString_reads ..).wp (fun cs hcs => ?_) fun _ _ => trivial
          exact Prog.wp_pure_intro ⟨hr, fun _ => ⟨cs, hcs⟩⟩
        · exact fun hz => Prog.wp_pure_intro ⟨hr, fun hne => absurd hne hz⟩
  exact key.ret h

/-- Every character that `sys_cputs(str, len)` prints is at an address that the
caller `c` may read. -/
def PrintsReadable (s : Kern) (c : Nat) (str len : Word) : Prop :=
  ∀ t cs, sysCputs str len s = .ret () t → str ≠ 0 →
    printString s.cr3 (2 ^ 32) str len.toInt s.vm = .ret cs s.vm →
    ∀ i, i < cs.length → Allows s.vm.mem (s.envs c).envPgdir (PTE_U ||| PTE_P)
    (str.toNat + i)

theorem PrintsReadable.of_check (hc : s.curenv = some c)
    (htab : TablesIn s.vm (s.envs c).envPgdir)
    (hlt : str.toNat + len.toNat < 2 ^ 32)
    (hlen : len.toNat < 2 ^ 31 ∨ ∃ k, k < len.toNat ∧
      shownByte s.vm.mem s.cr3 (str + BitVec.ofNat 32 k) = some 0) :
    PrintsReadable s c str len := by
  intro t cs hret hne hprint i hi
  obtain ⟨hcheck, _⟩ := sysCputs_checked hc hret
  obtain ⟨r, hr, hdec⟩ := (checkExact_iff htab).mpr hlt
  obtain ⟨rfl, _⟩ : Except.ok () = r ∧ s.vm = s.vm := by
    have he := hcheck.symm.trans hr
    cases he
    exact ⟨rfl, rfl⟩
  obtain ⟨hprec, hnul⟩ := printString_length hprint
  have hbound : cs.length ≤ len.toNat := by
    rcases hlen with hsmall | ⟨k, hk, hz⟩
    · have hint : len.toInt = len.toNat :=
        BitVec.toInt_eq_toNat_of_lt (by omega)
      rw [hint] at hprec
      have := hprec (by omega)
      omega
    · have := hnul k hz
      omega
  exact hdec (str.toNat + i) (by omega) (by omega)

/-- `user_mem_check` decides exactly the ranges that do not wrap around; and
what `sys_cputs` prints of one of these is readable, if its length is not
negative as an `int` or the string ends within it. -/
theorem user_mem_check_decides (hc : s.curenv = some c)
    (htab : TablesIn s.vm (s.envs c).envPgdir) :
    (∀ e, TablesIn s.vm (s.envs e).envPgdir → ∀ va len perm,
      CheckExact s.vm (s.envs e).envPgdir va len perm ↔
      va.toNat + len.toNat < 2 ^ 32) ∧
    ∀ str len, str.toNat + len.toNat < 2 ^ 32 →
      (len.toNat < 2 ^ 31 ∨ ∃ k, k < len.toNat ∧
        shownByte s.vm.mem s.cr3 (str + BitVec.ofNat 32 k) = some 0) →
      PrintsReadable s c str len :=
  ⟨fun _ he _ _ _ => checkExact_iff he, fun _ _ h hlen =>
    .of_check hc htab h hlen⟩

/-- The check passes for the 256 MB from `KERNBASE` to the end of memory. -/
theorem user_mem_check_wraps :
    userMemCheck 402 KERNBASE 0x10000000 PTE_U (smallVm 0) =
      .ret (.ok ()) (smallVm 0) ∧
      ¬CheckExact (smallVm 0) 402 KERNBASE 0x10000000 PTE_U := by
  have hcheck : userMemCheck 402 KERNBASE 0x10000000 PTE_U (smallVm 0) =
      .ret (.ok ()) (smallVm 0) := rfl
  refine ⟨hcheck, fun ⟨r, hr, hdec⟩ => ?_⟩
  cases hcheck.symm.trans hr
  exact absurd (hdec KERNBASE.toNat le_rfl (by decide)).1 (by decide)

theorem user_mem_check_decides_small :
    CheckExact (smallVm 0) 402 UTEXT 0x1001 PTE_U ∧
    PrintsReadable (smallKern 0) 2 UTEXT 0x1001 :=
  have h := user_mem_check_decides (s := smallKern 0) (c := 2) rfl
    (smallVm_tablesIn 0 402)
  ⟨(h.1 2 (smallVm_tablesIn 0 402) _ _ _).mpr (by decide),
    h.2 _ _ (by decide) (.inl (by decide))⟩

/-! ## Trap frames -/

/-- All of `*tf` is below `ULIM` and mapped readable for the environment that
runs. -/
def TfReadable (s : Kern) (tf : Word) : Prop :=
  ∀ i, i < SIZEOF_STRUCT_TRAPFRAME → tf.toNat + i < ULIM.toNat ∧
    userAccess s.vm.mem s.cr3 (tf + BitVec.ofNat 32 i) false ≠ none

/-- What `sys_env_set_trapframe` on environment `e` is to do: fault nowhere, and
refuse a `tf` that the caller may not read. -/
def SetsReadable (s : Kern) (e : Nat) (envid tf : Word) : Prop :=
  match sysEnvSetTrapframe envid tf s with
  | .ret r t => r.slt 0 ∧ (t.envs e).envTf = (s.envs e).envTf ∨ TfReadable s tf
  | .away t => (t.envs e).envTf = (s.envs e).envTf ∨ TfReadable s tf
  | .stop _ _ => False

theorem kload_of_readable (h : TfReadable s tf) :
    ∃ b, kload s.cr3 tf SIZEOF_STRUCT_TRAPFRAME s.vm = .ret b s.vm := by
  have hall : ∀ i, i < SIZEOF_STRUCT_TRAPFRAME →
      (translate s.vm.mem s.cr3 (tf + BitVec.ofNat 32 i)).isSome := by
    intro i hi
    have hne := (h i hi).2
    unfold userAccess at hne
    cases ht : translate s.vm.mem s.cr3 (tf + BitVec.ofNat 32 i) with
    | none =>
        rw [ht] at hne
        exact absurd rfl hne
    | some _ => rfl
  unfold kload
  rw [Prog.ask_bind, if_pos hall]
  exact ⟨_, rfl⟩

/-- Nothing is ever refused, so the call does what it should exactly when there
is nothing to refuse. -/
theorem set_trapframe_reads (hc : s.curenv = some c)
    (hres : s.resolve c envid true = .ok e)
    (htab : TablesIn s.vm (s.envs e).envPgdir) :
    SetsReadable s e envid tf ↔ TfReadable s tf := by
  obtain ⟨r, hr, _⟩ := userMemCheckLoop_decides htab tf (tf + 4)
    (PTE_U ||| PTE_P ||| PTE_U) (2 ^ 20 + 1) (by
      have := (tf + 4).isLt
      omega)
  have hcheck : inVm (userMemCheck (s.envs e).envPgdir tf 4 PTE_U) s =
      .ret r s := by
    rw [inVm, Prog.zoom_apply, userMemCheck, hr]
    rfl
  unfold SetsReadable sysEnvSetTrapframe
  rw [withEnv_ok hc hres, Prog.ask_bind, Prog.bind_ret hcheck]
  rcases (kload_reads s.cr3 tf SIZEOF_STRUCT_TRAPFRAME).cases s.vm with
    ⟨b, hb⟩ | ⟨x, _, hx⟩
  · have hload : inVm (kload s.cr3 tf SIZEOF_STRUCT_TRAPFRAME) s =
        .ret b s := by
      rw [inVm, Prog.zoom_apply, hb]
      rfl
    rw [Prog.bind_ret hload, Prog.update_bind, Prog.pure_apply]
    exact ⟨fun h => h.resolve_left fun hn => absurd hn.1 (by decide), .inr⟩
  · have hload : inVm (kload s.cr3 tf SIZEOF_STRUCT_TRAPFRAME) s =
        .stop x s := by
      rw [inVm, Prog.zoom_apply, hx]
      rfl
    rw [Prog.bind_stop hload]
    refine ⟨False.elim, fun h => ?_⟩
    obtain ⟨b, hb⟩ := kload_of_readable h
    cases hx.symm.trans hb

/-- With `tf` a null pointer, where nothing is mapped, the kernel faults. -/
theorem set_trapframe_null : ¬SetsReadable (smallKern 0) 2 0 0 := by
  have hstop : (match sysEnvSetTrapframe 0 0 (smallKern 0) with
      | .stop _ _ => true
      | _ => false) = true := by decide +kernel
  unfold SetsReadable
  cases h : sysEnvSetTrapframe 0 0 (smallKern 0) with
  | ret | away =>
      rw [h] at hstop
      cases hstop
  | stop => exact id

/-- The small kernel with a page of slot 2 at `UTEXT`. -/
def textKern : Kern :=
  { smallKern 2 with
    vm := { smallVm 2 with
      mem := ((smallVm 2).mem.setEntry 402 (pdx UTEXT)
        (page2pa 404 ||| 7)).setEntry 404 (ptx UTEXT)
        (page2pa 405 ||| 7) } }

theorem textKern_tablesIn : TablesIn textKern.vm 402 := by
  intro i pt h
  have hentry : textKern.vm.mem.entry 402 i =
      ((smallVm 2).mem.setEntry 402 (pdx UTEXT)
      (page2pa 404 ||| 7)).entry 402 i :=
    PhysMem.entry_setEntry_ne (.inl (by decide))
  rw [PhysMem.link, hentry] at h
  by_cases hi : i = pdx UTEXT
  · rw [hi, PhysMem.entry_setEntry_self] at h
    obtain rfl : pt = 404 := (Option.some.inj h).symm
    decide
  · rw [PhysMem.entry_setEntry_ne (.inr hi)] at h
    exact smallVm_tablesIn 2 402 i pt h

/-- A frame on that page is read. -/
theorem set_trapframe_reads_small : SetsReadable textKern 2 0 UTEXT := by
  refine (set_trapframe_reads (c := 2) rfl resolve_zero textKern_tablesIn).mpr
    ?_
  unfold TfReadable
  decide +kernel

/-! ## Unmapping -/

/-- `sys_page_unmap` of an address where nothing is mapped returns 0 and changes
nothing exactly when there is no page table for the address either. -/
theorem page_unmap_unmapped (hc : s.curenv = some c)
    (hres : s.resolve c envid true = .ok e)
    (hva : userPage va) (htab : TablesIn s.vm (s.envs e).envPgdir)
    (hno : ¬present (pteOf s.vm.mem (s.envs e).envPgdir va)) :
    sysPageUnmap envid va s = .ret 0 s ↔
      s.vm.mem.link (s.envs e).envPgdir (pdx va) = none := by
  unfold sysPageUnmap
  rw [if_neg (not_not.mpr hva), withEnv_ok hc hres, Prog.ask_bind]
  cases hpt : s.vm.mem.link (s.envs e).envPgdir (pdx va) with
  | none =>
      have hrem : inVm (pageRemove (s.envs e).envPgdir va) s = .ret () s := by
        rw [inVm, Prog.zoom_apply, pageRemove_none hpt]
        rfl
      rw [Prog.bind_ret hrem]
      exact ⟨fun _ => rfl, fun _ => rfl⟩
  | some pt =>
      rw [pteOf, hpt] at hno
      have hrem : inVm (pageRemove (s.envs e).envPgdir va) s =
          .stop .nullPointer s := by
        rw [inVm, Prog.zoom_apply,
          pageRemove_absent hpt (htab _ _ hpt) (mapped_eq_none.mpr hno)]
        rfl
      rw [Prog.bind_stop hrem]
      exact iff_of_false (fun h => by cases h) (Option.some_ne_none _)

/-- With a page mapped at `UTEXT`, unmapping the page after it, where nothing is
mapped, follows a null pointer. -/
theorem page_unmap_neighbour :
    (match sysPageAlloc 0 UTEXT (PTE_U ||| PTE_P) (smallKern 2) with
    | .ret r s =>
        decide (r = 0 ∧ ¬present (pteOf s.vm.mem 402 (UTEXT + 0x1000))) &&
        match sysPageUnmap 0 (UTEXT + 0x1000) s with
        | .stop .nullPointer _ => true
        | _ => false
    | _ => false) = true := by
  decide +kernel

theorem page_unmap_unmapped_small :
    sysPageUnmap 0 UTEXT (smallKern 0) = .ret 0 (smallKern 0) :=
  have hno : ¬present (pteOf (smallVm 0).mem 402 UTEXT) := by
    rw [pteOf, smallVm_link]
    decide
  (page_unmap_unmapped (s := smallKern 0) (c := 2) (e := 2) rfl (by decide)
  (by decide)
    (smallVm_tablesIn 0 402) hno).mpr (smallVm_link ..)

end

end Jos
