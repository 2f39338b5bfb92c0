import Jos.Kern.Handle

/-!
# The environment table

The invariant of `envs` and its free list: the list holds exactly the free
slots, and a live environment's id is positive and names its slot. It
holds in every state of a run, together with the fact that the current
environment is a runnable one.
-/

namespace Jos

/-! ## New ids -/

/-- Clearing the low ten bits rounds down to a multiple of `NENV`. -/
theorem clearIndex_toNat (x : Word) :
    (x &&& ~~~0x3FF#32).toNat = x.toNat / 1024 * 1024 := by
  have h : x &&& ~~~0x3FF#32 = (x >>> 10) <<< 10 := by
    apply BitVec.eq_of_getLsbD_eq
    intro i hi
    have hmask : (0x3FF#32).getLsbD i = decide (i < 10) := by
      rw [BitVec.getLsbD_ofNat, show (0x3FF : Nat) = 2 ^ 10 - 1 from rfl,
        Nat.testBit_two_pow_sub_one]
      simp [hi]
    simp only [BitVec.getLsbD_and, BitVec.getLsbD_not, BitVec.getLsbD_shiftLeft,
      BitVec.getLsbD_ushiftRight, hmask]
    by_cases h10 : i < 10
    · simp [h10]
    · simp [h10, hi, Nat.add_sub_cancel' (Nat.le_of_not_lt h10)]
  have hx := x.isLt
  rw [h, BitVec.toNat_shiftLeft, BitVec.toNat_ushiftRight,
    Nat.shiftRight_eq_div_pow,
    Nat.shiftLeft_eq]
  omega

/-- `env_alloc`'s generation is a positive multiple of `NENV`. -/
theorem nextEnvId_eq (old : Word) (e : Nat) : ∃ g : Word, nextEnvId old e
    = g ||| BitVec.ofNat 32 e ∧ g.toNat % 1024 = 0 ∧ 0 < g.toNat
      ∧ g.toNat < 2 ^ 31 := by
  unfold nextEnvId
  simp only
  split
  · exact ⟨_, rfl, by decide⟩
  · rename_i h
    refine ⟨_, rfl, ?_⟩
    have hpos : ¬(old + 0x1000#32 &&& ~~~0x3FF#32).toInt ≤ 0 := by
      simpa [BitVec.sle] using h
    rw [BitVec.toInt_eq_toNat_cond] at hpos
    rw [clearIndex_toNat] at hpos ⊢
    split at hpos <;> omega

/-- A generation and an index do not overlap. -/
theorem or_index_toNat {g : Word} {e : Nat} (hmod : g.toNat % 1024 = 0)
    (he : e < 1024) :
    (g ||| BitVec.ofNat 32 e).toNat = g.toNat + e := by
  rw [BitVec.toNat_or, BitVec.toNat_ofNat, Nat.mod_eq_of_lt (by omega)]
  have hdiv : g.toNat = 2 ^ 10 * (g.toNat / 1024) := by omega
  rw [hdiv, ← Nat.two_pow_add_eq_or_of_lt he]

theorem nextEnvId_toNat {old : Word} {e : Nat} (he : e < NENV) :
    (nextEnvId old e).toNat % 1024 = e ∧ 0 < (nextEnvId old e).toNat
      ∧ (nextEnvId old e).toNat < 2 ^ 31 := by
  obtain ⟨g, hg, hmod, hpos, hlt⟩ := nextEnvId_eq old e
  have he : e < 1024 := he
  rw [hg, or_index_toNat hmod he]
  omega

/-- A new id names its slot. -/
theorem envx_nextEnvId {old : Word} {e : Nat} (he : e < NENV) :
    envx (nextEnvId old e) = e := (nextEnvId_toNat he).1

/-! ## The invariant -/

/-- `e` is a live environment. -/
def Kern.Live (s : Kern) (e : Nat) : Prop :=
  e < NENV ∧ (s.envs e).envStatus ≠ .free

/-- The environment table and its free list are consistent. -/
structure EnvInv (s : Kern) : Prop where
  idx : ∀ e, s.Live e → envx (s.envs e).envId = e
  pos : ∀ e, s.Live e → 0 < (s.envs e).envId.toNat
    ∧ (s.envs e).envId.toNat < 2 ^ 31
  freeList : ∃ ys, s.envFreeList.Rep ys
    ∧ ∀ e, e ∈ ys ↔ e < NENV ∧ (s.envs e).envStatus = .free

section

variable {s t : Kern} {c d e : Nat}

theorem Running.live (hr : Running s c) : s.Live c :=
  ⟨hr.lt, hr.runnable ▸ nofun⟩

theorem Kern.Named.isLive {id : Word} (h : s.Named e id) : s.Live e :=
  ⟨h.idx ▸ envx_lt id, h.live⟩

theorem live_of_resolve {id : Word} {p : Bool} (h : s.resolve c id p = .ok e)
    (hc : s.Live c) : s.Live e := by
  rcases resolve_ok h with ⟨_, rfl⟩ | ⟨_, hn⟩
  · exact hc
  · exact hn.isLive

namespace EnvInv

/-- A live environment's id is not 0, which stands for the caller. -/
theorem id_ne_zero (h : EnvInv s) (he : s.Live e) : (s.envs e).envId ≠ 0 := by
  intro h0
  have := (h.pos e he).1
  rw [h0] at this
  exact absurd this (by decide)

/-- The live environment with a given id. -/
theorem named (h : EnvInv s) (he : s.Live e) : s.Named e (s.envs e).envId :=
  ⟨(h.idx e he).symm, he.2, rfl⟩

/-- Live environments have different ids. -/
theorem id_inj (h : EnvInv s) (he : s.Live e) (hd : s.Live d)
    (hid : (s.envs e).envId = (s.envs d).envId) : e = d := by
  rw [← h.idx e he, hid, h.idx d hd]

theorem congr (h : EnvInv s) (hlist : t.envFreeList = s.envFreeList)
    (hfree : ∀ e, (t.envs e).envStatus = .free ↔ (s.envs e).envStatus = .free)
    (hid : ∀ e, (t.envs e).envId = (s.envs e).envId) : EnvInv t := by
  have hlive : ∀ e, t.Live e → s.Live e :=
    fun e he => ⟨he.1, fun hf => he.2 ((hfree e).mpr hf)⟩
  refine ⟨fun e he => ?_, fun e he => ?_, ?_⟩
  · rw [hid]; exact h.idx e (hlive e he)
  · rw [hid]; exact h.pos e (hlive e he)
  · obtain ⟨ys, hrep, hmem⟩ := h.freeList
    exact ⟨ys, hlist ▸ hrep, fun e => by rw [hmem, hfree]⟩

/-- Changing an environment, but neither its id nor whether it is free. -/
theorem setEnv (h : EnvInv s) {f : Env → Env}
    (hfree : (f (s.envs e)).envStatus = .free ↔ (s.envs e).envStatus = .free)
    (hid : (f (s.envs e)).envId = (s.envs e).envId) :
    EnvInv (s.setEnv e f) := by
  refine h.congr rfl (fun d => ?_) fun d => ?_ <;>
  · by_cases hd : d = e
    · subst hd; simpa
    · rw [Kern.setEnv_envs_ne hd]

theorem freed (h : EnvInv s) (he : s.Live e) (v : Vm) :
    EnvInv (s.freed e v) := by
  have hself : ((s.freed e v).envs e).envStatus = .free := by
    rw [Kern.freed_envs_self]
  have hne : ∀ d, d ≠ e → (s.freed e v).envs d = s.envs d :=
    fun _ => Kern.freed_envs_ne
  have hlive : ∀ d, (s.freed e v).Live d → d ≠ e ∧ s.Live d := by
    intro d hd
    have hde : d ≠ e := by
      rintro rfl
      exact hd.2 hself
    exact ⟨hde, hd.1, hne d hde ▸ hd.2⟩
  refine ⟨fun d hd => ?_, fun d hd => ?_, ?_⟩
  · rw [hne d (hlive d hd).1]; exact h.idx d (hlive d hd).2
  · rw [hne d (hlive d hd).1]; exact h.pos d (hlive d hd).2
  · obtain ⟨ys, hrep, hmem⟩ := h.freeList
    refine ⟨e :: ys, Queue.rep_insertHead hrep fun hy => he.2
      ((hmem e).mp hy).2, fun d => ?_⟩
    by_cases hd : d = e
    · subst hd; simp [he.1]
    · rw [List.mem_cons, hmem, hne d hd]
      simp [hd]

theorem alloced (h : EnvInv s) (hfirst : s.envFreeList.first = some e)
    (pid : Word)
    (dir : Nat × Word) (v : Vm) :
    e < NENV ∧ (s.envs e).envStatus = .free
      ∧ EnvInv (s.alloced e pid dir v) := by
  obtain ⟨ys, hrep, hmem⟩ := h.freeList
  obtain ⟨zs, rfl⟩ := hrep.eq_cons hfirst
  have he := (hmem e).mp (List.mem_cons_self ..)
  have hnd := List.nodup_cons.mp hrep.nodup
  refine ⟨he.1, he.2, ?_⟩
  have hself : (s.alloced e pid dir v).envs e
      = initEnv e pid { s.envs e with envPgdir := dir.1, envCr3 := dir.2 } :=
    Kern.alloced_envs_self
  have hne : ∀ d, d ≠ e → (s.alloced e pid dir v).envs d = s.envs d :=
    fun _ => Kern.alloced_envs_ne
  refine ⟨fun d hd => ?_, fun d hd => ?_, zs, Queue.rep_removeFirst hrep,
    fun d => ?_⟩
  · by_cases hde : d = e
    · subst hde; rw [hself]; exact envx_nextEnvId he.1
    · rw [hne d hde]; exact h.idx d ⟨hd.1, hne d hde ▸ hd.2⟩
  · by_cases hde : d = e
    · subst hde; rw [hself]; exact (nextEnvId_toNat he.1).2
    · rw [hne d hde]; exact h.pos d ⟨hd.1, hne d hde ▸ hd.2⟩
  · by_cases hde : d = e
    · subst hde; rw [hself]; simp [hnd.1, initEnv]
    · rw [hne d hde, ← hmem, List.mem_cons]; simp [hde]

theorem withVm (h : EnvInv s) (v : Vm) : EnvInv (s.withVm v) :=
  h.congr rfl (fun _ => Iff.rfl) fun _ => rfl

theorem sysRet (h : EnvInv s) (r : Word) : EnvInv (s.sysRet c r) :=
  h.setEnv Iff.rfl rfl

theorem dropCur (h : EnvInv s) : EnvInv s.dropCur :=
  h.congr rfl (fun _ => Iff.rfl) fun _ => rfl

theorem saved (h : EnvInv s) (tr : Trap) : EnvInv (s.saved c tr) :=
  EnvInv.setEnv (s := s.enter tr) (h.congr rfl (fun _ => Iff.rfl) fun _ => rfl)
    Iff.rfl rfl

theorem runOn (h : EnvInv s) : EnvInv (s.runOn e) :=
  h.congr Kern.runOn_envFreeList
    (fun _ => Iff.of_eq (Kern.runOn_proj (·.envStatus = .free) fun _ _ => rfl))
    fun _ => Kern.runOn_proj Env.envId fun _ _ => rfl

end EnvInv

/-! ## Which environments there are -/

/-- The same slots are free in `t` as in `s`, and all ids and parents are the
same. -/
structure SameIds (s t : Kern) : Prop where
  id : ∀ d, (t.envs d).envId = (s.envs d).envId
  parent : ∀ d, (t.envs d).envParentId = (s.envs d).envParentId
  free : ∀ d, (t.envs d).envStatus = .free ↔ (s.envs d).envStatus = .free
  list : t.envFreeList = s.envFreeList

namespace SameIds

theorem refl (s : Kern) : SameIds s s :=
  ⟨fun _ => rfl, fun _ => rfl, fun _ => Iff.rfl, rfl⟩

theorem withVm (h : SameIds s t) (v : Vm) : SameIds s (t.withVm v) :=
  ⟨h.id, h.parent, h.free, h.list⟩

theorem setEnv (h : SameIds s t) {f : Env → Env}
    (hfree : (f (t.envs e)).envStatus = .free ↔ (t.envs e).envStatus = .free)
    (hid : (f (t.envs e)).envId = (t.envs e).envId)
    (hpar : (f (t.envs e)).envParentId = (t.envs e).envParentId) :
    SameIds s (t.setEnv e f) where
  id d := (Kern.setEnv_proj Env.envId hid).trans (h.id d)
  parent d := (Kern.setEnv_proj Env.envParentId hpar).trans (h.parent d)
  free d := (Iff.of_eq (Kern.setEnv_proj (fun env => env.envStatus = .free)
    (propext hfree))).trans (h.free d)
  list := h.list

/-- A live environment changes and stays live. -/
theorem setLive (h : SameIds s t) {f : Env → Env}
    (he : (s.envs e).envStatus ≠ .free)
    (hf : (f (t.envs e)).envStatus ≠ .free)
    (hid : (f (t.envs e)).envId = (t.envs e).envId)
    (hpar : (f (t.envs e)).envParentId = (t.envs e).envParentId) :
    SameIds s (t.setEnv e f) :=
  h.setEnv (iff_of_false hf fun hfree => he ((h.free e).mp hfree)) hid hpar

theorem sysRet (h : SameIds s t) (r : Word) : SameIds s (t.sysRet c r) :=
  h.setEnv Iff.rfl rfl rfl

theorem live (h : SameIds s t) : t.Live e ↔ s.Live e := by
  simp only [Kern.Live, ne_eq, h.free e]

theorem named (h : SameIds s t) {id : Word} : t.Named e id ↔ s.Named e id := by
  constructor
  · exact fun ⟨hidx, hlive, hid⟩ =>
      ⟨hidx, fun hf => hlive ((h.free e).mpr hf), h.id e ▸ hid⟩
  · exact fun ⟨hidx, hlive, hid⟩ =>
      ⟨hidx, fun hf => hlive ((h.free e).mp hf), h.id e ▸ hid⟩

theorem envInv (h : SameIds s t) (hs : EnvInv s) : EnvInv t :=
  hs.congr h.list h.free h.id

end SameIds

theorem validStatus_ne_free {x : Word} {st : EnvStatus}
    (h : validStatus x = some st) :
    st ≠ .free := by
  unfold validStatus at h
  split at h
  · cases h; nofun
  · split at h
    · cases h; nofun
    · cases h

/-- What handling a trap of `c` does to the set of environments: nothing, or a
live one is freed, or `sys_exofork` makes one. -/
inductive IdChange (c : Nat) (s s₁ : Kern) : Prop where
  | same (h : SameIds s s₁)
  | freed {t : Kern} {e : Nat} {v : Vm} (h : SameIds s t) (he : s.Live e)
      (hwhy : Destroys s c e)
      (hs₁ : (e = c ∧ s₁ = (t.freed e v).dropCur)
      ∨ (e ≠ c ∧ s₁ = (t.freed e v).sysRet c 0))
  | born {e : Nat} {dir : Nat × Word} {v : Vm}
      (hno : (s.envs c).envTf.sysNo = some .exofork)
      (hfirst : s.envFreeList.first = some e)
      (hs₁ : s₁ = ((s.alloced e (s.envs c).envId dir v).setEnv e fun env =>
      { env with
          envStatus := .notRunnable
          envTf := ((s.alloced e (s.envs c).envId dir v).envs c).envTf.setEax 0
            }).sysRet c
        (nextEnvId (s.envs e).envId e))

/-- Every way to handle a trap, seen from the set of environments. -/
theorem Handled.idChange {s₁ : Kern} (hr : Running s c) (hh : Handled c s s₁) :
    IdChange c s s₁ := by
  have hrun : (s.envs c).envStatus ≠ .free := hr.live.2
  have h := SameIds.refl s
  cases hh with
  | idle hno => exact .same h
  | push hno hv => exact .same ((h.withVm _).setEnv Iff.rfl rfl rfl)
  | exit hwhy hv => exact .freed h hr.live (.exit hwhy) (.inl ⟨rfl, rfl⟩)
  | destroy hno hres hne hv =>
      exact .freed h (live_of_resolve hres hr.live) (.child hno hres)
        (.inr ⟨hne, rfl⟩)
  | ret hno hv => exact .same ((h.withVm _).sysRet _)
  | @field e f hno hctl hf =>
      obtain ⟨_, _, _, _, _, hf⟩ := hf (s.envs e)
      exact .same ((h.setEnv (by rw [hf]) (by rw [hf]) (by rw [hf])).sysRet _)
  | status hno hres hst =>
      exact .same ((h.setLive (live_of_resolve
        hres hr.live).2 (validStatus_ne_free hst) rfl
        rfl).sysRet _)
  | @uxstack e v r hno hres hva hperm hv =>
      have hlive := (live_of_resolve hres hr.live).2
      refine .same (((h.withVm v).setLive hlive ?_ rfl rfl).sysRet _)
      cases hst : validStatus (s.envs c).envTf.a5 with
      | none => exact hlive
      | some st => exact validStatus_ne_free hst
  | trapframe hno
      hres hbytes => exact .same ((h.setEnv Iff.rfl rfl rfl).sysRet _)
  | exofork hno hfirst hv => exact .born hno hfirst rfl
  | @restore e v hno hres hst hne hv =>
      exact .freed (h.setLive (f :=
        fun env => { env with envStatus := .runnable })
        (live_of_resolve hres hr.live).2 nofun rfl
        rfl) hr.live (.restore hno hres hst)
        (.inl ⟨rfl, rfl⟩)
  | queue hno hres hbusy hroom =>
      have hq : SameIds s (enqueueSender c (s.envs c).envTf.a1 s) :=
        ⟨h.id, h.parent, h.free, h.list⟩
      exact .same (hq.setLive (f := fun env => { env with
        envStatus := .notRunnable }) hrun
        nofun rfl rfl)
  | sendErr hno hres hready hdst hsrc
      hperm hv => exact .same ((h.withVm _).sysRet _)
  | @sent e perm v hno hres hready hv =>
      have hsent := (h.withVm v).setLive (e := e)
        (f := deliver (s.envs c).envId (s.envs c).envTf.a2 perm)
        (live_of_resolve hres hr.live).2 nofun rfl rfl
      exact .same ((hsent.setEnv Iff.rfl rfl rfl).sysRet _)
  | recvErr hno hnone =>
      exact .same ((h.setLive
        (f := blockRecv (s.envs c).envTf.a1) hrun nofun rfl rfl).sysRet _)
  | recvWait hno hnone =>
      exact .same (h.setLive (f := blockRecv (s.envs c).envTf.a1) hrun nofun
        rfl rfl)
  | @recvWake e hrel =>
      have hwake := (h.setLive (f := blockRecv (s.envs c).envTf.a1) hrun
        nofun rfl
        rfl).setLive (e := e) (f := wakeSender) (live_of_resolve
        hrel.source hr.live).2 nofun rfl rfl
      exact .same ⟨hwake.id, hwake.parent, hwake.free, hwake.list⟩

/-! ## Every step keeps the table consistent -/

theorem Handled.envInv {s₁ : Kern} (hr : Running s c) (h : EnvInv s)
    (hh : Handled c s s₁) : EnvInv s₁ := by
  cases hh.idChange hr with
  | same hsame => exact hsame.envInv h
  | freed hsame he _ hs₁ =>
      have hfreed := (hsame.envInv h).freed (hsame.live.mpr he)
      rcases hs₁ with ⟨-, rfl⟩ | ⟨-, rfl⟩
      · exact (hfreed _).dropCur
      · exact (hfreed _).sysRet _
  | born hno hfirst hs₁ =>
      subst hs₁
      obtain ⟨hlt, hfree, halloc⟩ := h.alloced hfirst (s.envs c).envId _ _
      refine (halloc.setEnv (iff_of_false (by simp) ?_) rfl).sysRet _
      rw [Kern.alloced_envs_self]
      nofun

/-- A live environment that is not destroyed keeps its name. -/
theorem Handled.keepsName {s₁ : Kern} {id : Word} (hr : Running s c)
    (h : EnvInv s)
    (hh : Handled c s s₁) (hd : s.Named d id) (hdestroy : ¬Destroys s c d) :
    s₁.Named d id := by
  cases hh.idChange hr with
  | same hsame => exact hsame.named.mpr hd
  | @freed t e v hsame he hwhy hs₁ =>
      have hde : d ≠ e := fun hde => hdestroy (hde ▸ hwhy)
      have ht : (t.freed e v).Named d id := by
        obtain ⟨hidx, hlive, hid⟩ := hsame.named.mpr hd
        exact ⟨hidx, by rwa [Kern.freed_envs_ne hde],
          by rwa [Kern.freed_envs_ne hde]⟩
      rcases hs₁ with ⟨-, rfl⟩ | ⟨-, rfl⟩
      · exact ⟨ht.idx, ht.live, ht.id⟩
      · exact ((SameIds.refl _).sysRet _).named.mpr ht
  | @born e dir v hno hfirst hs₁ =>
      subst hs₁
      have hde : d ≠ e := by
        rintro rfl
        exact hd.live (h.alloced hfirst (s.envs c).envId dir v).2.1
      refine ((SameIds.refl _).sysRet _).named.mpr ?_
      obtain ⟨hidx, hlive, hid⟩ := hd
      exact ⟨hidx, by rwa [Kern.setEnv_envs_ne hde, Kern.alloced_envs_ne hde],
        by rwa [Kern.setEnv_envs_ne hde, Kern.alloced_envs_ne hde]⟩

/-- The environment in slot `d` of `s₁` has just been made by a `sys_exofork` of
`c`. -/
structure Newborn (c : Nat) (s s₁ : Kern) (d : Nat) : Prop where
  call : (s.envs c).envTf.sysNo = some .exofork
  free : (s.envs d).envStatus = .free
  status : (s₁.envs d).envStatus = .notRunnable
  recving : (s₁.envs d).envIpcRecving = false
  parent : (s₁.envs d).envParentId = (s.envs c).envId
  tf : (s₁.envs d).envTf = (s.envs c).envTf.setEax 0

/-- A live environment was there before, or it is a new one. -/
theorem Handled.named {s₁ : Kern} {id : Word} (hr : Running s c) (h : EnvInv s)
    (hh : Handled c s s₁) (hd : s₁.Named d id) :
    s.Named d id ∨ Newborn c s s₁ d := by
  cases hh.idChange hr with
  | same hsame => exact .inl (hsame.named.mp hd)
  | @freed t e v hsame he hwhy hs₁ =>
      refine .inl (hsame.named.mp ?_)
      have hid : ((t.freed e v).envs d).envId = (s₁.envs d).envId
          ∧ ((t.freed e v).envs d).envStatus = (s₁.envs d).envStatus := by
        rcases hs₁ with ⟨-, rfl⟩ | ⟨-, rfl⟩
        · exact ⟨rfl, rfl⟩
        · exact ⟨(Kern.setEnv_proj Env.envId rfl).symm,
            (Kern.setEnv_proj Env.envStatus rfl).symm⟩
      by_cases hde : d = e
      · rw [hde, Kern.freed_envs_self] at hid
        exact absurd (hde ▸ hid.2.symm) hd.live
      · rw [Kern.freed_envs_ne hde] at hid
        exact ⟨hd.idx, hid.2 ▸ hd.live, hid.1.trans hd.id⟩
  | @born e dir v hno hfirst hs₁ =>
      subst hs₁
      obtain ⟨-, hfree, -⟩ := h.alloced hfirst (s.envs c).envId dir v
      have hce : c ≠ e := by
        rintro rfl
        rw [hr.runnable] at hfree
        cases hfree
      by_cases hde : d = e
      · subst hde
        refine .inr ⟨hno, hfree, ?_, ?_, ?_, ?_⟩ <;>
          rw [Kern.sysRet_envs_ne (Ne.symm hce), Kern.setEnv_envs_self]
        · rw [Kern.alloced_envs_self]; rfl
        · rw [Kern.alloced_envs_self]; rfl
        · rw [Kern.alloced_envs_ne hce]
      · have hproj : ∀ {α : Type} (g : Env → α) (hg : ∀ env tf,
            g { env with envTf := tf } = g env),
            g ((Kern.sysRet c (nextEnvId (s.envs e).envId e)
              ((s.alloced e (s.envs c).envId dir v).setEnv e fun env =>
              { env with
                envStatus := .notRunnable
                envTf := ((s.alloced e (s.envs c).envId dir v).envs
                  c).envTf.setEax 0 })).envs d)
              = g (s.envs d) := by
          intro α g hg
          refine (Kern.setEnv_proj g (hg _ _)).trans ?_
          rw [Kern.setEnv_envs_ne hde, Kern.alloced_envs_ne hde]
        refine .inl ⟨hd.idx, ?_, ?_⟩
        · rw [← hproj Env.envStatus fun _ _ => rfl]
          exact hd.live
        · rw [← hproj Env.envId fun _ _ => rfl]
          exact hd.id

theorem Handled.live {s₁ : Kern} (hr : Running s c) (h : EnvInv s)
    (hh : Handled c s s₁)
    (hd : s₁.Live d) : s.Live d ∨ Newborn c s s₁ d :=
  (hh.named hr h ((hh.envInv hr h).named hd)).imp_left Kern.Named.isLive

/-- The invariant of a run: a consistent table, and a current environment that
can run. -/
structure SysInv (s : Kern) : Prop where
  env : EnvInv s
  running : ∃ c, Running s c

theorem SysInv.step {s' : Kern} {tr : Trap} (h : SysInv s)
    (hstep : Step s tr s') :
    SysInv s' := by
  obtain ⟨c, hr⟩ := h.running
  obtain ⟨s₁, e, hh, hlt, hrun, rfl⟩ := step_cases hr hstep
  exact ⟨(hh.envInv (hr.saved tr) (h.env.saved tr)).runOn,
    e, Kern.runOn_curenv, hlt,
    (Kern.runOn_proj Env.envStatus fun _ _ => rfl).trans hrun⟩

end

end Jos
