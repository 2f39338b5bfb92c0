import Jos.Kern.Small

/-!
# Environment ids

Runs of `env_alloc` and `env_free` from the state that `env_init` leaves. The
part of an id above its low 12 bits counts the allocations of its slot,
from 1 to 2 ^ 19 - 1 and then from 1 again, so that the id of a freed
environment comes back only after as many allocations.
-/

namespace Jos

/-! ## `env_init` -/

section

variable {s s' t : Kern} {c d e n : Nat} {old id : Word}

/-- After `env_init` all slots are free and on the free list, with the id 0. -/
theorem wp_envInit : Prog.wp envInit
    (fun _ s' => s'.vm = s.vm ∧ s'.curenv = s.curenv
      ∧ (∀ e < NENV, (s'.envs e).envStatus = .free ∧ (s'.envs e).envId = 0)
      ∧ ∃ ys, s'.envFreeList.Rep ys ∧ ∀ e, e ∈ ys ↔ e < NENV)
    (fun _ => False) (fun _ _ => False) s := by
  unfold envInit
  rw [Prog.wp_bind, Prog.wp_update]
  refine Prog.wp_imp
    (Prog.wp_forUp (fun i (t : Kern) => t.vm = s.vm ∧ t.curenv = s.curenv
    ∧ (∀ e, NENV - i ≤ e → e < NENV → (t.envs e).envStatus = .free
    ∧ (t.envs e).envId = 0)
    ∧ ∃ ys, t.envFreeList.Rep ys ∧ ∀ e, e ∈ ys ↔ NENV - i ≤ e ∧ e < NENV)
    ⟨rfl, rfl, fun e h h' => absurd h' (Nat.not_lt_of_le h), [],
    Queue.rep_init _, fun e => ?_⟩ ?_)
    ?_ (fun _ h => h) fun _ _ h => h
  · exact ⟨nofun, fun h => absurd h.2 (Nat.not_lt_of_le h.1)⟩
  · rintro i t hi ⟨hvm, hcur, hfree, ys, hrep, hmem⟩
    rw [Prog.wp_bind, Prog.wp_update, Prog.wp_update]
    have hnew : NENV - 1 - i ∉ ys := fun h => by
      have := ((hmem _).mp h).1
      omega
    refine ⟨hvm, hcur, fun e he he' => ?_, _, Queue.rep_insertHead hrep hnew,
      fun e => ?_⟩
    · by_cases hei : e = NENV - 1 - i
      · rw [hei, Kern.setEnv_envs_self]
        exact ⟨rfl, rfl⟩
      · rw [Kern.setEnv_envs_ne hei]
        exact hfree e (by omega) he'
    · rw [List.mem_cons, hmem]
      omega
  · rintro _ t ⟨hvm, hcur, hfree, ys, hrep, hmem⟩
    simp only [Nat.sub_self, Nat.zero_le, true_and, forall_const] at hfree hmem
    exact ⟨hvm, hcur, hfree, ys, hrep, hmem⟩

theorem envInv_of_envInit (h : envInit s = .ret () s') :
    EnvInv s' ∧ ∀ e, ¬s'.Live e := by
  obtain ⟨-, -, hfree, ys, hrep, hmem⟩ := wp_envInit.ret h
  have hlive : ∀ e, ¬s'.Live e := fun e he => he.2 (hfree e he.1).1
  refine ⟨⟨fun e he => absurd he (hlive e),
    fun e he => absurd he (hlive e), ys, hrep,
    fun e => ?_⟩, hlive⟩
  rw [hmem]
  exact ⟨fun h => ⟨h, (hfree e h).1⟩, fun h => h.1⟩

/-! ## Runs -/

/-- `env_alloc`, or `env_free` of a live environment. -/
inductive EnvOp where
  | alloc (parentId : Word)
  | free (e : Nat)

/-- The operation returns. -/
def EnvOp.Step (s : Kern) (op : EnvOp) (s' : Kern) : Prop :=
  match op with
  | .alloc parentId => ∃ r, envAlloc parentId s = .ret r s'
  | .free e => s.Live e ∧ envFree e s = .ret () s'

/-- A run in which slot `e` is allocated `n` times. -/
inductive AllocRun (e : Nat) : Kern → Nat → Kern → Prop where
  | refl {s : Kern} : AllocRun e s 0 s
  | alloc {s t u : Kern} {n : Nat} {pid : Word} (h : AllocRun e s n t)
      (hop : envAlloc pid t = .ret (.ok e) u) : AllocRun e s (n + 1) u
  | other {s t u : Kern} {n : Nat} {op : EnvOp} (h : AllocRun e s n t)
      (hop : EnvOp.Step t op u)
      (hne : ∀ pid, op = .alloc pid → envAlloc pid t ≠ .ret (.ok e) u) :
      AllocRun e s n u

/-- What `env_alloc` does. -/
theorem envAlloc_cases {pid : Word} {r : Except Word Nat}
    (h : envAlloc pid s = .ret r s') :
    ((∃ x, r = .error x) ∧ s' = s)
    ∨ ∃ e dir v, r = .ok e ∧ s.envFreeList.first = some e
    ∧ s' = s.alloced e pid dir v :=
  (wp_envAlloc (s := s) (A := fun _ => True)
    (Q := fun r s' => ((∃ x, r = .error x) ∧ s' = s)
      ∨ ∃ e dir v, r = .ok e ∧ s.envFreeList.first = some e
      ∧ s' = s.alloced e pid dir v)
    (fun x => .inl ⟨⟨x, rfl⟩, rfl⟩)
    fun e dir v hfirst _ => .inr ⟨e, dir, v, rfl, hfirst, rfl⟩).ret h

theorem envFree_eq (h : envFree e s = .ret () s') : ∃ v, s' = s.freed e v :=
  (wp_envFree (s := s) (A := fun _ => True)
    (Q := fun _ s' => ∃ v, s' = s.freed e v)
    (E := fun _ _ => True) (fun v _ => ⟨v, rfl⟩) fun _ _ _ => trivial).ret h

/-- The number of allocations that an id counts. -/
def generation (id : Word) : Nat := id.toNat / 4096

/-- The ids of slot `e`: 0 before its first allocation, then a generation and
the slot. -/
def SlotId (e : Nat) (id : Word) : Prop :=
  id = 0 ∨ (id.toNat = generation id * 4096 + e ∧ 0 < generation id
    ∧ generation id < 2 ^ 19)

/-- The generation after `k`. -/
def nextGeneration (k : Nat) : Nat := if k = 2 ^ 19 - 1 then 1 else k + 1

/-- `env_alloc` goes to the next generation, and from the last one to the
first. -/
theorem nextEnvId_generation (he : e < NENV) (h : SlotId e old) :
    (nextEnvId old e).toNat = nextGeneration (generation old) * 4096 + e := by
  have he : e < 1024 := he
  obtain ⟨r, hr, hold, hk⟩ : ∃ r < 1024, old.toNat = generation old * 4096 + r
      ∧ generation old < 2 ^ 19 := by
    rcases h with rfl | ⟨h₁, -, h₃⟩
    · exact ⟨0, by decide, by decide, by decide⟩
    · exact ⟨e, he, h₁, h₃⟩
  have hx : ((old + 0x1000#32) &&& ~~~0x3FF#32).toNat =
      (generation old + 1) * 4096 := by
    rw [clearIndex_toNat, BitVec.toNat_add]
    simp only [BitVec.toNat_ofNat]
    omega
  have hsle : ((old + 0x1000#32) &&& ~~~0x3FF#32).sle 0 = true ↔
      generation old = 2 ^ 19 - 1 := by
    rw [BitVec.sle, decide_eq_true_iff, BitVec.toInt_eq_toNat_cond, hx]
    have h0 : (0 : Word).toInt = 0 := by decide
    rw [h0]
    split <;> omega
  unfold nextEnvId nextGeneration
  simp only [hsle]
  split
  · exact or_index_toNat (by decide) he
  · rw [or_index_toNat (by rw [hx]; omega) he, hx]

theorem SlotId.next (he : e < NENV) (h : SlotId e old) :
    SlotId e (nextEnvId old e) ∧ generation (nextEnvId old e) =
      nextGeneration (generation old) := by
  have hnext := nextEnvId_generation he h
  have hpos : 0 < nextGeneration (generation old)
      ∧ nextGeneration (generation old) < 2 ^ 19 := by
    have hk : generation old < 2 ^ 19 := by
      rcases h with rfl | ⟨-, -, h₃⟩
      · decide
      · exact h₃
    unfold nextGeneration
    split <;> omega
  have hgen : generation (nextEnvId old e) =
      nextGeneration (generation old) := by
    have he : e < 1024 := he
    unfold generation at hnext ⊢
    omega
  exact ⟨.inr ⟨hgen.symm ▸ hnext, hgen.symm ▸ hpos.1, hgen.symm ▸ hpos.2⟩, hgen⟩

/-- `n` allocations after generation `k`. -/
theorem nextGeneration_iterate {k : Nat} (h0 : 0 < k) (hk : k < 2 ^ 19)
    (n : Nat) :
    nextGeneration^[n] k = (k - 1 + n) % (2 ^ 19 - 1) + 1 := by
  induction n with
  | zero =>
      rw [Function.iterate_zero, id, Nat.add_zero, Nat.mod_eq_of_lt (by omega)]
      omega
  | succ n ih =>
      rw [Function.iterate_succ_apply', ih]
      unfold nextGeneration
      split <;> omega

/-! ## The invariant -/

/-- The environment table is consistent, and the ids of a slot count its
allocations. -/
structure IdInv (s : Kern) : Prop where
  env : EnvInv s
  slot : ∀ e < NENV, SlotId e (s.envs e).envId

theorem IdInv.alloced (h : IdInv s) (hfirst : s.envFreeList.first = some e)
    (pid : Word)
    (dir : Nat × Word) (v : Vm) : IdInv (s.alloced e pid dir v) := by
  obtain ⟨he, -, henv⟩ := h.env.alloced hfirst pid dir v
  refine ⟨henv, fun d hd => ?_⟩
  by_cases hde : d = e
  · subst hde
    rw [Kern.alloced_envs_self]
    exact ((h.slot d hd).next hd).1
  · rw [Kern.alloced_envs_ne hde]
    exact h.slot d hd

theorem IdInv.freed (h : IdInv s) (he : s.Live e) (v : Vm) :
    IdInv (s.freed e v) :=
  ⟨h.env.freed he v, fun d hd =>
    (Kern.freed_proj (v := v) Env.envId rfl).symm ▸ h.slot d hd⟩

theorem IdInv.step {op : EnvOp} (h : IdInv s) (hstep : EnvOp.Step s op s') :
    IdInv s' := by
  cases op with
  | alloc pid =>
      obtain ⟨r, hr⟩ := hstep
      rcases envAlloc_cases hr with ⟨-, rfl⟩ | ⟨e, dir, v, -, hfirst, rfl⟩
      · exact h
      · exact h.alloced hfirst pid dir v
  | free e =>
      obtain ⟨he, hfree⟩ := hstep
      obtain ⟨v, rfl⟩ := envFree_eq hfree
      exact h.freed he v

theorem IdInv.of_envInit (h : envInit s = .ret () s') : IdInv s' := by
  obtain ⟨-, -, hfree, -⟩ := wp_envInit.ret h
  exact ⟨(envInv_of_envInit h).1, fun e he => .inl (hfree e he).2⟩

/-! ## Freshness -/

/-- What `n` allocations of slot `e` make of its id, once it is free: with none
it is still free. -/
theorem AllocRun.generation (h : IdInv s) (he : e < NENV)
    (hfree : (s.envs e).envStatus = .free)
    (hrun : AllocRun e s n t) : IdInv t
      ∧ Jos.generation (t.envs e).envId =
        nextGeneration^[n] (Jos.generation (s.envs e).envId)
      ∧ (n = 0 → (t.envs e).envStatus = .free) := by
  induction hrun with
  | refl => exact ⟨h, rfl, fun _ => hfree⟩
  | @alloc t u n pid _ hop ih =>
      obtain ⟨hinv, hgen, -⟩ := ih
      rcases envAlloc_cases hop with ⟨⟨x, hx⟩, -⟩ | ⟨d, dir, v, hd, hfirst, rfl⟩
      · cases hx
      · cases hd
        refine ⟨hinv.alloced hfirst pid dir v, ?_, nofun⟩
        rw [Kern.alloced_envs_self, Function.iterate_succ_apply', ← hgen]
        exact ((hinv.slot e he).next he).2
  | @other t u n op _ hop hne ih =>
      obtain ⟨hinv, hgen, hzero⟩ := ih
      refine ⟨hinv.step hop, ?_⟩
      cases op with
      | alloc pid =>
          obtain ⟨r, hr⟩ := hop
          rcases envAlloc_cases hr with ⟨-, rfl⟩ | ⟨d, dir, v, rfl, hfirst, rfl⟩
          · exact ⟨hgen, hzero⟩
          · have hed : e ≠ d := fun hed => hne pid rfl (hed ▸ hr)
            rw [Kern.alloced_envs_ne hed]
            exact ⟨hgen, hzero⟩
      | free d =>
          obtain ⟨v, rfl⟩ := envFree_eq hop.2
          rw [Kern.freed_proj (v := v) Env.envId rfl]
          refine ⟨hgen, fun hn => ?_⟩
          by_cases hed : e = d
          · rw [hed, Kern.freed_status]
          · rw [Kern.freed_envs_ne hed]
            exact hzero hn

/-- `envid2env` without the permission check, by the state of the slot that the
id names. -/
theorem envid2env_nocheck (h0 : id ≠ 0) : envid2env id false s
    = .ret (if (s.envs (envx id)).envStatus = .free
      ∨ (s.envs (envx id)).envId ≠ id then
        .error (-E_BAD_ENV) else .ok (envx id)) s := by
  unfold envid2env
  rw [if_neg h0, Prog.ask_bind]
  split
  · rfl
  · rw [if_neg (by simp)]
    rfl

/-- An id that no live environment has is rejected. -/
theorem envid2env_stale {p : Bool} (h0 : id ≠ 0)
    (h : (s.envs (envx id)).envStatus = .free ∨ (s.envs (envx id)).envId ≠ id) :
    envid2env id p s = .ret (.error (-E_BAD_ENV)) s := by
  unfold envid2env
  rw [if_neg h0, Prog.ask_bind, if_pos h]
  rfl

end

/-- Environment ids, in every run of `env_alloc` and `env_free` from `env_init`:
live ids are positive, name their slot and are different; `envid2env` finds
exactly the live environments; and the id of a freed environment is rejected
until its slot has been allocated 2 ^ 19 - 1 times. -/
theorem env_ids {s₀ s₁ s : Kern} (hinit : envInit s₀ = .ret () s₁)
    (hrun : Runs EnvOp.Step (fun _ _ => True) s₁ s) :
    (∀ e, s.Live e → 0 < (s.envs e).envId.toInt ∧ envx (s.envs e).envId = e)
    ∧ (∀ e d, s.Live e → s.Live d → (s.envs e).envId = (s.envs d).envId → e = d)
    ∧ (∀ id, id ≠ 0 →
      (∀ e, envid2env id false s = .ret (.ok e) s ↔
        s.Live e ∧ (s.envs e).envId = id)
      ∧ ((∀ e, s.Live e → (s.envs e).envId ≠ id) →
        envid2env id false s = .ret (.error (-E_BAD_ENV)) s))
    ∧ (∀ e s' t n p, s.Live e → envFree e s = .ret () s' → AllocRun e s' n t →
      n < 2 ^ 19 - 1 → envid2env (s.envs e).envId p t =
        .ret (.error (-E_BAD_ENV)) t) := by
  have h : IdInv s := hrun.invariant (fun _ _ _ h _ hstep => h.step hstep)
    (.of_envInit hinit)
  refine ⟨fun e he => ⟨?_, h.env.idx e he⟩,
    fun e d he hd hid => h.env.id_inj he hd hid,
    fun id h0 => ⟨fun e => ?_, fun hno => ?_⟩,
    fun e s' t n p he hfree hrun hn => ?_⟩
  · have hpos := h.env.pos e he
    rw [BitVec.toInt_eq_toNat_cond]
    omega
  · rw [envid2env_nocheck h0]
    constructor
    · intro hok
      split at hok
      · cases hok
      · rename_i hlive
        rw [not_or, not_not] at hlive
        cases hok
        exact ⟨⟨envx_lt id, hlive.1⟩, hlive.2⟩
    · rintro ⟨he, rfl⟩
      rw [h.env.idx e he, if_neg (not_or.mpr ⟨he.2, not_not.mpr rfl⟩)]
  · refine envid2env_stale h0 ?_
    by_contra hlive
    rw [not_or, not_not] at hlive
    exact hno _ ⟨envx_lt id, hlive.1⟩ hlive.2
  · obtain ⟨v, rfl⟩ := envFree_eq hfree
    refine envid2env_stale (h.env.id_ne_zero he) ?_
    rw [h.env.idx e he]
    obtain ⟨-, hgen, hzero⟩ :=
      hrun.generation (h.freed he v) he.1 Kern.freed_status
    rw [Kern.freed_proj (v := v) Env.envId rfl] at hgen
    by_cases hn0 : n = 0
    · exact .inl (hzero hn0)
    · refine .inr fun hid => ?_
      rw [hid] at hgen
      obtain ⟨-, hpos, hlt⟩ :=
        (h.slot e he.1).resolve_left (h.env.id_ne_zero he)
      rw [nextGeneration_iterate hpos hlt] at hgen
      omega

set_option maxRecDepth 8000 in
/-- The first allocation from `env_init`. -/
theorem env_ids_small : ∃ s₁ s, envInit (smallKern 1) = .ret () s₁
    ∧ envAlloc 0 s₁ = .ret (.ok 0) s ∧ (s.envs 0).envId = 0x1000#32
    ∧ envid2env 0x1000#32 false s = .ret (.ok 0) s := by
  obtain ⟨_, s₁, h₁, -⟩ := (wp_envInit (s := smallKern 1)).exists_ret
  have hrun :
      (match (do envInit; envAlloc 0 : K (Except Word Nat)) (smallKern 1) with
      | .ret (.ok 0) s =>
          decide ((s.envs 0).envStatus ≠ .free ∧ (s.envs 0).envId = 0x1000#32)
      | _ => false) = true := by decide +kernel
  rw [Prog.bind_ret h₁] at hrun
  split at hrun
  · rename_i s h₂
    obtain ⟨hlive, hid⟩ := of_decide_eq_true hrun
    have hstep : EnvOp.Step s₁ (.alloc 0) s := ⟨_, h₂⟩
    obtain ⟨-, -, hfind, -⟩ := env_ids h₁ (.single trivial hstep)
    exact ⟨s₁, s, h₁, h₂, hid,
      ((hfind _ (by decide)).1 0).mpr ⟨⟨by decide, hlive⟩, hid⟩⟩
  · cases hrun

end Jos
