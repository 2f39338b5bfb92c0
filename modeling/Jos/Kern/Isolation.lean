import Jos.Kern.Protect
import Jos.User.Load

/-!
# Isolation

A step of the machine, user code and all, as the environments see it that do not
take it. In a run in which no counter reaches its limit and no call fails half
way, no step of `c` changes what an environment that `c` does not control finds
at its addresses, unless it receives a page there, or `c` has the page mapped
writable itself.
-/

namespace Jos

open Slot (target)

/-- Free pages, page tables and the kernel are out of the reach of user code,
and the environment that runs does so in its own address space. -/
structure Protected (L : Layout) (s : Kern) : Prop where
  guarded : Guarded L s
  switch : SwitchInv s

/-- All counters are exact, and the trap is not a call that frees the page that
it was to map. -/
structure Mild (L : Layout) (s : Kern) (tr : Trap) : Prop where
  fits : Fits L s.dirs s.vm.mem
  fed : ∀ c, s.curenv = some c → ¬Starves (s.saved c tr) c

/-- What a trap of `c` makes of an environment `e` that it does not control:
nothing, unless it sends to `e`, lets `e` send again, or resumes it by
`sys_env_restore`. -/
inductive Reached (s : Kern) (c e : Nat) : Env → Prop where
  | same : Reached s c e (s.envs e)
  | delivered {perm : Word} (hsend : SendsTo s c e) :
      Reached s c e (deliver (s.envs c).envId (s.envs c).envTf.a2 perm
      (s.envs e))
  | woken (hrel : Releases s c e) : Reached s c e (wakeSender (s.envs e))
  | restored (hno : (s.envs c).envTf.sysNo = some .envRestore)
      (hres : s.resolve c (s.envs c).envTf.a1 false = .ok e)
      (hst : (s.envs e).envStatus = .notRunnable) :
      Reached s c e { s.envs e with envStatus := .runnable }

section

variable {L : Layout} {dirs dirs' : Nat → Option Nat} {m m' : PhysMem}
  {s s₁ t : Kern} {c d e p : Nat} {va w : Word}
  {tr : Trap}

/-! ## Environments that are not controlled -/

/-- It stays alive, under its id and in its address space. -/
theorem Reached.keeps {env : Env} (h : Reached s c e env) (he : s.Live e) :
    env.envStatus ≠ .free ∧ env.envId = (s.envs e).envId ∧ env.envParentId =
      (s.envs e).envParentId
      ∧ env.envPgdir = (s.envs e).envPgdir ∧ env.envCr3 =
        (s.envs e).envCr3 := by
  cases h with
  | same => exact ⟨he.2, rfl, rfl, rfl, rfl⟩
  | delivered => exact ⟨(fun h => by cases h), rfl, rfl, rfl, rfl⟩
  | woken => exact ⟨(fun h => by cases h), rfl, rfl, rfl, rfl⟩
  | restored => exact ⟨(fun h => by cases h), rfl, rfl, rfl, rfl⟩

theorem Kern.runOn_envs :
    ∃ runs, (s.runOn d).envs e = { s.envs e with envRuns := runs } := by
  unfold Kern.runOn
  split
  · exact ⟨(s.envs e).envRuns, rfl⟩
  · by_cases hed : e = d
    · subst hed
      exact ⟨(s.envs e).envRuns + 1, Function.update_self ..⟩
    · exact ⟨(s.envs e).envRuns, Function.update_of_ne hed ..⟩

/-! ## Translation -/

/-- The processor finds the same where the entries of the directory and the
table are the same, or where there was no table. -/
theorem translate_congr (hd : dirs e = some d) (hd' : dirs' e = some d)
    (hlt : d < 2 ^ 20)
    (hpde : m'.entry d (pdx va) = m.entry d (pdx va) ∨ m.link d (pdx va) = none)
    (hpte : pteAt m' dirs' e (pdx va) (ptx va) =
      pteAt m dirs e (pdx va) (ptx va)) :
    translate m' (page2pa d) va = translate m (page2pa d) va := by
  rw [translate_below hd' hlt, translate_below hd hlt, hpte]
  rcases hpde with hpde | hnone
  · rw [hpde]
  · rw [pteAt_noTable hd hnone, if_neg (by decide), if_neg (by decide)]

theorem ppn_of_pdx_ptx {x y : Word} (hi : pdx x = pdx y) (hj : ptx x = ptx y) :
    ppn x = ppn y := by
  rw [pdx_eq, pdx_eq] at hi
  rw [ptx_eq, ptx_eq] at hj
  rw [ppn_eq, ppn_eq]
  omega

theorem Confined.translate (h : Confined L c s t) (hpages : PagesOk L s)
    (he : s.Live e) (hno : ¬s.Controls c e)
    (hva : va < UTOP) :
    Jos.translate t.vm.mem (s.envs e).envCr3 va =
      Jos.translate s.vm.mem (s.envs e).envCr3 va
      ∨ s.Gives c e ∧ ppn va = ppn (s.envs e).envIpcDstva := by
  have hdir := h.dir e he hno
  rw [hpages.cr3 e he]
  rcases h.pte e (pdx va) (ptx va) he hno (pdx_lt_of_lt_UTOP hva)
    (ptx_lt va) with hpte | ⟨hsend, hi, hj⟩
  · refine .inl (translate_congr he.dirs (hdir.trans he.dirs) ?_ ?_ hpte)
    · exact Owned.lt_pow (hpages.owned.tree.user_of_nodeOf
        (nodeOf_dir (hpages.lt he) he.dirs))
    · rcases h.pde e _ (pdx va) he.dirs hno with hpde | ⟨-, -, hnone⟩
      · exact .inl hpde
      · exact .inr hnone
  · exact .inr ⟨hsend, ppn_of_pdx_ptx hi hj⟩

/-! ## User code -/

theorem Kern.saved_dirs : (s.saved c tr).dirs = s.dirs :=
  dirs_congr
    (fun _ => Iff.of_eq (Kern.saved_proj (·.envStatus = .free) fun _ => rfl))
    fun _ => Kern.saved_proj Env.envPgdir fun _ => rfl

theorem Kern.saved_vm : (s.saved c tr).vm = { s.vm with mem := tr.mem } := rfl

theorem Kern.saved_live : (s.saved c tr).Live e ↔ s.Live e := by
  unfold Kern.Live
  rw [Kern.saved_proj Env.envStatus fun _ => rfl]

namespace Protected

theorem stores (h : Protected L s) (hut : UserTrap s c tr) (hc : s.Live c) :
    Stores s.dirs c s.vm.mem tr.mem := by
  have hmem := hut.mem
  rw [h.switch.cr3 c hut.cur, h.guarded.pages.cr3 c hc] at hmem
  exact h.guarded.halved.stores hc.dirs (h.guarded.lt_pow hc) hmem

/-- User code keeps the protection. -/
theorem saved (h : Protected L s) (hut : UserTrap s c tr) (hc : s.Live c) :
    Guarded L (s.saved c tr) := by
  have hs := h.stores hut hc
  have hlt := h.guarded.pages.lt hc
  have ho := h.guarded.pages.owned
  refine ⟨⟨h.guarded.pages.ndirs, h.switch.sys.env.saved tr, ?_,
    fun e he => ?_⟩, ?_⟩
  · rw [Kern.saved_dirs, Kern.saved_vm]
    exact ho.stores hlt hs
  · rw [Kern.saved_proj Env.envCr3 fun _ => rfl,
      Kern.saved_proj Env.envPgdir fun _ => rfl]
    exact h.guarded.pages.cr3 e (Kern.saved_live.mp he)
  · rw [Kern.saved_dirs]
    exact h.guarded.halved.frame ho.dir_lt
      (hs.frame (e := c) ho.tree hlt ho.dir_lt)

theorem saved_fits (h : Protected L s) (hut : UserTrap s c tr) (hc : s.Live c)
    (hf : Fits L s.dirs s.vm.mem) :
    Fits L (s.saved c tr).dirs (s.saved c tr).vm.mem := by
  rw [Kern.saved_dirs]
  refine hf.mono fun k hk p hp => ?_
  exact ((h.stores hut hc).target_eq h.guarded.pages.owned.tree
    (h.guarded.pages.lt hc) hk).symm.trans hp

/-! ## The step -/

theorem confined (h : Protected L s) (hut : UserTrap s c tr) (hr : Running s c)
    (hm : Mild L s tr)
    (htrap : trap tr (s.enter tr) = .away t) : Confined L c (s.saved c tr) t :=
  confined_of_trap hr (h.saved hut hr.live) (h.saved_fits hut hr.live hm.fits)
    (h.switch.cr3 c hut.cur)
    (hm.fed c hut.cur) htrap

/-- The protection is kept. -/
theorem step (h : Protected L s) (hm : Mild L s tr) (hstep : Step s tr t) :
    Protected L t := by
  obtain ⟨⟨c, hut⟩, htrap⟩ := hstep
  obtain ⟨c', hr⟩ := h.switch.sys.running
  obtain rfl := Option.some.inj (hut.cur.symm.trans hr.cur)
  exact ⟨(h.confined hut hr hm htrap).guarded, h.switch.step htrap⟩

end Protected

/-- A call other than `SYS_page_map_update_perm` starves only if no page is
free. -/
theorem Starves.empty (h : Starves s c)
    (hno : (s.envs c).envTf.sysNo ≠ some .pageMapUpdatePerm) :
    s.vm.pageFreeList.first = none := by
  cases h with
  | map _ h =>
      obtain ⟨_, _, -, hfail⟩ := h
      exact hfail.full
  | mapFirst hcall => exact absurd hcall hno
  | mapBack hcall => exact absurd hcall hno
  | send _ hfail => exact hfail.full

theorem Mild.of_free (no : Option SysNo) (hf : Fits L s.dirs s.vm.mem)
    (hcur : s.curenv = some c) (hfirst : s.vm.pageFreeList.first ≠ none)
    (hno : tr.tf.sysNo = no) (hne : no ≠ some .pageMapUpdatePerm) :
    Mild L s tr := by
  refine ⟨hf, fun c' hc' hstarve => hfirst (hstarve.empty ?_)⟩
  obtain rfl := Option.some.inj (hcur.symm.trans hc')
  rw [Kern.saved_envs_self_tf, hno]
  exact hne

/-! ## The small kernel -/

section

variable {k : Nat} (hk : k ≤ 10000)

theorem smallKern_fits :
    Fits (smallLayout k hk) (smallKern k).dirs (smallKern k).vm.mem := by
  refine fits_of_single (smallKern_pagesOk hk).owned.tree
    fun l _ l' _ hl _ p hp _ => ?_
  obtain ⟨e, -, rfl, -⟩ := smallKern_target hp
  exact absurd trivial hl

theorem smallKern_protected : Protected (smallLayout k hk) (smallKern k) := by
  have hhalf : ∀ d, KernelHalf (smallLayout k hk) (smallKern k).vm.mem d := by
    intro d i _ _ hw
    have hlink : (smallKern k).vm.mem.link d i = none := smallVm_link k d i
    rw [PhysMem.link, mapped_of_present hw.1] at hlink
    cases hlink
  have hboot : ¬(smallLayout k hk).User 300 := fun hu =>
    absurd hu.1.1 (by decide)
  refine ⟨⟨smallKern_pagesOk hk, hhalf _, hboot, fun _ d _ => hhalf d⟩,
    ⟨smallKern_envInv k, 2, smallKern_running k⟩, fun c hc => ?_⟩
  obtain rfl : 2 = c := Option.some.inj hc
  rfl

end

end

end Jos
