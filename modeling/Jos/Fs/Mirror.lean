import Jos.Fs.Balance
import Jos.Fs.FileMap
import Jos.Fs.Zero

/-!
# A disk as a map from paths to files

A disk mirrors a map when its paths lead to what the map has there. A lookup
answers what the map answers, and a change of the disk that changes what is at
one path is the change of the map there.
-/

namespace Jos

namespace PhysMem

variable {m m' : PhysMem} {f g d dir : FilePtr} {name : List (BitVec 8)}
  {path pre par rest : Names} {M : FileMap}
  {K : Kind → Prop}

/-! ## What is at a path -/

/-- The bytes of `f`, which has none from `MAXFILESIZE` on. -/
def bytes (m : PhysMem) (f : FilePtr) (o : Nat) : BitVec 8 :=
  if o < MAXFILESIZE then m.byte f o else 0

/-- What is at a path that leads to `f`. -/
def node (m : PhysMem) (f : FilePtr) : Node :=
  if m.fType f = FTYPE_DIR then .dir else .file ⟨(m.fSize f).toNat, m.bytes f⟩

/-- The paths of `m` lead to what `M` has there. -/
structure Mirrors (m : PhysMem) (M : FileMap) : Prop where
  leads : ∀ p f, m.Resolves p f → M p = some (m.node f)
  nowhere : ∀ p, (∀ f, ¬m.Resolves p f) → M p = none

theorem node_of_dir (hm : m.Sound) (hd : m.IsDir d) : m.node d = .dir :=
  if_pos (hm.isDir_type hd)

theorem node_of_file (ht : m.fType f ≠ FTYPE_DIR) :
    m.node f = .file ⟨(m.fSize f).toNat, m.bytes f⟩ := if_neg ht

theorem Kept.node (h : Kept m m' f) : m'.node f = m.node f := by
  rw [PhysMem.node, h.fType, PhysMem.node]
  split
  · rfl
  · rename_i ht
    have hbytes : m'.bytes f = m.bytes f := by
      funext o
      rw [bytes, bytes]
      split
      · rename_i ho
        exact h.byte ht o ho
      · rfl
    rw [h.fSize, hbytes]

theorem Mirrors.some_of (hM : m.Mirrors M) {n : Node} (h : M path = some n) :
    ∃ f, m.Resolves path f ∧ m.node f = n := by
  by_cases hr : ∃ f, m.Resolves path f
  · obtain ⟨f, hf⟩ := hr
    have hn := hM.leads path f hf
    rw [h, Option.some.injEq] at hn
    exact ⟨f, hf, hn.symm⟩
  · rw [hM.nowhere path fun f hf => hr ⟨f, hf⟩] at h
    cases h

theorem Mirrors.none_of (hM : m.Mirrors M) (h : M path = none) :
    ¬m.Resolves path f := by
  intro hf
  rw [hM.leads path f hf] at h
  cases h

/-- What changes at one path. -/
theorem Mirrors.update (hM : m.Mirrors M) {p : Names} {v : Option Node}
    (hres : ∀ p' g, p' ≠ p → (m'.Resolves p' g ↔ m.Resolves p' g))
    (hnode : ∀ p' g, p' ≠ p → m.Resolves p' g → m'.node g = m.node g)
    (hsome : ∀ g, m'.Resolves p g → v = some (m'.node g))
    (hnone : (∀ g, ¬m'.Resolves p g) → v = none) :
    m'.Mirrors (Function.update M p v) := by
  constructor
  · intro p' g hg
    by_cases hp : p' = p
    · subst hp
      rw [Function.update_self]
      exact hsome g hg
    · rw [Function.update_of_ne hp]
      have hold := (hres p' g hp).mp hg
      rw [hM.leads p' g hold, hnode p' g hp hold]
  · intro p' hno
    by_cases hp : p' = p
    · subst hp
      rw [Function.update_self]
      exact hnone hno
    · rw [Function.update_of_ne hp]
      exact hM.nowhere p' fun g hg => hno g ((hres p' g hp).mpr hg)

/-! ## Lookups -/

/-- What a lookup of the file server says. -/
def lookOf : Walk → Look
  | .found _ _ => .found
  | .missing _ _ => .missing
  | .error r => .error r

theorem exists_answers (hm : m.Dirs) (hM : m.Mirrors M) {pdir : Option FilePtr}
    (hf : m.Arrives pre pdir f)
    (hrest : ∀ c ∈ rest, c ≠ [] ∧ 0 ∉ c) :
    ∃ w, m.Answers (pre ++ rest) w ∧ lookOf w = M.walk pre rest := by
  induction rest generalizing pre pdir f with
  | nil =>
      rw [List.append_nil]
      exact ⟨.found pdir f, hf, rfl⟩
  | cons name rest ih =>
      obtain ⟨hne, hzero⟩ := hrest name List.mem_cons_self
      have hat := hM.leads pre f hf.resolves
      by_cases hlong : MAXNAMELEN ≤ name.length
      · refine ⟨.error (-E_BAD_PATH),
          ⟨pre, name, rest, rfl, .long hf.resolves hlong⟩, ?_⟩
        rw [FileMap.walk, if_pos hlong]
        rfl
      have hshort : name.length < MAXNAMELEN := Nat.not_le.mp hlong
      by_cases ht : m.fType f = FTYPE_DIR
      · have hd : m.IsDir f := hf.resolves.record.isDir ht
        rw [node_of_dir hm.toSound hd] at hat
        cases hnext : M (pre ++ [name]) with
        | none =>
            have hno : ∀ g, ¬m.Child f name g :=
              fun g hc => hM.none_of hnext (.child hf.resolves hc)
            by_cases hlast : rest = []
            · subst hlast
              refine ⟨.missing f name,
                ⟨⟨hne, hshort, hzero⟩, pre, rfl, hf.resolves, hd, hno⟩, ?_⟩
              simp only [FileMap.walk, if_neg hlong, hat, hnext, if_true]
              rfl
            · refine ⟨.error (-E_NOT_FOUND), ⟨pre, name, rest, rfl,
                .absent hf.resolves hshort hlast hno⟩, ?_⟩
              simp only [FileMap.walk, if_neg hlong, hat, hnext, if_neg hlast]
              rfl
        | some n =>
            obtain ⟨g, hg, _⟩ := hM.some_of hnext
            obtain ⟨dir, hdir, hc⟩ := resolves_snoc.mp hg
            obtain rfl := hm.resolves_unique hdir hf.resolves
            obtain ⟨w, hw, hlook⟩ := ih (.child hf.resolves hc) fun c hmem =>
              hrest c (List.mem_cons_of_mem name hmem)
            rw [List.append_assoc] at hw
            refine ⟨w, hw, ?_⟩
            simp only [FileMap.walk, if_neg hlong, hat, hnext]
            exact hlook
      · refine ⟨.error (-E_NOT_FOUND),
          ⟨pre, name, rest, rfl, .file hf.resolves hshort ht⟩, ?_⟩
        rw [node_of_file ht] at hat
        simp only [FileMap.walk, if_neg hlong, hat]
        rfl

end PhysMem

theorem mem_of_mem_splitOn {path c : List (BitVec 8)} {x : BitVec 8}
    (hc : c ∈ path.splitOn SLASH) (hx : x ∈ c) : x ∈ path := by
  induction path generalizing c with
  | nil =>
      rw [List.splitOn_nil, List.mem_singleton] at hc
      rwa [hc] at hx
  | cons y ys ih =>
      rw [List.splitOn_cons_eq_if_modifyHead] at hc
      split at hc
      · rcases List.mem_cons.mp hc with rfl | hc
        · cases hx
        · exact List.mem_cons_of_mem y (ih hc hx)
      · cases hsplit : ys.splitOn SLASH with
        | nil => exact absurd hsplit (List.splitOn_ne_nil _ _)
        | cons w ws =>
            rw [hsplit] at hc
            rcases List.mem_cons.mp hc with rfl | hc
            · rcases List.mem_cons.mp hx with rfl | hx
              · exact List.mem_cons_self
              · exact List.mem_cons_of_mem y
                  (ih (hsplit ▸ List.mem_cons_self) hx)
            · exact List.mem_cons_of_mem y
                (ih (hsplit ▸ List.mem_cons_of_mem w hc) hx)

/-- The names of a path are not empty, and end where the string does. -/
theorem mem_components {path c : List (BitVec 8)} (hz : 0 ∉ path)
    (hc : c ∈ components path) : c ≠ [] ∧ 0 ∉ c := by
  rw [components, List.mem_filter] at hc
  exact ⟨by simpa using hc.2, fun h0 => hz (mem_of_mem_splitOn hc.1 h0)⟩

end Jos
