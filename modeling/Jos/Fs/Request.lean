import Jos.Fs.Buffer

/-!
# What a write request takes

`serve_write` clips `req_n` to the size of a page, but `req_buf` comes after the
header of the request: the last bytes of a longer write are those at the start
of the disk map.
-/

namespace Jos

open PhysMem

section

variable {d m : PhysMem} {s t : Server} {u u' : Fs} {q p : Bytes}
  {f : FilePtr} {i : Nat}
  {count offset v r : Word} {e : Word}

/-! ## Codes -/

/-- The codes of `fs/fs.c` are negative. -/
def NegCodes {α : Type} (g : FsM (Except Word α)) : Prop :=
  ∀ s e t, g s = .ret (.error e) t → e.slt 0

theorem NegCodes.halt {α : Type} (x : Stop) :
    NegCodes (Prog.halt x : FsM (Except Word α)) :=
  fun _ _ _ h => nomatch h

theorem NegCodes.bind {α β : Type} {g : FsM α} {k : α → FsM (Except Word β)}
    (h : ∀ a, NegCodes (k a)) :
    NegCodes (g >>= k) := by
  intro s e t hret
  obtain ⟨a, s', _, hk⟩ := Prog.bind_eq_ret.mp hret
  exact h a s' e t hk

theorem NegCodes.ite {α : Type} {c : Prop} [Decidable c]
    {g k : FsM (Except Word α)} (hg : NegCodes g)
    (hk : NegCodes k) : NegCodes (if c then g else k) := by
  by_cases h : c <;> simpa [h]

variable {move : Int → Int → Nat → FsM Unit} {buf : Int} {x : Except Word Word}

/-- `req_n`. -/
def Server.reqN (s : Server) : Word := s.fs.req.load32 4

/-- The request names an open file: `f`, at position `offset`. -/
structure Server.Names (s : Server) (f : FilePtr) (offset : Word) : Prop where
  file : (s.opentab ((s.fs.req.load32 0).toNat % MAXOPEN)).oFile = some f
  seek : ∃ p, s.fd ((s.fs.req.load32 0).toNat % MAXOPEN) = some p ∧
    p.load32 4 = offset

theorem Server.Names.unique {f' : FilePtr} {offset' : Word}
    (h : s.Names f offset)
    (h' : s.Names f' offset') : f' = f ∧ offset' = offset := by
  obtain ⟨hf, p, hp, rfl⟩ := h
  obtain ⟨hf', p', hp', rfl⟩ := h'
  rw [hf] at hf'
  rw [hp] at hp'
  cases hf'
  cases hp'
  exact ⟨rfl, rfl⟩

/-- The first `n` bytes of `req_buf` are at positions `offset` and on of the
regular file `f`, and nothing else has changed in a file. -/
structure Takes (m m' : PhysMem) (q : Bytes) (f : FilePtr) (offset n : Nat) :
    Prop where
  regular : m.fType f ≠ FTYPE_DIR
  inFile : offset + n ≤ MAXFILESIZE
  fSize : (m'.fSize f).toNat = max (m.fSize f).toNat (offset + n)
  byte : ∀ x, x < MAXFILESIZE →
    m'.byte f x = if offset ≤ x ∧ x < offset + n then q (8 + (x - offset)) else
    m.byte f x
  other : ∀ g, m.Rec g → g ≠ f → m'.Rec g ∧ Kept m m' g

end

/-! ## Examples -/

end Jos
