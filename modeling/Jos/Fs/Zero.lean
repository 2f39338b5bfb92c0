import Jos.Fs.Buffer
import Jos.Fs.Flush
import Jos.Lib.Run

/-!
# Bytes past the end of a file

What a regular file holds past its size, over any run of `file_write` and
`file_set_size`. A block is cleared when it is allocated, but
`file_truncate_blocks` keeps the last block of the new size whole, so that what
is past the size in it comes back when the file grows again.
-/

namespace Jos

open PhysMem

section

variable {d m m' : PhysMem} {s t : Buffered} {q : Bytes} {f : FilePtr}
  {lo hi : Nat} {v : Word}
  {A : Buffered → Prop} {E : Stop → Buffered → Prop}

namespace PhysMem

/-! ## What a truncation leaves of the data -/

/-- Freeing blocks changes nothing in a data block that stays. -/
theorem Edits.data_detach (hm : m.Sound) (hf : m.Rec f)
    (h : Edits (· = .detach) f m m') {k : Nat}
    (hk : k < NDIRECT + NINDIRECT) (h0 : m'.ref (.data f k) ≠ 0) :
    m'.ref (.data f k) = m.ref (.data f k) ∧ m' (m.ref (.data f k)) =
      m (m.ref (.data f k)) := by
  induction h with
  | refl => exact ⟨rfl, rfl⟩
  | @tail m₁ m₂ h h' ih =>
      obtain ⟨hm₁, hf₁⟩ := Edits.sound hm hf h
      cases h' with
      | attach k | setSize k | putName k | fill k => exact nomatch k
      | @detach ρ _ hfile hok hne _ =>
          subst hfile
          have hρ : m₁.Valid ρ := ⟨hf₁, hok⟩
          have hself : Role.data ρ.file k ≠ ρ := by
            intro he
            rw [he] at h0
            exact h0 (hm₁.ref_detach_self hρ hne)
          have hsame : (m₁.detach ρ).ref (.data ρ.file k) =
              m₁.ref (.data ρ.file k) ∨ _ :=
            hm₁.ref_detach_of_ne hρ hne rfl hk hself
          have href := hsame.resolve_right fun hz => h0 hz.1
          rw [href] at h0
          obtain ⟨ih1, ih2⟩ := ih h0
          refine ⟨href.trans ih1, ?_⟩
          have hn := hm₁.named _ (.data hf₁ hk) h0
          have hbit : m.ref (.data ρ.file k) ≠ (bitmapAt (m₁.ref ρ)).1 := by
            intro he
            rw [← ih1] at he
            exact hn.2 (he ▸ reserved_bitmapAt (hm₁.named ρ hρ hne).1.1)
          have hplace : m.ref (.data ρ.file k) ≠ (m₁.place ρ).1 := by
            rw [← ih1]
            exact hm₁.data_ne_place hρ (placed_of_ref hne) hk h0
          rw [detach, setEntry_of_ne hplace, markFree, setEntry_of_ne hbit, ih2]

/-- The data that a truncation leaves. -/
theorem Cut.byte (h : Cut f lo hi m m') (hm : m.Sound) (hf : m.Rec f) {x : Nat}
    (hx : x < MAXFILESIZE) :
    m'.byte f x = if lo ≤ x / BLKSIZE ∧ x / BLKSIZE < hi ∨ lo ≤ NDIRECT ∧
    NDIRECT ≤ x / BLKSIZE then 0
      else m.byte f x := by
  have hk : x / BLKSIZE < NDIRECT + NINDIRECT := div_lt_blocks hx
  have href := h.data _ hk
  split
  · rename_i hin
    rw [if_pos hin] at href
    exact if_pos href
  · rename_i hout
    rw [if_neg hout] at href
    rw [PhysMem.byte, PhysMem.byte]
    by_cases h0 : m.ref (.data f (x / BLKSIZE)) = 0
    · rw [if_pos (href.trans h0), if_pos h0]
    · have h0' : m'.ref (.data f (x / BLKSIZE)) ≠ 0 := by rwa [href]
      rw [if_neg h0', if_neg h0, href, (h.edits.data_detach hm hf hk h0').2]

/-! ## The invariant -/

/-- What is past the size of `f` is zero. -/
def ZeroTail (m : PhysMem) (f : FilePtr) : Prop :=
  ∀ x, (m.fSize f).toNat ≤ x → x < MAXFILESIZE → m.byte f x = 0

/-- Byte `x` is in the last block of a file of size `n`, past its end. -/
def InTail (n x : Nat) : Prop := n ≤ x ∧ x < (n + 4095) / 4096 * BLKSIZE

/-- A truncation that cuts off zeros in the last block. -/
theorem ZeroTail.cut (h : m.ZeroTail f) (hm : m.Sound) (hf : m.Rec f)
    (hsize : (m.fSize f).toNat ≤ MAXFILESIZE)
    (hlt : v.toNat < (m.fSize f).toNat)
    (htail : ∀ x, InTail v.toNat x → m.byte f x = 0)
    (hcut : Cut f (roundBlocks v).toNat
      (max (roundBlocks v).toNat (roundBlocks (m.fSize f)).toNat) m m') :
    (m'.setSize f v).ZeroTail f := by
  obtain ⟨hm', hf'⟩ := hcut.sound hm hf
  have hM := maxFileSize_lt
  have hB : BLKSIZE = 4096 := rfl
  have hMB : MAXFILESIZE = 1034 * 4096 := rfl
  intro x hx hlt'
  rw [fSize_setSize] at hx
  rw [hm'.byte_setSize hf' hlt', hcut.byte hm hf hlt',
    roundBlocks_toNat (by omega), roundBlocks_toNat (by omega)]
  split
  · rfl
  · rename_i hno
    by_cases hin : x < (v.toNat + 4095) / 4096 * BLKSIZE
    · exact htail x ⟨hx, hin⟩
    · refine h x ?_ hlt'
      rw [hB] at hno hin
      omega

end PhysMem

/-! ## Runs -/

/-- A call that writes to the file, or sets its size. -/
inductive SizeOp where
  | write (buf : Bytes) (count offset : Word)
  | setSize (newsize : Word)

namespace SizeOp

def run (f : FilePtr) : SizeOp → BufM Unit
  | write buf count offset => do
      Prog.update fun s => { s with buf := buf }
      let _ ← fileWriteBuf f count offset
  | setSize newsize => do
      let _ ← onFs (fileSetSize f newsize)

/-- The call returns, with whatever code. -/
def Step (f : FilePtr) (s : Buffered) (op : SizeOp) (t : Buffered) : Prop :=
  op.run f s = .ret () t

/-- The call stays in the range of positions in a file. -/
def InRange : SizeOp → Prop
  | write _ count offset => offset.toNat + count.toNat ≤ MAXFILESIZE
  | setSize newsize => newsize.toNat ≤ MAXFILESIZE

/-- The call is in range and, where it truncates the file, cuts off only zeros
in the block that the new size ends in. -/
def CutsZeros (f : FilePtr) (s : Buffered) (op : SizeOp) : Prop :=
  op.InRange ∧ ∀ v, op = setSize v → v.toNat < (s.fs.mem.fSize f).toNat →
    ∀ x, InTail v.toNat x → s.fs.mem.byte f x = 0

/-- The call stores `b` at position `x`. -/
def Stores (x : Nat) (b : BitVec 8) : SizeOp → Prop
  | write buf count offset => offset.toNat ≤ x ∧
      x < offset.toNat + count.toNat ∧ b = buf (x - offset.toNat)
  | setSize _ => False

/-- The file is a sound regular file, and zero past its end. -/
structure Tidy (d : PhysMem) (f : FilePtr) (s : Buffered) : Prop where
  shows : ∃ q, s.fs.Shows d s.fs.mem q
  sound : s.fs.mem.Sound
  record : s.fs.mem.Rec f
  regular : s.fs.mem.fType f ≠ FTYPE_DIR
  size : (s.fs.mem.fSize f).toNat ≤ MAXFILESIZE
  zero : s.fs.mem.ZeroTail f

/-- What the call adds to the file is zero, but for what it stores. -/
def AddsZeros (f : FilePtr) (s : Buffered) (op : SizeOp)
    (t : Buffered) : Prop :=
  ∀ x, (s.fs.mem.fSize f).toNat ≤ x → x < (t.fs.mem.fSize f).toNat →
    t.fs.mem.byte f x = 0 ∨ op.Stores x (t.fs.mem.byte f x)

end SizeOp

namespace SizeOp

/-- A memory with as much past the end of the file as before, and what the call
stored. -/
theorem Tidy.of_put {buf : Bytes} {count offset : Word} {p : Nat} {u : Fs}
    {m' : PhysMem}
    (h : Tidy d f s) (hend : offset.toNat + count.toNat ≤ MAXFILESIZE)
    (hp : p ≤ offset.toNat + count.toNat)
    (hput : Put f offset.toNat p buf (s.fs.mem.extend f (offset + count)) m')
    (hu : u.Shows d m' q) :
    Tidy d f ⟨u, buf⟩ ∧ (write buf count offset).AddsZeros f s ⟨u, buf⟩ := by
  have hM := maxFileSize_lt
  obtain ⟨hm₀, hf₀, ht₀⟩ := h.sound.sound_extend h.record (v := offset + count)
  obtain ⟨hm', hf'⟩ := hput.sound hm₀ hf₀
  have hstop : (offset + count).toNat = offset.toNat + count.toNat := by
    rw [BitVec.toNat_add]
    omega
  have hsize : (m'.fSize f).toNat =
      max (s.fs.mem.fSize f).toNat (offset.toNat + count.toNat) := by
    have hfield : m'.fSize f = (s.fs.mem.extend f (offset + count)).fSize f :=
      hput.field 32 (by decide)
    rw [hfield, fSize_extend, hstop]
  have hbyte : ∀ x, (s.fs.mem.fSize f).toNat ≤ x → x < MAXFILESIZE →
      m'.byte f x = if offset.toNat ≤ x ∧
      x < p then buf (x - offset.toNat) else 0 := by
    intro x hx hlt
    rw [hput.byte x hlt, h.sound.byte_extend h.record hlt, h.zero x hx hlt]
  have hsz := h.size
  constructor
  · rw [← hu.mem] at hm' hf' hsize hbyte
    refine ⟨⟨q, hu.mem ▸ hu⟩, hm', hf', ?_, by rw [hsize]; omega,
      fun x hx hlt => ?_⟩
    · rw [hu.mem, hput.fType, ht₀]
      exact h.regular
    · rw [hsize] at hx
      rw [hbyte x (by omega) hlt, if_neg (by omega)]
  · intro x hx hlt
    rw [hu.mem, hsize] at hlt
    rw [hu.mem, hbyte x hx (by omega)]
    split
    · rename_i hin
      exact .inr ⟨hin.1, by omega, rfl⟩
    · exact .inl rfl

/-- What one call does. -/
theorem wp_run (op : SizeOp) (h : Tidy d f s) (hr : op.InRange) :
    Prog.wp (op.run f) (fun _ t => (op.CutsZeros f s → Tidy d f t) ∧
      op.AddsZeros f s t) A E s := by
  have hM := maxFileSize_lt
  have hsz := h.size
  obtain ⟨q, hs⟩ := h.shows
  cases op with
  | write buf count offset =>
      have hend : offset.toNat + count.toNat ≤ MAXFILESIZE := hr
      apply Prog.wp_update_bind
      apply Prog.wp_bind_intro
      refine wp_fileWriteBuf h.sound h.record h.regular hs (by omega) (by omega)
        (fun t m' hw => Prog.wp_pure_intro ?_)
        fun p x t m₁ m' u hlt hw hg _ hu => Prog.wp_pure_intro ?_
      · obtain ⟨t, _⟩ := t
        obtain rfl : _ = buf := hw.data
        have hdone := h.of_put hend le_rfl hw.put hw.shows
        exact ⟨fun _ => hdone.1, hdone.2⟩
      · have hdone := h.of_put hend (Nat.le_of_lt hlt) (hw.put.grows hg) hu
        exact ⟨fun _ => hdone.1, hdone.2⟩
  | setSize v =>
      have hv : v.toNat ≤ MAXFILESIZE := hr
      obtain ⟨u, buf⟩ := s
      have hsz : (u.mem.fSize f).toNat ≤ MAXFILESIZE := hsz
      apply Prog.wp_bind_intro
      apply wp_onFs
      have hslt : v.slt (u.mem.fSize f) = true ↔
          v.toNat < (u.mem.fSize f).toNat := by
        rw [BitVec.slt_iff_toInt_lt, toInt_of_nonneg (by omega),
          toInt_of_nonneg (by omega)]
        omega
      refine wp_fileSetSize h.sound h.record hs
        (fun m' t hlt hcut ht =>
        Prog.wp_pure_intro ⟨fun hcz => ?_, fun x hx hlt' => ?_⟩)
        fun t hge ht => Prog.wp_pure_intro ?_
      · rw [hslt] at hlt
        obtain ⟨hm', hf'⟩ := hcut.sound h.sound h.record
        obtain ⟨hm₂, hf₂⟩ := hm'.sound_setSize hf' (v := v)
        refine ⟨⟨q, ht.mem ▸ ht⟩, ?_, ?_, ?_, ?_, ?_⟩ <;> rw [ht.mem]
        · exact hm₂
        · exact hf₂
        · rw [fType_setSize]
          have hfield : m'.fType f = u.mem.fType f := hcut.field 33 (by decide)
          rw [hfield]
          exact h.regular
        · rwa [fSize_setSize]
        · exact h.zero.cut h.sound h.record h.size hlt (hcz.2 v rfl hlt) hcut
      · rw [hslt] at hlt
        have hx : (u.mem.fSize f).toNat ≤ x := hx
        rw [ht.mem, fSize_setSize] at hlt'
        exact absurd hlt' (by omega)
      · rw [hslt] at hge
        obtain ⟨hm₂, hf₂⟩ := h.sound.sound_setSize h.record (v := v)
        have hzero : ∀ x, (u.mem.fSize f).toNat ≤ x → x < MAXFILESIZE →
            (u.mem.setSize f v).byte f x = 0 :=
          fun x hx hlt => by rw [h.sound.byte_setSize h.record hlt,
            h.zero x hx hlt]
        refine ⟨fun _ => ⟨⟨q, ht.mem ▸ ht⟩, ?_, ?_, ?_, ?_, fun x hx hlt => ?_⟩,
          fun x hx hlt => .inl ?_⟩
        · rwa [ht.mem]
        · rwa [ht.mem]
        · rw [ht.mem, fType_setSize]
          exact h.regular
        · rwa [ht.mem, fSize_setSize]
        · rw [ht.mem, fSize_setSize] at hx
          rw [ht.mem]
          exact hzero x (by omega) hlt
        · rw [ht.mem, fSize_setSize] at hlt
          rw [ht.mem]
          exact hzero x hx (by omega)

end SizeOp

open SizeOp

/-- In every run of calls in range in which what a truncation cuts off in the
last block is zero, what is past the end of the file is zero, and so is what a
call adds to it and does not store. -/
theorem growth_reads_zero (h : Tidy d f s)
    (hrun : Runs (SizeOp.Step f) (CutsZeros f) s t) :
    t.fs.mem.ZeroTail f ∧ ∀ op u, op.InRange → SizeOp.Step f t op u →
    op.AddsZeros f t u := by
  have hinv : Tidy d f t := hrun.invariant (fun s op t hs hc hstep =>
    ((wp_run (A := fun _ => True) (E := fun _ _ => True) op hs hc.1).ret
      hstep).1 hc) h
  exact ⟨hinv.zero, fun op u hr hstep =>
    ((wp_run (A := fun _ => True) (E := fun _ _ => True) op hinv hr).ret
      hstep).2⟩

end

/-! ## Examples -/

open SizeOp

theorem holeFs_tidy : Tidy holeDisk (slot 3 0) ⟨holeFs, fun _ => 0⟩ := by
  obtain ⟨hm, hf, ht, hs⟩ := holeDisk_sound
  obtain ⟨hm₀, hf₀, _, _, href⟩ := smallFileDisk_sound
  refine ⟨⟨_, hs⟩, hm, hf, ht, by decide, fun x _ hx => ?_⟩
  have h0 := href _ (div_lt_blocks hx)
  rw [← hm₀.ref_setSize hf₀ (v := 1) (.data hf₀ (div_lt_blocks hx))] at h0
  exact if_pos h0

theorem holeFs_write : ∃ t, SizeOp.Step (slot 3 0) ⟨holeFs, fun _ => 0⟩
      (.write (fun _ => 0x61) 2 0) t ∧
    ∃ u, SizeOp.Step (slot 3 0) t (.setSize 1) u ∧
    u.fs.mem.fSize (slot 3 0) = 1 ∧
      ∃ w, SizeOp.Step (slot 3 0) u (.setSize 2) w ∧
      w.fs.mem.fSize (slot 3 0) = 2 ∧
        w.fs.mem.byte (slot 3 0) 1 = 0x61 := by
  have hrun : (match (SizeOp.write (fun _ => 0x61) 2 0).run (slot 3 0)
      ⟨holeFs, fun _ => 0⟩ with
      | .ret _ t => (match (SizeOp.setSize 1).run (slot 3 0) t with
          | .ret _ u => (match (SizeOp.setSize 2).run (slot 3 0) u with
              | .ret _ w => decide (u.fs.mem.fSize (slot 3 0) = 1 ∧
                  w.fs.mem.fSize (slot 3 0) = 2 ∧
                  w.fs.mem.byte (slot 3 0) 1 = 0x61)
              | _ => false)
          | _ => false)
      | _ => false) = true := by decide +kernel
  split at hrun
  · rename_i _ t ht
    split at hrun
    · rename_i _ u hu
      split at hrun
      · rename_i _ w hw
        obtain ⟨h1, h2, h3⟩ := of_decide_eq_true hrun
        exact ⟨t, ht, u, hu, h1, w, hw, h2, h3⟩
      · cases hrun
    · cases hrun
  · cases hrun

/-- Two bytes are written to a file of size 1. -/
theorem growth_reads_zero_small : ∃ t, SizeOp.Step (slot 3 0)
      ⟨holeFs, fun _ => 0⟩ (.write (fun _ => 0x61) 2 0) t ∧
    t.fs.mem.ZeroTail (slot 3 0) := by
  obtain ⟨t, ht, _⟩ := holeFs_write
  have hcut : (SizeOp.write (fun _ => 0x61) 2 0).CutsZeros (slot 3 0)
      ⟨holeFs, fun _ => 0⟩ :=
    ⟨show 0 + 2 ≤ MAXFILESIZE by decide, fun _ h => nomatch h⟩
  exact ⟨t, ht, (growth_reads_zero holeFs_tidy (.single hcut ht)).1⟩

/-- The second of two bytes is cut off, and comes back when the file grows
again. -/
theorem growth_reads_data :
    Tidy holeDisk (slot 3 0) ⟨holeFs, fun _ => 0⟩ ∧ ∃ u w,
    Runs (SizeOp.Step (slot 3 0)) (fun _ op => op.InRange)
      ⟨holeFs, fun _ => 0⟩ u ∧
      SizeOp.Step (slot 3 0) u (.setSize 2) w ∧
      ¬(SizeOp.setSize 2).AddsZeros (slot 3 0) u w := by
  obtain ⟨t, ht, u, hu, h1, w, hw, h2, h3⟩ := holeFs_write
  refine ⟨holeFs_tidy, u, w, (Runs.single ?_ ht).tail ?_ hu, hw, fun h => ?_⟩
  · exact show 0 + 2 ≤ MAXFILESIZE by decide
  · exact show (1#32 : Word).toNat ≤ MAXFILESIZE by decide
  · have hadd := h 1 (by rw [h1]; decide) (by rw [h2]; decide)
    rw [h3] at hadd
    rcases hadd with h | h
    · exact absurd h (by decide)
    · exact h

end Jos
