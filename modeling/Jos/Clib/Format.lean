import Jos.Monitor.Number
import Jos.Clib.Printnum

/-!
# `vprintfmt`

The formatter of lib/printfmt.c, over the memory from the format on. It counts
the bytes of formats that it reads and the indices into `error_string`. A format
is a text with escapes in it; an escape is a `%`, the flags, and a conversion.
-/

namespace Jos

namespace Format

def ascii (c : Char) : BitVec 8 := BitVec.ofNat 8 c.toNat

def bytes (s : String) : List (BitVec 8) := s.toList.map ascii

/-- A word of the argument list, and for a `char *` other than `NULL` the string
there. -/
structure Arg where
  word : Word
  str : Option (List (BitVec 8))

structure Out where
  /-- What has been given to `putch`, with the last first. -/
  out : List Word
  /-- The bytes of formats that have been read. -/
  reads : List (Bytes × Nat)
  /-- The indices into `error_string`. -/
  errors : List Int
  /-- `cga_putc_color` -/
  color : Word
  /-- `cga_putc_background` -/
  background : Word

/-- How `vprintfmt` does not return. -/
inductive Failure where
  | endless
  /-- `error_string` is read outside its bounds. -/
  | wild

abbrev FmtM (α : Type) : Type := Prog Out Failure α

def putch (c : Word) : FmtM Unit :=
  Prog.update fun s => { s with out := c :: s.out }

def putAll (cs : List Word) : FmtM Unit :=
  Prog.update fun s => { s with out := cs.reverse ++ s.out }

/-- `*p` -/
def readFmt (fmt : Bytes) (p : Nat) : FmtM (BitVec 8) := do
  Prog.update fun s => { s with reads := (fmt, p) :: s.reads }
  pure (fmt p)

/-- What `switch` knows of the escape that it is in. -/
structure Flags where
  padc : Word
  width : Word
  precision : Word
  lflag : Nat
  altflag : Bool

def Flags.start : Flags := ⟨0x20, -1, -1, 0, false⟩

/-- `process_precision`. -/
def Flags.processPrecision (f : Flags) (precision : Word) : Flags :=
  if f.width.toInt < 0 then { f with width := precision, precision := -1 } else
    { f with precision := precision }

def isDigit (c : BitVec 8) : Bool := decide (ascii '0' ≤ c ∧ c ≤ ascii '9')

/-- The characters of an escape that go back to `reswitch`. -/
def isFlag (c : BitVec 8) : Bool :=
  isDigit c || c == ascii '-' || c == ascii '*' || c == ascii '.' || c ==
    ascii '#' || c == ascii 'l'

/-- The loop of the width field. -/
def digits (fmt : Bytes) : Nat → Word → BitVec 8 → Nat → FmtM (Word × Nat)
  | 0, _, _, _ => Prog.halt .endless
  | n + 1, precision, ch, p => do
      let precision := precision * 10 + ch.setWidth 32 - 0x30
      let ch ← readFmt fmt p
      if isDigit ch then
        digits fmt n precision ch (p + 1)
      else
        pure (precision, p)

/-- The cases that go back to `reswitch`. -/
def flag (fmt : Bytes) (args : Nat → Arg) (f : Flags) (ch : BitVec 8)
    (p ap : Nat) : FmtM (Flags × Nat × Nat) :=
  if ch = ascii '-' then
    pure ({ f with padc := 0x2D }, p, ap)
  else if ch = ascii '0' then
    pure ({ f with padc := 0x30 }, p, ap)
  else if isDigit ch then do
    let (precision, p) ← digits fmt NADDR 0 ch p
    pure (f.processPrecision precision, p, ap)
  else if ch = ascii '*' then
    pure (f.processPrecision (args ap).word, p, ap + 1)
  else if ch = ascii '.' then
    pure ({ f with width := if f.width.toInt < 0 then 0 else f.width }, p, ap)
  else if ch = ascii '#' then
    pure ({ f with altflag := true }, p, ap)
  else
    pure ({ f with lflag := f.lflag + 1 }, p, ap)

/-! ## Conversions -/

/-- The color that `c0` and `c2` name. -/
def preset (c0 c2 : BitVec 8) : Word :=
  if c0 = ascii 'r' then 4
  else if c0 = ascii 'b' then 3
  else if c0 = ascii 'g' ∧ c2 = ascii 'a' then 8
  else if c0 = ascii 'g' then 2
  else if c0 = ascii 'w' then 7
  else if c0 = ascii 's' then 15
  else if c0 = ascii 'p' then 5
  else if c0 = ascii 'o' then 12
  else if c0 = ascii 'i' then 1
  else 7

/-- The color at `fmt`. The third byte of a preset is read only for the two that
begin with a g. -/
def readColor (fmt : Bytes) (p : Nat) : FmtM Word := do
  let c0 ← readFmt fmt p
  if isDigit c0 then
    let c1 ← readFmt fmt (p + 1)
    let c2 ← readFmt fmt (p + 2)
    pure (((c0.signExtend 32 - 0x30) * 10 + c1.signExtend 32 - 0x30) * 10 +
      c2.signExtend 32 - 0x30)
  else if c0 = ascii 'g' then
    let c2 ← readFmt fmt (p + 2)
    pure (preset c0 c2)
  else
    pure (preset c0 0)

def MAXERROR : Int := 15

/-- `error_string`. -/
def errorString : List (Option (List (BitVec 8))) :=
  [none, some (bytes "unspecified error"), some (bytes "bad environment"),
    some (bytes "invalid parameter"),
    some (bytes "out of memory"), some (bytes "out of environments"),
    some (bytes "segmentation fault"),
    some (bytes "env is not recving"), some (bytes "unexpected end of file"),
    some (bytes "no free space on disk"),
    some (bytes "too many files are open"),
    some (bytes "file or block not found"), some (bytes "invalid path"),
    some (bytes "file already exists"),
    some (bytes "file is not a valid executable"),
    some (bytes "operation not supported")]

/-- `"error %d"`. -/
def errorFormat : List (BitVec 8) :=
  ['e', 'r', 'r', 'o', 'r', ' ', '%', 'd'].map ascii

/-- `"%s"`. -/
def stringFormat : List (BitVec 8) := ['%', 's'].map ascii

/-- The case `e`, where `printfmt` is `vprintfmt` with one argument. -/
def showError (printfmt : Bytes → Arg → FmtM Unit) (err : Word) : FmtM Unit :=
  let err := if err.toInt < 0 then -err else err
  if MAXERROR < err.toInt then
    printfmt (strOf errorFormat) ⟨err, none⟩
  else do
    Prog.update fun s => { s with errors := err.toInt :: s.errors }
    if err.toInt < 0 then
      Prog.halt .wild
    else
      match errorString.getD err.toNat none with
      | none => printfmt (strOf errorFormat) ⟨err, none⟩
      | some msg => printfmt (strOf stringFormat) ⟨0, some msg⟩

/-- `strnlen(p, precision)`, with the precision as a `size_t`. -/
def strnlen (str : List (BitVec 8)) (precision : Word) : Nat :=
  min str.length precision.toNat

/-- The loop over the characters of a string: what goes to `putch`, and the
width that is left. -/
def putChars (altflag : Bool) : List (BitVec 8) → Word → Word → List Word × Word
  | [], _, width => ([], width)
  | c :: str, precision, width =>
      let precision' := if precision.toInt < 0 then precision else precision - 1
      if precision.toInt < 0 ∨ 0 ≤ precision'.toInt then
        let ch := c.signExtend 32
        let shown := if altflag && (ch.toInt < 0x20 || 0x7E < ch.toInt) then
          0x3F else ch
        let (cs, width) := putChars altflag str precision' (width - 1)
        (shown :: cs, width)
      else
        ([], width)

/-- The case `s`. -/
def putString (f : Flags) (str : List (BitVec 8)) : FmtM Unit := do
  -- `for (; width > 0; width--)` leaves a width that is not positive
  let width ← padBefore f str
  let (cs, width) := putChars f.altflag str f.precision width
  putAll cs
  putAll (List.replicate width.toInt.toNat 0x20)
where
  padBefore (f : Flags) (str : List (BitVec 8)) : FmtM Word :=
    if 0 < f.width.toInt ∧ f.padc ≠ 0x2D then do
      let width := f.width - BitVec.ofNat 32 (strnlen str f.precision)
      putAll (List.replicate width.toInt.toNat f.padc)
      pure (if 0 < width.toInt then 0 else width)
    else
      pure f.width

/-- A `long long` takes two words; a `long` is as wide as an `int`. -/
def getuint (args : Nat → Arg) (ap lflag : Nat) : BitVec 64 × Nat :=
  if 2 ≤ lflag then ((args (ap + 1)).word ++ (args ap).word, ap + 2) else
    ((args ap).word.setWidth 64, ap + 1)

def getint (args : Nat → Arg) (ap lflag : Nat) : BitVec 64 × Nat :=
  if 2 ≤ lflag then ((args (ap + 1)).word ++ (args ap).word, ap + 2) else
    ((args ap).word.signExtend 64, ap + 1)

/-- `number`. -/
def number (f : Flags) (num : BitVec 64) (base : Clib.Base) : FmtM Unit :=
  putAll (Clib.printnum num.toNat base f.width f.padc)

/-- The case `d`. -/
def putSigned (f : Flags) (num : BitVec 64) : FmtM Unit :=
  if num.toInt < 0 then do
    putch 0x2D
    number f (-num) .decimal
  else
    number f num .decimal

/-- `for (fmt--; fmt[-1] != '%'; fmt--)`, from the second step on. -/
def back (fmt : Bytes) : Nat → Nat → FmtM Nat
  | 0, _ => Prog.halt .endless
  | n + 1, p => do
      let c ← readFmt fmt (p - 1)
      if c = ascii '%' then
        pure p
      else
        back fmt n (p - 1)

/-- The cases that end an escape. -/
def convert (printfmt : Bytes → Arg → FmtM Unit) (fmt : Bytes)
    (args : Nat → Arg) (f : Flags) (ch : BitVec 8)
    (p ap : Nat) : FmtM (Nat × Nat) :=
  if ch = ascii 'c' then do
    putch (args ap).word
    pure (p, ap + 1)
  else if ch = ascii 'B' then do
    let v ← readColor fmt p
    Prog.update fun s => { s with background := v }
    pure (p + 3, ap)
  else if ch = ascii 'C' then do
    let v ← readColor fmt p
    Prog.update fun s => { s with color := v }
    pure (p + 3, ap)
  else if ch = ascii 'e' then do
    showError printfmt (args ap).word
    pure (p, ap + 1)
  else if ch = ascii 's' then do
    putString f ((args ap).str.getD (bytes "(null)"))
    pure (p, ap + 1)
  else if ch = ascii 'd' then do
    putSigned f (getint args ap f.lflag).1
    pure (p, (getint args ap f.lflag).2)
  else if ch = ascii 'u' then do
    number f (getuint args ap f.lflag).1 .decimal
    pure (p, (getuint args ap f.lflag).2)
  else if ch = ascii 'o' then do
    number f (getuint args ap f.lflag).1 .octal
    pure (p, (getuint args ap f.lflag).2)
  else if ch = ascii 'p' then do
    putAll [0x30, 0x78]
    number f ((args ap).word.setWidth 64) .hex
    pure (p, ap + 1)
  else if ch = ascii 'x' then do
    number f (getuint args ap f.lflag).1 .hex
    pure (p, (getuint args ap f.lflag).2)
  else if ch = ascii '%' then do
    putch 0x25
    pure (p, ap)
  else do
    -- the `%` literally, and then on behind it
    putch 0x25
    let p ← back fmt NADDR (p - 1)
    pure (p, ap)

/-! ## The loops -/

/-- From `reswitch` on. -/
def reswitch (printfmt : Bytes → Arg → FmtM Unit) (fmt : Bytes)
    (args : Nat → Arg) :
    Nat → Flags → Nat → Nat → FmtM (Nat × Nat)
  | 0, _, _, _ => Prog.halt .endless
  | n + 1, f, p, ap => do
      let ch ← readFmt fmt p
      if isFlag ch then
        let (f, p, ap) ← flag fmt args f ch (p + 1) ap
        reswitch printfmt fmt args n f p ap
      else
        convert printfmt fmt args f ch (p + 1) ap

/-- `while ((ch = *fmt++) != '%')`: the position behind the `%`, unless the
format ends. -/
def literal (fmt : Bytes) : Nat → Nat → FmtM (Option Nat)
  | 0, _ => Prog.halt .endless
  | n + 1, p => do
      let ch ← readFmt fmt p
      if ch = ascii '%' then
        pure (some (p + 1))
      else if ch = 0 then
        pure none
      else
        putch (ch.setWidth 32)
        literal fmt n (p + 1)

/-- `while (1)`. -/
def loop (printfmt : Bytes → Arg → FmtM Unit) (fmt : Bytes) (args : Nat → Arg) :
    Nat → Nat → Nat → FmtM Unit
  | 0, _, _ => Prog.halt .endless
  | n + 1, p, ap => do
      match ← literal fmt NADDR p with
      | none => pure ()
      | some p =>
          let (p, ap) ← reswitch printfmt fmt args NADDR .start p ap
          loop printfmt fmt args n p ap

/-- The `vprintfmt` that `%e` comes back to: its formats have no `%e`. -/
def printfmt (fmt : Bytes) (arg : Arg) : FmtM Unit :=
  loop (fun _ _ => Prog.halt .endless) fmt (fun _ => arg) NADDR 0 0

/-- `vprintfmt(putch, putdat, fmt, ap)`. -/
def vprintfmt (fmt : Bytes) (args : Nat → Arg) : FmtM Unit :=
  loop printfmt fmt args NADDR 0 0

end Format

end Jos
