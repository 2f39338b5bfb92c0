import Jos.Fs.Disk
import Mathlib.Data.List.Basic

/-!
# A map from paths to files

What the file system is for, without blocks, slots and sizes of directories: a
map from paths to files and directories, and a page that data comes from and
goes to. A file keeps what it had past its end within its last block, as
`file_set_size` does not clear it.
-/

namespace Jos

/-- The names on the way from the root. -/
abbrev Names := List (List (BitVec 8))

/-- A file: its size, and its bytes, also those past its end. -/
@[ext] structure Doc where
  size : Nat
  data : Nat → BitVec 8

namespace Doc

def empty : Doc := ⟨0, fun _ => 0⟩

/-- Store `count` bytes of `page` from `buf` on at `offset`. -/
def write (d : Doc) (page : Bytes) (buf count offset : Nat) : Doc where
  size := max d.size (offset + count)
  data o := if offset ≤ o ∧ o < offset + count then
    page (buf + (o - offset)) else d.data o

/-- Set the size. The blocks that a smaller file does not have are gone. -/
def resize (d : Doc) (size : Nat) : Doc where
  size := size
  data o := if size < d.size ∧ (size + (BLKSIZE - 1)) / BLKSIZE ≤
    o / BLKSIZE then 0 else d.data o

/-- How many of `count` bytes there are at `offset`. -/
def available (d : Doc) (count offset : Nat) : Nat :=
  min count (d.size - offset)

end Doc

inductive Node where
  | dir
  | file (d : Doc)

/-- What is at each path, if anything. -/
abbrev FileMap := Names → Option Node

/-- What a lookup ends with: the last name is there, it is the only one that is
not, or an error. -/
inductive Look where
  | found
  | missing
  | error (r : Word)

/-- Look `rest` up from the file at `pre` on. -/
def FileMap.walk (M : FileMap) : Names → Names → Look
  | _, [] => .found
  | pre, name :: rest =>
      if MAXNAMELEN ≤ name.length then .error (-E_BAD_PATH)
      else
        match M pre with
        | some .dir =>
            match M (pre ++ [name]) with
            | some _ => walk M (pre ++ [name]) rest
            | none => if rest = [] then .missing else .error (-E_NOT_FOUND)
        | _ => .error (-E_NOT_FOUND)

/-- The files, and the page. -/
structure Catalog where
  files : FileMap
  page : Bytes

inductive CatalogOp where
  | create (path : Names)
  | open (path : Names)
  | read (path : Names) (buf count offset : Nat)
  | write (path : Names) (page : Bytes) (buf count offset : Nat)
  | setSize (path : Names) (size : Nat)
  | remove (path : Names)

namespace Catalog

/-- What an operation returns and leaves. -/
def exec (C : Catalog) : CatalogOp → Except Word Word × Catalog
  | .create path =>
      match C.files.walk [] path with
      | .found => (.error (-E_FILE_EXISTS), C)
      | .missing => (.ok 0, { C with
          files := Function.update C.files path (some (.file .empty)) })
      | .error r => (.error r, C)
  | .open path =>
      match C.files.walk [] path with
      | .found => (.ok 0, C)
      | .missing => (.error (-E_NOT_FOUND), C)
      | .error r => (.error r, C)
  | .read path buf count offset =>
      match C.files path with
      | some (.file d) =>
          (.ok (BitVec.ofNat 32 (d.available count offset)),
            { C with page := C.page.copy buf d.data offset (d.available count offset) })
      | _ => (.ok 0, C)
  | .write path page buf count offset =>
      match C.files path with
      | some (.file d) =>
          (.ok (BitVec.ofNat 32 count), ⟨Function.update C.files path
            (some (.file (d.write page buf count offset))), page⟩)
      | _ => (.ok 0, C)
  | .setSize path size =>
      match C.files path with
      | some (.file d) => (.ok 0, { C with files := Function.update C.files path (some (.file (d.resize size))) })
      | _ => (.ok 0, C)
  | .remove path =>
      match C.files.walk [] path with
      | .found => (.ok 0, { C with files := Function.update C.files path none })
      | .missing => (.error (-E_NOT_FOUND), C)
      | .error r => (.error r, C)

end Catalog

end Jos
