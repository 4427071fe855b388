import Mathlib.Data.Finset.Card
import Mathlib.Data.Finset.Insert
import Mathlib.Logic.Function.Basic
import TecnicoFs.Fs.Operations

/-!
# The abstract file system

What the library is for: a finite map from names to byte strings, and a table of
handles that are each a name and an offset.  Nothing here has inodes, blocks or
slots; their finite numbers appear only as limits on the number of files, of files
with bytes, and of handles.
-/

namespace TecnicoFs

open Library

structure AbstractFs where
  names : Finset CStr
  /-- The bytes of each file. -/
  content : CStr -> List UInt8
  /-- The name and the offset of each open handle. -/
  handles : Nat -> Option (CStr × Nat)

namespace AbstractFs

def empty : AbstractFs where
  names := ∅
  content := fun _ => []
  handles := fun _ => none

/-- The files that have bytes. -/
def nonEmpty (a : AbstractFs) : Finset CStr := a.names.filter fun name => a.content name ≠ []

def NoHandleOn (a : AbstractFs) (name : CStr) : Prop :=
  forall h offset, a.handles h ≠ some (name, offset)

/-- The entry of an integer handle. -/
def entry (a : AbstractFs) (fhandle : Int) : Option (CStr × Nat) :=
  if 0 <= fhandle then a.handles fhandle.toNat else none

def setContent (a : AbstractFs) (name : CStr) (bytes : List UInt8) : AbstractFs :=
  { a with content := Function.update a.content name bytes }

def setHandle (a : AbstractFs) (h : Nat) (e : Option (CStr × Nat)) : AbstractFs :=
  { a with handles := Function.update a.handles h e }

/-- The least handle that is not open. -/
def freeHandle (params : TfsParams) (a : AbstractFs) : Option Nat :=
  (List.range params.maxOpenFilesCount).find? fun h => (a.handles h).isNone

def newHandle (params : TfsParams) (name : CStr) (offset : Nat) (a : AbstractFs) :
    Int × AbstractFs :=
  match a.freeHandle params with
  | some h => (h, a.setHandle h (some (name, offset)))
  | none => (-1, a)

/-- A file that an open truncates loses its bytes. -/
def truncated (mode : Nat) (name : CStr) (a : AbstractFs) : AbstractFs :=
  if hasFlag mode tfsOTrunc then a.setContent name [] else a

def created (name : CStr) (a : AbstractFs) : AbstractFs :=
  { a.setContent name [] with names := insert name a.names }

/-- A new file needs a name that fits, an inode and a directory slot. -/
def canCreate (params : TfsParams) (name : CStr) (a : AbstractFs) : Prop :=
  (1 <= name.bytes.length ∧ name.bytes.length <= 39) ∧
    a.names.card < params.maxInodeCount - 1 ∧
    a.names.card < params.blockSize / sizeofDirEntry

instance (params : TfsParams) (name : CStr) (a : AbstractFs) :
    Decidable (a.canCreate params name) :=
  inferInstanceAs (Decidable ((_ ∧ _) ∧ _ ∧ _))

def openFile (params : TfsParams) (path : Option CStr) (mode : Nat) (a : AbstractFs) :
    Int × AbstractFs :=
  let name := skipSlash path
  if validPathname path = false then (-1, a)
  else if name ∈ a.names then
    let a := a.truncated mode name
    newHandle params name (if hasFlag mode tfsOAppend then (a.content name).length else 0) a
  else if hasFlag mode tfsOCreat ∧ a.canCreate params name then
    newHandle params name 0 (a.created name)
  else (-1, a)

def closeFile (fhandle : Int) (a : AbstractFs) : Int × AbstractFs :=
  match a.entry fhandle with
  | some _ => (0, a.setHandle fhandle.toNat none)
  | none => (-1, a)

def readFile (fhandle : Int) (len : Nat) (a : AbstractFs) : Reply × AbstractFs :=
  match a.entry fhandle with
  | some (name, offset) =>
      let data := ((a.content name).drop offset).take len
      (⟨data.length, data⟩, a.setHandle fhandle.toNat (some (name, offset + data.length)))
  | none => (⟨-1, []⟩, a)

/-- The bytes of a file after `bytes` have been written at an offset. -/
def patch (old : List UInt8) (offset : Nat) (bytes : List UInt8) : List UInt8 :=
  old.take offset ++ bytes ++ old.drop (offset + bytes.length)

def writeFile (params : TfsParams) (fhandle : Int) (buffer : List UInt8) (toWrite : Nat)
    (a : AbstractFs) : Int × AbstractFs :=
  match a.entry fhandle with
  | some (name, offset) =>
      let count := min toWrite (params.blockSize - offset)
      if count = 0 then (0, a)
      else if a.content name = [] ∧ a.nonEmpty.card = params.maxBlockCount - 1 then (-1, a)
      else
        (count,
          (a.setContent name (patch (a.content name) offset (buffer.take count))).setHandle
            fhandle.toNat (some (name, offset + count)))
  | none => (-1, a)

def unlinkFile (path : Option CStr) (a : AbstractFs) : Int × AbstractFs :=
  if validPathname path = true ∧ skipSlash path ∈ a.names then
    (0, { a with names := a.names.erase (skipSlash path) })
  else (-1, a)

def exec (params : TfsParams) (call : Call) (a : AbstractFs) : Reply × AbstractFs :=
  match call with
  | .open path mode =>
      let (ret, a) := a.openFile params path mode
      (⟨ret, []⟩, a)
  | .close fhandle =>
      let (ret, a) := a.closeFile fhandle
      (⟨ret, []⟩, a)
  | .read fhandle len => a.readFile fhandle len
  | .write fhandle buffer toWrite =>
      let (ret, a) := a.writeFile params fhandle buffer toWrite
      (⟨ret, []⟩, a)
  | .unlink path =>
      let (ret, a) := a.unlinkFile path
      (⟨ret, []⟩, a)

/-- The discipline under which the library behaves like a file system: no file
with an open handle is truncated or unlinked, the buffer holds the bytes to write,
and the end of a write is a size. -/
def Disciplined (call : Call) (a : AbstractFs) : Prop :=
  match call with
  | .open path mode => validPathname path = true -> hasFlag mode tfsOTrunc = true ->
      a.NoHandleOn (skipSlash path)
  | .write fhandle buffer toWrite => toWrite <= buffer.length ∧
      forall name offset, a.entry fhandle = some (name, offset) -> toWrite + offset < sizeMod
  | .unlink path => validPathname path = true -> a.NoHandleOn (skipSlash path)
  | _ => True

end AbstractFs

end TecnicoFs
