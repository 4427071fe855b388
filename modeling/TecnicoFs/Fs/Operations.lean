import TecnicoFs.Library.Runs
import TecnicoFs.Fs.State

/-!
# File-system operations

The calls of the library: opening, closing, reading, writing and unlinking.  The
library mutex makes every call atomic, so a call is a function from a state to a
return value and a state.  A count of copied bytes is at most the size of an
object and therefore keeps its value when it is returned as a signed size.
-/

namespace TecnicoFs

open Library

def tfsDefaultParams : TfsParams where
  maxInodeCount := 64
  maxBlockCount := 1024
  maxOpenFilesCount := 16
  blockSize := 1024

def tfsInit (paramsPtr : Option TfsParams) (mem : Mallocs) (fs : Fs) : Res (Int × Fs) := do
  let params := paramsPtr.getD tfsDefaultParams
  let (r, fs) <- stateInit params mem fs
  if r != 0 then
    pure (-1, fs)
  else do
    let (root, fs) <- inodeCreate .directory fs
    if root != rootDirInum then
      pure (-1, fs)
    else
      pure (0, fs)

def tfsDestroy (fs : Fs) : Int × Fs :=
  let (r, fs) := stateDestroy fs
  if r != 0 then (-1, fs) else (0, fs)

/-!
## Path names
-/

/-- `name != NULL && strlen(name) > 1 && name[0] == '/'`. -/
def validPathname : Option CStr -> Bool
  | none => false
  | some name => 1 < name.bytes.length && name.bytes[0]? == some 47

/-- `name + 1`, for a name that has passed {name}`validPathname`. -/
def skipSlash : Option CStr -> CStr
  | none => ⟨[], by simp⟩
  | some name => name.tail

def tfsLookup (name : Option CStr) (rootInode : Int) (fs : Fs) : Res Int :=
  if !validPathname name then
    pure (-1)
  else
    findInDir rootInode (skipSlash name) fs

/-!
## Open and close
-/

def tfsOCreat : Nat := 1

def tfsOTrunc : Nat := 2

def tfsOAppend : Nat := 4

/-- `mode & flag`. -/
def hasFlag (mode flag : Nat) : Bool := mode &&& flag != 0

/-- The truncation of an existing file in {lit}`tfs_open`. -/
def tfsTruncate (inode : Int) (fs : Fs) : Res Fs := do
  let file <- fs.inodeAt inode
  if 0 < file.iSize then do
    let fs <- dataBlockFree file.iDataBlock fs
    fs.modifyInode inode fun file => { file with iSize := 0 }
  else
    pure fs

def tfsOpen (name : Option CStr) (mode : Nat) (fs : Fs) : Res (Int × Fs) :=
  if !validPathname name then
    pure (-1, fs)
  else do
    let rootDirInode <- inodeGet rootDirInum fs
    let inum <- tfsLookup name rootDirInode fs
    if 0 <= inum then do
      let inode <- inodeGet inum fs
      let fs <- (if hasFlag mode tfsOTrunc then tfsTruncate inode fs else pure fs)
      let file <- fs.inodeAt inode
      let offset := if hasFlag mode tfsOAppend then file.iSize else 0
      addToOpenFileTable inum offset fs
    else if hasFlag mode tfsOCreat then do
      let (inum, fs) <- inodeCreate .file fs
      if inum = -1 then
        pure (-1, fs)
      else do
        let (added, fs) <- addDirEntry rootDirInode (skipSlash name) inum fs
        if added = -1 then do
          let fs <- inodeDelete inum fs
          pure (-1, fs)
        else
          addToOpenFileTable inum 0 fs
    else
      pure (-1, fs)

def tfsClose (fhandle : Int) (fs : Fs) : Res (Int × Fs) := do
  let file <- getOpenFileEntry fhandle fs
  match file with
  | none => pure (-1, fs)
  | some _ => do
      let fs <- removeFromOpenFileTable fhandle fs
      pure (0, fs)

/-!
## Write and read
-/

/-- The number of bytes {lit}`tfs_write` decides to write. -/
def clippedWrite (blockSize offset toWrite : Nat) : Nat :=
  if blockSize < sizeAdd toWrite offset then sizeSub blockSize offset else toWrite

/-- The copy into the inode's block at the end of {lit}`tfs_write`. -/
def tfsWriteBlock (file : Int) (inum : Int) (buffer : List UInt8) (toWrite : Nat)
    (fs : Fs) : Res (Int × Fs) := do
  let entry <- inside (loadCell fs.openFileTable file)
  let inode <- fs.inodeAt inum
  let block <- dataBlockGet inode.iDataBlock fs
  let source <- inside (if toWrite <= buffer.length then some (buffer.take toWrite) else none)
  let data <- inside (fs.fsData.store (block + entry.ofOffset) source)
  let offset := sizeAdd entry.ofOffset toWrite
  let entries <- inside (storeCell fs.openFileTable file { entry with ofOffset := offset })
  let fs := { fs with fsData := data, openFileTable := entries }
  let fs <- (if inode.iSize < offset then
      fs.modifyInode inum fun inode => { inode with iSize := offset }
    else pure fs)
  pure (toWrite, fs)

def tfsWrite (fhandle : Int) (buffer : List UInt8) (toWrite : Nat) (fs : Fs) :
    Res (Int × Fs) := do
  let file <- getOpenFileEntry fhandle fs
  match file with
  | none => pure (-1, fs)
  | some file => do
      let entry <- inside (loadCell fs.openFileTable file)
      let inum <- inodeGet entry.ofInumber fs
      let toWrite := clippedWrite fs.blockSize entry.ofOffset toWrite
      if toWrite = 0 then
        pure (0, fs)
      else do
        let inode <- fs.inodeAt inum
        if inode.iSize = 0 then do
          let (bnum, fs) <- dataBlockAlloc fs
          if bnum = -1 then
            pure (-1, fs)
          else do
            let fs <- fs.modifyInode inum fun inode => { inode with iDataBlock := bnum }
            tfsWriteBlock file inum buffer toWrite fs
        else
          tfsWriteBlock file inum buffer toWrite fs

/-- The number of bytes {lit}`tfs_read` decides to read. -/
def clippedRead (size offset len : Nat) : Nat :=
  if len < sizeSub size offset then len else sizeSub size offset

/-- The bytes copied to the caller's buffer are part of the result. -/
def tfsRead (fhandle : Int) (len : Nat) (fs : Fs) : Res (Int × List UInt8 × Fs) := do
  let file <- getOpenFileEntry fhandle fs
  match file with
  | none => pure (-1, [], fs)
  | some file => do
      let entry <- inside (loadCell fs.openFileTable file)
      let inum <- inodeGet entry.ofInumber fs
      let inode <- fs.inodeAt inum
      let toRead := clippedRead inode.iSize entry.ofOffset len
      if toRead = 0 then
        pure (0, [], fs)
      else do
        let block <- dataBlockGet inode.iDataBlock fs
        let bytes <- inside (fs.fsData.load (block + entry.ofOffset) toRead)
        let entries <- inside (storeCell fs.openFileTable file
          { entry with ofOffset := sizeAdd entry.ofOffset toRead })
        pure (toRead, bytes, { fs with openFileTable := entries })

/-!
## Unlink
-/

def tfsUnlink (target : Option CStr) (fs : Fs) : Res (Int × Fs) :=
  if !validPathname target then
    pure (-1, fs)
  else do
    let rootDirInode <- inodeGet rootDirInum fs
    let inum <- tfsLookup target rootDirInode fs
    if inum = -1 then
      pure (-1, fs)
    else do
      let fs <- inodeDelete inum fs
      let (cleared, fs) <- clearDirEntry rootDirInode (skipSlash target) fs
      if cleared = -1 then
        pure (-1, fs)
      else
        pure (0, fs)

/-!
## Runs of calls
-/

inductive Call where
  | open (name : Option CStr) (mode : Nat)
  | close (fhandle : Int)
  | read (fhandle : Int) (len : Nat)
  | write (fhandle : Int) (buffer : List UInt8) (toWrite : Nat)
  | unlink (target : Option CStr)

/-- What a call returns, and the bytes it copies to the caller. -/
structure Reply where
  ret : Int
  data : List UInt8
deriving DecidableEq

def exec (call : Call) (fs : Fs) : Res (Reply × Fs) :=
  match call with
  | .open name mode => do
      let (ret, fs) <- tfsOpen name mode fs
      pure (⟨ret, []⟩, fs)
  | .close fhandle => do
      let (ret, fs) <- tfsClose fhandle fs
      pure (⟨ret, []⟩, fs)
  | .read fhandle len => do
      let (ret, data, fs) <- tfsRead fhandle len fs
      pure (⟨ret, data⟩, fs)
  | .write fhandle buffer toWrite => do
      let (ret, fs) <- tfsWrite fhandle buffer toWrite fs
      pure (⟨ret, []⟩, fs)
  | .unlink target => do
      let (ret, fs) <- tfsUnlink target fs
      pure (⟨ret, []⟩, fs)

def runCalls : List Call -> Fs -> Res (List Reply × Fs) := run exec

end TecnicoFs
