import TecnicoFs.Library.Outcome
import TecnicoFs.Library.Loop
import TecnicoFs.Library.CString

/-!
# File-system state

The tables of the file system and the functions that work on them: allocation of
inodes and data blocks, the root directory's entries, and the open-file table.
A table is the list of its cells and the data area is a region of bytes; a table
that was never allocated has no cells.  A pointer into a table is modelled by its
index, so the assertions that a pointer just computed is not NULL are left out,
and so are the artificial storage delays, which have no effect on the state.
-/

namespace TecnicoFs

open Library

/-!
## Ends of a run

A run ends at a failed assertion, at an access outside an allocated table, or at
a division by zero.
-/

inductive Fault where
  | panic (msg : String)
  | outOfBounds
  | divisionByZero
deriving DecidableEq

abbrev Res (alpha : Type) := Except Fault alpha

def inside : Option alpha -> Res alpha
  | some a => .ok a
  | none => .error .outOfBounds

def alwaysAssert (cond : Bool) (msg : String) : Res Unit :=
  if cond then .ok () else .error (.panic msg)

@[simp] theorem inside_some (a : alpha) : inside (some a) = .ok a := rfl

@[simp] theorem inside_none : inside (none : Option alpha) = .error .outOfBounds := rfl

@[simp] theorem alwaysAssert_true (msg : String) : alwaysAssert true msg = .ok () := rfl

@[simp] theorem alwaysAssert_false (msg : String) :
    alwaysAssert false msg = .error (.panic msg) := rfl

theorem inside_eq_ok {o : Option alpha} {a : alpha} : inside o = .ok a <-> o = some a := by
  cases o <;> simp [inside]

/-!
## Configuration and records
-/

def rootDirInum : Int := 0

def maxFileName : Nat := 40

structure TfsParams where
  maxInodeCount : Nat
  maxBlockCount : Nat
  maxOpenFilesCount : Nat
  blockSize : Nat
deriving DecidableEq

inductive InodeType where
  | file
  | directory
deriving DecidableEq

structure Inode where
  iNodeType : InodeType
  iSize : Nat
  iDataBlock : Int
deriving DecidableEq

inductive AllocationState where
  | free
  | taken
deriving DecidableEq

structure OpenFileEntry where
  ofInumber : Int
  ofOffset : Nat
deriving DecidableEq

def sizeofInode : Nat := 24

def sizeofAllocationState : Nat := 4

def sizeofOpenFileEntry : Nat := 16

/-- A directory entry is `MAX_FILE_NAME` bytes of name followed by an `int`. -/
def sizeofDirEntry : Nat := 44

structure Fs where
  fsParams : TfsParams
  /-- `inode_table != NULL`. -/
  inodeTableSet : Bool
  inodeTable : List Inode
  freeinodeTs : List AllocationState
  fsData : Region UInt8
  freeBlocks : List AllocationState
  openFileTable : List OpenFileEntry
  freeOpenFileEntries : List AllocationState

/-- What the six allocations of {lit}`state_init` answer: NULL, or a block with
arbitrary contents. -/
structure Mallocs where
  inodeTable : Option (Nat -> Inode)
  freeinodeTs : Option (Nat -> AllocationState)
  fsData : Option (Nat -> UInt8)
  freeBlocks : Option (Nat -> AllocationState)
  openFileTable : Option (Nat -> OpenFileEntry)
  freeOpenFileEntries : Option (Nat -> AllocationState)

namespace Fs

/-- The static variables when the process starts. -/
def unset : Fs where
  fsParams := ⟨0, 0, 0, 0⟩
  inodeTableSet := false
  inodeTable := []
  freeinodeTs := []
  fsData := ⟨0, fun _ => 0⟩
  freeBlocks := []
  openFileTable := []
  freeOpenFileEntries := []

def inodeTableSize (fs : Fs) : Nat := fs.fsParams.maxInodeCount

def dataBlocks (fs : Fs) : Nat := fs.fsParams.maxBlockCount

def maxOpenFiles (fs : Fs) : Nat := fs.fsParams.maxOpenFilesCount

def blockSize (fs : Fs) : Nat := fs.fsParams.blockSize

def maxDirEntries (fs : Fs) : Nat := fs.blockSize / sizeofDirEntry

def validInumber (fs : Fs) (inumber : Int) : Bool :=
  0 <= inumber && inumber < fs.inodeTableSize

def validBlockNumber (fs : Fs) (blockNumber : Int) : Bool :=
  0 <= blockNumber && blockNumber < fs.dataBlocks

def validFileHandle (fs : Fs) (fileHandle : Int) : Bool :=
  0 <= fileHandle && fileHandle < fs.maxOpenFiles

/-- Dereferencing an inode pointer `&inode_table[inumber]`. -/
def inodeAt (fs : Fs) (inumber : Int) : Res Inode :=
  inside (loadCell fs.inodeTable inumber)

/-- An assignment to fields of `inode_table[inumber]`. -/
def modifyInode (fs : Fs) (inumber : Int) (f : Inode -> Inode) : Res Fs := do
  let inode <- fs.inodeAt inumber
  let table <- inside (storeCell fs.inodeTable inumber (f inode))
  pure { fs with inodeTable := table }

end Fs

/-!
## Initialisation
-/

def stateInit (params : TfsParams) (mem : Mallocs) (fs : Fs) : Res (Int × Fs) :=
  let fs := { fs with fsParams := params }
  if fs.inodeTableSet then
    pure (-1, fs)
  else
    let inodeTable := mallocArray fs.inodeTableSize sizeofInode mem.inodeTable
    let freeinodeTs := mallocArray fs.inodeTableSize sizeofAllocationState mem.freeinodeTs
    let fsData := mallocRegion fs.dataBlocks fs.blockSize mem.fsData
    let freeBlocks := mallocArray fs.dataBlocks sizeofAllocationState mem.freeBlocks
    let openFileTable := mallocArray fs.maxOpenFiles sizeofOpenFileEntry mem.openFileTable
    let freeOpenFileEntries :=
      mallocArray fs.maxOpenFiles sizeofAllocationState mem.freeOpenFileEntries
    let fs :=
      { fs with
        inodeTableSet := inodeTable.isSome
        inodeTable := inodeTable.getD []
        freeinodeTs := freeinodeTs.getD []
        fsData := fsData.getD Fs.unset.fsData
        freeBlocks := freeBlocks.getD []
        openFileTable := openFileTable.getD []
        freeOpenFileEntries := freeOpenFileEntries.getD [] }
    if inodeTable.isNone || freeinodeTs.isNone || fsData.isNone || freeBlocks.isNone ||
        openFileTable.isNone || freeOpenFileEntries.isNone then
      pure (-1, fs)
    else do
      let freeinodeTs <- inside (fillCells fs.freeinodeTs fs.inodeTableSize .free)
      let freeBlocks <- inside (fillCells fs.freeBlocks fs.dataBlocks .free)
      let freeOpenFileEntries <-
        inside (fillCells fs.freeOpenFileEntries fs.maxOpenFiles .free)
      pure (0,
        { fs with
          freeinodeTs := freeinodeTs
          freeBlocks := freeBlocks
          freeOpenFileEntries := freeOpenFileEntries })

def stateDestroy (fs : Fs) : Int × Fs :=
  (0, { Fs.unset with fsParams := fs.fsParams })

/-!
## Data blocks
-/

/-- One turn of a search for a free cell. -/
def freeTurn (table : List AllocationState) (i : Nat) : Res (Option Nat) := do
  let state <- inside table[i]?
  pure (if state = .free then some i else none)

/-- The first-fit search of {lit}`inode_alloc` and {lit}`data_block_alloc`.  Each
turn first takes the index times the cell size modulo the block size, to place a
storage delay. -/
def allocFirst (table : List AllocationState) (count blockSize : Nat) :
    Res (Int × List AllocationState) := do
  let hit <- firstHit (fun i =>
    if blockSize = 0 then .error .divisionByZero
    else freeTurn table i) 0 count
  match hit with
  | some i => pure (intOfSize i, table.set i .taken)
  | none => pure (-1, table)

def dataBlockAlloc (fs : Fs) : Res (Int × Fs) := do
  let (b, freeBlocks) <- allocFirst fs.freeBlocks fs.dataBlocks fs.blockSize
  pure (b, { fs with freeBlocks := freeBlocks })

def dataBlockFree (blockNumber : Int) (fs : Fs) : Res Fs := do
  alwaysAssert (fs.validBlockNumber blockNumber) "data_block_free: invalid block number"
  let freeBlocks <- inside (storeCell fs.freeBlocks blockNumber .free)
  pure { fs with freeBlocks := freeBlocks }

/-- The address of a block, as an offset into the data area. -/
def dataBlockGet (blockNumber : Int) (fs : Fs) : Res Nat := do
  alwaysAssert (fs.validBlockNumber blockNumber) "data_block_get: invalid block number"
  pure (sizeMul blockNumber.toNat fs.blockSize)

/-!
## Inodes
-/

def inodeAlloc (fs : Fs) : Res (Int × Fs) := do
  let (inumber, freeinodeTs) <- allocFirst fs.freeinodeTs fs.inodeTableSize fs.blockSize
  pure (inumber, { fs with freeinodeTs := freeinodeTs })

def inodeDelete (inumber : Int) (fs : Fs) : Res Fs := do
  alwaysAssert (fs.validInumber inumber) "inode_delete: invalid inumber"
  let state <- inside (loadCell fs.freeinodeTs inumber)
  alwaysAssert (state = .taken) "inode_delete: inode already freed"
  let inode <- fs.inodeAt inumber
  let fs <- (if 0 < inode.iSize then dataBlockFree inode.iDataBlock fs else pure fs)
  let freeinodeTs <- inside (storeCell fs.freeinodeTs inumber .free)
  pure { fs with freeinodeTs := freeinodeTs }

/-- The address of `d_inumber` of entry `i` of a directory block. -/
def dInumberAt (dirEntry i : Nat) : Nat := dirEntry + sizeofDirEntry * i + maxFileName

/-- The address of `d_name` of entry `i` of a directory block. -/
def dNameAt (dirEntry i : Nat) : Nat := dirEntry + sizeofDirEntry * i

def inodeCreate (iType : InodeType) (fs : Fs) : Res (Int × Fs) := do
  let (inumber, fs) <- inodeAlloc fs
  if inumber = -1 then
    pure (-1, fs)
  else do
    let fs <- fs.modifyInode inumber fun inode => { inode with iNodeType := iType }
    match iType with
    | .directory => do
        let (b, fs) <- dataBlockAlloc fs
        if b = -1 then do
          let fs <- fs.modifyInode inumber fun inode =>
            { inode with iSize := 0, iDataBlock := -1 }
          let fs <- inodeDelete inumber fs
          pure (-1, fs)
        else do
          let fs <- fs.modifyInode inumber fun inode =>
            { inode with iSize := fs.blockSize, iDataBlock := b }
          let dirEntry <- dataBlockGet b fs
          let data <- forLoop
            (fun i data => inside (data.store (dInumberAt dirEntry i) (intBytes (-1))))
            fs.maxDirEntries fs.fsData
          pure (inumber, { fs with fsData := data })
    | .file => do
        let fs <- fs.modifyInode inumber fun inode =>
          { inode with iSize := 0, iDataBlock := -1 }
        pure (inumber, fs)

/-- The pointer to an inode is its number. -/
def inodeGet (inumber : Int) (fs : Fs) : Res Int := do
  alwaysAssert (fs.validInumber inumber) "inode_get: invalid inumber"
  pure inumber

/-!
## Directory entries
-/

def loadDInumber (fs : Fs) (dirEntry i : Nat) : Res Int := do
  let bytes <- inside (fs.fsData.load (dInumberAt dirEntry i) 4)
  pure (bytesInt bytes)

/-- One turn of the loop of {lit}`clear_dir_entry`: the slot matches the name. -/
def clearTurn (fs : Fs) (dirEntry : Nat) (subName : CStr) (i : Nat) : Res (Option Nat) := do
  let same <- inside (strcmpZero fs.fsData (dNameAt dirEntry i) subName.bytes)
  pure (if same then some i else none)

def clearDirEntry (inode : Int) (subName : CStr) (fs : Fs) : Res (Int × Fs) := do
  let dir <- fs.inodeAt inode
  if dir.iNodeType != .directory then
    pure (-1, fs)
  else do
    let dirEntry <- dataBlockGet dir.iDataBlock fs
    let hit <- firstHit (clearTurn fs dirEntry subName) 0 fs.maxDirEntries
    match hit with
    | some i => do
        let data <- inside (fs.fsData.store (dInumberAt dirEntry i) (intBytes (-1)))
        let data <- inside (data.store (dNameAt dirEntry i) (List.replicate maxFileName 0))
        pure (0, { fs with fsData := data })
    | none => pure (-1, fs)

/-- One turn of the loop of {lit}`add_dir_entry`: the slot is free. -/
def addTurn (fs : Fs) (dirEntry : Nat) (i : Nat) : Res (Option Nat) := do
  let dInumber <- loadDInumber fs dirEntry i
  pure (if dInumber = -1 then some i else none)

def addDirEntry (inode : Int) (subName : CStr) (subInumber : Int) (fs : Fs) :
    Res (Int × Fs) := do
  if subName.bytes.length = 0 || maxFileName - 1 < subName.bytes.length then
    pure (-1, fs)
  else do
    let dir <- fs.inodeAt inode
    if dir.iNodeType != .directory then
      pure (-1, fs)
    else do
      let dirEntry <- dataBlockGet dir.iDataBlock fs
      let hit <- firstHit (addTurn fs dirEntry) 0 fs.maxDirEntries
      match hit with
      | some i => do
          let data <- inside (fs.fsData.store (dInumberAt dirEntry i) (intBytes subInumber))
          let data <- inside (data.store (dNameAt dirEntry i)
            (strncpyBytes subName.bytes (maxFileName - 1)))
          let data <- inside (data.store (dNameAt dirEntry i + (maxFileName - 1)) [0])
          pure (0, { fs with fsData := data })
      | none => pure (-1, fs)

/-- One turn of the loop of {lit}`find_in_dir`: the slot is occupied by the name. -/
def findTurn (fs : Fs) (dirEntry : Nat) (subName : CStr) (i : Nat) : Res (Option Int) := do
  let dInumber <- loadDInumber fs dirEntry i
  if dInumber = -1 then
    pure none
  else do
    let same <- inside
      (strncmpZero fs.fsData (dNameAt dirEntry i) subName.bytes maxFileName)
    pure (if same then some dInumber else none)

def findInDir (inode : Int) (subName : CStr) (fs : Fs) : Res Int := do
  let dir <- fs.inodeAt inode
  if dir.iNodeType != .directory then
    pure (-1)
  else do
    let dirEntry <- dataBlockGet dir.iDataBlock fs
    let hit <- firstHit (findTurn fs dirEntry subName) 0 (intLoopBound fs.maxDirEntries)
    pure (hit.getD (-1))

/-!
## The open-file table
-/

def addToOpenFileTable (inumber : Int) (offset : Nat) (fs : Fs) : Res (Int × Fs) := do
  let hit <- firstHit (freeTurn fs.freeOpenFileEntries) 0 (intLoopBound fs.maxOpenFiles)
  match hit with
  | some i => do
      let entries <- inside (storeCell fs.openFileTable i ⟨inumber, offset⟩)
      pure (i,
        { fs with
          freeOpenFileEntries := fs.freeOpenFileEntries.set i .taken
          openFileTable := entries })
  | none => pure (-1, fs)

def removeFromOpenFileTable (fhandle : Int) (fs : Fs) : Res Fs := do
  alwaysAssert (fs.validFileHandle fhandle)
    "remove_from_open_file_table: file handle must be valid"
  let state <- inside (loadCell fs.freeOpenFileEntries fhandle)
  alwaysAssert (state = .taken) "remove_from_open_file_table: file handle must be taken"
  let entries <- inside (storeCell fs.freeOpenFileEntries fhandle .free)
  pure { fs with freeOpenFileEntries := entries }

/-- The pointer to an open-file entry is its handle; {lit}`none` is NULL. -/
def getOpenFileEntry (fhandle : Int) (fs : Fs) : Res (Option Int) :=
  if !fs.validFileHandle fhandle then
    pure none
  else do
    let state <- inside (loadCell fs.freeOpenFileEntries fhandle)
    pure (if state = .taken then some fhandle else none)

end TecnicoFs
