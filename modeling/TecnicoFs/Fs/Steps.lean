import TecnicoFs.Fs.Invariant

/-!
# What each call can do

One relation per call lists its outcomes: the conditions under which it takes
each path of the source, its return value and the state it leaves.  In a state
that satisfies the invariant the relation is exactly the successful executions of
the call, so later results follow from the relations and never unfold a call.
-/

namespace TecnicoFs

open Library

namespace Fs

/-- Handle `h` receives the entry `e`. -/
def addHandle (fs : Fs) (h : Nat) (e : OpenFileEntry) : Fs :=
  { fs with
    freeOpenFileEntries := fs.freeOpenFileEntries.set h .taken
    openFileTable := fs.openFileTable.set h e }

/-- The entry of the open handle `h` becomes `e`. -/
def setEntry (fs : Fs) (h : Nat) (e : OpenFileEntry) : Fs :=
  { fs with openFileTable := fs.openFileTable.set h e }

def dropHandle (fs : Fs) (h : Nat) : Fs :=
  { fs with freeOpenFileEntries := fs.freeOpenFileEntries.set h .free }

/-- Inode `k` loses its bytes, and its block `b` is freed. -/
def cutInode (fs : Fs) (k b : Nat) (inode : Inode) : Fs :=
  { fs with
    freeBlocks := fs.freeBlocks.set b .free
    inodeTable := fs.inodeTable.set k { inode with iSize := 0 } }

/-- The record of a file that has just been created. -/
def emptyFile : Inode := ⟨.file, 0, -1⟩

/-- The free inode `k` was initialised as a file and freed again. -/
def resetInode (fs : Fs) (k : Nat) : Fs :=
  { fs with inodeTable := fs.inodeTable.set k emptyFile }

/-- The free inode `k` becomes an empty file. -/
def takeInode (fs : Fs) (k : Nat) : Fs :=
  { fs with
    freeinodeTs := fs.freeinodeTs.set k .taken
    inodeTable := fs.inodeTable.set k emptyFile }

/-- The free inode `k` becomes an empty file, listed in slot `j`. -/
def createFile (fs : Fs) (j : Nat) (name : CStr) (k : Nat) : Fs :=
  { fs.takeInode k with fsData := enterSlot fs.fsData j name k }

/-- Inode `k` and the block that holds its bytes are freed. -/
def dropInode (fs : Fs) (k : Nat) (inode : Inode) : Fs :=
  { fs with
    freeinodeTs := fs.freeinodeTs.set k .free
    freeBlocks :=
      if 0 < inode.iSize then fs.freeBlocks.set inode.iDataBlock.toNat .free
      else fs.freeBlocks }

/-- The file listed in slot `i` is deleted. -/
def removeFile (fs : Fs) (i k : Nat) (inode : Inode) : Fs :=
  { fs.dropInode k inode with fsData := eraseSlot fs.fsData i }

def takeBlock (fs : Fs) (b : Nat) : Fs :=
  { fs with freeBlocks := fs.freeBlocks.set b .taken }

/-- The free block `b` is taken and becomes block `bnum` of inode `k`. -/
def giveBlock (fs : Fs) (k : Nat) (inode : Inode) (b : Nat) (bnum : Int) : Fs :=
  { fs.takeBlock b with
    inodeTable := fs.inodeTable.set k { inode with iDataBlock := bnum } }

/-- The bytes are copied to block `b` of inode `k` at the offset of handle `h`. -/
def putBytes (fs : Fs) (h : Nat) (e : OpenFileEntry) (k : Nat) (inode : Inode) (b : Nat)
    (bytes : List UInt8) : Fs :=
  { fs with
    fsData := fs.fsData.overlay (b * fs.blockSize + e.ofOffset) bytes
    openFileTable := fs.openFileTable.set h
      { e with ofOffset := e.ofOffset + bytes.length }
    inodeTable := fs.inodeTable.set k
      { inode with
        iDataBlock := b
        iSize := max inode.iSize (e.ofOffset + bytes.length) } }

end Fs

/-!
## The relations
-/

def NotOpen (fs : Fs) (fhandle : Int) : Prop :=
  forall (h : Nat) (e : OpenFileEntry), fhandle = h -> ¬ OpenAt fs h e

inductive HandleStep (fs : Fs) (inum : Int) (offset : Nat) : Int -> Fs -> Prop where
  | full :
      NowhereAt fs.freeOpenFileEntries (intLoopBound fs.maxOpenFiles) .free ->
      HandleStep fs inum offset (-1) fs
  | added {h : Nat} :
      FirstAt fs.freeOpenFileEntries (intLoopBound fs.maxOpenFiles) .free h ->
      h < fs.openFileTable.length ->
      HandleStep fs inum offset h (fs.addHandle h ⟨inum, offset⟩)

inductive TruncateStep (fs : Fs) (k : Nat) (inode : Inode) (mode : Nat) :
    Inode -> Fs -> Prop where
  | keep :
      hasFlag mode tfsOTrunc = false ∨ inode.iSize = 0 ->
      TruncateStep fs k inode mode inode fs
  | cut {b : Nat} :
      hasFlag mode tfsOTrunc = true -> 0 < inode.iSize -> inode.iDataBlock = b ->
      b < fs.dataBlocks ->
      TruncateStep fs k inode mode { inode with iSize := 0 } (fs.cutInode k b inode)

inductive OpenStep (fs : Fs) (name : Option CStr) (mode : Nat) : Int -> Fs -> Prop where
  | badPath :
      validPathname name = false -> OpenStep fs name mode (-1) fs
  | existing {i k : Nat} {inode inode' : Inode} {fs' fs'' : Fs} {r : Int} :
      validPathname name = true -> Listed fs i (skipSlash name) k ->
      fs.inodeTable[k]? = some inode -> TruncateStep fs k inode mode inode' fs' ->
      HandleStep fs' k (if hasFlag mode tfsOAppend then inode'.iSize else 0) r fs'' ->
      OpenStep fs name mode r fs''
  | absent :
      validPathname name = true -> Absent fs (skipSlash name) ->
      hasFlag mode tfsOCreat = false -> OpenStep fs name mode (-1) fs
  | noInode :
      validPathname name = true -> Absent fs (skipSlash name) ->
      hasFlag mode tfsOCreat = true ->
      NowhereAt fs.freeinodeTs fs.inodeTableSize .free -> OpenStep fs name mode (-1) fs
  | notEntered {k : Nat} :
      validPathname name = true -> Absent fs (skipSlash name) ->
      hasFlag mode tfsOCreat = true -> FirstAt fs.freeinodeTs fs.inodeTableSize .free k ->
      k < intLimit -> k < fs.inodeTable.length ->
      ¬ FitsEntry (skipSlash name) ∨ FullDir fs.fsData fs.maxDirEntries ->
      OpenStep fs name mode (-1) (fs.resetInode k)
  | created {j k : Nat} {fs' : Fs} {r : Int} :
      validPathname name = true -> Absent fs (skipSlash name) ->
      hasFlag mode tfsOCreat = true -> FirstAt fs.freeinodeTs fs.inodeTableSize .free k ->
      k < intLimit -> k < fs.inodeTable.length ->
      FitsEntry (skipSlash name) -> FreeSlot fs.fsData fs.maxDirEntries j ->
      HandleStep (fs.createFile j (skipSlash name) k) k 0 r fs' ->
      OpenStep fs name mode r fs'

inductive CloseStep (fs : Fs) (fhandle : Int) : Int -> Fs -> Prop where
  | notOpen : NotOpen fs fhandle -> CloseStep fs fhandle (-1) fs
  | closed {h : Nat} {e : OpenFileEntry} :
      fhandle = h -> OpenAt fs h e -> CloseStep fs fhandle 0 (fs.dropHandle h)

inductive WriteStep (fs : Fs) (fhandle : Int) (buffer : List UInt8) (toWrite : Nat) :
    Int -> Fs -> Prop where
  | notOpen : NotOpen fs fhandle -> WriteStep fs fhandle buffer toWrite (-1) fs
  | nothing {h : Nat} {e : OpenFileEntry} :
      fhandle = h -> OpenAt fs h e -> clippedWrite fs.blockSize e.ofOffset toWrite = 0 ->
      WriteStep fs fhandle buffer toWrite 0 fs
  | noSpace {h k : Nat} {e : OpenFileEntry} {inode : Inode} :
      fhandle = h -> OpenAt fs h e -> clippedWrite fs.blockSize e.ofOffset toWrite ≠ 0 ->
      e.ofInumber = k -> fs.inodeTable[k]? = some inode -> inode.iSize = 0 ->
      NowhereAt fs.freeBlocks fs.dataBlocks .free ->
      WriteStep fs fhandle buffer toWrite (-1) fs
  | fresh {h k b n : Nat} {e : OpenFileEntry} {inode : Inode} :
      fhandle = h -> OpenAt fs h e -> clippedWrite fs.blockSize e.ofOffset toWrite = n ->
      n ≠ 0 -> e.ofInumber = k -> fs.inodeTable[k]? = some inode -> inode.iSize = 0 ->
      FirstAt fs.freeBlocks fs.dataBlocks .free b -> b < intLimit -> n <= buffer.length ->
      b * fs.blockSize + e.ofOffset + n <= fs.fsData.size ->
      WriteStep fs fhandle buffer toWrite n
        ((fs.takeBlock b).putBytes h e k inode b (buffer.take n))
  | inPlace {h k b n : Nat} {e : OpenFileEntry} {inode : Inode} :
      fhandle = h -> OpenAt fs h e -> clippedWrite fs.blockSize e.ofOffset toWrite = n ->
      n ≠ 0 -> e.ofInumber = k -> fs.inodeTable[k]? = some inode -> 0 < inode.iSize ->
      inode.iDataBlock = b -> n <= buffer.length ->
      b * fs.blockSize + e.ofOffset + n <= fs.fsData.size ->
      WriteStep fs fhandle buffer toWrite n
        (fs.putBytes h e k inode b (buffer.take n))

inductive ReadStep (fs : Fs) (fhandle : Int) (len : Nat) :
    Int -> List UInt8 -> Fs -> Prop where
  | notOpen : NotOpen fs fhandle -> ReadStep fs fhandle len (-1) [] fs
  | nothing {h k : Nat} {e : OpenFileEntry} {inode : Inode} :
      fhandle = h -> OpenAt fs h e -> e.ofInumber = k -> fs.inodeTable[k]? = some inode ->
      clippedRead inode.iSize e.ofOffset len = 0 ->
      ReadStep fs fhandle len 0 [] fs
  | copied {h k b n : Nat} {e : OpenFileEntry} {inode : Inode} :
      fhandle = h -> OpenAt fs h e -> e.ofInumber = k -> fs.inodeTable[k]? = some inode ->
      clippedRead inode.iSize e.ofOffset len = n -> n ≠ 0 -> inode.iDataBlock = b ->
      b * fs.blockSize + e.ofOffset + n <= fs.fsData.size ->
      ReadStep fs fhandle len n (fs.fsData.window (b * fs.blockSize + e.ofOffset) n)
        (fs.setEntry h { e with ofOffset := e.ofOffset + n })

inductive UnlinkStep (fs : Fs) (target : Option CStr) : Int -> Fs -> Prop where
  | badPath :
      validPathname target = false -> UnlinkStep fs target (-1) fs
  | absent :
      validPathname target = true -> Absent fs (skipSlash target) ->
      UnlinkStep fs target (-1) fs
  | removed {i k : Nat} {inode : Inode} :
      validPathname target = true -> Listed fs i (skipSlash target) k ->
      fs.inodeTable[k]? = some inode ->
      UnlinkStep fs target 0 (fs.removeFile i k inode)

inductive Step (fs : Fs) : Call -> Reply -> Fs -> Prop where
  | open {name : Option CStr} {mode : Nat} {r : Int} {fs' : Fs} :
      OpenStep fs name mode r fs' -> Step fs (.open name mode) ⟨r, []⟩ fs'
  | close {fhandle : Int} {r : Int} {fs' : Fs} :
      CloseStep fs fhandle r fs' -> Step fs (.close fhandle) ⟨r, []⟩ fs'
  | read {fhandle : Int} {len : Nat} {r : Int} {data : List UInt8} {fs' : Fs} :
      ReadStep fs fhandle len r data fs' -> Step fs (.read fhandle len) ⟨r, data⟩ fs'
  | write {fhandle : Int} {buffer : List UInt8} {toWrite : Nat} {r : Int} {fs' : Fs} :
      WriteStep fs fhandle buffer toWrite r fs' ->
      Step fs (.write fhandle buffer toWrite) ⟨r, []⟩ fs'
  | unlink {target : Option CStr} {r : Int} {fs' : Fs} :
      UnlinkStep fs target r fs' -> Step fs (.unlink target) ⟨r, []⟩ fs'

/-- The calls that fail an assertion: a read that starts past the end of a file
that never had a block, and a write that is handed a block whose number is no
`int`. -/
inductive Panics (fs : Fs) : Call -> Prop where
  | read {fhandle : Int} {h k len : Nat} {e : OpenFileEntry} {inode : Inode} :
      fhandle = h -> OpenAt fs h e -> e.ofInumber = k -> fs.inodeTable[k]? = some inode ->
      clippedRead inode.iSize e.ofOffset len ≠ 0 -> inode.iDataBlock = -1 ->
      Panics fs (.read fhandle len)
  | write {fhandle : Int} {h k toWrite : Nat} {buffer : List UInt8} {e : OpenFileEntry}
      {inode : Inode} :
      fhandle = h -> OpenAt fs h e -> clippedWrite fs.blockSize e.ofOffset toWrite ≠ 0 ->
      e.ofInumber = k -> fs.inodeTable[k]? = some inode -> inode.iSize = 0 ->
      FirstAt fs.freeBlocks fs.dataBlocks .free intLimit ->
      Panics fs (.write fhandle buffer toWrite)

/-!
## The functions on tables
-/

section Tables

variable {fs : Fs}

theorem set_eq_self {t : List alpha} {k : Nat} {x : alpha} (h : t[k]? = some x) :
    t.set k x = t := by
  apply List.ext_getElem?
  intro i
  rw [List.getElem?_set]
  by_cases hki : k = i
  · rw [← hki, if_pos rfl, if_pos (List.getElem?_eq_some_iff.mp h).choose, h]
  · rw [if_neg hki]

theorem getElem?_lt {t : List alpha} {k : Nat} {x : alpha} (h : t[k]? = some x) :
    k < t.length :=
  (List.getElem?_eq_some_iff.mp h).choose

theorem taken_of_others {t : List AllocationState} {n j : Nat} (hn : n = t.length) :
    j ∈ othersBelow t n .free <-> t[j]? = some .taken := by
  rw [mem_othersBelow]
  constructor
  · rintro ⟨hlt, hne⟩
    rw [hn] at hlt
    rw [List.getElem?_eq_getElem hlt] at hne ⊢
    cases hcell : t[j] with
    | taken => rfl
    | free => exact absurd (by rw [hcell]) hne
  · intro htaken
    have hlt := getElem?_lt htaken
    rw [htaken]
    exact ⟨hn ▸ hlt, by simp⟩

theorem search_firstAt {t : List AllocationState} {n k : Nat} (h : FirstAt t n .free k) :
    firstHit (freeTurn t) 0 n = .ok (some k) := by
  rcases h with ⟨hlt, hk, hbefore⟩
  apply firstHit_some (Nat.zero_le k) (by omega)
  · simp [freeTurn, hk]
  · intro j _ hj
    rcases hbefore j hj with ⟨x, hx, hne⟩
    simp [freeTurn, hx, hne]

theorem search_nowhereAt {t : List AllocationState} {n : Nat} (h : NowhereAt t n .free) :
    firstHit (freeTurn t) 0 n = .ok none := by
  apply firstHit_none
  intro j _ hj
  rcases h j (by omega) with ⟨x, hx, hne⟩
  simp [freeTurn, hx, hne]

theorem allocFirst_firstAt {t : List AllocationState} {n size k : Nat} (hsize : 0 < size)
    (h : FirstAt t n .free k) : allocFirst t n size = .ok (intOfSize k, t.set k .taken) := by
  have hne : ¬ size = 0 := by omega
  simp [allocFirst, hne, search_firstAt h]

theorem allocFirst_nowhereAt {t : List AllocationState} {n size : Nat} (hsize : 0 < size)
    (h : NowhereAt t n .free) : allocFirst t n size = .ok (-1, t) := by
  have hne : ¬ size = 0 := by omega
  simp [allocFirst, hne, search_nowhereAt h]

theorem inodeAt_nat {k : Nat} {inode : Inode} (h : fs.inodeTable[k]? = some inode) :
    fs.inodeAt (k : Int) = .ok inode := by
  simp [Fs.inodeAt, h]

theorem modifyInode_nat {k : Nat} {inode : Inode} (f : Inode -> Inode)
    (h : fs.inodeTable[k]? = some inode) :
    fs.modifyInode (k : Int) f =
      .ok { fs with inodeTable := fs.inodeTable.set k (f inode) } := by
  simp [Fs.modifyInode, inodeAt_nat h, storeCell_nat (f inode) (getElem?_lt h)]

theorem inodeGet_nat {k : Nat} (h : k < fs.inodeTableSize) :
    inodeGet (k : Int) fs = .ok (k : Int) := by
  simp [inodeGet, Fs.validInumber, h]

theorem dataBlockFree_nat {b : Nat} (hb : b < fs.dataBlocks)
    (hlen : fs.freeBlocks.length = fs.dataBlocks) :
    dataBlockFree (b : Int) fs = .ok { fs with freeBlocks := fs.freeBlocks.set b .free } := by
  simp [dataBlockFree, Fs.validBlockNumber, hb, storeCell_nat AllocationState.free (hlen ▸ hb)]

theorem dataBlockGet_nat {b : Nat} (hb : b < fs.dataBlocks) :
    dataBlockGet (b : Int) fs = .ok (sizeMul b fs.blockSize) := by
  simp [dataBlockGet, Fs.validBlockNumber, hb]

theorem dataBlockGet_neg {b : Int} (hb : b < 0) :
    dataBlockGet b fs = .error (.panic "data_block_get: invalid block number") := by
  have hinvalid : fs.validBlockNumber b = false := by
    simp [Fs.validBlockNumber]
    omega
  simp [dataBlockGet, hinvalid]

theorem intLoopBound_le (n : Nat) : intLoopBound n <= n := Nat.min_le_left n intLimit

theorem HandleStep.sound {inum : Int} {offset : Nat} {r : Int} {fs' : Fs}
    (h : HandleStep fs inum offset r fs') :
    addToOpenFileTable inum offset fs = .ok (r, fs') := by
  cases h with
  | full hfull => simp [addToOpenFileTable, search_nowhereAt hfull]
  | added hfirst hlt =>
      simp [addToOpenFileTable, search_firstAt hfirst, storeCell_nat _ hlt, Fs.addHandle]

theorem addToOpenFileTable_cases (hlen : fs.freeOpenFileEntries.length = fs.maxOpenFiles)
    (inum : Int) (offset : Nat) :
    (exists r fs', HandleStep fs inum offset r fs') ∨
      addToOpenFileTable inum offset fs = .error .outOfBounds := by
  have hbound : intLoopBound fs.maxOpenFiles <= fs.freeOpenFileEntries.length := by
    rw [hlen]
    exact intLoopBound_le _
  rcases firstAt_or_nowhereAt fs.freeOpenFileEntries .free hbound with ⟨k, hfirst⟩ | hnone
  · by_cases hlt : k < fs.openFileTable.length
    · exact Or.inl ⟨_, _, HandleStep.added hfirst hlt⟩
    · right
      have hstore : storeCell fs.openFileTable (k : Int) ⟨inum, offset⟩ = none := by
        simp [storeCell, hlt]
      simp [addToOpenFileTable, search_firstAt hfirst, hstore]
  · exact Or.inl ⟨_, _, HandleStep.full hnone⟩

end Tables

end TecnicoFs
