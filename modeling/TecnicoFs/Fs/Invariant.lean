import TecnicoFs.Fs.Directory

/-!
# The invariant of the file system

Every call keeps the relations below between the five tables, whatever handles,
names, modes and lengths it is given.  The parameter {lit}`made` stands for the
inodes that were created as files at some time, whether or not they have been
freed since: handles may outlive their file, so what is known about an inode must
survive its deletion.
-/

namespace TecnicoFs

open Library

/-- Slot `i` of the root directory names inode `k`. -/
structure Listed (fs : Fs) (i : Nat) (name : CStr) (k : Nat) : Prop where
  lt : i < fs.maxDirEntries
  entry : Entry fs.fsData i name k

def Absent (fs : Fs) (name : CStr) : Prop :=
  forall i k, ¬ Listed fs i name k

def InodeTaken (fs : Fs) (k : Nat) : Prop := fs.freeinodeTs[k]? = some .taken

def BlockTaken (fs : Fs) (b : Nat) : Prop := fs.freeBlocks[b]? = some .taken

/-- Handle `h` is open, with entry `e` in the open-file table. -/
structure OpenAt (fs : Fs) (h : Nat) (e : OpenFileEntry) : Prop where
  lt : h < fs.maxOpenFiles
  taken : fs.freeOpenFileEntries[h]? = some .taken
  entry : fs.openFileTable[h]? = some e

theorem OpenAt.unique {fs : Fs} {h : Nat} {e e' : OpenFileEntry} (hopen : OpenAt fs h e)
    (hopen' : OpenAt fs h e') : e = e' :=
  Option.some.inj (hopen.entry.symm.trans hopen'.entry)

/-- A block number whose bytes begin inside the data area. -/
structure UsableBlock (fs : Fs) (b : Nat) : Prop where
  pos : 1 <= b
  lt : b < fs.dataBlocks
  start : b * fs.blockSize < fs.fsData.size

structure Layout (fs : Fs) : Prop where
  blockPos : 0 < fs.blockSize
  inodeCells : fs.freeinodeTs.length = fs.inodeTableSize
  blockCells : fs.freeBlocks.length = fs.dataBlocks
  handleCells : fs.freeOpenFileEntries.length = fs.maxOpenFiles
  dataSmall : fs.fsData.size <= ptrdiffMax
  rootInode : fs.inodeTable[0]? = some ⟨.directory, fs.blockSize, 0⟩
  rootTaken : InodeTaken fs 0
  rootBlock : BlockTaken fs 0

structure RootDirectory (fs : Fs) (used : Nat) : Prop where
  shape : DirShape fs.fsData fs.maxDirEntries used
  usedInt : used < intLimit
  nameInj : forall {i j name k k'}, Listed fs i name k -> Listed fs j name k' -> i = j
  inodeInj : forall {i j name name' k}, Listed fs i name k -> Listed fs j name' k -> i = j
  inodeTaken : forall {i name k}, Listed fs i name k -> k ≠ 0 ∧ InodeTaken fs k
  takenListed : forall {k}, InodeTaken fs k -> k ≠ 0 -> exists i name, Listed fs i name k

/-- An inode created as a file: no block and no bytes, or a usable block. -/
structure FileInode (fs : Fs) (inode : Inode) : Prop where
  type : inode.iNodeType = .file
  size : inode.iSize <= fs.blockSize
  block : (inode.iDataBlock = -1 ∧ inode.iSize = 0) ∨
    exists b : Nat, inode.iDataBlock = b ∧ UsableBlock fs b

theorem FileInode.size_of_noBlock {fs : Fs} {inode : Inode} (h : FileInode fs inode)
    (hb : inode.iDataBlock = -1) : inode.iSize = 0 := by
  rcases h.block with ⟨_, hzero⟩ | ⟨b, hb', _⟩
  · exact hzero
  · omega

structure Storage (made : Nat -> Prop) (fs : Fs) : Prop where
  takenMade : forall {k}, InodeTaken fs k -> k ≠ 0 -> made k
  madeInode : forall {k}, made k -> k ≠ 0 ∧ k < intLimit ∧ k < fs.inodeTableSize ∧
    exists inode, fs.inodeTable[k]? = some inode ∧ FileInode fs inode
  blockOwned : forall {k inode} {b : Nat}, InodeTaken fs k ->
    fs.inodeTable[k]? = some inode -> 0 < inode.iSize -> inode.iDataBlock = b ->
      BlockTaken fs b
  blockInj : forall {k k' inode inode'}, InodeTaken fs k -> InodeTaken fs k' ->
    fs.inodeTable[k]? = some inode -> fs.inodeTable[k']? = some inode' ->
      0 < inode.iSize -> 0 < inode'.iSize -> inode.iDataBlock = inode'.iDataBlock -> k = k'
  blockInt : forall {b}, BlockTaken fs b -> b < intLimit
  blockStart : forall {b}, BlockTaken fs b -> b ≠ 0 -> b * fs.blockSize < fs.fsData.size

structure Handles (made : Nat -> Prop) (fs : Fs) : Prop where
  openMade : forall {h e}, OpenAt fs h e -> exists k : Nat, e.ofInumber = k ∧ made k
  offset : forall {h e}, OpenAt fs h e -> e.ofOffset < sizeMod
  handleInt : forall {h}, fs.freeOpenFileEntries[h]? = some .taken ->
    h < intLimit ∧ h < fs.openFileTable.length

structure Inv (made : Nat -> Prop) (fs : Fs) : Prop where
  layout : Layout fs
  directory : exists used, RootDirectory fs used
  storage : Storage made fs
  handles : Handles made fs

/-!
## Consequences of the layout
-/

namespace Layout

variable {fs : Fs}

theorem dataBlocks_pos (h : Layout fs) : 0 < fs.dataBlocks := by
  have hlt : 0 < fs.freeBlocks.length := by
    by_contra hge
    have hnone : fs.freeBlocks[0]? = none := List.getElem?_eq_none (by omega)
    have hroot : fs.freeBlocks[0]? = some .taken := h.rootBlock
    rw [hnone] at hroot
    cases hroot
  rw [← h.blockCells]
  exact hlt

theorem inodeTableSize_pos (h : Layout fs) : 0 < fs.inodeTableSize := by
  have hlt : 0 < fs.freeinodeTs.length := by
    by_contra hge
    have hnone : fs.freeinodeTs[0]? = none := List.getElem?_eq_none (by omega)
    have hroot : fs.freeinodeTs[0]? = some .taken := h.rootTaken
    rw [hnone] at hroot
    cases hroot
  rw [← h.inodeCells]
  exact hlt

theorem inodeAt_root (h : Layout fs) :
    fs.inodeAt rootDirInum = .ok ⟨.directory, fs.blockSize, 0⟩ := by
  have hload := loadCell_nat fs.inodeTable 0
  rw [h.rootInode] at hload
  rw [Fs.inodeAt, rootDirInum]
  exact congrArg inside hload

theorem inodeGet_root (h : Layout fs) : inodeGet rootDirInum fs = .ok rootDirInum := by
  have hpos := h.inodeTableSize_pos
  simp [inodeGet, Fs.validInumber, rootDirInum, hpos]

theorem dataBlockGet_root (h : Layout fs) : dataBlockGet 0 fs = .ok 0 := by
  have hpos := h.dataBlocks_pos
  simp [dataBlockGet, Fs.validBlockNumber, hpos, sizeMul]

end Layout

theorem maxDirEntries_le_blockSize (fs : Fs) :
    sizeofDirEntry * fs.maxDirEntries <= fs.blockSize :=
  Nat.mul_div_le fs.blockSize sizeofDirEntry

/-- The block size is a size: the directory fits in the data area. -/
theorem Inv.blockSize_lt {made : Nat -> Prop} {fs : Fs} (h : Inv made fs) :
    fs.blockSize < sizeMod := by
  rcases h.directory with ⟨used, hdir⟩
  have hfits := hdir.shape.inRegion
  have hsmall := h.layout.dataSmall
  simp only [Fs.maxDirEntries, sizeofDirEntry, ptrdiffMax, sizeMod] at *
  omega

/-- The address of a usable block does not wrap. -/
theorem Inv.sizeMul_block {made : Nat -> Prop} {fs : Fs} (h : Inv made fs) {b : Nat}
    (hb : b * fs.blockSize < fs.fsData.size) :
    sizeMul b fs.blockSize = b * fs.blockSize := by
  have hsmall := h.layout.dataSmall
  apply Nat.mod_eq_of_lt
  simp only [ptrdiffMax, sizeMod] at *
  omega

/-!
## The directory functions on the table of slots
-/

section DirectoryFunctions

variable {fs : Fs} {used : Nat} {name : CStr}

theorem loadDInumber_eq (hshape : DirShape fs.fsData fs.maxDirEntries used) {i : Nat}
    (hi : i < fs.maxDirEntries) : loadDInumber fs 0 i = .ok (dInumber fs.fsData i) := by
  simp [loadDInumber, hshape.load_dInumber hi, dInumber]

theorem findTurn_free (hshape : DirShape fs.fsData fs.maxDirEntries used) {i : Nat}
    (hi : i < fs.maxDirEntries) (hfree : dInumber fs.fsData i = -1) :
    findTurn fs 0 name i = .ok none := by
  simp [findTurn, loadDInumber_eq hshape hi, hfree]

theorem findTurn_listed (hshape : DirShape fs.fsData fs.maxDirEntries used) {i k : Nat}
    {held : CStr} (h : Listed fs i held k) :
    findTurn fs 0 name i = .ok (if held = name then some (k : Int) else none) := by
  have hocc := h.entry.ne_free
  rcases hshape.holds_of_used (hshape.occupied_lt h.lt hocc) with
    ⟨hfree, _⟩ | ⟨held', k', hentry, hholds⟩
  · exact absurd hfree hocc
  · have hcmp := strncmpZero_of_holds hholds held'.noNul name.noNul hentry.fits.right
    have hsame := (hentry.name_unique h.entry).left
    rw [hsame] at hcmp
    have hiff : (held.bytes = name.bytes) = (held = name) :=
      propext ⟨CStr.ext, fun heq => heq ▸ rfl⟩
    have hne : ((k : Nat) : Int) ≠ -1 := by omega
    simp [findTurn, loadDInumber_eq hshape h.lt, h.entry.inumber, hcmp, hiff, hne]

theorem findInDir_loop (hlayout : Layout fs) :
    findInDir rootDirInum name fs =
      firstHit (findTurn fs 0 name) 0 (intLoopBound fs.maxDirEntries) >>= fun hit =>
        .ok (hit.getD (-1)) := by
  simp [findInDir, hlayout.inodeAt_root, hlayout.dataBlockGet_root]

/-- A lookup finds a listed name. -/
theorem findInDir_listed (hlayout : Layout fs) (hdir : RootDirectory fs used) {i k : Nat}
    (h : Listed fs i name k) : findInDir rootDirInum name fs = .ok k := by
  have hused := hdir.shape.occupied_lt h.lt h.entry.ne_free
  have hint := hdir.usedInt
  have hlt := h.lt
  have hbound : i < 0 + intLoopBound fs.maxDirEntries := by
    simp only [intLoopBound]
    omega
  have hself : findTurn fs 0 name i = .ok (some (k : Int)) := by
    simp [findTurn_listed hdir.shape h]
  have hbefore : forall j, 0 <= j -> j < i -> findTurn fs 0 name j = .ok none := by
    intro j _ hj
    have hjlt : j < fs.maxDirEntries := Nat.lt_trans hj hlt
    by_cases hfree : dInumber fs.fsData j = -1
    · exact findTurn_free hdir.shape hjlt hfree
    · rcases hdir.shape.entry_of_occupied hjlt hfree with ⟨held, k', hentry⟩
      have hlisted : Listed fs j held k' := ⟨hjlt, hentry⟩
      have hne : held ≠ name := by
        intro heq
        rw [heq] at hlisted
        exact Nat.ne_of_lt hj (hdir.nameInj hlisted h)
      simp [findTurn_listed hdir.shape hlisted, hne]
  rw [findInDir_loop hlayout, firstHit_some (Nat.zero_le i) hbound hself hbefore]
  rfl

/-- A lookup of a name that no slot holds fails. -/
theorem findInDir_absent (hlayout : Layout fs) (hdir : RootDirectory fs used)
    (h : Absent fs name) : findInDir rootDirInum name fs = .ok (-1) := by
  have hall : forall j, 0 <= j -> j < 0 + intLoopBound fs.maxDirEntries ->
      findTurn fs 0 name j = .ok none := by
    intro j _ hj
    have hjlt : j < fs.maxDirEntries := by
      simp only [intLoopBound] at hj
      omega
    by_cases hfree : dInumber fs.fsData j = -1
    · exact findTurn_free hdir.shape hjlt hfree
    · rcases hdir.shape.entry_of_occupied hjlt hfree with ⟨held, k', hentry⟩
      have hlisted : Listed fs j held k' := ⟨hjlt, hentry⟩
      have hne : held ≠ name := by
        intro heq
        rw [heq] at hlisted
        exact h j k' hlisted
      simp [findTurn_listed hdir.shape hlisted, hne]
  rw [findInDir_loop hlayout, firstHit_none hall]
  rfl

/-- Clearing a listed name clears its own slot: the used slots below it are
cleared, and so hold the empty string, or hold another name. -/
theorem clearDirEntry_listed {size : Nat} {i k : Nat}
    (hroot : fs.inodeAt rootDirInum = .ok ⟨.directory, size, 0⟩)
    (hblock : dataBlockGet 0 fs = .ok 0)
    (hshape : DirShape fs.fsData fs.maxDirEntries used)
    (hnames : forall {i j name k k'}, Listed fs i name k -> Listed fs j name k' -> i = j)
    (h : Listed fs i name k) :
    clearDirEntry rootDirInum name fs =
      .ok (0, { fs with fsData := eraseSlot fs.fsData i }) := by
  have hlt := h.lt
  have hused := hshape.occupied_lt hlt h.entry.ne_free
  have hself : clearTurn fs 0 name i = .ok (some i) := by
    rcases hshape.holds_of_used hused with ⟨hfree, _⟩ | ⟨held, k', hentry, hholds⟩
    · exact absurd hfree h.entry.ne_free
    · have hcmp := strcmpZero_of_holds hholds held.noNul name.noNul
      rw [(hentry.name_unique h.entry).left] at hcmp
      simp [clearTurn, hcmp]
  have hbefore : forall j, 0 <= j -> j < i -> clearTurn fs 0 name j = .ok none := by
    intro j _ hj
    rcases hshape.holds_of_used (Nat.lt_trans hj hused) with
      ⟨_, hholds⟩ | ⟨held, k', hentry, hholds⟩
    · have hcmp := strcmpZero_of_holds hholds (by simp) name.noNul
      have hne : [] ≠ name.bytes := by
        intro heq
        have hpos := h.entry.fits.left
        rw [← heq] at hpos
        exact absurd hpos (by simp)
      simp [clearTurn, hcmp, hne]
    · have hcmp := strcmpZero_of_holds hholds held.noNul name.noNul
      have hne : held.bytes ≠ name.bytes := by
        intro heq
        have hname : held = name := CStr.ext heq
        have hlisted : Listed fs j name k' := ⟨Nat.lt_trans hj hlt, hname ▸ hentry⟩
        exact Nat.ne_of_lt hj (hnames hlisted h)
      simp [clearTurn, hcmp, hne]
  have hhit := firstHit_some (Nat.zero_le i) (by omega : i < 0 + fs.maxDirEntries) hself hbefore
  have hsize := hshape.inRegion
  have hnum : fs.fsData.store (dInumberAt 0 i) (intBytes (-1)) =
      some (fs.fsData.overlay (dInumberAt 0 i) (intBytes (-1))) := by
    apply Region.store_eq
    simp only [dInumberAt, sizeofDirEntry, maxFileName, intBytes_length] at *
    omega
  have hname : (fs.fsData.overlay (dInumberAt 0 i) (intBytes (-1))).store (dNameAt 0 i)
      (List.replicate maxFileName 0) = some (eraseSlot fs.fsData i) := by
    apply Region.store_eq
    simp only [dNameAt, sizeofDirEntry, maxFileName, List.length_replicate,
      Region.overlay_size] at *
    omega
  simp [clearDirEntry, hroot, hblock, hhit, hnum, hname]

theorem addTurn_eq (hshape : DirShape fs.fsData fs.maxDirEntries used) {i : Nat}
    (hi : i < fs.maxDirEntries) :
    addTurn fs 0 i = .ok (if dInumber fs.fsData i = -1 then some i else none) := by
  simp [addTurn, loadDInumber_eq hshape hi]

theorem nameCheck_iff (name : CStr) :
    (name.bytes.length = 0 || maxFileName - 1 < name.bytes.length) = true <->
      ¬ FitsEntry name := by
  rw [Bool.or_eq_true, decide_eq_true_eq, decide_eq_true_eq]
  simp only [FitsEntry, maxFileName]
  omega

theorem addDirEntry_unfit (hname : ¬ FitsEntry name) (inode subInumber : Int) :
    addDirEntry inode name subInumber fs = .ok (-1, fs) := by
  rw [addDirEntry, if_pos ((nameCheck_iff name).mpr hname)]
  rfl

theorem addDirEntry_full {size : Nat} {subInumber : Int}
    (hroot : fs.inodeAt rootDirInum = .ok ⟨.directory, size, 0⟩)
    (hblock : dataBlockGet 0 fs = .ok 0)
    (hshape : DirShape fs.fsData fs.maxDirEntries used)
    (hname : FitsEntry name) (hfull : FullDir fs.fsData fs.maxDirEntries) :
    addDirEntry rootDirInum name subInumber fs = .ok (-1, fs) := by
  have hcond := fun hbad => (nameCheck_iff name).mp hbad hname
  have hnone : forall j, 0 <= j -> j < 0 + fs.maxDirEntries -> addTurn fs 0 j = .ok none := by
    intro j _ hj
    rw [addTurn_eq hshape (by omega), if_neg (hfull j (by omega))]
  rw [addDirEntry, if_neg hcond]
  simp [hroot, hblock, firstHit_none hnone]

theorem addDirEntry_free {size j : Nat} {subInumber : Int}
    (hroot : fs.inodeAt rootDirInum = .ok ⟨.directory, size, 0⟩)
    (hblock : dataBlockGet 0 fs = .ok 0)
    (hshape : DirShape fs.fsData fs.maxDirEntries used)
    (hname : FitsEntry name) (hfree : FreeSlot fs.fsData fs.maxDirEntries j) :
    addDirEntry rootDirInum name subInumber fs =
      .ok (0, { fs with fsData := enterSlot fs.fsData j name subInumber }) := by
  have hcond := fun hbad => (nameCheck_iff name).mp hbad hname
  have hlt := hfree.left
  have hself : addTurn fs 0 j = .ok (some j) := by
    rw [addTurn_eq hshape hlt, if_pos hfree.right.left]
  have hbefore : forall i, 0 <= i -> i < j -> addTurn fs 0 i = .ok none := by
    intro i _ hi
    rw [addTurn_eq hshape (by omega), if_neg (hfree.right.right i hi)]
  have hhit := firstHit_some (Nat.zero_le j) (by omega : j < 0 + fs.maxDirEntries) hself hbefore
  have hsize := hshape.inRegion
  have hnum : fs.fsData.store (dInumberAt 0 j) (intBytes subInumber) =
      some (fs.fsData.overlay (dInumberAt 0 j) (intBytes subInumber)) := by
    apply Region.store_eq
    simp only [dInumberAt, sizeofDirEntry, maxFileName, intBytes_length] at *
    omega
  have hbytes : (fs.fsData.overlay (dInumberAt 0 j) (intBytes subInumber)).store (dNameAt 0 j)
      (strncpyBytes name.bytes (maxFileName - 1)) =
      some ((fs.fsData.overlay (dInumberAt 0 j) (intBytes subInumber)).overlay (dNameAt 0 j)
        (strncpyBytes name.bytes (maxFileName - 1))) := by
    apply Region.store_eq
    simp only [dNameAt, sizeofDirEntry, maxFileName, strncpyBytes_length,
      Region.overlay_size] at *
    omega
  have hnul : ((fs.fsData.overlay (dInumberAt 0 j) (intBytes subInumber)).overlay
      (dNameAt 0 j) (strncpyBytes name.bytes (maxFileName - 1))).store
        (dNameAt 0 j + (maxFileName - 1)) [0] =
      some (enterSlot fs.fsData j name subInumber) := by
    apply Region.store_eq
    simp only [dNameAt, sizeofDirEntry, maxFileName, List.length_singleton,
      Region.overlay_size] at *
    omega
  rw [addDirEntry, if_neg hcond]
  simp [hroot, hblock, hhit, hnum, hbytes, hnul]

theorem freeSlot_or_fullDir (data : Region UInt8) (n : Nat) :
    (exists j, FreeSlot data n j) ∨ FullDir data n := by
  by_cases h : exists j, j < n ∧ dInumber data j = -1
  · left
    classical
    have hspec := Nat.find_spec h
    refine ⟨Nat.find h, hspec.left, hspec.right, fun i hi hfree => ?_⟩
    exact Nat.find_min h hi ⟨Nat.lt_trans hi hspec.left, hfree⟩
  · right
    intro i hi hfree
    exact h ⟨i, hi, hfree⟩

theorem listed_or_absent (fs : Fs) (name : CStr) :
    (exists i k, Listed fs i name k) ∨ Absent fs name := by
  by_cases h : exists i k, Listed fs i name k
  · exact Or.inl h
  · right
    intro i k hlisted
    exact h ⟨i, k, hlisted⟩

end DirectoryFunctions

end TecnicoFs
