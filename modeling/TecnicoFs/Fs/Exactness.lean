import TecnicoFs.Fs.Steps

/-!
# The step relations are exact

In a state that satisfies the invariant a call succeeds with a result and a state
exactly when the step relation relates them.
-/

namespace TecnicoFs

open Library

variable {made : Nat -> Prop} {fs fs' : Fs} {r : Int}

namespace Inv

theorem inode_unique {k : Nat} {inode inode' : Inode} (h : fs.inodeTable[k]? = some inode)
    (h' : fs.inodeTable[k]? = some inode') : inode = inode' :=
  Option.some.inj (h.symm.trans h')

theorem inode_of_listed (h : Inv made fs) {i k : Nat} {name : CStr}
    (hlisted : Listed fs i name k) :
    k ≠ 0 ∧ InodeTaken fs k ∧ k < fs.inodeTableSize ∧
      exists inode, fs.inodeTable[k]? = some inode ∧ FileInode fs inode := by
  rcases h.directory with ⟨used, hdir⟩
  rcases hdir.inodeTaken hlisted with ⟨hne, htaken⟩
  rcases h.storage.madeInode (h.storage.takenMade htaken hne) with ⟨_, _, hlt, hinode⟩
  exact ⟨hne, htaken, hlt, hinode⟩

theorem inode_of_open (h : Inv made fs) {k : Nat} {fh : Nat} {e : OpenFileEntry}
    (hopen : OpenAt fs fh e) (hk : e.ofInumber = k) :
    made k ∧ k < fs.inodeTableSize ∧
      exists inode, fs.inodeTable[k]? = some inode ∧ FileInode fs inode := by
  rcases h.handles.openMade hopen with ⟨k', hk', hmade⟩
  have heq : k' = k := by omega
  rw [heq] at hmade
  rcases h.storage.madeInode hmade with ⟨_, _, hlt, hinode⟩
  exact ⟨hmade, hlt, hinode⟩

theorem fileInode_of_open (h : Inv made fs) {k : Nat} {fh : Nat} {e : OpenFileEntry}
    {inode : Inode} (hopen : OpenAt fs fh e) (hk : e.ofInumber = k)
    (hinode : fs.inodeTable[k]? = some inode) : FileInode fs inode := by
  rcases h.inode_of_open hopen hk with ⟨_, _, inode', hinode', hfile⟩
  rwa [inode_unique hinode' hinode] at hfile

/-- A block that holds bytes of an inode created as a file is usable. -/
theorem usable_of_size (_h : Inv made fs) {inode : Inode} (hfile : FileInode fs inode)
    (hsize : 0 < inode.iSize) : exists b : Nat, inode.iDataBlock = b ∧ UsableBlock fs b := by
  rcases hfile.block with ⟨_, hzero⟩ | hblock
  · omega
  · exact hblock

theorem block_of_size (h : Inv made fs) {inode : Inode} (hfile : FileInode fs inode)
    (hsize : 0 < inode.iSize) {b : Nat} (hb : inode.iDataBlock = b) : UsableBlock fs b := by
  rcases h.usable_of_size hfile hsize with ⟨b', hb', husable⟩
  have heq : b' = b := by omega
  exact heq ▸ husable

/-- First-fit allocation reaches an inode number that is not an `int` only after
all smaller ones, so at the first of them. -/
theorem firstFree_inode (h : Inv made fs) {k : Nat}
    (hfirst : FirstAt fs.freeinodeTs fs.inodeTableSize .free k) :
    k < intLimit ∨ k = intLimit := by
  by_contra hgt
  rcases hfirst.right.right intLimit (by omega) with ⟨x, hx, hne⟩
  have htaken : InodeTaken fs intLimit := by
    cases x with
    | free => exact absurd rfl hne
    | taken => exact hx
  have hmade := h.storage.takenMade htaken (by decide)
  have hlt := (h.storage.madeInode hmade).right.left
  exact Nat.lt_irrefl _ hlt

theorem firstFree_block (h : Inv made fs) {b : Nat}
    (hfirst : FirstAt fs.freeBlocks fs.dataBlocks .free b) :
    b < intLimit ∨ b = intLimit := by
  by_contra hgt
  rcases hfirst.right.right intLimit (by omega) with ⟨x, hx, hne⟩
  have htaken : BlockTaken fs intLimit := by
    cases x with
    | free => exact absurd rfl hne
    | taken => exact hx
  exact Nat.lt_irrefl _ (h.storage.blockInt htaken)

theorem getOpenFileEntry_open (_h : Inv made fs) {fh : Nat} {e : OpenFileEntry}
    (hopen : OpenAt fs fh e) : getOpenFileEntry (fh : Int) fs = .ok (some (fh : Int)) := by
  simp [getOpenFileEntry, Fs.validFileHandle, hopen.lt, hopen.taken]

/-- Looking a handle up never fails: the handle is open or the answer is NULL. -/
theorem handle_cases (h : Inv made fs) (fhandle : Int) :
    (exists (fh : Nat) (e : OpenFileEntry), fhandle = fh ∧ OpenAt fs fh e) ∨
      (NotOpen fs fhandle ∧ getOpenFileEntry fhandle fs = .ok none) := by
  by_cases hvalid : fs.validFileHandle fhandle = true
  · have hrange : 0 <= fhandle ∧ fhandle < fs.maxOpenFiles := by
      simpa [Fs.validFileHandle] using hvalid
    obtain ⟨fh, hnat⟩ := Int.eq_ofNat_of_zero_le hrange.left
    have hlt : fh < fs.maxOpenFiles := by omega
    have hlen : fh < fs.freeOpenFileEntries.length := by
      rw [h.layout.handleCells]
      exact hlt
    cases hstate : fs.freeOpenFileEntries[fh] with
    | taken =>
        left
        have htaken : fs.freeOpenFileEntries[fh]? = some .taken := by
          rw [List.getElem?_eq_getElem hlen, hstate]
        have htable := (h.handles.handleInt htaken).right
        exact ⟨fh, fs.openFileTable[fh], hnat, hlt, htaken, List.getElem?_eq_getElem htable⟩
    | free =>
        right
        have hfree : fs.freeOpenFileEntries[fh]? = some .free := by
          rw [List.getElem?_eq_getElem hlen, hstate]
        constructor
        · intro fh' e heq hopen
          have hfh : fh' = fh := by omega
          have htaken := hopen.taken
          rw [hfh, hfree] at htaken
          cases htaken
        · rw [hnat]
          simp [getOpenFileEntry, Fs.validFileHandle, hlt, hfree]
  · right
    constructor
    · intro fh e heq hopen
      apply hvalid
      simp [Fs.validFileHandle, heq, hopen.lt]
    · simp [getOpenFileEntry, hvalid]

theorem getOpenFileEntry_notOpen (h : Inv made fs) {fhandle : Int}
    (hnot : NotOpen fs fhandle) : getOpenFileEntry fhandle fs = .ok none := by
  rcases h.handle_cases fhandle with ⟨fh, e, heq, hopen⟩ | ⟨_, hnull⟩
  · exact absurd hopen (hnot fh e heq)
  · exact hnull

end Inv

/-!
## Open
-/

theorem TruncateStep.sound {k : Nat} {inode inode' : Inode} {mode : Nat}
    (hlen : fs.freeBlocks.length = fs.dataBlocks) (hk : fs.inodeTable[k]? = some inode)
    (h : TruncateStep fs k inode mode inode' fs') :
    (if hasFlag mode tfsOTrunc then tfsTruncate (k : Int) fs else pure fs) = .ok fs' ∧
      fs'.inodeTable[k]? = some inode' := by
  cases h with
  | keep hkeep =>
      refine ⟨?_, hk⟩
      by_cases hflag : hasFlag mode tfsOTrunc = true
      · have hzero : inode.iSize = 0 := by
          rcases hkeep with hno | hzero
          · rw [hno] at hflag
            cases hflag
          · exact hzero
        simp [tfsTruncate, inodeAt_nat hk, hzero]
      · simp [hflag]
  | cut hflag hpos hb hlt =>
      rename_i b
      constructor
      · have hk' : ({ fs with freeBlocks := fs.freeBlocks.set b .free } : Fs).inodeTable[k]? =
            some inode := hk
        rw [if_pos hflag]
        simp [tfsTruncate, inodeAt_nat hk, hpos, hb, dataBlockFree_nat hlt hlen,
          modifyInode_nat _ hk', Fs.cutInode]
      · simp [Fs.cutInode, getElem?_lt hk]

theorem truncateStep_exists {k : Nat} {inode : Inode} (h : Inv made fs) (mode : Nat)
    (hfile : FileInode fs inode) :
    exists inode' fs', TruncateStep fs k inode mode inode' fs' := by
  by_cases hflag : hasFlag mode tfsOTrunc = true
  · by_cases hpos : 0 < inode.iSize
    · rcases h.usable_of_size hfile hpos with ⟨b, hb, husable⟩
      exact ⟨_, _, TruncateStep.cut hflag hpos hb husable.lt⟩
    · exact ⟨_, _, TruncateStep.keep (Or.inr (by omega))⟩
  · exact ⟨_, _, TruncateStep.keep (Or.inl (by simpa using hflag))⟩

theorem inodeCreate_file {k : Nat} (h : Layout fs)
    (hfirst : FirstAt fs.freeinodeTs fs.inodeTableSize .free k) (hint : k < intLimit)
    (hlt : k < fs.inodeTable.length) :
    inodeCreate .file fs = .ok ((k : Int), fs.takeInode k) := by
  have hk : ({ fs with freeinodeTs := fs.freeinodeTs.set k .taken } : Fs).inodeTable[k]? =
      some fs.inodeTable[k] := List.getElem?_eq_getElem hlt
  have hne : (k : Int) ≠ -1 := by omega
  have hk' : ({ fs with
      freeinodeTs := fs.freeinodeTs.set k .taken
      inodeTable := fs.inodeTable.set k
        { fs.inodeTable[k] with iNodeType := .file } } : Fs).inodeTable[k]? =
      some { fs.inodeTable[k] with iNodeType := .file } := by
    simp [hlt]
  simp [inodeCreate, inodeAlloc, allocFirst_firstAt h.blockPos hfirst, intOfSize_eq hint, hne,
    modifyInode_nat _ hk, modifyInode_nat _ hk', Fs.takeInode, Fs.emptyFile]

theorem inodeCreate_nowhere (h : Layout fs) (iType : InodeType)
    (hnone : NowhereAt fs.freeinodeTs fs.inodeTableSize .free) :
    inodeCreate iType fs = .ok (-1, fs) := by
  simp [inodeCreate, inodeAlloc, allocFirst_nowhereAt h.blockPos hnone]

theorem inodeDelete_nat {k : Nat} {inode : Inode} (h : k < fs.inodeTableSize)
    (hlen : fs.freeBlocks.length = fs.dataBlocks) (htaken : InodeTaken fs k)
    (hk : fs.inodeTable[k]? = some inode)
    (hblock : 0 < inode.iSize -> exists b : Nat, inode.iDataBlock = b ∧ b < fs.dataBlocks) :
    inodeDelete (k : Int) fs = .ok (fs.dropInode k inode) := by
  have htaken' : fs.freeinodeTs[k]? = some .taken := htaken
  have hstore := storeCell_nat AllocationState.free (getElem?_lt htaken')
  by_cases hpos : 0 < inode.iSize
  · rcases hblock hpos with ⟨b, hb, hlt⟩
    simp [inodeDelete, Fs.validInumber, h, htaken', inodeAt_nat hk, hpos, hb,
      dataBlockFree_nat hlt hlen, hstore, Fs.dropInode]
  · simp [inodeDelete, Fs.validInumber, h, htaken', inodeAt_nat hk, hpos, hstore,
      Fs.dropInode]

section Open

variable {name : Option CStr} {mode : Nat}

theorem tfsLookup_eq (hvalid : validPathname name = true) (root : Int) :
    tfsLookup name root fs = findInDir root (skipSlash name) fs := by
  simp [tfsLookup, hvalid]

/-- The state in which {lit}`tfs_open` enters a new inode in the directory. -/
theorem newInode_ready (h : Layout fs) {k : Nat} (hk : k ≠ 0) :
    (fs.takeInode k).inodeAt rootDirInum = .ok ⟨.directory, fs.blockSize, 0⟩ := by
  have hroot : (fs.inodeTable.set k Fs.emptyFile)[0]? =
      some ⟨.directory, fs.blockSize, 0⟩ := by
    rw [List.getElem?_set_ne hk]
    exact h.rootInode
  exact inodeAt_nat hroot

theorem firstFree_ne_zero (h : Layout fs) {k : Nat}
    (hfirst : FirstAt fs.freeinodeTs fs.inodeTableSize .free k) : k ≠ 0 := by
  intro hk
  have hfree := hfirst.right.left
  have hroot : fs.freeinodeTs[0]? = some .taken := h.rootTaken
  rw [hk, hroot] at hfree
  cases hfree

/-- An inode number that is no `int`, or outside the table, ends the run. -/
theorem inodeCreate_error (h : Inv made fs) {k : Nat}
    (hfirst : FirstAt fs.freeinodeTs fs.inodeTableSize .free k)
    (hbad : ¬ (k < intLimit ∧ k < fs.inodeTable.length)) :
    inodeCreate .file fs = .error .outOfBounds := by
  have hsize := h.layout.blockPos
  rcases h.firstFree_inode hfirst with hint | hlimit
  · have hnone : loadCell fs.inodeTable (k : Int) = none := by
      rw [loadCell_nat]
      apply List.getElem?_eq_none
      omega
    have hne : (k : Int) ≠ -1 := by omega
    simp [inodeCreate, inodeAlloc, allocFirst_firstAt hsize hfirst, intOfSize_eq hint, hne,
      Fs.modifyInode, Fs.inodeAt, hnone]
  · have hneg : loadCell fs.inodeTable (-2147483648) = none := loadCell_neg (by decide)
    simp [inodeCreate, inodeAlloc, allocFirst_firstAt hsize hfirst, hlimit,
      intOfSize_intLimit, Fs.modifyInode, Fs.inodeAt, hneg]

/-- An open of a listed name ends with the search for a handle. -/
theorem tfsOpen_existing (h : Inv made fs) {i k : Nat} {inode inode' : Inode}
    (hvalid : validPathname name = true) (hlisted : Listed fs i (skipSlash name) k)
    (hk : fs.inodeTable[k]? = some inode) (htrunc : TruncateStep fs k inode mode inode' fs') :
    tfsOpen name mode fs =
      addToOpenFileTable k (if hasFlag mode tfsOAppend then inode'.iSize else 0) fs' := by
  rcases h.directory with ⟨used, hdir⟩
  rcases h.inode_of_listed hlisted with ⟨_, _, hlt, _⟩
  rcases htrunc.sound h.layout.blockCells hk with ⟨hcut, hk'⟩
  rw [tfsOpen, hvalid, h.layout.inodeGet_root]
  simp only [Bool.not_true, Bool.false_eq_true, if_false, ok_bind, tfsLookup_eq hvalid,
    findInDir_listed h.layout hdir hlisted, Int.natCast_nonneg, if_true, inodeGet_nat hlt,
    hcut, inodeAt_nat hk']

/-- An open that creates a file ends with the search for a handle. -/
theorem tfsOpen_created (h : Inv made fs) {j k : Nat} (hvalid : validPathname name = true)
    (habsent : Absent fs (skipSlash name)) (hflag : hasFlag mode tfsOCreat = true)
    (hfirst : FirstAt fs.freeinodeTs fs.inodeTableSize .free k) (hint : k < intLimit)
    (hlt : k < fs.inodeTable.length) (hfits : FitsEntry (skipSlash name))
    (hfree : FreeSlot fs.fsData fs.maxDirEntries j) :
    tfsOpen name mode fs = addToOpenFileTable k 0 (fs.createFile j (skipSlash name) k) := by
  have hlayout := h.layout
  rcases h.directory with ⟨used, hdir⟩
  have hkne := firstFree_ne_zero hlayout hfirst
  have hne : (k : Int) ≠ -1 := by omega
  have hadd : addDirEntry rootDirInum (skipSlash name) k (fs.takeInode k) =
      .ok (0, fs.createFile j (skipSlash name) k) :=
    addDirEntry_free (newInode_ready hlayout hkne) hlayout.dataBlockGet_root hdir.shape
      hfits hfree
  rw [tfsOpen, hvalid, hlayout.inodeGet_root]
  simp only [Bool.not_true, Bool.false_eq_true, if_false, ok_bind, tfsLookup_eq hvalid,
    findInDir_absent hlayout hdir habsent, hflag, if_true, inodeCreate_file hlayout hfirst
    hint hlt, hne, hadd]
  rfl

theorem OpenStep.sound (h : Inv made fs) (hstep : OpenStep fs name mode r fs') :
    tfsOpen name mode fs = .ok (r, fs') := by
  have hlayout := h.layout
  rcases h.directory with ⟨used, hdir⟩
  cases hstep with
  | badPath hbad => simp [tfsOpen, hbad]
  | existing hvalid hlisted hk htrunc hhandle =>
      exact (tfsOpen_existing h hvalid hlisted hk htrunc).trans hhandle.sound
  | absent hvalid habsent hflag =>
      simp [tfsOpen, hvalid, hlayout.inodeGet_root, tfsLookup_eq hvalid,
        findInDir_absent hlayout hdir habsent, hflag]
  | noInode hvalid habsent hflag hnone =>
      simp [tfsOpen, hvalid, hlayout.inodeGet_root, tfsLookup_eq hvalid,
        findInDir_absent hlayout hdir habsent, hflag, inodeCreate_nowhere hlayout .file hnone]
  | notEntered hvalid habsent hflag hfirst hint hlt hwhy =>
      rename_i k
      have hkne := firstFree_ne_zero hlayout hfirst
      have hklen := getElem?_lt hfirst.right.left
      have hne : (k : Int) ≠ -1 := by omega
      have hadd : addDirEntry rootDirInum (skipSlash name) k (fs.takeInode k) =
          .ok (-1, fs.takeInode k) := by
        by_cases hfits : FitsEntry (skipSlash name)
        · rcases hwhy with hunfit | hfull
          · exact absurd hfits hunfit
          · exact addDirEntry_full (newInode_ready hlayout hkne) hlayout.dataBlockGet_root
              hdir.shape hfits hfull
        · exact addDirEntry_unfit hfits rootDirInum k
      have hnew : (fs.takeInode k).inodeTable[k]? = some Fs.emptyFile := by
        simp [Fs.takeInode, hlt]
      have hnewTaken : InodeTaken (fs.takeInode k) k := by
        simp [InodeTaken, Fs.takeInode, hklen]
      have hdelete : inodeDelete k (fs.takeInode k) =
          .ok ((fs.takeInode k).dropInode k Fs.emptyFile) :=
        inodeDelete_nat hfirst.left hlayout.blockCells hnewTaken hnew
          (fun hpos => absurd hpos (by decide))
      have hrestore : (fs.freeinodeTs.set k .taken).set k .free = fs.freeinodeTs := by
        rw [List.set_set]
        exact set_eq_self hfirst.right.left
      rw [tfsOpen, hvalid, hlayout.inodeGet_root]
      simp only [Bool.not_true, Bool.false_eq_true, if_false, ok_bind, tfsLookup_eq hvalid,
        findInDir_absent hlayout hdir habsent, hflag, if_true, inodeCreate_file hlayout hfirst
        hint hlt, hne, hadd, hdelete]
      simp [Fs.dropInode, Fs.takeInode, Fs.resetInode, Fs.emptyFile, hrestore]
  | created hvalid habsent hflag hfirst hint hlt hfits hfree hhandle =>
      exact (tfsOpen_created h hvalid habsent hflag hfirst hint hlt hfits hfree).trans
        hhandle.sound

theorem tfsOpen_cases (h : Inv made fs) (name : Option CStr) (mode : Nat) :
    (exists r fs', OpenStep fs name mode r fs') ∨
      tfsOpen name mode fs = .error .outOfBounds := by
  have hlayout := h.layout
  rcases h.directory with ⟨used, hdir⟩
  cases hvalid : validPathname name with
  | false => exact Or.inl ⟨_, _, OpenStep.badPath hvalid⟩
  | true =>
      rcases listed_or_absent fs (skipSlash name) with ⟨i, k, hlisted⟩ | habsent
      · rcases h.inode_of_listed hlisted with ⟨_, _, hlt, inode, hk, hfile⟩
        rcases truncateStep_exists (k := k) h mode hfile with ⟨inode', fs1, htrunc⟩
        have hlen1 : fs1.freeOpenFileEntries.length = fs1.maxOpenFiles := by
          cases htrunc <;> exact hlayout.handleCells
        rcases addToOpenFileTable_cases hlen1 k
            (if hasFlag mode tfsOAppend then inode'.iSize else 0) with
          ⟨r, fs', hhandle⟩ | herror
        · exact Or.inl ⟨r, fs', OpenStep.existing hvalid hlisted hk htrunc hhandle⟩
        · exact Or.inr ((tfsOpen_existing h hvalid hlisted hk htrunc).trans herror)
      · cases hflag : hasFlag mode tfsOCreat with
        | false => exact Or.inl ⟨_, _, OpenStep.absent hvalid habsent hflag⟩
        | true =>
            have hcells : fs.inodeTableSize <= fs.freeinodeTs.length := by
              rw [hlayout.inodeCells]
            rcases firstAt_or_nowhereAt fs.freeinodeTs .free hcells with ⟨k, hfirst⟩ | hnone
            · by_cases hgood : k < intLimit ∧ k < fs.inodeTable.length
              · rcases hgood with ⟨hint, hlt⟩
                by_cases hfits : FitsEntry (skipSlash name)
                · rcases freeSlot_or_fullDir fs.fsData fs.maxDirEntries with
                    ⟨j, hfree⟩ | hfull
                  · have hlen1 : (fs.createFile j (skipSlash name) k).freeOpenFileEntries.length =
                        (fs.createFile j (skipSlash name) k).maxOpenFiles := hlayout.handleCells
                    rcases addToOpenFileTable_cases hlen1 k 0 with ⟨r, fs', hhandle⟩ | herror
                    · exact Or.inl ⟨r, fs', OpenStep.created hvalid habsent hflag hfirst hint hlt
                        hfits hfree hhandle⟩
                    · exact Or.inr ((tfsOpen_created h hvalid habsent hflag hfirst hint hlt hfits
                        hfree).trans herror)
                  · exact Or.inl ⟨_, _, OpenStep.notEntered hvalid habsent hflag hfirst hint hlt
                      (Or.inr hfull)⟩
                · exact Or.inl ⟨_, _, OpenStep.notEntered hvalid habsent hflag hfirst hint hlt
                    (Or.inl hfits)⟩
              · right
                simp [tfsOpen, hvalid, hlayout.inodeGet_root, tfsLookup_eq hvalid,
                  findInDir_absent hlayout hdir habsent, hflag, inodeCreate_error h hfirst hgood]
            · exact Or.inl ⟨_, _, OpenStep.noInode hvalid habsent hflag hnone⟩

end Open

/-!
## Close and unlink
-/

theorem CloseStep.sound (h : Inv made fs) {fhandle : Int}
    (hstep : CloseStep fs fhandle r fs') : tfsClose fhandle fs = .ok (r, fs') := by
  cases hstep with
  | notOpen hnot => simp [tfsClose, h.getOpenFileEntry_notOpen hnot]
  | closed heq hopen =>
      have hstore := storeCell_nat AllocationState.free (getElem?_lt hopen.taken)
      simp [tfsClose, heq, h.getOpenFileEntry_open hopen, removeFromOpenFileTable,
        Fs.validFileHandle, hopen.lt, hopen.taken, hstore, Fs.dropHandle]

theorem closeStep_exists (h : Inv made fs) (fhandle : Int) :
    exists r fs', CloseStep fs fhandle r fs' := by
  rcases h.handle_cases fhandle with ⟨fh, e, heq, hopen⟩ | ⟨hnot, _⟩
  · exact ⟨_, _, CloseStep.closed heq hopen⟩
  · exact ⟨_, _, CloseStep.notOpen hnot⟩

theorem UnlinkStep.sound (h : Inv made fs) {target : Option CStr}
    (hstep : UnlinkStep fs target r fs') : tfsUnlink target fs = .ok (r, fs') := by
  have hlayout := h.layout
  rcases h.directory with ⟨used, hdir⟩
  cases hstep with
  | badPath hbad => simp [tfsUnlink, hbad]
  | absent hvalid habsent =>
      simp [tfsUnlink, hvalid, hlayout.inodeGet_root, tfsLookup_eq hvalid,
        findInDir_absent hlayout hdir habsent]
  | removed hvalid hlisted hk =>
      rename_i i k inode
      rcases h.inode_of_listed hlisted with ⟨hkne, htaken, hlt, inode', hk', hfile⟩
      rw [Inv.inode_unique hk' hk] at hfile
      have hne : (k : Int) ≠ -1 := by omega
      have hdelete := inodeDelete_nat hlt hlayout.blockCells htaken hk (fun hpos => by
        rcases h.usable_of_size hfile hpos with ⟨b, hb, husable⟩
        exact ⟨b, hb, husable.lt⟩)
      have hclear : clearDirEntry rootDirInum (skipSlash target) (fs.dropInode k inode) =
          .ok (0, fs.removeFile i k inode) :=
        clearDirEntry_listed hlayout.inodeAt_root hlayout.dataBlockGet_root hdir.shape
          (fun hl hl' => hdir.nameInj ⟨hl.lt, hl.entry⟩ ⟨hl'.lt, hl'.entry⟩)
          ⟨hlisted.lt, hlisted.entry⟩
      rw [tfsUnlink, hvalid, hlayout.inodeGet_root]
      simp only [Bool.not_true, Bool.false_eq_true, if_false, ok_bind, tfsLookup_eq hvalid,
        findInDir_listed hlayout hdir hlisted, hne, hdelete, hclear]
      rfl

theorem unlinkStep_exists (h : Inv made fs) (target : Option CStr) :
    exists r fs', UnlinkStep fs target r fs' := by
  cases hvalid : validPathname target with
  | false => exact ⟨_, _, UnlinkStep.badPath hvalid⟩
  | true =>
      rcases listed_or_absent fs (skipSlash target) with ⟨i, k, hlisted⟩ | habsent
      · rcases h.inode_of_listed hlisted with ⟨_, _, _, inode, hk, _⟩
        exact ⟨_, _, UnlinkStep.removed hvalid hlisted hk⟩
      · exact ⟨_, _, UnlinkStep.absent hvalid habsent⟩

/-!
## Write
-/

/-- The first free block starts below the end of the address space: the blocks
before it are taken, so they start inside the data area. -/
theorem Inv.firstFree_mul (h : Inv made fs) {b : Nat}
    (hfirst : FirstAt fs.freeBlocks fs.dataBlocks .free b) :
    b ≠ 0 ∧ sizeMul b fs.blockSize = b * fs.blockSize := by
  have hne : b ≠ 0 := by
    intro hb
    have hfree := hfirst.right.left
    have hroot : fs.freeBlocks[0]? = some .taken := h.layout.rootBlock
    rw [hb, hroot] at hfree
    cases hfree
  refine ⟨hne, Nat.mod_eq_of_lt ?_⟩
  obtain ⟨c, rfl⟩ : exists c, b = c + 1 := ⟨b - 1, by omega⟩
  have hsize := h.blockSize_lt
  rcases Nat.eq_zero_or_pos c with hzero | hpos
  · rw [hzero]
    simpa using hsize
  · rcases hfirst.right.right c (Nat.lt_succ_self c) with ⟨x, hx, hfree⟩
    have htaken : BlockTaken fs c := by
      cases x with
      | free => exact absurd rfl hfree
      | taken => exact hx
    have hstart := h.storage.blockStart htaken (Nat.ne_of_gt hpos)
    have hle : fs.blockSize <= c * fs.blockSize := Nat.le_mul_of_pos_left _ hpos
    have hsmall := h.layout.dataSmall
    rw [Nat.succ_mul]
    simp only [ptrdiffMax, sizeMod] at *
    omega

section Write

variable {h k b n : Nat} {e : OpenFileEntry} {inode : Inode} {buffer : List UInt8}

theorem tfsWriteBlock_fits (hentry : fs.openFileTable[h]? = some e)
    (hk : fs.inodeTable[k]? = some inode) (hb : inode.iDataBlock = b) (hlt : b < fs.dataBlocks)
    (hmul : sizeMul b fs.blockSize = b * fs.blockSize) (hsmall : fs.fsData.size <= ptrdiffMax)
    (hn : n <= buffer.length)
    (hfits : b * fs.blockSize + e.ofOffset + n <= fs.fsData.size) :
    tfsWriteBlock (h : Int) (k : Int) buffer n fs =
      .ok ((n : Int), fs.putBytes h e k inode b (buffer.take n)) := by
  have hlen : (buffer.take n).length = n := by simp [hn]
  have hadd : sizeAdd e.ofOffset n = e.ofOffset + n := by
    apply sizeAdd_eq
    simp only [ptrdiffMax, sizeMod] at *
    omega
  have hstore := Region.store_eq (m := fs.fsData) (hlen.symm ▸ hfits)
  have hset := storeCell_nat ({ e with ofOffset := e.ofOffset + n } : OpenFileEntry)
    (getElem?_lt hentry)
  by_cases hgrow : inode.iSize < e.ofOffset + n
  · have hmax : max inode.iSize (e.ofOffset + n) = e.ofOffset + n := by omega
    have hk' : ({ fs with
        fsData := fs.fsData.overlay (b * fs.blockSize + e.ofOffset) (buffer.take n)
        openFileTable := fs.openFileTable.set h { e with ofOffset := e.ofOffset + n } } :
          Fs).inodeTable[k]? = some inode := hk
    simp [tfsWriteBlock, hentry, inodeAt_nat hk, hb, dataBlockGet_nat hlt, hmul, hn, hstore,
      hadd, hset, hgrow, modifyInode_nat _ hk', Fs.putBytes, hmax]
  · have hmax : max inode.iSize (e.ofOffset + n) = inode.iSize := by omega
    have hsame : ({ inode with iDataBlock := b } : Inode) = inode := by
      rw [← hb]
    simp [tfsWriteBlock, hentry, inodeAt_nat hk, hb, dataBlockGet_nat hlt, hmul, hn, hstore,
      hadd, hset, hgrow, Fs.putBytes, hmax, hsame, set_eq_self hk]

theorem tfsWriteBlock_unfit (hentry : fs.openFileTable[h]? = some e)
    (hk : fs.inodeTable[k]? = some inode) (hb : inode.iDataBlock = b) (hlt : b < fs.dataBlocks)
    (hmul : sizeMul b fs.blockSize = b * fs.blockSize)
    (hunfit : ¬ (n <= buffer.length ∧
      b * fs.blockSize + e.ofOffset + n <= fs.fsData.size)) :
    tfsWriteBlock (h : Int) (k : Int) buffer n fs = .error .outOfBounds := by
  by_cases hn : n <= buffer.length
  · have hover : ¬ b * fs.blockSize + e.ofOffset + n <= fs.fsData.size := by
      intro hle
      exact hunfit ⟨hn, hle⟩
    have hstore : fs.fsData.store (b * fs.blockSize + e.ofOffset) (buffer.take n) = none := by
      have hlen : (buffer.take n).length = n := by simp [hn]
      rw [Region.store, if_neg]
      rw [hlen]
      exact hover
    simp [tfsWriteBlock, hentry, inodeAt_nat hk, hb, dataBlockGet_nat hlt, hmul, hn, hstore]
  · simp [tfsWriteBlock, hentry, inodeAt_nat hk, hb, dataBlockGet_nat hlt, hn]

theorem giveBlock_inode {bnum : Int} (hlt : k < fs.inodeTable.length) :
    (fs.giveBlock k inode b bnum).inodeTable[k]? =
      some { inode with iDataBlock := bnum } := by
  simp [Fs.giveBlock, hlt]

/-- A write to an inode without bytes first gives it a new block. -/
theorem tfsWrite_fresh {bnum : Int} (hinv : Inv made fs) (hopen : OpenAt fs h e)
    (hn : clippedWrite fs.blockSize e.ofOffset toWrite = n) (hne : n ≠ 0)
    (hk : e.ofInumber = k) (hinode : fs.inodeTable[k]? = some inode) (hzero : inode.iSize = 0)
    (hfirst : FirstAt fs.freeBlocks fs.dataBlocks .free b) (hnum : intOfSize b = bnum)
    (hb : bnum ≠ -1) :
    tfsWrite (h : Int) buffer toWrite fs =
      tfsWriteBlock (h : Int) (k : Int) buffer n (fs.giveBlock k inode b bnum) := by
  rcases hinv.inode_of_open hopen hk with ⟨_, hlt, _⟩
  have halloc := allocFirst_firstAt hinv.layout.blockPos hfirst
  rw [hnum] at halloc
  have hk' : (fs.takeBlock b).inodeTable[k]? = some inode := hinode
  have hmodify := modifyInode_nat (fun inode => { inode with iDataBlock := bnum }) hk'
  rw [Fs.takeBlock] at hmodify
  simp [tfsWrite, hinv.getOpenFileEntry_open hopen, hopen.entry, hk, inodeGet_nat hlt, hn, hne,
    inodeAt_nat hinode, hzero, dataBlockAlloc, halloc, hb, hmodify, Fs.giveBlock, Fs.takeBlock]

/-- A block number that is not an `int` is negative when it is read back. -/
theorem tfsWrite_overflow {bnum : Int} (hinv : Inv made fs) (hopen : OpenAt fs h e)
    (hne : clippedWrite fs.blockSize e.ofOffset toWrite ≠ 0)
    (hk : e.ofInumber = k) (hinode : fs.inodeTable[k]? = some inode) (hzero : inode.iSize = 0)
    (hfirst : FirstAt fs.freeBlocks fs.dataBlocks .free b) (hnum : intOfSize b = bnum)
    (hneg : bnum < -1) :
    tfsWrite (h : Int) buffer toWrite fs =
      .error (.panic "data_block_get: invalid block number") := by
  have hb : bnum ≠ -1 := by omega
  have hneg' : bnum < 0 := by omega
  have hentry : (fs.giveBlock k inode b bnum).openFileTable[h]? = some e := hopen.entry
  rw [tfsWrite_fresh hinv hopen rfl hne hk hinode hzero hfirst hnum hb]
  simp [tfsWriteBlock, hentry, inodeAt_nat (giveBlock_inode (getElem?_lt hinode)),
    dataBlockGet_neg hneg']

theorem tfsWrite_inPlace (hinv : Inv made fs) (hopen : OpenAt fs h e)
    (hn : clippedWrite fs.blockSize e.ofOffset toWrite = n) (hne : n ≠ 0)
    (hk : e.ofInumber = k) (hinode : fs.inodeTable[k]? = some inode) (hpos : 0 < inode.iSize) :
    tfsWrite (h : Int) buffer toWrite fs =
      tfsWriteBlock (h : Int) (k : Int) buffer n fs := by
  rcases hinv.inode_of_open hopen hk with ⟨_, hlt, _⟩
  have hzero : ¬ inode.iSize = 0 := by omega
  simp [tfsWrite, hinv.getOpenFileEntry_open hopen, hopen.entry, hk, inodeGet_nat hlt, hn, hne,
    inodeAt_nat hinode, hzero]

theorem WriteStep.sound (hinv : Inv made fs) {fhandle : Int} {toWrite : Nat}
    (hstep : WriteStep fs fhandle buffer toWrite r fs') :
    tfsWrite fhandle buffer toWrite fs = .ok (r, fs') := by
  cases hstep with
  | notOpen hnot => simp [tfsWrite, hinv.getOpenFileEntry_notOpen hnot]
  | nothing heq hopen hn =>
      rename_i h e
      rcases hinv.handles.openMade hopen with ⟨k, hk, _⟩
      rcases hinv.inode_of_open hopen hk with ⟨_, hlt, _⟩
      simp [tfsWrite, heq, hinv.getOpenFileEntry_open hopen, hopen.entry, hk, inodeGet_nat hlt,
        hn]
  | noSpace heq hopen hn hk hinode hzero hnone =>
      rename_i h k e inode
      rcases hinv.inode_of_open hopen hk with ⟨_, hlt, _⟩
      simp [tfsWrite, heq, hinv.getOpenFileEntry_open hopen, hopen.entry, hk, inodeGet_nat hlt,
        hn, inodeAt_nat hinode, hzero, dataBlockAlloc,
        allocFirst_nowhereAt hinv.layout.blockPos hnone]
  | fresh heq hopen hn hne hk hinode hzero hfirst hint hbuf hfits =>
      rename_i h k b n e inode
      have hlt := getElem?_lt hinode
      have hentry : (fs.giveBlock k inode b b).openFileTable[h]? = some e := hopen.entry
      have hblock : b < (fs.giveBlock k inode b b).dataBlocks := hfirst.left
      have hmul : sizeMul b (fs.giveBlock k inode b b).blockSize =
          b * (fs.giveBlock k inode b b).blockSize := (hinv.firstFree_mul hfirst).right
      have hsmall : (fs.giveBlock k inode b b).fsData.size <= ptrdiffMax := hinv.layout.dataSmall
      have hfits' : b * (fs.giveBlock k inode b b).blockSize + e.ofOffset + n <=
          (fs.giveBlock k inode b b).fsData.size := hfits
      have hnum : (b : Int) ≠ -1 := by omega
      rw [heq, tfsWrite_fresh hinv hopen hn hne hk hinode hzero hfirst (intOfSize_eq hint) hnum,
        tfsWriteBlock_fits hentry (giveBlock_inode hlt) rfl hblock hmul hsmall hbuf hfits']
      simp [Fs.putBytes, Fs.giveBlock, Fs.takeBlock, Fs.blockSize]
  | inPlace heq hopen hn hne hk hinode hpos hb hbuf hfits =>
      rename_i h k b n e inode
      have hfile := hinv.fileInode_of_open hopen hk hinode
      have husable := hinv.block_of_size hfile hpos hb
      rw [heq, tfsWrite_inPlace hinv hopen hn hne hk hinode hpos,
        tfsWriteBlock_fits hopen.entry hinode hb husable.lt (hinv.sizeMul_block husable.start)
          hinv.layout.dataSmall hbuf hfits]

theorem tfsWrite_cases (hinv : Inv made fs) (fhandle : Int) (buffer : List UInt8)
    (toWrite : Nat) :
    (exists r fs', WriteStep fs fhandle buffer toWrite r fs') ∨
      Panics fs (.write fhandle buffer toWrite) ∨
        tfsWrite fhandle buffer toWrite fs = .error .outOfBounds := by
  rcases hinv.handle_cases fhandle with ⟨h, e, heq, hopen⟩ | ⟨hnot, _⟩
  · rcases hinv.handles.openMade hopen with ⟨k, hk, _⟩
    rcases hinv.inode_of_open hopen hk with ⟨_, _, inode, hinode, hfile⟩
    by_cases hn : clippedWrite fs.blockSize e.ofOffset toWrite = 0
    · exact Or.inl ⟨_, _, WriteStep.nothing heq hopen hn⟩
    · by_cases hzero : inode.iSize = 0
      · rcases firstAt_or_nowhereAt fs.freeBlocks .free
            (Nat.le_of_eq hinv.layout.blockCells.symm) with ⟨b, hfirst⟩ | hnone
        · have hlt := getElem?_lt hinode
          rcases hinv.firstFree_block hfirst with hint | hlimit
          · by_cases hfit : clippedWrite fs.blockSize e.ofOffset toWrite <= buffer.length ∧
                b * fs.blockSize + e.ofOffset + clippedWrite fs.blockSize e.ofOffset toWrite <=
                  fs.fsData.size
            · exact Or.inl ⟨_, _, WriteStep.fresh heq hopen rfl hn hk hinode hzero hfirst hint
                hfit.left hfit.right⟩
            · have hentry : (fs.giveBlock k inode b b).openFileTable[h]? = some e := hopen.entry
              have hblock : b < (fs.giveBlock k inode b b).dataBlocks := hfirst.left
              have hmul : sizeMul b (fs.giveBlock k inode b b).blockSize =
                  b * (fs.giveBlock k inode b b).blockSize := (hinv.firstFree_mul hfirst).right
              have hnum : (b : Int) ≠ -1 := by omega
              right
              right
              rw [heq, tfsWrite_fresh hinv hopen rfl hn hk hinode hzero hfirst
                (intOfSize_eq hint) hnum, tfsWriteBlock_unfit hentry (giveBlock_inode hlt) rfl
                hblock hmul hfit]
          · rw [hlimit] at hfirst
            exact Or.inr (Or.inl (Panics.write heq hopen hn hk hinode hzero hfirst))
        · exact Or.inl ⟨_, _, WriteStep.noSpace heq hopen hn hk hinode hzero hnone⟩
      · have hpos : 0 < inode.iSize := by omega
        rcases hinv.usable_of_size hfile hpos with ⟨b, hb, husable⟩
        by_cases hfit : clippedWrite fs.blockSize e.ofOffset toWrite <= buffer.length ∧
            b * fs.blockSize + e.ofOffset + clippedWrite fs.blockSize e.ofOffset toWrite <=
              fs.fsData.size
        · exact Or.inl ⟨_, _, WriteStep.inPlace heq hopen rfl hn hk hinode hpos hb hfit.left
            hfit.right⟩
        · right
          right
          rw [heq, tfsWrite_inPlace hinv hopen rfl hn hk hinode hpos,
            tfsWriteBlock_unfit hopen.entry hinode hb husable.lt
              (hinv.sizeMul_block husable.start) hfit]
  · exact Or.inl ⟨_, _, WriteStep.notOpen hnot⟩

end Write

/-!
## Read
-/

section Read

variable {h k b n len : Nat} {e : OpenFileEntry} {inode : Inode} {data : List UInt8}

/-- A read that copies bytes reads them from the inode's block. -/
theorem tfsRead_copy (hinv : Inv made fs) (hopen : OpenAt fs h e) (hk : e.ofInumber = k)
    (hinode : fs.inodeTable[k]? = some inode) (hn : clippedRead inode.iSize e.ofOffset len = n)
    (hne : n ≠ 0) (hb : inode.iDataBlock = b) (husable : UsableBlock fs b) :
    tfsRead (h : Int) len fs =
      (inside (fs.fsData.load (b * fs.blockSize + e.ofOffset) n) >>= fun bytes =>
        .ok ((n : Int), bytes, fs.setEntry h { e with ofOffset := sizeAdd e.ofOffset n })) := by
  rcases hinv.inode_of_open hopen hk with ⟨_, hlt, _⟩
  have hset := storeCell_nat ({ e with ofOffset := sizeAdd e.ofOffset n } : OpenFileEntry)
    (getElem?_lt hopen.entry)
  rw [tfsRead]
  simp only [hinv.getOpenFileEntry_open hopen, ok_bind, loadCell_nat, hopen.entry, inside_some,
    hk, inodeGet_nat hlt, inodeAt_nat hinode, hn, hne, if_false, hb,
    dataBlockGet_nat husable.lt, hinv.sizeMul_block husable.start]
  cases fs.fsData.load (b * fs.blockSize + e.ofOffset) n with
  | none => rfl
  | some bytes =>
      rw [hk] at hset
      simp only [hset, inside_some, ok_bind]
      rfl

/-- Reading an inode that has no block ends the process. -/
theorem tfsRead_noBlock (hinv : Inv made fs) (hopen : OpenAt fs h e) (hk : e.ofInumber = k)
    (hinode : fs.inodeTable[k]? = some inode)
    (hne : clippedRead inode.iSize e.ofOffset len ≠ 0) (hb : inode.iDataBlock = -1) :
    tfsRead (h : Int) len fs = .error (.panic "data_block_get: invalid block number") := by
  rcases hinv.inode_of_open hopen hk with ⟨_, hlt, _⟩
  have hneg : dataBlockGet (-1) fs = .error (.panic "data_block_get: invalid block number") :=
    dataBlockGet_neg (by decide)
  simp [tfsRead, hinv.getOpenFileEntry_open hopen, hopen.entry, hk, inodeGet_nat hlt,
    inodeAt_nat hinode, hne, hb, hneg]

theorem ReadStep.sound (hinv : Inv made fs) {fhandle : Int}
    (hstep : ReadStep fs fhandle len r data fs') :
    tfsRead fhandle len fs = .ok (r, data, fs') := by
  cases hstep with
  | notOpen hnot => simp [tfsRead, hinv.getOpenFileEntry_notOpen hnot]
  | nothing heq hopen hk hinode hn =>
      rename_i h k e inode
      rcases hinv.inode_of_open hopen hk with ⟨_, hlt, _⟩
      simp [tfsRead, heq, hinv.getOpenFileEntry_open hopen, hopen.entry, hk, inodeGet_nat hlt,
        inodeAt_nat hinode, hn]
  | copied heq hopen hk hinode hn hne hb hfits =>
      rename_i h k b n e inode
      have hfile := hinv.fileInode_of_open hopen hk hinode
      have husable : UsableBlock fs b := by
        rcases hfile.block with ⟨hnone, _⟩ | ⟨b', hb', husable⟩
        · omega
        · have hbb : b' = b := by omega
          exact hbb ▸ husable
      have hadd : sizeAdd e.ofOffset n = e.ofOffset + n := by
        have hsmall := hinv.layout.dataSmall
        apply sizeAdd_eq
        simp only [ptrdiffMax, sizeMod] at *
        omega
      rw [heq, tfsRead_copy hinv hopen hk hinode hn hne hb husable, Region.load, if_pos hfits,
        hadd]
      rfl

theorem tfsRead_cases (hinv : Inv made fs) (fhandle : Int) (len : Nat) :
    (exists r data fs', ReadStep fs fhandle len r data fs') ∨ Panics fs (.read fhandle len) ∨
      tfsRead fhandle len fs = .error .outOfBounds := by
  rcases hinv.handle_cases fhandle with ⟨h, e, heq, hopen⟩ | ⟨hnot, _⟩
  · rcases hinv.handles.openMade hopen with ⟨k, hk, _⟩
    rcases hinv.inode_of_open hopen hk with ⟨_, _, inode, hinode, hfile⟩
    by_cases hn : clippedRead inode.iSize e.ofOffset len = 0
    · exact Or.inl ⟨_, _, _, ReadStep.nothing heq hopen hk hinode hn⟩
    · rcases hfile.block with ⟨hnone, _⟩ | ⟨b, hb, husable⟩
      · exact Or.inr (Or.inl (Panics.read heq hopen hk hinode hn hnone))
      · by_cases hfits : b * fs.blockSize + e.ofOffset +
            clippedRead inode.iSize e.ofOffset len <= fs.fsData.size
        · exact Or.inl ⟨_, _, _, ReadStep.copied heq hopen hk hinode rfl hn hb hfits⟩
        · right
          right
          rw [heq, tfsRead_copy hinv hopen hk hinode rfl hn hb husable, Region.load,
            if_neg hfits]
          rfl
  · exact Or.inl ⟨_, _, _, ReadStep.notOpen hnot⟩

end Read

/-!
## Calls
-/

theorem Step.sound (hinv : Inv made fs) {call : Call} {reply : Reply}
    (hstep : Step fs call reply fs') : exec call fs = .ok (reply, fs') := by
  cases hstep with
  | «open» hopen => simp [exec, hopen.sound hinv]
  | close hclose => simp [exec, hclose.sound hinv]
  | read hread => simp [exec, hread.sound hinv]
  | write hwrite => simp [exec, hwrite.sound hinv]
  | unlink hunlink => simp [exec, hunlink.sound hinv]

theorem Panics.sound (hinv : Inv made fs) {call : Call} (h : Panics fs call) :
    exec call fs = .error (.panic "data_block_get: invalid block number") := by
  cases h with
  | read heq hopen hk hinode hn hb =>
      simp [exec, heq, tfsRead_noBlock hinv hopen hk hinode hn hb]
  | write heq hopen hn hk hinode hzero hfirst =>
      rw [heq, exec, tfsWrite_overflow hinv hopen hn hk hinode hzero hfirst intOfSize_intLimit
        (by decide)]
      rfl

/-- A call takes a step, fails an assertion or leaves the tables. -/
theorem exec_cases (hinv : Inv made fs) (call : Call) :
    (exists reply fs', Step fs call reply fs') ∨ Panics fs call ∨
      exec call fs = .error .outOfBounds := by
  cases call with
  | «open» name mode =>
      rcases tfsOpen_cases hinv name mode with ⟨r, fs', hstep⟩ | herror
      · exact Or.inl ⟨_, _, Step.open hstep⟩
      · exact Or.inr (Or.inr (by simp [exec, herror]))
  | close fhandle =>
      rcases closeStep_exists hinv fhandle with ⟨r, fs', hstep⟩
      exact Or.inl ⟨_, _, Step.close hstep⟩
  | read fhandle len =>
      rcases tfsRead_cases hinv fhandle len with ⟨r, data, fs', hstep⟩ | hpanic | herror
      · exact Or.inl ⟨_, _, Step.read hstep⟩
      · exact Or.inr (Or.inl hpanic)
      · exact Or.inr (Or.inr (by simp [exec, herror]))
  | write fhandle buffer toWrite =>
      rcases tfsWrite_cases hinv fhandle buffer toWrite with ⟨r, fs', hstep⟩ | hpanic | herror
      · exact Or.inl ⟨_, _, Step.write hstep⟩
      · exact Or.inr (Or.inl hpanic)
      · exact Or.inr (Or.inr (by simp [exec, herror]))
  | unlink target =>
      rcases unlinkStep_exists hinv target with ⟨r, fs', hstep⟩
      exact Or.inl ⟨_, _, Step.unlink hstep⟩

/-- The step relation is exactly the successful calls. -/
theorem exec_iff (hinv : Inv made fs) {call : Call} {reply : Reply} :
    exec call fs = .ok (reply, fs') <-> Step fs call reply fs' := by
  constructor
  · intro hrun
    rcases exec_cases hinv call with ⟨reply1, fs1, hstep⟩ | hpanic | herror
    · rw [hstep.sound hinv] at hrun
      cases hrun
      exact hstep
    · rw [hpanic.sound hinv] at hrun
      cases hrun
    · rw [herror] at hrun
      cases hrun
  · exact Step.sound hinv

theorem tfsWrite_iff (hinv : Inv made fs) {fhandle : Int} {buffer : List UInt8}
    {toWrite : Nat} :
    tfsWrite fhandle buffer toWrite fs = .ok (r, fs') <->
      WriteStep fs fhandle buffer toWrite r fs' := by
  constructor
  · intro hrun
    have hexec : exec (.write fhandle buffer toWrite) fs = .ok (⟨r, []⟩, fs') := by
      simp [exec, hrun]
    cases (exec_iff hinv).mp hexec with
    | write hstep => exact hstep
  · exact WriteStep.sound hinv

/-- The failed assertions are exactly the calls above. -/
theorem exec_panic_iff (hinv : Inv made fs) {call : Call} :
    (exists msg, exec call fs = .error (.panic msg)) <-> Panics fs call := by
  constructor
  · rintro ⟨msg, hrun⟩
    rcases exec_cases hinv call with ⟨reply, fs1, hstep⟩ | hpanic | herror
    · rw [hstep.sound hinv] at hrun
      cases hrun
    · exact hpanic
    · rw [herror] at hrun
      cases hrun
  · intro hpanic
    exact ⟨_, hpanic.sound hinv⟩

end TecnicoFs
