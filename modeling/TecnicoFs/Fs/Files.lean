import TecnicoFs.Fs.Initial

/-!
# Files and their bytes

The contents of a file are the bytes of its inode.  Stores into one block, and
into the directory, leave the bytes of every inode that holds another block alone.
The last section says what each call does to the directory and to the handles.
-/

namespace TecnicoFs

open Library

variable {made : Nat -> Prop} {fs fs' : Fs}

def inodeBytes (fs : Fs) (inode : Inode) : List UInt8 :=
  fs.fsData.window (inode.iDataBlock.toNat * fs.blockSize) inode.iSize

/-- The contents of the file with the given name, if the directory has one. -/
def fileContent (fs : Fs) (name : CStr) : Option (List UInt8) :=
  match findInDir rootDirInum name fs with
  | .ok inum =>
      if inum < 0 then none
      else fs.inodeTable[inum.toNat]?.map (inodeBytes fs)
  | .error _ => none

@[simp] theorem inodeBytes_length (inode : Inode) :
    (inodeBytes fs inode).length = inode.iSize := by
  simp [inodeBytes]

theorem inodeBytes_getElem? (fs : Fs) {inode : Inode} {i b : Nat} (hi : i < inode.iSize)
    (hb : inode.iDataBlock = b) :
    (inodeBytes fs inode)[i]? = some (fs.fsData.cell (b * fs.blockSize + i)) := by
  have htoNat : inode.iDataBlock.toNat = b := by omega
  rw [inodeBytes, Region.window_getElem?, if_pos hi, htoNat]

theorem fileContent_listed (h : Inv made fs) {i k : Nat} {name : CStr} {inode : Inode}
    (hlisted : Listed fs i name k) (hk : fs.inodeTable[k]? = some inode) :
    fileContent fs name = some (inodeBytes fs inode) := by
  rcases h.directory with ⟨used, hdir⟩
  have hpos : ¬ ((k : Int) < 0) := by omega
  rw [fileContent, findInDir_listed h.layout hdir hlisted]
  simp [hpos, hk]

theorem fileContent_absent (h : Inv made fs) {name : CStr} (habsent : Absent fs name) :
    fileContent fs name = none := by
  rcases h.directory with ⟨used, hdir⟩
  rw [fileContent, findInDir_absent h.layout hdir habsent]
  rfl

/-- A file is listed once, and its inode is a file. -/
theorem Inv.content_cases (h : Inv made fs) (name : CStr) :
    (Absent fs name ∧ fileContent fs name = none) ∨
      exists i k inode, Listed fs i name k ∧ k ≠ 0 ∧ InodeTaken fs k ∧
        fs.inodeTable[k]? = some inode ∧ FileInode fs inode ∧
          fileContent fs name = some (inodeBytes fs inode) := by
  rcases listed_or_absent fs name with ⟨i, k, hlisted⟩ | habsent
  · right
    rcases h.inode_of_listed hlisted with ⟨hne, htaken, _, inode, hk, hfile⟩
    exact ⟨i, k, inode, hlisted, hne, htaken, hk, hfile, fileContent_listed h hlisted hk⟩
  · exact Or.inl ⟨habsent, fileContent_absent h habsent⟩

theorem Inv.listed_unique (h : Inv made fs) {i j k m : Nat} {name : CStr}
    (hi : Listed fs i name k) (hj : Listed fs j name m) : i = j ∧ k = m := by
  rcases h.directory with ⟨used, hdir⟩
  have hij := hdir.nameInj hi hj
  rw [hij] at hi
  exact ⟨hij, (hi.entry.name_unique hj.entry).right⟩

theorem Inv.listed_injective (h : Inv made fs) {i j k : Nat} {name name' : CStr}
    (hi : Listed fs i name k) (hj : Listed fs j name' k) : name = name' := by
  rcases h.directory with ⟨used, hdir⟩
  have hij := hdir.inodeInj hi hj
  rw [hij] at hi
  exact (hi.entry.name_unique hj.entry).left

/-!
## Bytes of other blocks
-/

/-- Two blocks do not overlap. -/
theorem block_disjoint {b c n : Nat} (hne : b ≠ c) :
    b * n + n <= c * n ∨ c * n + n <= b * n := by
  rcases Nat.lt_or_gt_of_ne hne with hlt | hgt
  · left
    rw [← Nat.succ_mul]
    exact Nat.mul_le_mul_right n hlt
  · right
    rw [← Nat.succ_mul]
    exact Nat.mul_le_mul_right n hgt

/-- Bytes stored in one block leave a file in another block alone. -/
theorem inodeBytes_overlay_other {inode : Inode} {b off : Nat} {bytes : List UInt8}
    (hfile : FileInode fs inode) (hfits : off + bytes.length <= fs.blockSize)
    (hother : 0 < inode.iSize -> inode.iDataBlock ≠ b) :
    (fs.fsData.overlay (b * fs.blockSize + off) bytes).window
        (inode.iDataBlock.toNat * fs.blockSize) inode.iSize = inodeBytes fs inode := by
  rcases Nat.eq_zero_or_pos inode.iSize with hzero | hpos
  · rw [inodeBytes, hzero]
    rfl
  · apply Region.window_overlay_disjoint
    have hsize := hfile.size
    have hne : b ≠ inode.iDataBlock.toNat := by
      have hblock := hother hpos
      rcases hfile.block with ⟨_, hzero⟩ | ⟨c, hc, _⟩
      · omega
      · omega
    rcases block_disjoint (n := fs.blockSize) hne with hbefore | hafter
    · right
      omega
    · left
      omega

/-- A change of one directory slot leaves every file's bytes alone. -/
theorem inodeBytes_sameOutsideSlot {inode : Inode} {data : Region UInt8} {j : Nat}
    (hfile : FileInode fs inode) (hsame : SameOutsideSlot fs.fsData data j)
    (hj : j < fs.maxDirEntries) :
    data.window (inode.iDataBlock.toNat * fs.blockSize) inode.iSize =
      inodeBytes fs inode := by
  rcases hfile.block with ⟨_, hzero⟩ | ⟨b, hb, husable⟩
  · rw [inodeBytes, hzero]
    rfl
  · apply hsame.window_eq
    have hdirLe := maxDirEntries_le_blockSize fs
    have hblock : fs.blockSize <= b * fs.blockSize := Nat.le_mul_of_pos_left _ husable.pos
    have htoNat : inode.iDataBlock.toNat = b := by omega
    have hslot : sizeofDirEntry * (j + 1) <= sizeofDirEntry * fs.maxDirEntries :=
      Nat.mul_le_mul_left _ hj
    rw [htoNat]
    omega

/-!
## What a step does to the directory
-/

/-- The steps that only move handles. -/
structure SameStorage (fs fs' : Fs) : Prop where
  fsParams : fs'.fsParams = fs.fsParams
  inodeTable : fs'.inodeTable = fs.inodeTable
  freeinodeTs : fs'.freeinodeTs = fs.freeinodeTs
  fsData : fs'.fsData = fs.fsData
  freeBlocks : fs'.freeBlocks = fs.freeBlocks

namespace SameStorage

theorem refl (fs : Fs) : SameStorage fs fs := ⟨rfl, rfl, rfl, rfl, rfl⟩

theorem listed (h : SameStorage fs fs') {i k : Nat} {name : CStr} :
    Listed fs' i name k <-> Listed fs i name k :=
  Listed.sameData fs fs' h.fsParams h.fsData

theorem content (h : SameStorage fs fs') (name : CStr) :
    fileContent fs' name = fileContent fs name := by
  cases fs
  cases fs'
  rcases h with ⟨hparams, hinodes, _, hdata, _⟩
  simp only at hparams hinodes hdata
  rw [hparams, hinodes, hdata]
  rfl

end SameStorage

theorem HandleStep.sameStorage {inum : Int} {offset : Nat} {r : Int}
    (h : HandleStep fs inum offset r fs') : SameStorage fs fs' := by
  cases h with
  | full _ => exact SameStorage.refl fs
  | added _ _ => exact ⟨rfl, rfl, rfl, rfl, rfl⟩

theorem ReadStep.sameStorage {fhandle r : Int} {len : Nat} {data : List UInt8}
    (h : ReadStep fs fhandle len r data fs') : SameStorage fs fs' := by
  cases h with
  | notOpen _ => exact SameStorage.refl fs
  | nothing _ _ _ _ _ => exact SameStorage.refl fs
  | copied _ _ _ _ _ _ _ _ => exact ⟨rfl, rfl, rfl, rfl, rfl⟩

theorem CloseStep.sameStorage {fhandle r : Int} (h : CloseStep fs fhandle r fs') :
    SameStorage fs fs' := by
  cases h with
  | notOpen _ => exact SameStorage.refl fs
  | closed _ _ => exact ⟨rfl, rfl, rfl, rfl, rfl⟩

theorem TruncateStep.listed {k : Nat} {inode inode' : Inode} {mode : Nat}
    (h : TruncateStep fs k inode mode inode' fs') {i m : Nat} {name : CStr} :
    Listed fs' i name m <-> Listed fs i name m := by
  cases h with
  | keep _ => exact Iff.rfl
  | cut _ _ _ _ => exact Listed.sameData fs (fs.cutInode k _ inode) rfl rfl

theorem TruncateStep.freeinodeTs {k : Nat} {inode inode' : Inode} {mode : Nat}
    (h : TruncateStep fs k inode mode inode' fs') : fs'.freeinodeTs = fs.freeinodeTs := by
  cases h <;> rfl

/-!
## What a step does to the handles
-/

/-- The open handles after a search for a free handle. -/
theorem HandleStep.openAt (h : Inv made fs) {inum : Int} {offset : Nat} {r : Int}
    (hstep : HandleStep fs inum offset r fs') {fh : Nat} {e : OpenFileEntry} :
    OpenAt fs' fh e <->
      (r = fh ∧ e = ⟨inum, offset⟩) ∨ (r ≠ fh ∧ OpenAt fs fh e) := by
  cases hstep with
  | full _ =>
      have hne : (-1 : Int) ≠ fh := by omega
      simp [hne]
  | added hfirst htable =>
      rename_i k
      rcases h.firstFree_handle hfirst with ⟨_, hmax, hlt⟩
      have hiff : ((k : Int) = fh) = (fh = k) := propext (by omega)
      rw [openAt_addHandle hlt htable hmax]
      simp only [ne_eq, hiff]

theorem HandleStep.result {inum : Int} {offset : Nat} {r : Int}
    (hstep : HandleStep fs inum offset r fs') : r = -1 ∨ exists fh : Nat, r = fh := by
  cases hstep with
  | full _ => exact Or.inl rfl
  | added _ _ => exact Or.inr ⟨_, rfl⟩

theorem TruncateStep.openAt {k : Nat} {inode inode' : Inode} {mode : Nat}
    (hstep : TruncateStep fs k inode mode inode' fs') {fh : Nat} {e : OpenFileEntry} :
    OpenAt fs' fh e <-> OpenAt fs fh e := by
  cases hstep with
  | keep _ => exact Iff.rfl
  | cut hflag hpos hb hlt =>
      rename_i b
      exact OpenAt.frame fs (fs.cutInode k b inode) rfl rfl rfl

theorem ReadStep.openAt {fhandle r : Int} {len : Nat} {data : List UInt8}
    (hstep : ReadStep fs fhandle len r data fs') {fh : Nat} {e : OpenFileEntry}
    (hopen : OpenAt fs' fh e) : exists e0, OpenAt fs fh e0 ∧ e.ofInumber = e0.ofInumber := by
  cases hstep with
  | notOpen _ => exact ⟨e, hopen, rfl⟩
  | nothing _ _ _ _ _ => exact ⟨e, hopen, rfl⟩
  | copied _ hold _ _ _ _ _ _ =>
      rcases (openAt_setEntry hold).mp hopen with ⟨hfh, he⟩ | ⟨_, hother⟩
      · exact ⟨_, hfh ▸ hold, by rw [he]⟩
      · exact ⟨e, hother, rfl⟩

theorem openAt_putBytes {fh k b : Nat} {e0 : OpenFileEntry} {inode : Inode}
    {bytes : List UInt8} (hold : OpenAt fs fh e0) {j : Nat} {e : OpenFileEntry} :
    OpenAt (fs.putBytes fh e0 k inode b bytes) j e <->
      (j = fh ∧ e = { e0 with ofOffset := e0.ofOffset + bytes.length }) ∨
        (j ≠ fh ∧ OpenAt fs j e) := by
  rw [OpenAt.frame (fs.setEntry fh { e0 with ofOffset := e0.ofOffset + bytes.length })
    (fs.putBytes fh e0 k inode b bytes) rfl rfl rfl]
  exact openAt_setEntry hold

/-!
## What a write stores
-/

/-- A write to the inode goes to block `b`: its own, or the first free one when it
has no bytes. -/
def TargetBlock (fs : Fs) (inode : Inode) (b : Nat) : Prop :=
  (inode.iSize = 0 ∧ FirstAt fs.freeBlocks fs.dataBlocks .free b ∧ b < intLimit) ∨
    (0 < inode.iSize ∧ inode.iDataBlock = b)

/-- The bytes are stored in block `b` of inode `k`, the inode of handle `fh`. -/
structure Stored (fs : Fs) (fh k b : Nat) (e : OpenFileEntry) (inode : Inode)
    (bytes : List UInt8) (fs' : Fs) : Prop where
  openAt : OpenAt fs fh e
  inumber : e.ofInumber = k
  record : fs.inodeTable[k]? = some inode
  pos : 0 < bytes.length
  fits : e.ofOffset + bytes.length <= fs.blockSize
  inRegion : b * fs.blockSize + e.ofOffset + bytes.length <= fs.fsData.size
  block : TargetBlock fs inode b
  fsParams : fs'.fsParams = fs.fsParams
  freeinodeTs : fs'.freeinodeTs = fs.freeinodeTs
  inodeTable : fs'.inodeTable = fs.inodeTable.set k
    ⟨inode.iNodeType, max inode.iSize (e.ofOffset + bytes.length), b⟩
  fsData : fs'.fsData = fs.fsData.overlay (b * fs.blockSize + e.ofOffset) bytes
  tableLength : fs'.openFileTable.length = fs.openFileTable.length
  blocks : forall {c}, BlockTaken fs' c <-> (c = b ∧ inode.iSize = 0) ∨ BlockTaken fs c
  handles : forall {j e'}, OpenAt fs' j e' <->
    (j = fh ∧ e' = { e with ofOffset := e.ofOffset + bytes.length }) ∨
      (j ≠ fh ∧ OpenAt fs j e')

theorem Stored.fresh {fh k b : Nat} {e : OpenFileEntry} {inode : Inode} {bytes : List UInt8}
    (hopen : OpenAt fs fh e) (hk : e.ofInumber = k) (hrecord : fs.inodeTable[k]? = some inode)
    (hzero : inode.iSize = 0) (hfirst : FirstAt fs.freeBlocks fs.dataBlocks .free b)
    (hint : b < intLimit) (hpos : 0 < bytes.length)
    (hfits : e.ofOffset + bytes.length <= fs.blockSize)
    (hregion : b * fs.blockSize + e.ofOffset + bytes.length <= fs.fsData.size) :
    Stored fs fh k b e inode bytes ((fs.takeBlock b).putBytes fh e k inode b bytes) := by
  have hframe : forall {j : Nat} {e : OpenFileEntry},
      OpenAt (fs.takeBlock b) j e <-> OpenAt fs j e :=
    OpenAt.frame fs (fs.takeBlock b) rfl rfl rfl
  refine ⟨hopen, hk, hrecord, hpos, hfits, hregion, Or.inl ⟨hzero, hfirst, hint⟩, rfl, rfl, rfl,
    rfl, ?_, ?_, ?_⟩
  · exact List.length_set
  · intro c
    have htaken : BlockTaken (fs.takeBlock b) c <-> c = b ∨ BlockTaken fs c :=
      set_taken_iff (getElem?_lt hfirst.right.left)
    rw [and_iff_left hzero]
    exact htaken
  · intro j e'
    rw [openAt_putBytes (hframe.mpr hopen), hframe]

theorem Stored.inPlace {fh k b : Nat} {e : OpenFileEntry} {inode : Inode} {bytes : List UInt8}
    (hopen : OpenAt fs fh e) (hk : e.ofInumber = k) (hrecord : fs.inodeTable[k]? = some inode)
    (hsize : 0 < inode.iSize) (hb : inode.iDataBlock = b) (hpos : 0 < bytes.length)
    (hfits : e.ofOffset + bytes.length <= fs.blockSize)
    (hregion : b * fs.blockSize + e.ofOffset + bytes.length <= fs.fsData.size) :
    Stored fs fh k b e inode bytes (fs.putBytes fh e k inode b bytes) := by
  refine ⟨hopen, hk, hrecord, hpos, hfits, hregion, Or.inr ⟨hsize, hb⟩, rfl, rfl, rfl, rfl,
    List.length_set, ?_, openAt_putBytes hopen⟩
  intro c
  have hne : ¬ inode.iSize = 0 := by omega
  simp only [hne, and_false, false_or]
  exact Iff.rfl

/-- The handle is closed, there is nothing to write or no block is free. -/
def WritesNothing (fs : Fs) (fhandle : Int) (toWrite : Nat) : Prop :=
  forall (fh : Nat) (e : OpenFileEntry), fhandle = fh -> OpenAt fs fh e ->
    clippedWrite fs.blockSize e.ofOffset toWrite ≠ 0 ->
      NowhereAt fs.freeBlocks fs.dataBlocks .free

/-- The bytes that a write stores fit the block. -/
theorem Inv.write_fits (hinv : Inv made fs) {fh b n toWrite : Nat} {e : OpenFileEntry}
    (hopen : OpenAt fs fh e) (hn : clippedWrite fs.blockSize e.ofOffset toWrite = n)
    (hsize : b * fs.blockSize + e.ofOffset + n <= fs.fsData.size) :
    e.ofOffset + n <= fs.blockSize := by
  rw [← hn] at hsize ⊢
  exact clippedWrite_fits hinv.blockSize_lt (hinv.handles.offset hopen) hinv.layout.dataSmall
    hsize

/-- A write leaves the state as it was or stores the bytes it counts. -/
theorem WriteStep.stored (hinv : Inv made fs) {fhandle r : Int} {buffer : List UInt8}
    {toWrite : Nat} (h : WriteStep fs fhandle buffer toWrite r fs') :
    (fs' = fs ∧ WritesNothing fs fhandle toWrite) ∨
      exists (fh k b n : Nat) (e : OpenFileEntry) (inode : Inode), fhandle = fh ∧ r = n ∧
        n = clippedWrite fs.blockSize e.ofOffset toWrite ∧
        n <= buffer.length ∧ Stored fs fh k b e inode (buffer.take n) fs' := by
  cases h with
  | notOpen hnot => exact Or.inl ⟨rfl, fun fh e heq hopen => absurd hopen (hnot fh e heq)⟩
  | nothing heq hopen hn =>
      refine Or.inl ⟨rfl, fun fh e heq' hopen' hne => absurd ?_ hne⟩
      have hfh := Int.ofNat_inj.mp (heq'.symm.trans heq)
      rw [hfh] at hopen'
      rw [hopen'.unique hopen]
      exact hn
  | noSpace _ _ _ _ _ _ hnone => exact Or.inl ⟨rfl, fun _ _ _ _ _ => hnone⟩
  | fresh heq hopen hn hne hk hinode hzero hfirst hint hbuf hsize =>
      rename_i fh k b n e inode
      have hlen : (buffer.take n).length = n := by simp [hbuf]
      refine Or.inr ⟨fh, k, b, n, e, inode, heq, rfl, hn.symm, hbuf, ?_⟩
      apply Stored.fresh hopen hk hinode hzero hfirst hint
      · omega
      · rw [hlen]
        exact hinv.write_fits hopen hn hsize
      · rw [hlen]
        exact hsize
  | inPlace heq hopen hn hne hk hinode hpos hb hbuf hsize =>
      rename_i fh k b n e inode
      have hlen : (buffer.take n).length = n := by simp [hbuf]
      refine Or.inr ⟨fh, k, b, n, e, inode, heq, rfl, hn.symm, hbuf, ?_⟩
      apply Stored.inPlace hopen hk hinode hpos hb
      · omega
      · rw [hlen]
        exact hinv.write_fits hopen hn hsize
      · rw [hlen]
        exact hsize

theorem WriteStep.openAt (hinv : Inv made fs) {fhandle r : Int} {buffer : List UInt8}
    {toWrite : Nat} (hstep : WriteStep fs fhandle buffer toWrite r fs') {fh : Nat}
    {e : OpenFileEntry} (hopen : OpenAt fs' fh e) :
    exists e0, OpenAt fs fh e0 ∧ e.ofInumber = e0.ofInumber := by
  rcases hstep.stored hinv with ⟨hsame, _⟩ | ⟨_, _, _, _, _, _, _, _, _, _, hstored⟩
  · exact ⟨e, hsame ▸ hopen, rfl⟩
  · rcases hstored.handles.mp hopen with ⟨hfh, he⟩ | ⟨_, hother⟩
    · exact ⟨_, hfh ▸ hstored.openAt, by rw [he]⟩
    · exact ⟨e, hother, rfl⟩

namespace Stored

variable {fh k b : Nat} {e : OpenFileEntry} {inode : Inode} {bytes : List UInt8}

theorem blockSize (h : Stored fs fh k b e inode bytes fs') : fs'.blockSize = fs.blockSize := by
  rw [Fs.blockSize, h.fsParams, Fs.blockSize]

/-- The inode the bytes are stored in. -/
theorem inode_self (h : Stored fs fh k b e inode bytes fs') :
    fs'.inodeTable[k]? =
      some ⟨inode.iNodeType, max inode.iSize (e.ofOffset + bytes.length), b⟩ := by
  rw [h.inodeTable, List.getElem?_set_self (getElem?_lt h.record)]

theorem inode_other (h : Stored fs fh k b e inode bytes fs') {m : Nat} (hm : m ≠ k) :
    fs'.inodeTable[m]? = fs.inodeTable[m]? := by
  rw [h.inodeTable, List.getElem?_set_ne (Ne.symm hm)]

theorem block_pos (h : Stored fs fh k b e inode bytes fs') (hinv : Inv made fs) : 1 <= b := by
  rcases h.block with ⟨_, hfirst, _⟩ | ⟨hsize, hb⟩
  · exact Nat.one_le_iff_ne_zero.mpr (hinv.firstFree_mul hfirst).left
  · have hfile := hinv.fileInode_of_open h.openAt h.inumber h.record
    exact (hinv.block_of_size hfile hsize hb).pos

theorem listed (h : Stored fs fh k b e inode bytes fs') (hinv : Inv made fs) {i m : Nat}
    {name : CStr} : Listed fs' i name m <-> Listed fs i name m := by
  have habove : sizeofDirEntry * fs.maxDirEntries <= b * fs.blockSize + e.ofOffset := by
    have hdirLe := maxDirEntries_le_blockSize fs
    have hblock : fs.blockSize <= b * fs.blockSize :=
      Nat.le_mul_of_pos_left _ (h.block_pos hinv)
    omega
  refine Listed.frame fs fs' h.fsParams fun i hi => ?_
  rw [h.fsData]
  exact slot_overlay_above habove hi

/-- A taken inode keeps its bytes unless it shares the block and has bytes past
the handle's offset. -/
theorem bytes_other (h : Stored fs fh k b e inode bytes fs') (hinv : Inv made fs) {m : Nat}
    {inode' : Inode} (hm : fs.inodeTable[m]? = some inode') (htaken : InodeTaken fs m)
    (hfile : FileInode fs inode')
    (hclear : 0 < inode.iSize -> inode'.iDataBlock = inode.iDataBlock ->
      inode'.iSize <= e.ofOffset) :
    inodeBytes fs' inode' = inodeBytes fs inode' := by
  have hbytes : inodeBytes fs' inode' =
      (fs.fsData.overlay (b * fs.blockSize + e.ofOffset) bytes).window
        (inode'.iDataBlock.toNat * fs.blockSize) inode'.iSize := by
    rw [inodeBytes, h.fsData, h.blockSize]
  rw [hbytes]
  by_cases hshared : 0 < inode'.iSize ∧ inode'.iDataBlock = b
  · rcases hshared with ⟨hpos, hb⟩
    rcases h.block with ⟨_, hfirst, _⟩ | ⟨hsize, hblock⟩
    · have hblockTaken := hinv.storage.blockOwned htaken hm hpos hb
      rw [BlockTaken, hfirst.right.left] at hblockTaken
      cases hblockTaken
    · have hle := hclear hsize (hb.trans hblock.symm)
      have htoNat : inode'.iDataBlock.toNat = b := by omega
      rw [htoNat, Region.window_overlay_disjoint _ (Or.inl (by omega)), inodeBytes, htoNat]
  · exact inodeBytes_overlay_other hfile h.fits fun hpos hb => hshared ⟨hpos, hb⟩

/-- A file of the directory keeps its bytes unless they are stored in its inode. -/
theorem bytes_listed (h : Stored fs fh k b e inode bytes fs') (hinv : Inv made fs) {i j m : Nat}
    {name held : CStr} {inode' : Inode} (hlisted : Listed fs i name k) (hj : Listed fs j held m)
    (hne : m ≠ k) (hm : fs.inodeTable[m]? = some inode') :
    inodeBytes fs' inode' = inodeBytes fs inode' := by
  rcases hinv.inode_of_listed hj with ⟨_, htaken, _, inode1, hinode1, hfile⟩
  rw [Inv.inode_unique hinode1 hm] at hfile
  refine h.bytes_other hinv hm htaken hfile fun hpos hb => ?_
  rcases Nat.eq_zero_or_pos inode'.iSize with hzero | hpos'
  · omega
  · exact absurd (hinv.storage.blockInj htaken (hinv.inode_of_listed hlisted).right.left hm
      h.record hpos' hpos hb) hne

/-- The bytes of the inode they are stored in. -/
theorem bytes_self (h : Stored fs fh k b e inode bytes fs') :
    inodeBytes fs' ⟨inode.iNodeType, max inode.iSize (e.ofOffset + bytes.length), b⟩ =
      fs.fsData.window (b * fs.blockSize) e.ofOffset ++ bytes ++
        fs.fsData.window (b * fs.blockSize + (e.ofOffset + bytes.length))
          (inode.iSize - (e.ofOffset + bytes.length)) := by
  have hle : e.ofOffset + bytes.length <= max inode.iSize (e.ofOffset + bytes.length) :=
    Nat.le_max_right _ _
  have hrest : max inode.iSize (e.ofOffset + bytes.length) - (e.ofOffset + bytes.length) =
      inode.iSize - (e.ofOffset + bytes.length) := by omega
  have hwithin := Region.window_overlay_within fs.fsData (b * fs.blockSize) hle
  rw [Region.window_take _ _ _ _ (by omega), Region.window_drop _ _ _ _ hle, hrest] at hwithin
  rw [inodeBytes, h.fsData, h.blockSize]
  exact hwithin

end Stored

theorem WriteStep.listed (hinv : Inv made fs) {fhandle r : Int} {buffer : List UInt8}
    {toWrite : Nat} (h : WriteStep fs fhandle buffer toWrite r fs') {i m : Nat} {name : CStr} :
    Listed fs' i name m <-> Listed fs i name m := by
  rcases h.stored hinv with ⟨hsame, _⟩ | ⟨_, _, _, _, _, _, _, _, _, _, hstored⟩
  · rw [hsame]
  · exact hstored.listed hinv

/-!
## What opening and unlinking do to the directory
-/

/-- A successful unlink erases exactly the name it was given. -/
theorem UnlinkStep.listed (hinv : Inv made fs) {target : Option CStr} {r : Int}
    (h : UnlinkStep fs target r fs') :
    (r = -1 ∧ fs' = fs) ∨
      (r = 0 ∧ forall i held m, Listed fs' i held m <->
        held ≠ skipSlash target ∧ Listed fs i held m) := by
  cases h with
  | badPath _ => exact Or.inl ⟨rfl, rfl⟩
  | absent _ _ => exact Or.inl ⟨rfl, rfl⟩
  | removed _ hlisted hk =>
      right
      refine ⟨rfl, fun j held m => ?_⟩
      rw [Inv.listed_removeFile]
      constructor
      · rintro ⟨hji, hj⟩
        refine ⟨fun heq => ?_, hj⟩
        rw [heq] at hj
        exact hji (hinv.listed_unique hj hlisted).left
      · rintro ⟨hheld, hj⟩
        refine ⟨fun hji => ?_, hj⟩
        rw [hji] at hj
        exact hheld (hj.entry.name_unique hlisted.entry).left

end TecnicoFs
