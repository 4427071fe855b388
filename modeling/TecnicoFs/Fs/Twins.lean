import TecnicoFs.Fs.World

/-!
# States that differ in their data

Two states with the same tables and the same directory take every call alike,
whatever the other bytes of their data areas are.  What is left to compare is the
bytes of one file: the conditions below keep them the same in both states although
calls through the handles of other files may store different bytes.
-/

namespace TecnicoFs

open Library

namespace Fs

/-- The same tables over another data area. -/
def withData (fs : Fs) (data : Region UInt8) : Fs := { fs with fsData := data }

end Fs

/-- A data area of the same size that holds the same directory. -/
structure SameDir (fs : Fs) (data : Region UInt8) : Prop where
  size : data.size = fs.fsData.size
  listed : forall {i name k}, Listed (fs.withData data) i name k <-> Listed fs i name k

/-- The bytes of the named file are the same in both data areas. -/
def FileSame (name : CStr) (fs : Fs) (data : Region UInt8) : Prop :=
  forall {i k inode}, Listed fs i name k -> fs.inodeTable[k]? = some inode ->
    inodeBytes (fs.withData data) inode = inodeBytes fs inode

structure Twin (name : CStr) (fs : Fs) (data : Region UInt8) : Prop where
  dir : SameDir fs data
  file : FileSame name fs data

/-- The second run makes the same call, or writes as many other bytes through a
handle that is not one of the owner's. -/
def VariantCall (owns : Nat -> Prop) (call call' : Call) : Prop :=
  call' = call ∨ exists fhandle buffer buffer' toWrite, call = .write fhandle buffer toWrite ∧
    call' = .write fhandle buffer' toWrite ∧ buffer'.length = buffer.length ∧
      forall fh : Nat, fhandle = fh -> ¬ owns fh

/-- The call keeps the file a secret of its owner's handles: what they read is the
file's, up to its end; only they write to it, and not past its end; and a write
into its block from elsewhere is theirs or starts behind its bytes. -/
def KeepsSecret (name : CStr) (owns : Nat -> Prop) (fs : Fs) : Call -> Prop
  | .read fhandle len => forall (fh k : Nat) (e : OpenFileEntry) (inode : Inode),
      fhandle = fh -> OpenAt fs fh e -> owns fh -> e.ofInumber = k ->
        fs.inodeTable[k]? = some inode -> clippedRead inode.iSize e.ofOffset len ≠ 0 ->
          e.ofOffset <= inode.iSize ∧ exists i, Listed fs i name k
  | .write fhandle _ toWrite => forall (fh k i m : Nat) (e : OpenFileEntry)
      (inode inode' : Inode), fhandle = fh -> OpenAt fs fh e -> e.ofInumber = k ->
        fs.inodeTable[k]? = some inode -> clippedWrite fs.blockSize e.ofOffset toWrite ≠ 0 ->
          Listed fs i name m -> fs.inodeTable[m]? = some inode' ->
            (m = k -> owns fh ∧ e.ofOffset <= inode.iSize) ∧
            (m ≠ k -> 0 < inode.iSize -> inode'.iDataBlock = inode.iDataBlock ->
              owns fh ∨ inode'.iSize <= e.ofOffset)
  | _ => True

section Twins

variable {made made' : Nat -> Prop} {fs fs' : Fs} {data : Region UInt8} {name : CStr} {r : Int}

namespace SameDir

theorem absent (h : SameDir fs data) {held : CStr} (habsent : Absent fs held) :
    Absent (fs.withData data) held :=
  fun i k hlisted => habsent i k (h.listed.mp hlisted)

/-- The same slots are free. -/
theorem free_iff (h : SameDir fs data) (hinv : Inv made fs)
    (hinv' : Inv made' (fs.withData data)) {i : Nat} (hi : i < fs.maxDirEntries) :
    dInumber data i = -1 <-> dInumber fs.fsData i = -1 := by
  rcases hinv.directory with ⟨used, hdir⟩
  rcases hinv'.directory with ⟨used', hdir'⟩
  constructor
  · intro hfree
    by_contra hocc
    rcases hdir.shape.entry_of_occupied hi hocc with ⟨held, k, hentry⟩
    exact (h.listed.mpr ⟨hi, hentry⟩).entry.ne_free hfree
  · intro hfree
    by_contra hocc
    rcases hdir'.shape.entry_of_occupied hi hocc with ⟨held, k, hentry⟩
    exact (h.listed.mp ⟨hi, hentry⟩).entry.ne_free hfree

theorem freeSlot (h : SameDir fs data) (hinv : Inv made fs)
    (hinv' : Inv made' (fs.withData data)) {j : Nat}
    (hslot : FreeSlot fs.fsData fs.maxDirEntries j) : FreeSlot data fs.maxDirEntries j := by
  rcases hslot with ⟨hlt, hfree, hbefore⟩
  refine ⟨hlt, (h.free_iff hinv hinv' hlt).mpr hfree, fun i hi hfreeI => ?_⟩
  exact hbefore i hi ((h.free_iff hinv hinv' (Nat.lt_trans hi hlt)).mp hfreeI)

theorem fullDir (h : SameDir fs data) (hinv : Inv made fs)
    (hinv' : Inv made' (fs.withData data)) (hfull : FullDir fs.fsData fs.maxDirEntries) :
    FullDir data fs.maxDirEntries :=
  fun i hi hfree => hfull i hi ((h.free_iff hinv hinv' hi).mp hfree)

/-- Steps that only move handles. -/
theorem sameStorage (h : SameDir fs data) (hsame : SameStorage fs fs') : SameDir fs' data := by
  have htwin : SameStorage (fs.withData data) (fs'.withData data) :=
    ⟨hsame.fsParams, hsame.inodeTable, hsame.freeinodeTs, rfl, hsame.freeBlocks⟩
  refine ⟨h.size.trans (by rw [hsame.fsData]), fun {i name k} => ?_⟩
  rw [htwin.listed, h.listed, hsame.listed]

end SameDir

theorem FileSame.sameStorage (h : FileSame name fs data) (hsame : SameStorage fs fs') :
    FileSame name fs' data := by
  intro i k inode hlisted hinode
  rw [hsame.inodeTable] at hinode
  have hbytes := h (hsame.listed.mp hlisted) hinode
  simp only [inodeBytes, Fs.withData, Fs.blockSize, hsame.fsParams, hsame.fsData] at hbytes ⊢
  exact hbytes

/-!
## Opens, closes and unlinks
-/

theorem HandleStep.twin {inum : Int} {offset : Nat} (h : HandleStep fs inum offset r fs') :
    HandleStep (fs.withData data) inum offset r (fs'.withData data) := by
  cases h with
  | full hfull => exact HandleStep.full hfull
  | added hfirst hlt => exact HandleStep.added hfirst hlt

theorem TruncateStep.twin {k : Nat} {inode inode' : Inode} {mode : Nat}
    (h : TruncateStep fs k inode mode inode' fs') :
    TruncateStep (fs.withData data) k inode mode inode' (fs'.withData data) := by
  cases h with
  | keep hkeep => exact TruncateStep.keep hkeep
  | cut hflag hpos hb hlt => exact TruncateStep.cut hflag hpos hb hlt

theorem SameDir.truncateStep (h : SameDir fs data) {k : Nat} {inode inode' : Inode}
    {mode : Nat} (hstep : TruncateStep fs k inode mode inode' fs') : SameDir fs' data := by
  refine ⟨?_, fun {i name k} => ?_⟩
  · cases hstep with
    | keep _ => exact h.size
    | cut _ _ _ _ => exact h.size
  · rw [hstep.twin.listed, h.listed, hstep.listed]

theorem FileSame.truncateStep (h : FileSame name fs data) {k : Nat} {inode inode' : Inode}
    {mode : Nat} (hk : fs.inodeTable[k]? = some inode)
    (hstep : TruncateStep fs k inode mode inode' fs') : FileSame name fs' data := by
  intro i m inode1 hlisted hinode1
  have hold := hstep.listed.mp hlisted
  cases hstep with
  | keep _ => exact h hold hinode1
  | cut hflag hpos hb hlt =>
      by_cases hmk : m = k
      · simp only [Fs.cutInode, hmk, List.getElem?_set_self (getElem?_lt hk)] at hinode1
        rw [← Option.some.inj hinode1]
        rfl
      · simp only [Fs.cutInode, List.getElem?_set_ne (Ne.symm hmk)] at hinode1
        exact h hold hinode1

/-- A change of one directory slot in both areas leaves the file the same. -/
theorem Twin.slot (h : Twin name fs data) (hinv : Inv made fs)
    (hinv' : Inv made' (fs.withData data)) {i j m : Nat} {inode : Inode}
    {data1 data2 : Region UInt8} (hj : j < fs.maxDirEntries)
    (hsame1 : SameOutsideSlot fs.fsData data1 j) (hsame2 : SameOutsideSlot data data2 j)
    (hlisted : Listed fs i name m) (hinode : fs.inodeTable[m]? = some inode) :
    data2.window (inode.iDataBlock.toNat * fs.blockSize) inode.iSize =
      data1.window (inode.iDataBlock.toNat * fs.blockSize) inode.iSize := by
  rcases hinv.inode_of_listed hlisted with ⟨_, _, _, inode1, hinode1, hfile⟩
  rw [Inv.inode_unique hinode1 hinode] at hfile
  rcases hinv'.inode_of_listed (h.dir.listed.mpr hlisted) with ⟨_, _, _, inode2, hinode2, hfile'⟩
  rw [Inv.inode_unique hinode2 hinode] at hfile'
  have hfirst := inodeBytes_sameOutsideSlot hfile hsame1 hj
  have hsecond := @inodeBytes_sameOutsideSlot (fs.withData data) _ _ _ hfile' hsame2 hj
  rw [hfirst]
  exact hsecond.trans (h.file hlisted hinode)

theorem Twin.sameStorage (h : Twin name fs data) (hsame : SameStorage fs fs') :
    Twin name fs' data :=
  ⟨h.dir.sameStorage hsame, FileSame.sameStorage h.file hsame⟩

theorem Twin.resetInode (h : Twin name fs data) (hinv : Inv made fs) {k : Nat}
    (hfree : fs.freeinodeTs[k]? = some .free) : Twin name (fs.resetInode k) data := by
  have hlisted : forall {i held m}, Listed (fs.resetInode k) i held m <-> Listed fs i held m :=
    fun {i held m} => Listed.sameData fs (fs.resetInode k) rfl rfl
  refine ⟨⟨h.dir.size, fun {i held m} => ?_⟩, ?_⟩
  · rw [hlisted, ← h.dir.listed]
    exact Listed.sameData (fs.withData data) ((fs.resetInode k).withData data) rfl rfl
  · intro i m inode hi hinode
    have hold := hlisted.mp hi
    have hmk : m ≠ k := by
      intro hmk
      have htaken := (hinv.inode_of_listed hold).right.left
      rw [hmk, InodeTaken, hfree] at htaken
      cases htaken
    simp only [Fs.resetInode, List.getElem?_set_ne (Ne.symm hmk)] at hinode
    exact h.file hold hinode

theorem Twin.createFile (h : Twin name fs data) (hinv : Inv made fs)
    (hinv' : Inv made' (fs.withData data)) {j k : Nat} {held : CStr}
    (hfree : fs.freeinodeTs[k]? = some .free) (hlt : k < fs.inodeTable.length)
    (hint : k < intLimit) (hfits : FitsEntry held)
    (hslot : FreeSlot fs.fsData fs.maxDirEntries j) :
    Twin name (fs.createFile j held k) (enterSlot data j held k) := by
  have hslot' : FreeSlot (fs.withData data).fsData (fs.withData data).maxDirEntries j :=
    h.dir.freeSlot hinv hinv' hslot
  refine ⟨⟨h.dir.size, fun {i name' m} => ?_⟩, ?_⟩
  · have htwin : Listed ((fs.withData data).createFile j held k) i name' m <->
        (i = j ∧ name' = held ∧ m = k) ∨ (i ≠ j ∧ Listed (fs.withData data) i name' m) :=
      Inv.listed_createFile hfits hint hslot'
    rw [Inv.listed_createFile hfits hint hslot, ← h.dir.listed]
    exact htwin
  · intro i m inode hi hinode
    rcases (Inv.listed_createFile hfits hint hslot).mp hi with ⟨_, _, hmk⟩ | ⟨_, hold⟩
    · simp only [Fs.createFile, Fs.takeInode, hmk, List.getElem?_set_self hlt] at hinode
      rw [← Option.some.inj hinode]
      rfl
    · have hmk : m ≠ k := by
        intro hmk
        have htaken := (hinv.inode_of_listed hold).right.left
        rw [hmk, InodeTaken, hfree] at htaken
        cases htaken
      simp only [Fs.createFile, Fs.takeInode, List.getElem?_set_ne (Ne.symm hmk)] at hinode
      exact h.slot hinv hinv' hslot.left (enterSlot_same fs.fsData j held k)
        (enterSlot_same data j held k) hold hinode

theorem Twin.removeFile (h : Twin name fs data) (hinv : Inv made fs)
    (hinv' : Inv made' (fs.withData data)) {j k : Nat} {inode : Inode}
    (hj : j < fs.maxDirEntries) :
    Twin name (fs.removeFile j k inode) (eraseSlot data j) := by
  refine ⟨⟨h.dir.size, fun {i name' m} => ?_⟩, ?_⟩
  · have htwin : Listed ((fs.withData data).removeFile j k inode) i name' m <->
        i ≠ j ∧ Listed (fs.withData data) i name' m := Inv.listed_removeFile
    rw [Inv.listed_removeFile, ← h.dir.listed]
    exact htwin
  · intro i m inode' hi hinode'
    rcases Inv.listed_removeFile.mp hi with ⟨_, hold⟩
    exact h.slot hinv hinv' hj (eraseSlot_same fs.fsData j) (eraseSlot_same data j) hold hinode'

theorem OpenStep.twin (h : Twin name fs data) (hinv : Inv made fs)
    (hinv' : Inv made' (fs.withData data)) {path : Option CStr} {mode : Nat}
    (hstep : OpenStep fs path mode r fs') :
    exists data', OpenStep (fs.withData data) path mode r (fs'.withData data') ∧
      Twin name fs' data' := by
  cases hstep with
  | badPath hbad => exact ⟨data, OpenStep.badPath hbad, h⟩
  | existing hvalid hlisted hk htrunc hhandle =>
      refine ⟨data, OpenStep.existing hvalid (h.dir.listed.mpr hlisted) hk htrunc.twin hhandle.twin,
        ?_⟩
      have h1 : Twin name _ data :=
        ⟨h.dir.truncateStep htrunc, FileSame.truncateStep h.file hk htrunc⟩
      exact h1.sameStorage hhandle.sameStorage
  | absent hvalid habsent hflag =>
      exact ⟨data, OpenStep.absent hvalid (h.dir.absent habsent) hflag, h⟩
  | noInode hvalid habsent hflag hnone =>
      exact ⟨data, OpenStep.noInode hvalid (h.dir.absent habsent) hflag hnone, h⟩
  | notEntered hvalid habsent hflag hfirst hint hlt hwhy =>
      have hwhy' : ¬ FitsEntry (skipSlash path) ∨ FullDir data fs.maxDirEntries := by
        rcases hwhy with hunfit | hfull
        · exact Or.inl hunfit
        · exact Or.inr (h.dir.fullDir hinv hinv' hfull)
      exact ⟨data, OpenStep.notEntered hvalid (h.dir.absent habsent) hflag hfirst hint hlt hwhy',
        h.resetInode hinv hfirst.right.left⟩
  | created hvalid habsent hflag hfirst hint hlt hfits hslot hhandle =>
      refine ⟨_, OpenStep.created hvalid (h.dir.absent habsent) hflag hfirst hint hlt hfits
        (h.dir.freeSlot hinv hinv' hslot) hhandle.twin, ?_⟩
      exact (h.createFile hinv hinv' hfirst.right.left hlt hint hfits hslot).sameStorage
        hhandle.sameStorage

theorem CloseStep.twin {fhandle : Int} (hstep : CloseStep fs fhandle r fs') :
    CloseStep (fs.withData data) fhandle r (fs'.withData data) := by
  cases hstep with
  | notOpen hnot =>
      exact CloseStep.notOpen fun fh e heq hopen =>
        hnot fh e heq ⟨hopen.lt, hopen.taken, hopen.entry⟩
  | closed heq hopen => exact CloseStep.closed heq ⟨hopen.lt, hopen.taken, hopen.entry⟩

theorem UnlinkStep.twin (h : Twin name fs data) (hinv : Inv made fs)
    (hinv' : Inv made' (fs.withData data)) {target : Option CStr}
    (hstep : UnlinkStep fs target r fs') :
    exists data', UnlinkStep (fs.withData data) target r (fs'.withData data') ∧
      Twin name fs' data' := by
  cases hstep with
  | badPath hbad => exact ⟨data, UnlinkStep.badPath hbad, h⟩
  | absent hvalid habsent => exact ⟨data, UnlinkStep.absent hvalid (h.dir.absent habsent), h⟩
  | removed hvalid hlisted hk =>
      exact ⟨_, UnlinkStep.removed hvalid (h.dir.listed.mpr hlisted) hk,
        h.removeFile hinv hinv' hlisted.lt⟩

/-!
## Reads and writes
-/

theorem openAt_withData {fh : Nat} {e : OpenFileEntry} :
    OpenAt (fs.withData data) fh e <-> OpenAt fs fh e :=
  OpenAt.frame fs (fs.withData data) rfl rfl rfl

theorem ReadStep.twin (h : Twin name fs data) (hinv : Inv made fs) {owns : Nat -> Prop}
    {fhandle : Int} {len : Nat} {bytes : List UInt8}
    (hkeep : KeepsSecret name owns fs (.read fhandle len))
    (hstep : ReadStep fs fhandle len r bytes fs') :
    exists bytes', ReadStep (fs.withData data) fhandle len r bytes' (fs'.withData data) ∧
      Twin name fs' data ∧ forall fh : Nat, fhandle = fh -> owns fh -> bytes' = bytes := by
  have htwin := h.sameStorage hstep.sameStorage
  cases hstep with
  | notOpen hnot =>
      refine ⟨[], ReadStep.notOpen fun fh e heq hopen => ?_, htwin, fun _ _ _ => rfl⟩
      exact hnot fh e heq (openAt_withData.mp hopen)
  | nothing heq hopen hk hinode hn =>
      exact ⟨[], ReadStep.nothing heq (openAt_withData.mpr hopen) hk hinode hn, htwin,
        fun _ _ _ => rfl⟩
  | copied heq hopen hk hinode hn hne hb hregion =>
      rename_i fh k b n e inode
      have hregion' : b * fs.blockSize + e.ofOffset + n <= data.size := by
        rw [h.dir.size]
        exact hregion
      refine ⟨_, ReadStep.copied heq (openAt_withData.mpr hopen) hk hinode hn hne hb hregion',
        htwin, fun fh' heq' hown => ?_⟩
      have hfh : fh' = fh := Int.ofNat_inj.mp (heq'.symm.trans heq)
      rw [hfh] at hown
      rcases hkeep fh k e inode heq hopen hown hk hinode (hn ▸ hne) with ⟨hoff, i, hlisted⟩
      have hsize := hinv.size_lt (hinv.fileInode_of_open hopen hk hinode)
      have hle : n <= inode.iSize - e.ofOffset := by
        rw [← hn, clippedRead, sizeSub_eq hoff hsize]
        split <;> omega
      have htoNat : inode.iDataBlock.toNat = b := by omega
      have hsame := h.file hlisted hinode
      rw [inodeBytes, inodeBytes, htoNat] at hsame
      exact Region.window_sub hsame (Nat.le_add_right _ _) (by omega)

/-- Storing as many bytes in the other data area. -/
theorem Stored.twin {fh k b : Nat} {e : OpenFileEntry} {inode : Inode} {bytes : List UInt8}
    (hst : Stored fs fh k b e inode bytes fs') (hdir : SameDir fs data) (bytes' : List UInt8)
    (hlen : bytes'.length = bytes.length) :
    Stored (fs.withData data) fh k b e inode bytes'
      (fs'.withData (data.overlay (b * fs.blockSize + e.ofOffset) bytes')) := by
  constructor
  · exact openAt_withData.mpr hst.openAt
  · exact hst.inumber
  · exact hst.record
  · exact hlen ▸ hst.pos
  · exact hlen ▸ hst.fits
  · rw [hlen]
    exact Nat.le_trans hst.inRegion (Nat.le_of_eq hdir.size.symm)
  · exact hst.block
  · exact hst.fsParams
  · exact hst.freeinodeTs
  · rw [hlen]
    exact hst.inodeTable
  · rfl
  · exact hst.tableLength
  · exact hst.blocks
  · intro j e'
    rw [openAt_withData, openAt_withData, hlen]
    exact hst.handles

/-- What is stored in the file is the same in both areas and starts inside it; what
is stored elsewhere in its block is the same or starts behind it. -/
theorem Twin.stored (h : Twin name fs data) (hinv : Inv made fs)
    (hinv' : Inv made' (fs.withData data)) {fh k b : Nat} {e : OpenFileEntry} {inode : Inode}
    {bytes bytes' : List UInt8} (hst : Stored fs fh k b e inode bytes fs')
    (hlen : bytes'.length = bytes.length)
    (hsafe : forall {i m inode'}, Listed fs i name m -> fs.inodeTable[m]? = some inode' ->
      (m = k -> bytes' = bytes ∧ e.ofOffset <= inode.iSize) ∧
      (m ≠ k -> 0 < inode.iSize -> inode'.iDataBlock = inode.iDataBlock ->
        bytes' = bytes ∨ inode'.iSize <= e.ofOffset)) :
    Twin name fs' (data.overlay (b * fs.blockSize + e.ofOffset) bytes') := by
  have hst' := hst.twin h.dir bytes' hlen
  refine ⟨⟨?_, fun {i held m} => ?_⟩, ?_⟩
  · rw [hst.fsData]
    exact h.dir.size
  · rw [hst'.listed hinv', h.dir.listed, hst.listed hinv]
  · intro i m inode1 hi hinode1
    have hold := (hst.listed hinv).mp hi
    by_cases hmk : m = k
    · rw [hmk] at hold
      rcases (hsafe hold hst.record).left rfl with ⟨hbytes, hoff⟩
      rw [hmk, hst.inode_self] at hinode1
      have hself := hst.bytes_self
      have hself' := hst'.bytes_self
      rw [hbytes] at hself'
      rw [← Option.some.inj hinode1, hself, hbytes]
      refine hself'.trans ?_
      have hsame := h.file hold hst.record
      rcases hst.block with ⟨hzero, _, _⟩ | ⟨_, hb⟩
      · have hoff0 : e.ofOffset = 0 := by omega
        rw [hoff0, hzero]
        simp
      · have htoNat : inode.iDataBlock.toNat = b := by omega
        rw [inodeBytes, inodeBytes, htoNat] at hsame
        have hwindow : data.window (b * fs.blockSize) inode.iSize =
            fs.fsData.window (b * fs.blockSize) inode.iSize := hsame
        have hbefore : data.window (b * fs.blockSize) e.ofOffset =
            fs.fsData.window (b * fs.blockSize) e.ofOffset :=
          Region.window_sub hwindow (Nat.le_refl _) (by omega)
        have hafter : data.window (b * fs.blockSize + (e.ofOffset + bytes.length))
              (inode.iSize - (e.ofOffset + bytes.length)) =
            fs.fsData.window (b * fs.blockSize + (e.ofOffset + bytes.length))
              (inode.iSize - (e.ofOffset + bytes.length)) := by
          by_cases hend : e.ofOffset + bytes.length <= inode.iSize
          · exact Region.window_sub hwindow (by omega) (by omega)
          · have hrest : inode.iSize - (e.ofOffset + bytes.length) = 0 := by omega
            rw [hrest, Region.window_zero, Region.window_zero]
        exact congrArg₂ (· ++ bytes ++ ·) hbefore hafter
    · rw [hst.inode_other hmk] at hinode1
      have hsame := h.file hold hinode1
      rcases hinv.inode_of_listed hold with ⟨_, htaken, _, inode2, hinode2, hfile⟩
      rw [Inv.inode_unique hinode2 hinode1] at hfile
      rcases hinv'.inode_of_listed (h.dir.listed.mpr hold) with
        ⟨_, htaken', _, inode3, hinode3, hfile'⟩
      rw [Inv.inode_unique hinode3 hinode1] at hfile'
      by_cases hclear : 0 < inode.iSize -> inode1.iDataBlock = inode.iDataBlock ->
          inode1.iSize <= e.ofOffset
      · rw [hst.bytes_other hinv hinode1 htaken hfile hclear, ← hsame]
        exact hst'.bytes_other hinv' hinode1 htaken' hfile' hclear
      · rw [Classical.not_imp, Classical.not_imp] at hclear
        rcases hclear with ⟨hpos, hb, hlt⟩
        rcases (hsafe hold hinode1).right hmk hpos hb with hbytes | hle
        · rw [hbytes]
          simp only [inodeBytes, Fs.withData, Fs.blockSize, hst.fsParams, hst.fsData] at hsame ⊢
          exact Region.window_overlay_congr hsame _ _
        · exact absurd hle hlt

theorem WriteStep.twin (h : Twin name fs data) (hinv : Inv made fs)
    (hinv' : Inv made' (fs.withData data)) {owns : Nat -> Prop} {fhandle : Int}
    {buffer buffer' : List UInt8} {toWrite : Nat}
    (hkeep : KeepsSecret name owns fs (.write fhandle buffer toWrite))
    (hlen : buffer'.length = buffer.length)
    (hown : buffer' = buffer ∨ forall fh : Nat, fhandle = fh -> ¬ owns fh)
    (hstep : WriteStep fs fhandle buffer toWrite r fs') :
    exists data', WriteStep (fs.withData data) fhandle buffer' toWrite r (fs'.withData data') ∧
      Twin name fs' data' := by
  have hbuffer : forall {fh n : Nat}, fhandle = fh -> owns fh ->
      buffer'.take n = buffer.take n := by
    intro fh n heq howns
    rcases hown with hsame | hother
    · rw [hsame]
    · exact absurd howns (hother fh heq)
  have hsafe : forall {fh k n : Nat} {e : OpenFileEntry} {inode : Inode}, fhandle = fh ->
      OpenAt fs fh e -> e.ofInumber = k -> fs.inodeTable[k]? = some inode ->
      clippedWrite fs.blockSize e.ofOffset toWrite = n -> n ≠ 0 ->
      forall {i m inode'}, Listed fs i name m -> fs.inodeTable[m]? = some inode' ->
        (m = k -> buffer'.take n = buffer.take n ∧ e.ofOffset <= inode.iSize) ∧
        (m ≠ k -> 0 < inode.iSize -> inode'.iDataBlock = inode.iDataBlock ->
          buffer'.take n = buffer.take n ∨ inode'.iSize <= e.ofOffset) := by
    intro fh k n e inode heq hopen hk hinode hn hne i m inode' hlisted hinode'
    rcases hkeep fh k i m e inode inode' heq hopen hk hinode (hn ▸ hne) hlisted hinode' with
      ⟨hself, hother⟩
    constructor
    · intro hmk
      exact ⟨hbuffer heq (hself hmk).left, (hself hmk).right⟩
    · intro hmk hpos hb
      exact (hother hmk hpos hb).imp_left (hbuffer heq)
  have hput : forall (fs1 : Fs) (fh k b n : Nat) (e : OpenFileEntry) (inode : Inode),
      (fs1.withData data).putBytes fh e k inode b (buffer'.take n) =
        (fs1.putBytes fh e k inode b (buffer.take n)).withData
          (data.overlay (b * fs1.blockSize + e.ofOffset) (buffer'.take n)) := by
    intro fs1 fh k b n e inode
    simp [Fs.putBytes, Fs.withData, Fs.blockSize, hlen]
  cases hstep with
  | notOpen hnot =>
      refine ⟨data, WriteStep.notOpen fun fh e heq hopen => ?_, h⟩
      exact hnot fh e heq (openAt_withData.mp hopen)
  | nothing heq hopen hn =>
      exact ⟨data, WriteStep.nothing heq (openAt_withData.mpr hopen) hn, h⟩
  | noSpace heq hopen hn hk hinode hzero hnone =>
      exact ⟨data, WriteStep.noSpace heq (openAt_withData.mpr hopen) hn hk hinode hzero hnone, h⟩
  | fresh heq hopen hn hne hk hinode hzero hfirst hint hbuf hregion =>
      rename_i fh k b n e inode
      have hopen' : OpenAt (fs.withData data) fh e := openAt_withData.mpr hopen
      have hlen1 : (buffer.take n).length = n := by simp [hbuf]
      have hfits := hinv.write_fits hopen hn hregion
      have hregion' : b * fs.blockSize + e.ofOffset + n <= data.size := by
        rw [h.dir.size]
        exact hregion
      have hst : Stored fs fh k b e inode (buffer.take n)
          ((fs.takeBlock b).putBytes fh e k inode b (buffer.take n)) :=
        Stored.fresh hopen hk hinode hzero hfirst hint (by omega) (by omega) (by omega)
      have hstep' := WriteStep.fresh heq hopen' hn hne hk hinode hzero hfirst
        hint (hlen.symm ▸ hbuf) hregion'
      exact ⟨_, hput (fs.takeBlock b) fh k b n e inode ▸ hstep',
        h.stored hinv hinv' hst (by simp [hlen]) (hsafe heq hopen hk hinode hn hne)⟩
  | inPlace heq hopen hn hne hk hinode hpos hb hbuf hregion =>
      rename_i fh k b n e inode
      have hopen' : OpenAt (fs.withData data) fh e := openAt_withData.mpr hopen
      have hlen1 : (buffer.take n).length = n := by simp [hbuf]
      have hfits := hinv.write_fits hopen hn hregion
      have hregion' : b * fs.blockSize + e.ofOffset + n <= data.size := by
        rw [h.dir.size]
        exact hregion
      have hst : Stored fs fh k b e inode (buffer.take n)
          (fs.putBytes fh e k inode b (buffer.take n)) :=
        Stored.inPlace hopen hk hinode hpos hb (by omega) (by omega) (by omega)
      have hstep' := WriteStep.inPlace heq hopen' hn hne hk hinode hpos hb
        (hlen.symm ▸ hbuf) hregion'
      exact ⟨_, hput fs fh k b n e inode ▸ hstep',
        h.stored hinv hinv' hst (by simp [hlen]) (hsafe heq hopen hk hinode hn hne)⟩

/-- A call of the second run returns what the first returned, and the owner's reads
return the same bytes. -/
theorem Step.twin (h : Twin name fs data) (hinv : Inv made fs)
    (hinv' : Inv made' (fs.withData data)) {owns : Nat -> Prop} {call call' : Call}
    (hcall : VariantCall owns call call') (hkeep : KeepsSecret name owns fs call)
    {reply : Reply} (hstep : Step fs call reply fs') :
    exists reply' data', Step (fs.withData data) call' reply' (fs'.withData data') ∧
      Twin name fs' data' ∧ reply'.ret = reply.ret ∧
        forall (fh len : Nat), call = .read fh len -> owns fh -> reply' = reply := by
  have hsame : (forall fhandle buffer toWrite, call ≠ .write fhandle buffer toWrite) ->
      call' = call := by
    intro hnot
    rcases hcall with heq | ⟨fhandle, buffer, _, toWrite, heq, _⟩
    · exact heq
    · exact absurd heq (hnot fhandle buffer toWrite)
  cases hstep with
  | «open» hopen =>
      rw [hsame (by simp)]
      rcases hopen.twin h hinv hinv' with ⟨data', hopen', h'⟩
      exact ⟨_, data', Step.open hopen', h', rfl, fun _ _ heq => by cases heq⟩
  | close hclose =>
      rw [hsame (by simp)]
      exact ⟨_, data, Step.close hclose.twin, h.sameStorage hclose.sameStorage, rfl,
        fun _ _ heq => by cases heq⟩
  | read hread =>
      rw [hsame (by simp)]
      rcases hread.twin h hinv hkeep with ⟨bytes', hread', h', hbytes⟩
      refine ⟨_, data, Step.read hread', h', rfl, fun fh len heq howns => ?_⟩
      cases heq
      rw [hbytes fh rfl howns]
  | write hwrite =>
      rename_i fhandle buffer toWrite r
      rcases hcall with heq | ⟨fhandle', buffer0, buffer', toWrite', heq, heq', hlen, hother⟩
      · rcases hwrite.twin h hinv hinv' hkeep rfl (Or.inl rfl) with ⟨data', hwrite', h'⟩
        rw [heq]
        exact ⟨_, data', Step.write hwrite', h', rfl, fun _ _ heq => by cases heq⟩
      · cases heq
        rcases hwrite.twin h hinv hinv' hkeep hlen (Or.inr hother) with ⟨data', hwrite', h'⟩
        rw [heq']
        exact ⟨_, data', Step.write hwrite', h', rfl, fun _ _ heq => by cases heq⟩
  | unlink hunlink =>
      rw [hsame (by simp)]
      rcases hunlink.twin h hinv hinv' with ⟨data', hunlink', h'⟩
      exact ⟨_, data', Step.unlink hunlink', h', rfl, fun _ _ heq => by cases heq⟩

end Twins

end TecnicoFs
