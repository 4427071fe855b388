import Mathlib.Data.Finset.Card
import TecnicoFs.Fs.Exactness

/-!
# Every call preserves the invariant

Each change of state is treated once: which parts of the invariant it leaves alone
follows from the frame lemmas, and the part it touches is proved again.  A step is
then a case analysis over the changes it can make.
-/

namespace TecnicoFs

open Library

variable {made : Nat -> Prop} {fs fs' : Fs}

/-!
## Cells of the allocation tables
-/

theorem set_taken_iff {t : List AllocationState} {k j : Nat} (hk : k < t.length) :
    (t.set k .taken)[j]? = some .taken <-> j = k ∨ t[j]? = some .taken := by
  rw [List.getElem?_set]
  by_cases hj : k = j
  · simp [hj, hj ▸ hk]
  · simp [hj, Ne.symm hj]

theorem set_free_iff {t : List AllocationState} {k j : Nat} :
    (t.set k .free)[j]? = some .taken <-> j ≠ k ∧ t[j]? = some .taken := by
  rw [List.getElem?_set]
  by_cases hj : k = j
  · simp [hj]
  · simp [hj, Ne.symm hj]

/-!
## Frames
-/

section Frames

variable {used : Nat}

theorem Listed.frame (fs fs' : Fs) (hparams : fs'.fsParams = fs.fsParams)
    (hslots : forall i, i < fs.maxDirEntries ->
      dInumber fs'.fsData i = dInumber fs.fsData i ∧ dName fs'.fsData i = dName fs.fsData i)
    {i k : Nat} {name : CStr} : Listed fs' i name k <-> Listed fs i name k := by
  have hmax : fs'.maxDirEntries = fs.maxDirEntries := by
    simp only [Fs.maxDirEntries, Fs.blockSize, hparams]
  constructor
  · intro h
    have hlt : i < fs.maxDirEntries := hmax ▸ h.lt
    exact ⟨hlt, h.entry.congr (hslots i hlt).left.symm (hslots i hlt).right.symm⟩
  · intro h
    exact ⟨hmax ▸ h.lt, h.entry.congr (hslots i h.lt).left (hslots i h.lt).right⟩

theorem Listed.sameData (fs fs' : Fs) (hparams : fs'.fsParams = fs.fsParams)
    (hdata : fs'.fsData = fs.fsData) {i k : Nat} {name : CStr} :
    Listed fs' i name k <-> Listed fs i name k := by
  apply Listed.frame fs fs' hparams
  intro i _
  rw [hdata]
  exact ⟨rfl, rfl⟩

theorem Layout.frame (h : Layout fs) (hparams : fs'.fsParams = fs.fsParams)
    (hinodes : fs'.freeinodeTs.length = fs.freeinodeTs.length)
    (hblocks : fs'.freeBlocks.length = fs.freeBlocks.length)
    (hhandles : fs'.freeOpenFileEntries.length = fs.freeOpenFileEntries.length)
    (hsize : fs'.fsData.size = fs.fsData.size)
    (hroot : fs'.inodeTable[0]? = fs.inodeTable[0]?)
    (htaken : InodeTaken fs' 0) (hblock : BlockTaken fs' 0) : Layout fs' where
  blockPos := by
    rw [Fs.blockSize, hparams]
    exact h.blockPos
  inodeCells := by
    rw [hinodes, h.inodeCells, Fs.inodeTableSize, Fs.inodeTableSize, hparams]
  blockCells := by
    rw [hblocks, h.blockCells, Fs.dataBlocks, Fs.dataBlocks, hparams]
  handleCells := by
    rw [hhandles, h.handleCells, Fs.maxOpenFiles, Fs.maxOpenFiles, hparams]
  dataSmall := by
    rw [hsize]
    exact h.dataSmall
  rootInode := by
    rw [hroot, h.rootInode, Fs.blockSize, Fs.blockSize, hparams]
  rootTaken := htaken
  rootBlock := hblock

/-- The directory depends on its slots and on the set of taken inodes. -/
theorem RootDirectory.frame (h : RootDirectory fs used)
    (hparams : fs'.fsParams = fs.fsParams) (hsize : fs'.fsData.size = fs.fsData.size)
    (hslots : forall i, i < fs.maxDirEntries ->
      dInumber fs'.fsData i = dInumber fs.fsData i ∧ dName fs'.fsData i = dName fs.fsData i)
    (htaken : forall k, InodeTaken fs' k <-> InodeTaken fs k) : RootDirectory fs' used := by
  have hmax : fs'.maxDirEntries = fs.maxDirEntries := by
    simp only [Fs.maxDirEntries, Fs.blockSize, hparams]
  have hlisted : forall {i k : Nat} {name : CStr},
      Listed fs' i name k <-> Listed fs i name k := Listed.frame fs fs' hparams hslots
  have hshape := h.shape
  constructor
  · rw [hmax]
    constructor
    · rw [hsize]
      exact hshape.inRegion
    · exact hshape.usedLe
    · intro i hlo hhi
      rw [(hslots i hhi).left]
      exact hshape.unused i hlo hhi
    · intro i hi
      have hlt : i < fs.maxDirEntries := Nat.lt_of_lt_of_le hi hshape.usedLe
      rw [(hslots i hlt).left, (hslots i hlt).right]
      rcases hshape.slots i hi with hfree | ⟨name, k, hentry⟩
      · exact Or.inl hfree
      · exact Or.inr ⟨name, k, hentry.congr (hslots i hlt).left (hslots i hlt).right⟩
  · exact h.usedInt
  · intro i j name k k' hi hj
    exact h.nameInj (hlisted.mp hi) (hlisted.mp hj)
  · intro i j name name' k hi hj
    exact h.inodeInj (hlisted.mp hi) (hlisted.mp hj)
  · intro i name k hi
    rcases h.inodeTaken (hlisted.mp hi) with ⟨hne, hk⟩
    exact ⟨hne, (htaken k).mpr hk⟩
  · intro k hk hne
    rcases h.takenListed ((htaken k).mp hk) hne with ⟨i, name, hi⟩
    exact ⟨i, name, hlisted.mpr hi⟩

theorem UsableBlock.frame {b : Nat} (h : UsableBlock fs b)
    (hparams : fs'.fsParams = fs.fsParams) (hsize : fs'.fsData.size = fs.fsData.size) :
    UsableBlock fs' b where
  pos := h.pos
  lt := by
    rw [Fs.dataBlocks, hparams]
    exact h.lt
  start := by
    rw [Fs.blockSize, hparams, hsize]
    exact h.start

theorem FileInode.frame {inode : Inode} (h : FileInode fs inode)
    (hparams : fs'.fsParams = fs.fsParams) (hsize : fs'.fsData.size = fs.fsData.size) :
    FileInode fs' inode where
  type := h.type
  size := by
    rw [Fs.blockSize, hparams]
    exact h.size
  block := by
    rcases h.block with hnone | ⟨b, hb, husable⟩
    · exact Or.inl hnone
    · exact Or.inr ⟨b, hb, husable.frame hparams hsize⟩

theorem Storage.frame (h : Storage made fs) (hparams : fs'.fsParams = fs.fsParams)
    (hsize : fs'.fsData.size = fs.fsData.size) (hinodes : fs'.inodeTable = fs.inodeTable)
    (htaken : fs'.freeinodeTs = fs.freeinodeTs) (hblocks : fs'.freeBlocks = fs.freeBlocks) :
    Storage made fs' := by
  have hinode : forall {k}, InodeTaken fs' k -> InodeTaken fs k := by
    intro k hk
    rw [InodeTaken, htaken] at hk
    exact hk
  have hblock : forall {b}, BlockTaken fs' b <-> BlockTaken fs b := by
    intro b
    rw [BlockTaken, BlockTaken, hblocks]
  constructor
  · intro k hk
    exact h.takenMade (hinode hk)
  · intro k hk
    rcases h.madeInode hk with ⟨hne, hint, hlt, inode, hget, hfile⟩
    rw [Fs.inodeTableSize, hparams, hinodes]
    exact ⟨hne, hint, hlt, inode, hget, hfile.frame hparams hsize⟩
  · intro k inode b hk
    rw [hinodes, hblock]
    exact h.blockOwned (hinode hk)
  · intro k k' inode inode' hk hk'
    rw [hinodes]
    exact h.blockInj (hinode hk) (hinode hk')
  · intro b hb
    exact h.blockInt (hblock.mp hb)
  · intro b hb hb0
    rw [hsize, Fs.blockSize, hparams]
    exact h.blockStart (hblock.mp hb) hb0

theorem OpenAt.frame (fs fs' : Fs) (hparams : fs'.fsParams = fs.fsParams)
    (htable : fs'.openFileTable = fs.openFileTable)
    (hfree : fs'.freeOpenFileEntries = fs.freeOpenFileEntries) {fh : Nat}
    {e : OpenFileEntry} : OpenAt fs' fh e <-> OpenAt fs fh e := by
  have hmax : fs'.maxOpenFiles = fs.maxOpenFiles := by
    rw [Fs.maxOpenFiles, Fs.maxOpenFiles, hparams]
  constructor
  · rintro ⟨hlt, htaken, hentry⟩
    exact ⟨hmax ▸ hlt, hfree ▸ htaken, htable ▸ hentry⟩
  · rintro ⟨hlt, htaken, hentry⟩
    exact ⟨hmax ▸ hlt, hfree ▸ htaken, htable ▸ hentry⟩

theorem Handles.frame {made' : Nat -> Prop} (h : Handles made fs)
    (hmono : forall k, made k -> made' k) (hparams : fs'.fsParams = fs.fsParams)
    (htable : fs'.openFileTable = fs.openFileTable)
    (hfree : fs'.freeOpenFileEntries = fs.freeOpenFileEntries) : Handles made' fs' := by
  constructor
  · intro fh e hopen
    rcases h.openMade ((OpenAt.frame fs fs' hparams htable hfree).mp hopen) with ⟨k, hk, hmade⟩
    exact ⟨k, hk, hmono k hmade⟩
  · intro fh e hopen
    exact h.offset ((OpenAt.frame fs fs' hparams htable hfree).mp hopen)
  · intro fh htaken
    rw [hfree] at htaken
    rw [htable]
    exact h.handleInt htaken

end Frames

/-!
## The open-file table
-/

theorem openAt_addHandle {fh j : Nat} {e e' : OpenFileEntry}
    (hlt : fh < fs.freeOpenFileEntries.length) (htable : fh < fs.openFileTable.length)
    (hmax : fh < fs.maxOpenFiles) :
    OpenAt (fs.addHandle fh e) j e' <->
      (j = fh ∧ e' = e) ∨ (j ≠ fh ∧ OpenAt fs j e') := by
  by_cases hj : j = fh
  · constructor
    · rintro ⟨_, _, hentry⟩
      simp only [Fs.addHandle, hj, List.getElem?_set_self htable] at hentry
      exact Or.inl ⟨hj, (Option.some.inj hentry).symm⟩
    · rintro (⟨_, he⟩ | ⟨hne, _⟩)
      · rw [hj, he]
        exact ⟨hmax, by simp [Fs.addHandle, hlt], by simp [Fs.addHandle, htable]⟩
      · exact absurd hj hne
  · have hne : fh ≠ j := Ne.symm hj
    constructor
    · rintro ⟨hlt', htaken, hentry⟩
      simp only [Fs.addHandle, List.getElem?_set_ne hne] at htaken hentry
      exact Or.inr ⟨hj, hlt', htaken, hentry⟩
    · rintro (⟨heq, _⟩ | ⟨_, hlt', htaken, hentry⟩)
      · exact absurd heq hj
      · refine ⟨hlt', ?_, ?_⟩
        · simpa only [Fs.addHandle, List.getElem?_set_ne hne] using htaken
        · simpa only [Fs.addHandle, List.getElem?_set_ne hne] using hentry

theorem openAt_dropHandle {fh j : Nat} {e : OpenFileEntry} :
    OpenAt (fs.dropHandle fh) j e <-> j ≠ fh ∧ OpenAt fs j e := by
  constructor
  · rintro ⟨hlt, htaken, hentry⟩
    rcases set_free_iff.mp htaken with ⟨hne, hj⟩
    exact ⟨hne, hlt, hj, hentry⟩
  · rintro ⟨hne, hlt, htaken, hentry⟩
    exact ⟨hlt, set_free_iff.mpr ⟨hne, htaken⟩, hentry⟩

theorem openAt_setEntry {fh j : Nat} {e e' : OpenFileEntry} {e0 : OpenFileEntry}
    (hopen : OpenAt fs fh e0) :
    OpenAt (fs.setEntry fh e) j e' <->
      (j = fh ∧ e' = e) ∨ (j ≠ fh ∧ OpenAt fs j e') := by
  have htable := getElem?_lt hopen.entry
  by_cases hj : j = fh
  · constructor
    · rintro ⟨_, _, hentry⟩
      simp only [Fs.setEntry, hj, List.getElem?_set_self htable] at hentry
      exact Or.inl ⟨hj, (Option.some.inj hentry).symm⟩
    · rintro (⟨_, he⟩ | ⟨hne, _⟩)
      · rw [hj, he]
        exact ⟨hopen.lt, hopen.taken, by simp [Fs.setEntry, htable]⟩
      · exact absurd hj hne
  · have hne : fh ≠ j := Ne.symm hj
    constructor
    · rintro ⟨hlt, htaken, hentry⟩
      simp only [Fs.setEntry, List.getElem?_set_ne hne] at hentry
      exact Or.inr ⟨hj, hlt, htaken, hentry⟩
    · rintro (⟨heq, _⟩ | ⟨_, hlt, htaken, hentry⟩)
      · exact absurd heq hj
      · refine ⟨hlt, htaken, ?_⟩
        simpa only [Fs.setEntry, List.getElem?_set_ne hne] using hentry

namespace Inv

theorem firstFree_handle (h : Inv made fs) {fh : Nat}
    (hfirst : FirstAt fs.freeOpenFileEntries (intLoopBound fs.maxOpenFiles) .free fh) :
    fh < intLimit ∧ fh < fs.maxOpenFiles ∧ fh < fs.freeOpenFileEntries.length := by
  have hlt := hfirst.left
  have hcells := h.layout.handleCells
  simp only [intLoopBound] at hlt
  omega

theorem addHandle (h : Inv made fs) {fh k offset : Nat} (hk : made k)
    (hoffset : offset < sizeMod)
    (hfirst : FirstAt fs.freeOpenFileEntries (intLoopBound fs.maxOpenFiles) .free fh)
    (htable : fh < fs.openFileTable.length) :
    Inv made (fs.addHandle fh ⟨k, offset⟩) := by
  rcases h.firstFree_handle hfirst with ⟨hint, hmax, hlt⟩
  rcases h.directory with ⟨used, hdir⟩
  constructor
  · exact h.layout.frame rfl rfl rfl (by simp [Fs.addHandle]) rfl rfl h.layout.rootTaken
      h.layout.rootBlock
  · exact ⟨used, hdir.frame rfl rfl (fun _ _ => ⟨rfl, rfl⟩) (fun _ => Iff.rfl)⟩
  · exact h.storage.frame rfl rfl rfl rfl rfl
  · constructor
    · intro j e hopen
      rcases (openAt_addHandle hlt htable hmax).mp hopen with ⟨_, he⟩ | ⟨_, hold⟩
      · exact ⟨k, by rw [he], hk⟩
      · exact h.handles.openMade hold
    · intro j e hopen
      rcases (openAt_addHandle hlt htable hmax).mp hopen with ⟨_, he⟩ | ⟨_, hold⟩
      · rw [he]
        exact hoffset
      · exact h.handles.offset hold
    · intro j hj
      have htaken : (fs.freeOpenFileEntries.set fh .taken)[j]? = some .taken := hj
      simp only [Fs.addHandle, List.length_set]
      rcases (set_taken_iff hlt).mp htaken with heq | hold
      · rw [heq]
        exact ⟨hint, htable⟩
      · exact h.handles.handleInt hold

theorem dropHandle (h : Inv made fs) (fh : Nat) : Inv made (fs.dropHandle fh) := by
  rcases h.directory with ⟨used, hdir⟩
  constructor
  · exact h.layout.frame rfl rfl rfl (by simp [Fs.dropHandle]) rfl rfl h.layout.rootTaken
      h.layout.rootBlock
  · exact ⟨used, hdir.frame rfl rfl (fun _ _ => ⟨rfl, rfl⟩) (fun _ => Iff.rfl)⟩
  · exact h.storage.frame rfl rfl rfl rfl rfl
  · constructor
    · intro j e hopen
      exact h.handles.openMade (openAt_dropHandle.mp hopen).right
    · intro j e hopen
      exact h.handles.offset (openAt_dropHandle.mp hopen).right
    · intro j hj
      exact h.handles.handleInt (set_free_iff.mp hj).right

theorem setEntry (h : Inv made fs) {fh : Nat} {e : OpenFileEntry} (hopen : OpenAt fs fh e)
    {offset : Nat} (hoffset : offset < sizeMod) :
    Inv made (fs.setEntry fh { e with ofOffset := offset }) := by
  rcases h.directory with ⟨used, hdir⟩
  constructor
  · exact h.layout.frame rfl rfl rfl rfl rfl rfl h.layout.rootTaken h.layout.rootBlock
  · exact ⟨used, hdir.frame rfl rfl (fun _ _ => ⟨rfl, rfl⟩) (fun _ => Iff.rfl)⟩
  · exact h.storage.frame rfl rfl rfl rfl rfl
  · constructor
    · intro j e' hopen'
      rcases (openAt_setEntry hopen).mp hopen' with ⟨_, he⟩ | ⟨_, hold⟩
      · rcases h.handles.openMade hopen with ⟨k, hk, hmade⟩
        rw [he]
        exact ⟨k, hk, hmade⟩
      · exact h.handles.openMade hold
    · intro j e' hopen'
      rcases (openAt_setEntry hopen).mp hopen' with ⟨_, he⟩ | ⟨_, hold⟩
      · rw [he]
        exact hoffset
      · exact h.handles.offset hold
    · intro j hj
      simp only [Fs.setEntry, List.length_set]
      exact h.handles.handleInt hj

end Inv

/-!
## Inodes and blocks
-/

namespace Inv

/-- The truncated inode is the only one that held its block. -/
theorem cutInode (h : Inv made fs) {k b : Nat} {inode : Inode} (hne : k ≠ 0)
    (htaken : InodeTaken fs k) (hk : fs.inodeTable[k]? = some inode)
    (hpos : 0 < inode.iSize) (hb : inode.iDataBlock = b) : Inv made (fs.cutInode k b inode) := by
  rcases h.directory with ⟨used, hdir⟩
  have hklt := getElem?_lt hk
  have hmade := h.storage.takenMade htaken hne
  have hget : forall {j inode'}, (fs.cutInode k b inode).inodeTable[j]? = some inode' ->
      (j = k ∧ inode' = { inode with iSize := 0 }) ∨
        (j ≠ k ∧ fs.inodeTable[j]? = some inode') := by
    intro j inode' hj
    by_cases hjk : j = k
    · simp only [Fs.cutInode, hjk, List.getElem?_set_self hklt] at hj
      exact Or.inl ⟨hjk, (Option.some.inj hj).symm⟩
    · simp only [Fs.cutInode, List.getElem?_set_ne (Ne.symm hjk)] at hj
      exact Or.inr ⟨hjk, hj⟩
  have hfile : FileInode fs inode := by
    rcases (h.storage.madeInode hmade).right.right.right with ⟨inode', hk', hfile⟩
    exact inode_unique hk' hk ▸ hfile
  have husable := h.block_of_size hfile hpos hb
  constructor
  · refine h.layout.frame rfl rfl (by simp [Fs.cutInode]) rfl rfl ?_ h.layout.rootTaken ?_
    · simp only [Fs.cutInode, List.getElem?_set_ne hne]
    · have hroot : 0 ≠ b := by
        have hpos := husable.pos
        omega
      exact set_free_iff.mpr ⟨hroot, h.layout.rootBlock⟩
  · exact ⟨used, hdir.frame rfl rfl (fun _ _ => ⟨rfl, rfl⟩) (fun _ => Iff.rfl)⟩
  · constructor
    · exact h.storage.takenMade
    · intro j hj
      rcases h.storage.madeInode hj with ⟨hj0, hint, hlt, inode', hget', hfile'⟩
      refine ⟨hj0, hint, hlt, ?_⟩
      by_cases hjk : j = k
      · refine ⟨{ inode with iSize := 0 }, ?_, hfile.type, Nat.zero_le _, ?_⟩
        · simp only [Fs.cutInode, hjk, List.getElem?_set_self hklt]
        · exact Or.inr ⟨b, hb, husable.frame rfl rfl⟩
      · refine ⟨inode', ?_, hfile'.frame rfl rfl⟩
        simp only [Fs.cutInode, List.getElem?_set_ne (Ne.symm hjk)]
        exact hget'
    · intro j inode' c hj hinode' hpos' hc
      rcases hget hinode' with ⟨_, hcut⟩ | ⟨hjk, hold⟩
      · rw [hcut] at hpos'
        exact absurd hpos' (Nat.lt_irrefl 0)
      · refine set_free_iff.mpr ⟨fun hcb => ?_, h.storage.blockOwned hj hold hpos' hc⟩
        have hsame : inode'.iDataBlock = inode.iDataBlock := by rw [hc, hb, hcb]
        exact hjk (h.storage.blockInj hj htaken hold hk hpos' hpos hsame)
    · intro j j' inode1 inode2 hj hj' hinode1 hinode2 hpos1 hpos2 hsame
      rcases hget hinode1 with ⟨_, hcut⟩ | ⟨_, hold1⟩
      · rw [hcut] at hpos1
        exact absurd hpos1 (Nat.lt_irrefl 0)
      · rcases hget hinode2 with ⟨_, hcut⟩ | ⟨_, hold2⟩
        · rw [hcut] at hpos2
          exact absurd hpos2 (Nat.lt_irrefl 0)
        · exact h.storage.blockInj hj hj' hold1 hold2 hpos1 hpos2 hsame
    · intro c hc
      exact h.storage.blockInt (set_free_iff.mp hc).right
    · intro c hc hc0
      exact h.storage.blockStart (set_free_iff.mp hc).right hc0
  · exact h.handles.frame (fun _ hj => hj) rfl rfl rfl

/-- What an inode table says once inode `k` has become an empty file. -/
theorem storage_emptyFile (h : Inv made fs) {k : Nat} (hne : k ≠ 0) (hint : k < intLimit)
    (hmax : k < fs.inodeTableSize) (hlt : k < fs.inodeTable.length)
    (hparams : fs'.fsParams = fs.fsParams) (hsize : fs'.fsData.size = fs.fsData.size)
    (hinodes : fs'.inodeTable = fs.inodeTable.set k Fs.emptyFile)
    (hblocks : fs'.freeBlocks = fs.freeBlocks)
    (htaken : forall j, InodeTaken fs' j -> j = k ∨ InodeTaken fs j) :
    Storage (fun j => made j ∨ j = k) fs' := by
  have hold : forall {j inode}, InodeTaken fs' j -> fs'.inodeTable[j]? = some inode ->
      0 < inode.iSize -> InodeTaken fs j ∧ fs.inodeTable[j]? = some inode := by
    intro j inode hj hinode hpos
    rw [hinodes] at hinode
    by_cases hjk : j = k
    · rw [hjk, List.getElem?_set_self hlt] at hinode
      cases hinode
      exact absurd hpos (Nat.lt_irrefl 0)
    · rw [List.getElem?_set_ne (Ne.symm hjk)] at hinode
      rcases htaken j hj with heq | hj'
      · exact absurd heq hjk
      · exact ⟨hj', hinode⟩
  have hblock : forall {b}, BlockTaken fs' b <-> BlockTaken fs b := by
    intro b
    rw [BlockTaken, BlockTaken, hblocks]
  constructor
  · intro j hj hj0
    rcases htaken j hj with heq | hj'
    · exact Or.inr heq
    · exact Or.inl (h.storage.takenMade hj' hj0)
  · intro j hj
    rw [Fs.inodeTableSize, hparams, hinodes]
    by_cases hjk : j = k
    · rw [hjk, List.getElem?_set_self hlt]
      exact ⟨hne, hint, hmax, Fs.emptyFile, rfl, rfl, Nat.zero_le _, Or.inl ⟨rfl, rfl⟩⟩
    · rcases hj with hmade | heq
      · rcases h.storage.madeInode hmade with ⟨hj0, hjint, hjlt, inode, hget, hfile⟩
        rw [List.getElem?_set_ne (Ne.symm hjk)]
        exact ⟨hj0, hjint, hjlt, inode, hget, hfile.frame hparams hsize⟩
      · exact absurd heq hjk
  · intro j inode b hj hinode hpos hb
    rcases hold hj hinode hpos with ⟨hj', hinode'⟩
    exact hblock.mpr (h.storage.blockOwned hj' hinode' hpos hb)
  · intro j j' inode inode' hj hj' hinode hinode' hpos hpos'
    rcases hold hj hinode hpos with ⟨h1, h2⟩
    rcases hold hj' hinode' hpos' with ⟨h3, h4⟩
    exact h.storage.blockInj h1 h3 h2 h4 hpos hpos'
  · intro b hb
    exact h.storage.blockInt (hblock.mp hb)
  · intro b hb hb0
    rw [hsize, Fs.blockSize, hparams]
    exact h.storage.blockStart (hblock.mp hb) hb0

theorem resetInode (h : Inv made fs) {k : Nat}
    (hfirst : FirstAt fs.freeinodeTs fs.inodeTableSize .free k) (hint : k < intLimit)
    (hlt : k < fs.inodeTable.length) : Inv (fun j => made j ∨ j = k) (fs.resetInode k) := by
  rcases h.directory with ⟨used, hdir⟩
  have hne := firstFree_ne_zero h.layout hfirst
  constructor
  · refine h.layout.frame rfl rfl rfl rfl rfl ?_ h.layout.rootTaken h.layout.rootBlock
    simp only [Fs.resetInode, List.getElem?_set_ne hne]
  · exact ⟨used, hdir.frame rfl rfl (fun _ _ => ⟨rfl, rfl⟩) (fun _ => Iff.rfl)⟩
  · exact h.storage_emptyFile hne hint hfirst.left hlt rfl rfl rfl rfl (fun _ hj => Or.inr hj)
  · exact h.handles.frame (fun _ hj => Or.inl hj) rfl rfl rfl

/-- The slots below a free slot hold distinct inodes, so there are fewer of them
than there are inode numbers. -/
theorem freeSlot_int {used : Nat} (hdir : RootDirectory fs used) (h : Inv made fs) {j k : Nat}
    (hslot : FreeSlot fs.fsData fs.maxDirEntries j) (hk : k ≠ 0) (hint : k < intLimit)
    (hfree : ¬ InodeTaken fs k) : j + 1 < intLimit := by
  have hslots : forall i, i < j -> exists m name, Listed fs i name m ∧ m ≠ 0 ∧ m ≠ k ∧
      m < intLimit := by
    intro i hi
    have hlt : i < fs.maxDirEntries := Nat.lt_trans hi hslot.left
    rcases hdir.shape.entry_of_occupied hlt (hslot.right.right i hi) with ⟨name, m, hentry⟩
    have hlisted : Listed fs i name m := ⟨hlt, hentry⟩
    rcases hdir.inodeTaken hlisted with ⟨hm, htaken⟩
    have hmade := h.storage.takenMade htaken hm
    refine ⟨m, name, hlisted, hm, ?_, (h.storage.madeInode hmade).right.left⟩
    intro hmk
    exact hfree (hmk ▸ htaken)
  choose! inode hinode using hslots
  have hmaps : Set.MapsTo inode (Finset.range j : Set Nat)
      (((Finset.range intLimit).erase 0).erase k : Set Nat) := by
    intro i hi
    rcases hinode i (Finset.mem_range.mp hi) with ⟨name, _, hm, hmk, hmlt⟩
    simp only [Finset.coe_erase, Set.mem_sdiff, Finset.mem_coe, Finset.mem_range,
      Set.mem_singleton_iff]
    exact ⟨⟨hmlt, hm⟩, hmk⟩
  have hinj : Set.InjOn inode (Finset.range j : Set Nat) := by
    intro i hi i' hi' heq
    rcases hinode i (Finset.mem_range.mp hi) with ⟨name, hlisted, _⟩
    rcases hinode i' (Finset.mem_range.mp hi') with ⟨name', hlisted', _⟩
    rw [← heq] at hlisted'
    exact hdir.inodeInj hlisted hlisted'
  have hcard := Finset.card_le_card_of_injOn inode hmaps hinj
  have hmem : k ∈ (Finset.range intLimit).erase 0 := by
    simp [hk, hint]
  have hzero : 0 ∈ Finset.range intLimit := Finset.mem_range.mpr (by decide)
  rw [Finset.card_range, Finset.card_erase_of_mem hmem, Finset.card_erase_of_mem hzero,
    Finset.card_range] at hcard
  have hlimit : 2 < intLimit := by decide
  omega

/-- The listed entries after a creation: the new one and those before it. -/
theorem listed_createFile {i j k m : Nat} {name held : CStr} (hfits : FitsEntry name)
    (hint : k < intLimit) (hslot : FreeSlot fs.fsData fs.maxDirEntries j) :
    Listed (fs.createFile j name k) i held m <->
      (i = j ∧ held = name ∧ m = k) ∨ (i ≠ j ∧ Listed fs i held m) := by
  have hnew := enterSlot_entry fs.fsData j hfits hint
  have hsame := enterSlot_same fs.fsData j name k
  by_cases hij : i = j
  · constructor
    · rintro ⟨_, hentry⟩
      rw [hij] at hentry
      rcases hentry.name_unique hnew with ⟨hname, hm⟩
      exact Or.inl ⟨hij, hname, hm⟩
    · rintro (⟨_, hname, hm⟩ | ⟨hne, _⟩)
      · rw [hij, hname, hm]
        exact ⟨hslot.left, hnew⟩
      · exact absurd hij hne
  · constructor
    · rintro ⟨hlt, hentry⟩
      exact Or.inr ⟨hij, hlt, (hsame.entry_iff hij).mp hentry⟩
    · rintro (⟨heq, _⟩ | ⟨_, hlt, hentry⟩)
      · exact absurd heq hij
      · exact ⟨hlt, (hsame.entry_iff hij).mpr hentry⟩

theorem createFile (h : Inv made fs) {j k : Nat} {name : CStr} (habsent : Absent fs name)
    (hfirst : FirstAt fs.freeinodeTs fs.inodeTableSize .free k) (hint : k < intLimit)
    (hlt : k < fs.inodeTable.length) (hfits : FitsEntry name)
    (hslot : FreeSlot fs.fsData fs.maxDirEntries j) :
    Inv (fun m => made m ∨ m = k) (fs.createFile j name k) := by
  rcases h.directory with ⟨used, hdir⟩
  have hne := firstFree_ne_zero h.layout hfirst
  have hklt := getElem?_lt hfirst.right.left
  have hfree : ¬ InodeTaken fs k := by
    intro htaken
    rw [InodeTaken, hfirst.right.left] at htaken
    cases htaken
  have htaken : forall m, InodeTaken (fs.createFile j name k) m <-> m = k ∨ InodeTaken fs m :=
    fun m => set_taken_iff hklt
  have hlisted : forall {i m : Nat} {held : CStr},
      Listed (fs.createFile j name k) i held m <->
        (i = j ∧ held = name ∧ m = k) ∨ (i ≠ j ∧ Listed fs i held m) :=
    listed_createFile hfits hint hslot
  constructor
  · refine h.layout.frame rfl ?_ rfl rfl rfl ?_ ((htaken 0).mpr (Or.inr h.layout.rootTaken))
      h.layout.rootBlock
    · simp [Fs.createFile, Fs.takeInode]
    · simp only [Fs.createFile, Fs.takeInode, List.getElem?_set_ne hne]
  · refine ⟨max used (j + 1), hdir.shape.enter hslot hfits hint, ?_, ?_, ?_, ?_, ?_⟩
    · have hused := hdir.usedInt
      have hj := freeSlot_int hdir h hslot hne hint hfree
      omega
    · intro i i' held m m' hi hi'
      rcases hlisted.mp hi with ⟨heq, hname, _⟩ | ⟨_, hold⟩
      · rcases hlisted.mp hi' with ⟨heq', _⟩ | ⟨_, hold'⟩
        · rw [heq, heq']
        · exact absurd (hname ▸ hold') (habsent i' m')
      · rcases hlisted.mp hi' with ⟨_, hname', _⟩ | ⟨_, hold'⟩
        · exact absurd (hname' ▸ hold) (habsent i m)
        · exact hdir.nameInj hold hold'
    · intro i i' held held' m hi hi'
      rcases hlisted.mp hi with ⟨heq, _, hm⟩ | ⟨_, hold⟩
      · rcases hlisted.mp hi' with ⟨heq', _⟩ | ⟨_, hold'⟩
        · rw [heq, heq']
        · exact absurd (hm ▸ (hdir.inodeTaken hold').right) hfree
      · rcases hlisted.mp hi' with ⟨_, _, hm'⟩ | ⟨_, hold'⟩
        · exact absurd (hm' ▸ (hdir.inodeTaken hold).right) hfree
        · exact hdir.inodeInj hold hold'
    · intro i held m hi
      rcases hlisted.mp hi with ⟨_, _, hm⟩ | ⟨_, hold⟩
      · exact ⟨hm ▸ hne, (htaken m).mpr (Or.inl hm)⟩
      · rcases hdir.inodeTaken hold with ⟨hm, htaken'⟩
        exact ⟨hm, (htaken m).mpr (Or.inr htaken')⟩
    · intro m hm hm0
      rcases (htaken m).mp hm with heq | hold
      · exact ⟨j, name, hlisted.mpr (Or.inl ⟨rfl, rfl, heq⟩)⟩
      · rcases hdir.takenListed hold hm0 with ⟨i, held, hi⟩
        refine ⟨i, held, hlisted.mpr (Or.inr ⟨?_, hi⟩)⟩
        intro heq
        exact hi.entry.ne_free (heq ▸ hslot.right.left)
  · exact h.storage_emptyFile hne hint hfirst.left hlt rfl rfl rfl rfl (fun m => (htaken m).mp)
  · exact h.handles.frame (fun _ hm => Or.inl hm) rfl rfl rfl

/-- The listed entries after a removal: all but the removed one. -/
theorem listed_removeFile {i j k m : Nat} {inode : Inode} {held : CStr} :
    Listed (fs.removeFile i k inode) j held m <-> j ≠ i ∧ Listed fs j held m := by
  have hsame := eraseSlot_same fs.fsData i
  by_cases hij : j = i
  · constructor
    · rintro ⟨_, hentry⟩
      rw [hij] at hentry
      exact absurd (eraseSlot_cleared fs.fsData i).left hentry.ne_free
    · rintro ⟨hne, _⟩
      exact absurd hij hne
  · constructor
    · rintro ⟨hlt, hentry⟩
      exact ⟨hij, hlt, (hsame.entry_iff hij).mp hentry⟩
    · rintro ⟨_, hlt, hentry⟩
      exact ⟨hlt, (hsame.entry_iff hij).mpr hentry⟩

theorem blockTaken_removeFile {i k b : Nat} {inode : Inode} :
    BlockTaken (fs.removeFile i k inode) b <->
      ¬ (0 < inode.iSize ∧ b = inode.iDataBlock.toNat) ∧ BlockTaken fs b := by
  by_cases hpos : 0 < inode.iSize
  · simp only [BlockTaken, Fs.removeFile, Fs.dropInode, hpos, if_true, true_and]
    exact set_free_iff
  · simp [BlockTaken, Fs.removeFile, Fs.dropInode, hpos]

theorem removeFile (h : Inv made fs) {i k : Nat} {name : CStr} {inode : Inode}
    (hlisted : Listed fs i name k) (hk : fs.inodeTable[k]? = some inode) :
    Inv made (fs.removeFile i k inode) := by
  rcases h.directory with ⟨used, hdir⟩
  rcases h.inode_of_listed hlisted with ⟨hne, htakenk, _, inode', hk', hfile⟩
  rw [inode_unique hk' hk] at hfile
  have htaken : forall m, InodeTaken (fs.removeFile i k inode) m <-> m ≠ k ∧ InodeTaken fs m :=
    fun m => set_free_iff
  have hblock : forall {b}, BlockTaken (fs.removeFile i k inode) b <->
      ¬ (0 < inode.iSize ∧ b = inode.iDataBlock.toNat) ∧ BlockTaken fs b :=
    blockTaken_removeFile
  constructor
  · refine h.layout.frame rfl ?_ ?_ rfl rfl rfl
      ((htaken 0).mpr ⟨Ne.symm hne, h.layout.rootTaken⟩) (hblock.mpr ⟨?_, h.layout.rootBlock⟩)
    · simp [Fs.removeFile, Fs.dropInode]
    · by_cases hpos : 0 < inode.iSize <;> simp [Fs.removeFile, Fs.dropInode, hpos]
    · rintro ⟨hpos, hzero⟩
      rcases h.usable_of_size hfile hpos with ⟨b, hb, husable⟩
      have hbpos := husable.pos
      omega
  · refine ⟨used, hdir.shape.erase (hdir.shape.occupied_lt hlisted.lt hlisted.entry.ne_free),
      hdir.usedInt, ?_, ?_, ?_, ?_⟩
    · intro j j' held m m' hj hj'
      exact hdir.nameInj (listed_removeFile.mp hj).right (listed_removeFile.mp hj').right
    · intro j j' held held' m hj hj'
      exact hdir.inodeInj (listed_removeFile.mp hj).right (listed_removeFile.mp hj').right
    · intro j held m hj
      rcases listed_removeFile.mp hj with ⟨hji, hold⟩
      rcases hdir.inodeTaken hold with ⟨hm, hmtaken⟩
      refine ⟨hm, (htaken m).mpr ⟨fun hmk => ?_, hmtaken⟩⟩
      exact hji (hdir.inodeInj hold (hmk ▸ hlisted))
    · intro m hm hm0
      rcases (htaken m).mp hm with ⟨hmk, hold⟩
      rcases hdir.takenListed hold hm0 with ⟨j, held, hj⟩
      refine ⟨j, held, listed_removeFile.mpr ⟨fun hji => ?_, hj⟩⟩
      rw [hji] at hj
      exact hmk (hj.entry.name_unique hlisted.entry).right
  · constructor
    · intro m hm
      exact h.storage.takenMade ((htaken m).mp hm).right
    · intro m hm
      rcases h.storage.madeInode hm with ⟨hm0, hmint, hmlt, inode1, hget, hfile1⟩
      exact ⟨hm0, hmint, hmlt, inode1, hget, hfile1.frame rfl rfl⟩
    · intro m inode1 b hm hget hpos hb
      rcases (htaken m).mp hm with ⟨hmk, hold⟩
      refine hblock.mpr ⟨?_, h.storage.blockOwned hold hget hpos hb⟩
      rintro ⟨hposk, hbk⟩
      rcases h.usable_of_size hfile hposk with ⟨b', hb', _⟩
      have hsame : inode1.iDataBlock = inode.iDataBlock := by omega
      exact hmk (h.storage.blockInj hold htakenk hget hk hpos hposk hsame)
    · intro m m' inode1 inode2 hm hm'
      exact h.storage.blockInj ((htaken m).mp hm).right ((htaken m').mp hm').right
    · intro b hb
      exact h.storage.blockInt (hblock.mp hb).right
    · intro b hb hb0
      exact h.storage.blockStart (hblock.mp hb).right hb0
  · exact h.handles.frame (fun _ hm => hm) rfl rfl rfl

theorem takeBlock (h : Inv made fs) {b : Nat} (hlt : b < fs.dataBlocks) (hint : b < intLimit)
    (hstart : b * fs.blockSize < fs.fsData.size) : Inv made (fs.takeBlock b) := by
  rcases h.directory with ⟨used, hdir⟩
  have hblock : forall {c}, BlockTaken (fs.takeBlock b) c <-> c = b ∨ BlockTaken fs c :=
    set_taken_iff (h.layout.blockCells ▸ hlt)
  constructor
  · refine h.layout.frame rfl rfl ?_ rfl rfl rfl h.layout.rootTaken
      (hblock.mpr (Or.inr h.layout.rootBlock))
    simp [Fs.takeBlock]
  · exact ⟨used, hdir.frame rfl rfl (fun _ _ => ⟨rfl, rfl⟩) (fun _ => Iff.rfl)⟩
  · constructor
    · exact h.storage.takenMade
    · intro k hk
      rcases h.storage.madeInode hk with ⟨hne, hkint, hklt, inode, hget, hfile⟩
      exact ⟨hne, hkint, hklt, inode, hget, hfile.frame rfl rfl⟩
    · intro k inode c hk hget hpos hc
      exact hblock.mpr (Or.inr (h.storage.blockOwned hk hget hpos hc))
    · exact h.storage.blockInj
    · intro c hc
      rcases hblock.mp hc with heq | hold
      · exact heq ▸ hint
      · exact h.storage.blockInt hold
    · intro c hc hc0
      rcases hblock.mp hc with heq | hold
      · exact heq ▸ hstart
      · exact h.storage.blockStart hold hc0
  · exact h.handles.frame (fun _ hk => hk) rfl rfl rfl

/-- Bytes copied to a usable block stay above the directory, and inode {lit}`k` is
a file afterwards, provided that no other taken inode holds the block. -/
theorem putBytes (h : Inv made fs) {fh k b : Nat} {e : OpenFileEntry} {inode : Inode}
    {bytes : List UInt8} (hopen : OpenAt fs fh e) (hk : e.ofInumber = k)
    (hinode : fs.inodeTable[k]? = some inode) (husable : UsableBlock fs b)
    (hfits : e.ofOffset + bytes.length <= fs.blockSize)
    (hown : InodeTaken fs k -> BlockTaken fs b)
    (halone : forall {m inode'}, InodeTaken fs k -> InodeTaken fs m -> m ≠ k ->
      fs.inodeTable[m]? = some inode' -> 0 < inode'.iSize -> inode'.iDataBlock ≠ b) :
    Inv made (fs.putBytes fh e k inode b bytes) := by
  rcases h.directory with ⟨used, hdir⟩
  have hfile := h.fileInode_of_open hopen hk hinode
  rcases h.inode_of_open hopen hk with ⟨hmade, _⟩
  rcases h.storage.madeInode hmade with ⟨hne, _⟩
  have hklt := getElem?_lt hinode
  have habove : sizeofDirEntry * fs.maxDirEntries <= b * fs.blockSize + e.ofOffset := by
    have hdirLe := maxDirEntries_le_blockSize fs
    have hblock : fs.blockSize <= b * fs.blockSize := Nat.le_mul_of_pos_left _ husable.pos
    omega
  have hget : forall {m inode'}, (fs.putBytes fh e k inode b bytes).inodeTable[m]? =
      some inode' -> (m = k ∧ inode'.iDataBlock = (b : Int)) ∨
        (m ≠ k ∧ fs.inodeTable[m]? = some inode') := by
    intro m inode' hm
    by_cases hmk : m = k
    · simp only [Fs.putBytes, hmk, List.getElem?_set_self hklt] at hm
      exact Or.inl ⟨hmk, by rw [← Option.some.inj hm]⟩
    · simp only [Fs.putBytes, List.getElem?_set_ne (Ne.symm hmk)] at hm
      exact Or.inr ⟨hmk, hm⟩
  constructor
  · refine h.layout.frame rfl rfl rfl rfl rfl ?_ h.layout.rootTaken h.layout.rootBlock
    simp only [Fs.putBytes, List.getElem?_set_ne hne]
  · exact ⟨used, hdir.frame rfl rfl (fun i hi => slot_overlay_above habove hi)
      (fun _ => Iff.rfl)⟩
  · constructor
    · exact h.storage.takenMade
    · intro m hm
      rcases h.storage.madeInode hm with ⟨hm0, hmint, hmlt, inode', hget', hfile'⟩
      refine ⟨hm0, hmint, hmlt, ?_⟩
      by_cases hmk : m = k
      · simp only [Fs.putBytes, hmk, List.getElem?_set_self hklt]
        refine ⟨_, rfl, hfile.type, ?_, Or.inr ⟨b, rfl, husable.frame rfl rfl⟩⟩
        exact Nat.max_le.mpr ⟨hfile.size, hfits⟩
      · simp only [Fs.putBytes, List.getElem?_set_ne (Ne.symm hmk)]
        exact ⟨inode', hget', hfile'.frame rfl rfl⟩
    · intro m inode' c hm hinode' hpos hc
      rcases hget hinode' with ⟨hmk, hb⟩ | ⟨_, hold⟩
      · have hcb : c = b := by omega
        exact hcb ▸ hown (hmk ▸ hm)
      · exact h.storage.blockOwned hm hold hpos hc
    · intro m m' inode1 inode2 hm hm' hinode1 hinode2 hpos1 hpos2 hsame
      rcases hget hinode1 with ⟨hmk, hb⟩ | ⟨hmk, hold1⟩
      · rcases hget hinode2 with ⟨hmk', _⟩ | ⟨hmk', hold2⟩
        · rw [hmk, hmk']
        · exact absurd (hsame.symm.trans hb) (halone (hmk ▸ hm) hm' hmk' hold2 hpos2)
      · rcases hget hinode2 with ⟨hmk', hb⟩ | ⟨_, hold2⟩
        · exact absurd (hsame.trans hb) (halone (hmk' ▸ hm') hm hmk hold1 hpos1)
        · exact h.storage.blockInj hm hm' hold1 hold2 hpos1 hpos2 hsame
    · exact h.storage.blockInt
    · exact h.storage.blockStart
  · have hoffset : e.ofOffset + bytes.length < sizeMod :=
      Nat.lt_of_le_of_lt hfits h.blockSize_lt
    exact (h.setEntry hopen hoffset).handles.frame (fun _ hm => hm) rfl rfl rfl

end Inv

/-!
## Steps
-/

/-- A write whose bytes lie in the data area stays inside its block. -/
theorem clippedWrite_fits {base size blockSize offset toWrite : Nat}
    (hblock : blockSize < sizeMod) (hoffset : offset < sizeMod) (hsmall : size <= ptrdiffMax)
    (hfits : base + offset + clippedWrite blockSize offset toWrite <= size) :
    offset + clippedWrite blockSize offset toWrite <= blockSize := by
  by_cases hclip : blockSize < sizeAdd toWrite offset
  · have hn : clippedWrite blockSize offset toWrite = sizeSub blockSize offset := if_pos hclip
    rw [hn] at hfits ⊢
    by_cases hle : offset <= blockSize
    · rw [sizeSub_eq hle hblock]
      omega
    · rw [sizeSub_wrap (by omega) hoffset] at hfits
      simp only [ptrdiffMax, sizeMod] at *
      omega
  · have hn : clippedWrite blockSize offset toWrite = toWrite := if_neg hclip
    rw [hn] at hfits ⊢
    by_cases hsum : toWrite + offset < sizeMod
    · rw [sizeAdd_eq hsum] at hclip
      omega
    · simp only [ptrdiffMax, sizeMod] at *
      omega

namespace Inv

variable {r : Int}

theorem handleStep (h : Inv made fs) {k offset : Nat} (hk : made k) (hoffset : offset < sizeMod)
    (hstep : HandleStep fs k offset r fs') : Inv made fs' := by
  cases hstep with
  | full _ => exact h
  | added hfirst htable => exact h.addHandle hk hoffset hfirst htable

theorem truncateStep (h : Inv made fs) {k : Nat} {inode inode' : Inode} {mode : Nat}
    (hne : k ≠ 0) (htaken : InodeTaken fs k) (hk : fs.inodeTable[k]? = some inode)
    (hstep : TruncateStep fs k inode mode inode' fs') : Inv made fs' := by
  cases hstep with
  | keep _ => exact h
  | cut _ hpos hb _ => exact h.cutInode hne htaken hk hpos hb

theorem size_lt (h : Inv made fs) {inode : Inode} (hfile : FileInode fs inode) :
    inode.iSize < sizeMod :=
  Nat.lt_of_le_of_lt hfile.size h.blockSize_lt

theorem truncateStep_size {k : Nat} {inode inode' : Inode} {mode : Nat}
    (hstep : TruncateStep fs k inode mode inode' fs') : inode'.iSize <= inode.iSize := by
  cases hstep with
  | keep _ => exact Nat.le_refl _
  | cut _ _ _ _ => exact Nat.zero_le _

theorem writeStep (h : Inv made fs) {fhandle : Int} {buffer : List UInt8} {toWrite : Nat}
    (hstep : WriteStep fs fhandle buffer toWrite r fs') : Inv made fs' := by
  cases hstep with
  | notOpen _ => exact h
  | nothing _ _ _ => exact h
  | noSpace _ _ _ _ _ _ _ => exact h
  | fresh heq hopen hn hne hk hinode hzero hfirst hint hbuf hfits =>
      rename_i fh k b n e inode
      have hstart : b * fs.blockSize < fs.fsData.size := by omega
      have hbpos : 1 <= b := Nat.one_le_iff_ne_zero.mpr (h.firstFree_mul hfirst).left
      have hblen : b < fs.freeBlocks.length := h.layout.blockCells ▸ hfirst.left
      have htake := h.takeBlock hfirst.left hint hstart
      have hlen : (buffer.take n).length = n := by simp [hbuf]
      have hopen' : OpenAt (fs.takeBlock b) fh e :=
        (OpenAt.frame fs (fs.takeBlock b) rfl rfl rfl).mpr hopen
      refine htake.putBytes hopen' hk hinode
        ⟨hbpos, hfirst.left, hstart⟩ ?_ ?_ ?_
      · rw [hlen, ← hn]
        exact clippedWrite_fits h.blockSize_lt (h.handles.offset hopen) h.layout.dataSmall
          (hn ▸ hfits)
      · intro _
        exact (set_taken_iff hblen).mpr (Or.inl rfl)
      · intro m inode' _ hm _ hget hpos hb
        have hblock := h.storage.blockOwned hm hget hpos hb
        rw [BlockTaken, hfirst.right.left] at hblock
        cases hblock
  | inPlace heq hopen hn hne hk hinode hpos hb hbuf hfits =>
      rename_i fh k b n e inode
      have hfile := h.fileInode_of_open hopen hk hinode
      have hlen : (buffer.take n).length = n := by simp [hbuf]
      refine h.putBytes hopen hk hinode (h.block_of_size hfile hpos hb) ?_ ?_ ?_
      · rw [hlen, ← hn]
        exact clippedWrite_fits h.blockSize_lt (h.handles.offset hopen) h.layout.dataSmall
          (hn ▸ hfits)
      · intro htaken
        exact h.storage.blockOwned htaken hinode hpos hb
      · intro m inode' htaken hm hmk hget hpos' hb'
        exact hmk (h.storage.blockInj hm htaken hget hinode hpos' hpos (hb'.trans hb.symm))

theorem readStep (h : Inv made fs) {fhandle : Int} {len : Nat} {data : List UInt8}
    (hstep : ReadStep fs fhandle len r data fs') : Inv made fs' := by
  cases hstep with
  | notOpen _ => exact h
  | nothing _ _ _ _ _ => exact h
  | copied heq hopen hk hinode hn hne hb hfits =>
      apply h.setEntry hopen
      have hsmall := h.layout.dataSmall
      simp only [ptrdiffMax, sizeMod] at *
      omega

theorem closeStep (h : Inv made fs) {fhandle : Int} (hstep : CloseStep fs fhandle r fs') :
    Inv made fs' := by
  cases hstep with
  | notOpen _ => exact h
  | closed _ _ => exact h.dropHandle _

theorem unlinkStep (h : Inv made fs) {target : Option CStr}
    (hstep : UnlinkStep fs target r fs') : Inv made fs' := by
  cases hstep with
  | badPath _ => exact h
  | absent _ _ => exact h
  | removed _ hlisted hk => exact h.removeFile hlisted hk

end Inv

end TecnicoFs
