import TecnicoFs.Fs.Abstract
import TecnicoFs.Fs.World

/-!
# The library refines the abstract file system

The relation below ties the five tables to the abstract map and handle table.
Under it the numbers of free inodes, slots and blocks are the abstract limits, and
every disciplined call returns the abstract reply and keeps the relation.
-/

namespace TecnicoFs

open Library

/-- The counts are ints and the size of the data area is a size. -/
structure FitsMachine (params : TfsParams) : Prop where
  inodes : params.maxInodeCount <= 2147483647
  blocks : params.maxBlockCount <= 2147483647
  handles : params.maxOpenFilesCount <= 2147483647
  data : params.maxBlockCount * params.blockSize < sizeMod

/-- The tables have the sizes that the parameters ask for. -/
structure Sized (params : TfsParams) (fs : Fs) : Prop where
  fsParams : fs.fsParams = params
  inodeCells : fs.inodeTable.length = params.maxInodeCount
  handleCells : fs.openFileTable.length = params.maxOpenFilesCount
  data : fs.fsData.size = params.maxBlockCount * params.blockSize

structure Refines (params : TfsParams) (fs : Fs) (a : AbstractFs) : Prop where
  inv : exists made, Inv made fs
  sized : Sized params fs
  names : forall name, name ∈ a.names <-> exists i k, Listed fs i name k
  content : forall {i k name inode}, Listed fs i name k -> fs.inodeTable[k]? = some inode ->
    a.content name = inodeBytes fs inode
  closed : forall {h e}, a.handles h = none -> ¬ OpenAt fs h e
  opened : forall {h name offset}, a.handles h = some (name, offset) ->
    exists (i k : Nat), OpenAt fs h ⟨k, offset⟩ ∧ Listed fs i name k ∧
      offset <= (a.content name).length
  noLeak : forall {b : Nat}, BlockTaken fs b -> b ≠ 0 -> exists i k name inode,
    Listed fs i name k ∧ fs.inodeTable[k]? = some inode ∧ 0 < inode.iSize ∧
      inode.iDataBlock = b

variable {params : TfsParams} {fs fs' : Fs} {a : AbstractFs}

theorem loopBound_eq {n : Nat} (h : n <= 2147483647) : intLoopBound n = n := by
  simp only [intLoopBound, intLimit]
  omega

namespace Refines

/-!
## Counting
-/

theorem inodeTableSize_eq (h : Refines params fs a) :
    fs.inodeTableSize = params.maxInodeCount := by
  rw [Fs.inodeTableSize, h.sized.fsParams]

theorem dataBlocks_eq (h : Refines params fs a) : fs.dataBlocks = params.maxBlockCount := by
  rw [Fs.dataBlocks, h.sized.fsParams]

theorem maxOpenFiles_eq (h : Refines params fs a) :
    fs.maxOpenFiles = params.maxOpenFilesCount := by
  rw [Fs.maxOpenFiles, h.sized.fsParams]

theorem blockSize_eq (h : Refines params fs a) : fs.blockSize = params.blockSize := by
  rw [Fs.blockSize, h.sized.fsParams]

theorem maxDirEntries_eq (h : Refines params fs a) :
    fs.maxDirEntries = params.blockSize / sizeofDirEntry := by
  rw [Fs.maxDirEntries, h.blockSize_eq]

/-- There is one taken inode for each file, and the root. -/
theorem card_inodes (h : Refines params fs a) :
    (othersBelow fs.freeinodeTs fs.inodeTableSize .free).card = a.names.card + 1 := by
  rcases h.inv with ⟨made, hinv⟩
  have hcells := hinv.layout.inodeCells.symm
  have hroot : 0 ∈ othersBelow fs.freeinodeTs fs.inodeTableSize .free :=
    (taken_of_others hcells).mpr hinv.layout.rootTaken
  rw [← Finset.card_erase_add_one hroot]
  congr 1
  symm
  apply card_eq_of_matching fun name k => exists i, Listed fs i name k
  · intro name hname
    rcases (h.names name).mp hname with ⟨i, k, hlisted⟩
    rcases hinv.inode_of_listed hlisted with ⟨hne, htaken, _⟩
    exact ⟨k, Finset.mem_erase.mpr ⟨hne, (taken_of_others hcells).mpr htaken⟩, i, hlisted⟩
  · intro k hk
    rcases Finset.mem_erase.mp hk with ⟨hne, hothers⟩
    rcases hinv.directory with ⟨used, hdir⟩
    rcases hdir.takenListed ((taken_of_others hcells).mp hothers) hne with ⟨i, name, hlisted⟩
    exact ⟨name, (h.names name).mpr ⟨i, k, hlisted⟩, i, hlisted⟩
  · rintro name k k' ⟨i, hi⟩ ⟨j, hj⟩
    exact (hinv.listed_unique hi hj).right
  · rintro name name' k ⟨i, hi⟩ ⟨j, hj⟩
    exact hinv.listed_injective hi hj

/-- An inode is free exactly when there are fewer files than inodes for them. -/
theorem freeInode_iff (h : Refines params fs a) :
    (exists k, FirstAt fs.freeinodeTs fs.inodeTableSize .free k) <->
      a.names.card < params.maxInodeCount - 1 := by
  rcases h.inv with ⟨made, hinv⟩
  rw [exists_firstAt_iff_card_lt _ _ (Nat.le_of_eq hinv.layout.inodeCells.symm), h.card_inodes,
    h.inodeTableSize_eq]
  omega

/-- There is one occupied slot for each file. -/
theorem card_slots (h : Refines params fs a) :
    ((Finset.range fs.maxDirEntries).filter fun i => dInumber fs.fsData i ≠ -1).card =
      a.names.card := by
  rcases h.inv with ⟨made, hinv⟩
  rcases hinv.directory with ⟨used, hdir⟩
  apply card_eq_of_matching fun i name => exists k, Listed fs i name k
  · intro i hi
    rcases Finset.mem_filter.mp hi with ⟨hlt, hocc⟩
    rcases hdir.shape.entry_of_occupied (Finset.mem_range.mp hlt) hocc with ⟨name, k, hentry⟩
    have hlisted : Listed fs i name k := ⟨Finset.mem_range.mp hlt, hentry⟩
    exact ⟨name, (h.names name).mpr ⟨i, k, hlisted⟩, k, hlisted⟩
  · intro name hname
    rcases (h.names name).mp hname with ⟨i, k, hlisted⟩
    exact ⟨i, Finset.mem_filter.mpr ⟨Finset.mem_range.mpr hlisted.lt, hlisted.entry.ne_free⟩,
      k, hlisted⟩
  · rintro i name name' ⟨k, hk⟩ ⟨k', hk'⟩
    exact (hk.entry.name_unique hk'.entry).left
  · rintro i j name ⟨k, hk⟩ ⟨k', hk'⟩
    exact (hinv.listed_unique hk hk').left

/-- A slot is free exactly when there are fewer files than slots. -/
theorem freeSlot_iff (h : Refines params fs a) :
    (exists j, FreeSlot fs.fsData fs.maxDirEntries j) <->
      a.names.card < params.blockSize / sizeofDirEntry := by
  rw [← h.card_slots, ← h.maxDirEntries_eq]
  constructor
  · rintro ⟨j, hlt, hfree, _⟩
    have hsub : ((Finset.range fs.maxDirEntries).filter fun i => dInumber fs.fsData i ≠ -1) ⊂
        Finset.range fs.maxDirEntries := by
      refine Finset.filter_ssubset.mpr ⟨j, Finset.mem_range.mpr hlt, ?_⟩
      simp [hfree]
    simpa using Finset.card_lt_card hsub
  · intro hcard
    rcases freeSlot_or_fullDir fs.fsData fs.maxDirEntries with hslot | hfull
    · exact hslot
    · exfalso
      have hall : ((Finset.range fs.maxDirEntries).filter fun i =>
          dInumber fs.fsData i ≠ -1) = Finset.range fs.maxDirEntries := by
        apply Finset.filter_true_of_mem
        intro i hi
        exact hfull i (Finset.mem_range.mp hi)
      rw [hall, Finset.card_range] at hcard
      exact Nat.lt_irrefl _ hcard

theorem content_ne_nil (h : Refines params fs a) {i k : Nat} {name : CStr} {inode : Inode}
    (hlisted : Listed fs i name k) (hinode : fs.inodeTable[k]? = some inode) :
    a.content name ≠ [] <-> 0 < inode.iSize := by
  rw [h.content hlisted hinode, ne_eq, ← List.length_eq_zero_iff, inodeBytes_length]
  omega

/-- There is one taken block for each file with bytes, and the root's. -/
theorem card_blocks (h : Refines params fs a) :
    (othersBelow fs.freeBlocks fs.dataBlocks .free).card = a.nonEmpty.card + 1 := by
  rcases h.inv with ⟨made, hinv⟩
  have hcells := hinv.layout.blockCells.symm
  have hroot : 0 ∈ othersBelow fs.freeBlocks fs.dataBlocks .free :=
    (taken_of_others hcells).mpr hinv.layout.rootBlock
  rw [← Finset.card_erase_add_one hroot]
  congr 1
  symm
  apply card_eq_of_matching fun name (b : Nat) => exists i k inode, Listed fs i name k ∧
    fs.inodeTable[k]? = some inode ∧ 0 < inode.iSize ∧ inode.iDataBlock = b
  · intro name hname
    rcases Finset.mem_filter.mp hname with ⟨hthere, hbytes⟩
    rcases (h.names name).mp hthere with ⟨i, k, hlisted⟩
    rcases hinv.inode_of_listed hlisted with ⟨_, htaken, _, inode, hinode, hfile⟩
    have hpos := (h.content_ne_nil hlisted hinode).mp hbytes
    rcases hinv.usable_of_size hfile hpos with ⟨b, hb, husable⟩
    have hblock := hinv.storage.blockOwned htaken hinode hpos hb
    have hne : b ≠ 0 := Nat.one_le_iff_ne_zero.mp husable.pos
    exact ⟨b, Finset.mem_erase.mpr ⟨hne, (taken_of_others hcells).mpr hblock⟩, i, k, inode,
      hlisted, hinode, hpos, hb⟩
  · intro b hb
    rcases Finset.mem_erase.mp hb with ⟨hne, hothers⟩
    rcases h.noLeak ((taken_of_others hcells).mp hothers) hne with
      ⟨i, k, name, inode, hlisted, hinode, hpos, hblock⟩
    refine ⟨name, Finset.mem_filter.mpr ⟨(h.names name).mpr ⟨i, k, hlisted⟩, ?_⟩, i, k, inode,
      hlisted, hinode, hpos, hblock⟩
    exact (h.content_ne_nil hlisted hinode).mpr hpos
  · rintro name b b' ⟨i, k, inode, hi, hinode, _, hb⟩ ⟨j, m, inode', hj, hinode', _, hb'⟩
    have hkm := (hinv.listed_unique hi hj).right
    rw [← hkm] at hinode'
    have hsame := Inv.inode_unique hinode hinode'
    rw [hsame] at hb
    omega
  · rintro name name' b ⟨i, k, inode, hi, hinode, hpos, hb⟩ ⟨j, m, inode', hj, hinode', hpos', hb'⟩
    have htaken := (hinv.inode_of_listed hi).right.left
    have htaken' := (hinv.inode_of_listed hj).right.left
    have hkm := hinv.storage.blockInj htaken htaken' hinode hinode' hpos hpos'
      (hb.trans hb'.symm)
    rw [← hkm] at hj
    exact hinv.listed_injective hi hj

/-- No block is free exactly when every block but the root's holds a file. -/
theorem freeBlock_iff (h : Refines params fs a) :
    (exists b, FirstAt fs.freeBlocks fs.dataBlocks .free b) <->
      a.nonEmpty.card ≠ params.maxBlockCount - 1 := by
  rcases h.inv with ⟨made, hinv⟩
  have hcard := h.card_blocks
  have hle : (othersBelow fs.freeBlocks fs.dataBlocks .free).card <= fs.dataBlocks := by
    have hfilter := Finset.card_filter_le (Finset.range fs.dataBlocks)
      fun j => fs.freeBlocks[j]? ≠ some AllocationState.free
    rwa [Finset.card_range] at hfilter
  have hpos := hinv.layout.dataBlocks_pos
  rw [exists_firstAt_iff_card_lt _ _ (Nat.le_of_eq hinv.layout.blockCells.symm), hcard,
    ← h.dataBlocks_eq]
  omega

/-!
## Handles
-/

theorem openAt_iff (h : Refines params fs a) {fh : Nat} :
    (exists e, OpenAt fs fh e) <-> a.handles fh ≠ none := by
  cases hentry : a.handles fh with
  | none =>
      constructor
      · rintro ⟨e, hopen⟩
        exact absurd hopen (h.closed hentry)
      · intro hne
        exact absurd rfl hne
  | some entry =>
      rcases h.opened hentry with ⟨i, k, hopen, _⟩
      exact ⟨fun _ => by simp, fun _ => ⟨_, hopen⟩⟩

/-- A handle below the limit is free in the table exactly when it is not open. -/
theorem freeHandle_iff (h : Refines params fs a) {fh : Nat} (hlt : fh < fs.maxOpenFiles) :
    fs.freeOpenFileEntries[fh]? = some .free <-> a.handles fh = none := by
  rcases h.inv with ⟨made, hinv⟩
  have hcells : fh < fs.freeOpenFileEntries.length := by
    rw [hinv.layout.handleCells]
    exact hlt
  cases hstate : fs.freeOpenFileEntries[fh] with
  | free =>
      have hfree : fs.freeOpenFileEntries[fh]? = some .free := by
        rw [List.getElem?_eq_getElem hcells, hstate]
      refine ⟨fun _ => ?_, fun _ => hfree⟩
      by_contra hne
      rcases h.openAt_iff.mpr hne with ⟨e, hopen⟩
      have htaken := hopen.taken
      rw [hfree] at htaken
      cases htaken
  | taken =>
      have htaken : fs.freeOpenFileEntries[fh]? = some .taken := by
        rw [List.getElem?_eq_getElem hcells, hstate]
      have htable := (hinv.handles.handleInt htaken).right
      have hopen : OpenAt fs fh fs.openFileTable[fh] :=
        ⟨hlt, htaken, List.getElem?_eq_getElem htable⟩
      rw [htaken]
      constructor
      · intro heq
        cases heq
      · intro hnone
        exact absurd hopen (h.closed hnone)

/-- The table's first free handle is the abstract least free handle. -/
theorem freeHandle_some (h : Refines params fs a) (hfits : FitsMachine params) {fh : Nat} :
    a.freeHandle params = some fh <->
      FirstAt fs.freeOpenFileEntries (intLoopBound fs.maxOpenFiles) .free fh := by
  rcases h.inv with ⟨made, hinv⟩
  have hbound : intLoopBound fs.maxOpenFiles = params.maxOpenFilesCount := by
    rw [h.maxOpenFiles_eq, loopBound_eq hfits.handles]
  have hmax : fs.maxOpenFiles = params.maxOpenFilesCount := h.maxOpenFiles_eq
  rw [hbound, AbstractFs.freeHandle, List.find?_range_eq_some]
  constructor
  · rintro ⟨hnone, hmem, hbefore⟩
    have hlt := List.mem_range.mp hmem
    refine ⟨hlt, (h.freeHandle_iff (hmax ▸ hlt)).mpr (by simpa using hnone), fun j hj => ?_⟩
    have hjlt : j < fs.freeOpenFileEntries.length := by
      rw [hinv.layout.handleCells]
      omega
    refine ⟨fs.freeOpenFileEntries[j], List.getElem?_eq_getElem hjlt, fun hfree => ?_⟩
    have hcell : fs.freeOpenFileEntries[j]? = some .free := by
      rw [List.getElem?_eq_getElem hjlt, hfree]
    have hclosed := (h.freeHandle_iff (by omega)).mp hcell
    simpa [hclosed] using hbefore j hj
  · rintro ⟨hlt, hcell, hbefore⟩
    refine ⟨by simpa using (h.freeHandle_iff (by omega)).mp hcell, List.mem_range.mpr hlt,
      fun j hj => ?_⟩
    rcases hbefore j hj with ⟨x, hx, hne⟩
    have hopen : a.handles j ≠ none := by
      intro hnone
      have hfree := (h.freeHandle_iff (by omega)).mpr hnone
      rw [hx] at hfree
      exact hne (Option.some.inj hfree)
    simpa [Option.isSome_iff_ne_none] using hopen

theorem freeHandle_none (h : Refines params fs a) (hfits : FitsMachine params) :
    a.freeHandle params = none <->
      NowhereAt fs.freeOpenFileEntries (intLoopBound fs.maxOpenFiles) .free := by
  rcases h.inv with ⟨made, hinv⟩
  have hbound : intLoopBound fs.maxOpenFiles <= fs.freeOpenFileEntries.length := by
    rw [hinv.layout.handleCells]
    exact intLoopBound_le _
  constructor
  · intro hnone
    rcases firstAt_or_nowhereAt fs.freeOpenFileEntries .free hbound with ⟨fh, hfirst⟩ | hall
    · rw [(h.freeHandle_some hfits).mpr hfirst] at hnone
      cases hnone
    · exact hall
  · intro hall
    cases hfree : a.freeHandle params with
    | none => rfl
    | some fh => exact absurd ((h.freeHandle_some hfits).mp hfree) hall.not_firstAt

/-- Steps that only move handles keep everything but the handles. -/
theorem sameStorage (h : Refines params fs a) (hsame : SameStorage fs fs')
    (hinv : exists made, Inv made fs') (hcells : fs'.openFileTable.length =
      fs.openFileTable.length) {handles' : Nat -> Option (CStr × Nat)}
    (hclosed : forall {fh e}, handles' fh = none -> ¬ OpenAt fs' fh e)
    (hopened : forall {fh name offset}, handles' fh = some (name, offset) ->
      exists (i k : Nat), OpenAt fs' fh ⟨k, offset⟩ ∧ Listed fs i name k ∧
        offset <= (a.content name).length) :
    Refines params fs' { a with handles := handles' } := by
  have hbytes : forall inode, inodeBytes fs' inode = inodeBytes fs inode := by
    intro inode
    rw [inodeBytes, inodeBytes, Fs.blockSize, Fs.blockSize, hsame.fsData, hsame.fsParams]
  constructor
  · exact hinv
  · rcases h.sized with ⟨hparams, hinodes, htable, hdata⟩
    exact ⟨hsame.fsParams.trans hparams, hsame.inodeTable ▸ hinodes, hcells.trans htable,
      hsame.fsData ▸ hdata⟩
  · intro name
    simp only [hsame.listed]
    exact h.names name
  · intro i k name inode hlisted hinode
    rw [hbytes]
    rw [hsame.inodeTable] at hinode
    exact h.content (hsame.listed.mp hlisted) hinode
  · exact hclosed
  · intro fh name offset hentry
    rcases hopened hentry with ⟨i, k, hopen, hlisted, hle⟩
    exact ⟨i, k, hopen, hsame.listed.mpr hlisted, hle⟩
  · intro b hb hne
    rw [BlockTaken, hsame.freeBlocks] at hb
    rcases h.noLeak hb hne with ⟨i, k, name, inode, hlisted, hinode, hpos, hblock⟩
    exact ⟨i, k, name, inode, hsame.listed.mpr hlisted, by rw [hsame.inodeTable]; exact hinode,
      hpos, hblock⟩

/-- A handle comes to stand at an offset inside a file of the directory. -/
theorem putHandle (h : Refines params fs a) (hsame : SameStorage fs fs')
    (hinv : exists made, Inv made fs') (hcells : fs'.openFileTable.length =
      fs.openFileTable.length) {fh i k offset : Nat} {name : CStr}
    (hopens : forall {j e}, OpenAt fs' j e <->
      (j = fh ∧ e = ⟨k, offset⟩) ∨ (j ≠ fh ∧ OpenAt fs j e))
    (hlisted : Listed fs i name k) (hle : offset <= (a.content name).length) :
    Refines params fs' (a.setHandle fh (some (name, offset))) := by
  refine h.sameStorage hsame hinv hcells ?_ ?_
  · intro j e hnone hopen
    rcases hopens.mp hopen with ⟨hj, _⟩ | ⟨hj, hold⟩
    · rw [hj, Function.update_self] at hnone
      cases hnone
    · exact h.closed ((Function.update_of_ne hj _ a.handles).symm.trans hnone) hold
  · intro j held offset' hentry
    by_cases hj : j = fh
    · rw [hj, Function.update_self] at hentry
      cases hentry
      exact ⟨i, k, hopens.mpr (Or.inl ⟨hj, rfl⟩), hlisted, hle⟩
    · rcases h.opened ((Function.update_of_ne hj _ a.handles).symm.trans hentry) with
        ⟨i', k', hopen, hlisted', hle'⟩
      exact ⟨i', k', hopens.mpr (Or.inr ⟨hj, hopen⟩), hlisted', hle'⟩

/-- The last part of an open: a new handle at an offset inside the file. -/
theorem newHandle (h : Refines params fs a) (hfits : FitsMachine params) {i k offset : Nat}
    {name : CStr} (hlisted : Listed fs i name k) (hle : offset <= (a.content name).length) :
    exists fs', HandleStep fs k offset (a.newHandle params name offset).1 fs' ∧
      Refines params fs' (a.newHandle params name offset).2 := by
  rcases h.inv with ⟨made, hinv⟩
  cases hfree : a.freeHandle params with
  | none =>
      refine ⟨fs, ?_, ?_⟩
      · rw [AbstractFs.newHandle, hfree]
        exact HandleStep.full ((h.freeHandle_none hfits).mp hfree)
      · rw [AbstractFs.newHandle, hfree]
        exact h
  | some fh =>
      have hfirst := (h.freeHandle_some hfits).mp hfree
      rcases hinv.firstFree_handle hfirst with ⟨_, hmax, hlt⟩
      have htable : fh < fs.openFileTable.length := by
        rw [h.sized.handleCells, ← h.maxOpenFiles_eq]
        exact hmax
      have hmade := hinv.storage.takenMade (hinv.inode_of_listed hlisted).right.left
        (hinv.inode_of_listed hlisted).left
      have hoffset : offset < sizeMod := by
        rcases hinv.inode_of_listed hlisted with ⟨_, _, _, inode, hinode, hfile⟩
        rw [h.content hlisted hinode, inodeBytes_length] at hle
        exact Nat.lt_of_le_of_lt hle (hinv.size_lt hfile)
      refine ⟨fs.addHandle fh ⟨k, offset⟩, ?_, ?_⟩
      · rw [AbstractFs.newHandle, hfree]
        exact HandleStep.added hfirst htable
      · rw [AbstractFs.newHandle, hfree]
        have hsame : SameStorage fs (fs.addHandle fh ⟨k, offset⟩) := ⟨rfl, rfl, rfl, rfl, rfl⟩
        exact h.putHandle hsame ⟨made, hinv.addHandle hmade hoffset hfirst htable⟩
          (by simp [Fs.addHandle]) (openAt_addHandle hlt htable hmax) hlisted hle

/-- The entry of an integer handle, seen from both sides. -/
theorem entry_cases (h : Refines params fs a) (fhandle : Int) :
    (a.entry fhandle = none ∧ NotOpen fs fhandle) ∨
      exists (fh : Nat) (name : CStr) (offset i k : Nat), fhandle = fh ∧
        a.entry fhandle = some (name, offset) ∧ a.handles fh = some (name, offset) ∧
        OpenAt fs fh ⟨k, offset⟩ ∧ Listed fs i name k ∧ offset <= (a.content name).length := by
  by_cases hneg : 0 <= fhandle
  · obtain ⟨fh, hfh⟩ := Int.eq_ofNat_of_zero_le hneg
    have hentry : a.entry fhandle = a.handles fh := by
      rw [AbstractFs.entry, if_pos hneg, hfh, Int.toNat_natCast]
    cases hhandle : a.handles fh with
    | none =>
        left
        refine ⟨hentry.trans hhandle, fun j e hj hopen => ?_⟩
        have hjfh : j = fh := by omega
        exact h.closed hhandle (hjfh ▸ hopen)
    | some entry =>
        right
        rcases entry with ⟨name, offset⟩
        rcases h.opened hhandle with ⟨i, k, hopen, hlisted, hle⟩
        exact ⟨fh, name, offset, i, k, hfh, hentry.trans hhandle, hhandle, hopen,
          hlisted, hle⟩
  · left
    refine ⟨if_neg hneg, fun j e hj _ => ?_⟩
    omega

/-!
## Changes of storage
-/

/-- Truncating a file without open handles empties it. -/
theorem truncate (h : Refines params fs a) {i k mode : Nat} {name : CStr}
    {inode inode' : Inode} (hlisted : Listed fs i name k)
    (hinode : fs.inodeTable[k]? = some inode)
    (hquiet : hasFlag mode tfsOTrunc = true -> a.NoHandleOn name)
    (hstep : TruncateStep fs k inode mode inode' fs') :
    Refines params fs' (a.truncated mode name) ∧ Listed fs' i name k ∧
      fs'.inodeTable[k]? = some inode' := by
  rcases h.inv with ⟨made, hinv⟩
  rcases hinv.inode_of_listed hlisted with ⟨hne, htaken, _⟩
  have hklt := getElem?_lt hinode
  cases hstep with
  | keep hkeep =>
      refine ⟨?_, hlisted, hinode⟩
      by_cases hflag : hasFlag mode tfsOTrunc = true
      · have hzero : inode.iSize = 0 := by
          rcases hkeep with hno | hzero
          · rw [hno] at hflag
            cases hflag
          · exact hzero
        have hnil : a.content name = [] := by
          rw [h.content hlisted hinode, ← List.length_eq_zero_iff, inodeBytes_length]
          exact hzero
        have hsame : a.setContent name [] = a := by
          rw [AbstractFs.setContent, ← hnil, Function.update_eq_self]
        rw [AbstractFs.truncated, if_pos hflag, hsame]
        exact h
      · rw [AbstractFs.truncated, if_neg hflag]
        exact h
  | cut hflag hpos hb hlt =>
      rename_i b
      have hfs : forall {j m : Nat} {held : CStr},
          Listed (fs.cutInode k b inode) j held m <-> Listed fs j held m :=
        Listed.sameData fs (fs.cutInode k b inode) rfl rfl
      have hget : forall {m : Nat}, m ≠ k ->
          (fs.cutInode k b inode).inodeTable[m]? = fs.inodeTable[m]? := by
        intro m hm
        simp only [Fs.cutInode, List.getElem?_set_ne (Ne.symm hm)]
      have hself : (fs.cutInode k b inode).inodeTable[k]? =
          some { inode with iSize := 0 } := by
        simp only [Fs.cutInode, List.getElem?_set_self hklt]
      have hother : forall {j m held}, Listed fs j held m -> held ≠ name -> m ≠ k := by
        intro j m held hj hheld hm
        rw [hm] at hj
        exact hheld (hinv.listed_injective hj hlisted)
      refine ⟨?_, hfs.mpr hlisted, hself⟩
      rw [AbstractFs.truncated, if_pos hflag]
      constructor
      · exact ⟨made, hinv.cutInode hne htaken hinode hpos hb⟩
      · rcases h.sized with ⟨hparams, hinodes, htable, hdata⟩
        exact ⟨hparams, by simpa [Fs.cutInode] using hinodes, htable, hdata⟩
      · intro held
        simp only [hfs]
        exact h.names held
      · intro j m held inode1 hj hinode1
        have hj' := hfs.mp hj
        by_cases hheld : held = name
        · rw [hheld] at hj'
          have hm := (hinv.listed_unique hj' hlisted).right
          rw [hm, hself] at hinode1
          cases hinode1
          rw [hheld]
          exact Function.update_self name [] a.content
        · rw [hget (hother hj' hheld)] at hinode1
          exact (Function.update_of_ne hheld [] a.content).trans (h.content hj' hinode1)
      · intro fh e hnone hopen
        exact h.closed hnone
          ((OpenAt.frame fs (fs.cutInode k b inode) rfl rfl rfl).mp hopen)
      · intro fh held offset hentry
        rcases h.opened hentry with ⟨j, m, hopen, hj, hle⟩
        have hheld : held ≠ name := by
          intro heq
          exact hquiet hflag fh offset (heq ▸ hentry)
        refine ⟨j, m, (OpenAt.frame fs (fs.cutInode k b inode) rfl rfl rfl).mpr hopen,
          hfs.mpr hj, ?_⟩
        have hsame := congrArg List.length (Function.update_of_ne hheld [] a.content)
        exact Nat.le_trans hle (Nat.le_of_eq hsame.symm)
      · intro c hc hc0
        rcases set_free_iff.mp hc with ⟨hcb, hblock⟩
        rcases h.noLeak hblock hc0 with ⟨j, m, held, inode1, hj, hinode1, hpos1, hb1⟩
        refine ⟨j, m, held, inode1, hfs.mpr hj, ?_, hpos1, hb1⟩
        rw [hget]
        · exact hinode1
        · intro hm
          rw [hm, hinode] at hinode1
          cases hinode1
          omega

/-- A failed creation leaves nothing behind that a file can see. -/
theorem resetInode (h : Refines params fs a) {k : Nat}
    (hfirst : FirstAt fs.freeinodeTs fs.inodeTableSize .free k) (hint : k < intLimit)
    (hlt : k < fs.inodeTable.length) : Refines params (fs.resetInode k) a := by
  rcases h.inv with ⟨made, hinv⟩
  have hfs : forall {j m : Nat} {held : CStr},
      Listed (fs.resetInode k) j held m <-> Listed fs j held m :=
    Listed.sameData fs (fs.resetInode k) rfl rfl
  have hget : forall {j m held}, Listed fs j held m ->
      (fs.resetInode k).inodeTable[m]? = fs.inodeTable[m]? := by
    intro j m held hj
    have hne : k ≠ m := by
      intro heq
      have htaken : fs.freeinodeTs[m]? = some .taken := (hinv.inode_of_listed hj).right.left
      rw [← heq, hfirst.right.left] at htaken
      cases htaken
    simp only [Fs.resetInode, List.getElem?_set_ne hne]
  constructor
  · exact ⟨_, hinv.resetInode hfirst hint hlt⟩
  · rcases h.sized with ⟨hparams, hinodes, htable, hdata⟩
    exact ⟨hparams, by simpa [Fs.resetInode] using hinodes, htable, hdata⟩
  · intro held
    simp only [hfs]
    exact h.names held
  · intro j m held inode hj hinode
    rw [hget (hfs.mp hj)] at hinode
    exact h.content (hfs.mp hj) hinode
  · intro fh e hnone hopen
    exact h.closed hnone ((OpenAt.frame fs (fs.resetInode k) rfl rfl rfl).mp hopen)
  · intro fh held offset hentry
    rcases h.opened hentry with ⟨j, m, hopen, hj, hle⟩
    exact ⟨j, m, (OpenAt.frame fs (fs.resetInode k) rfl rfl rfl).mpr hopen, hfs.mpr hj, hle⟩
  · intro b hb hne
    rcases h.noLeak hb hne with ⟨j, m, held, inode, hj, hinode, hpos, hblock⟩
    exact ⟨j, m, held, inode, hfs.mpr hj, (hget hj).trans hinode, hpos, hblock⟩

theorem createFile (h : Refines params fs a) {j k : Nat} {name : CStr}
    (habsent : Absent fs name) (hfirst : FirstAt fs.freeinodeTs fs.inodeTableSize .free k)
    (hint : k < intLimit) (hlt : k < fs.inodeTable.length) (hname : FitsEntry name)
    (hslot : FreeSlot fs.fsData fs.maxDirEntries j) :
    Refines params (fs.createFile j name k) (a.created name) ∧
      Listed (fs.createFile j name k) j name k := by
  rcases h.inv with ⟨made, hinv⟩
  have hlisted : forall {i m : Nat} {held : CStr},
      Listed (fs.createFile j name k) i held m <->
        (i = j ∧ held = name ∧ m = k) ∨ (i ≠ j ∧ Listed fs i held m) :=
    Inv.listed_createFile hname hint hslot
  have hkeep : forall {i m : Nat} {held : CStr}, Listed fs i held m ->
      Listed (fs.createFile j name k) i held m ∧ held ≠ name ∧
        (fs.createFile j name k).inodeTable[m]? = fs.inodeTable[m]? := by
    intro i m held hi
    refine ⟨hlisted.mpr (Or.inr ⟨?_, hi⟩), ?_, ?_⟩
    · intro hij
      exact hi.entry.ne_free (hij ▸ hslot.right.left)
    · intro heq
      exact habsent i m (heq ▸ hi)
    · have hne : k ≠ m := by
        intro heq
        have htaken : fs.freeinodeTs[m]? = some .taken := (hinv.inode_of_listed hi).right.left
        rw [← heq, hfirst.right.left] at htaken
        cases htaken
      simp only [Fs.createFile, Fs.takeInode, List.getElem?_set_ne hne]
  have hself : (fs.createFile j name k).inodeTable[k]? = some Fs.emptyFile := by
    simp only [Fs.createFile, Fs.takeInode, List.getElem?_set_self hlt]
  refine ⟨?_, hlisted.mpr (Or.inl ⟨rfl, rfl, rfl⟩)⟩
  constructor
  · exact ⟨_, hinv.createFile habsent hfirst hint hlt hname hslot⟩
  · rcases h.sized with ⟨hparams, hinodes, htable, hdata⟩
    exact ⟨hparams, by simpa [Fs.createFile, Fs.takeInode] using hinodes, htable, hdata⟩
  · intro held
    rw [AbstractFs.created, Finset.mem_insert, h.names held]
    constructor
    · rintro (heq | ⟨i, m, hi⟩)
      · exact ⟨j, k, hlisted.mpr (Or.inl ⟨rfl, heq, rfl⟩)⟩
      · exact ⟨i, m, (hkeep hi).left⟩
    · rintro ⟨i, m, hi⟩
      rcases hlisted.mp hi with ⟨_, heq, _⟩ | ⟨_, hold⟩
      · exact Or.inl heq
      · exact Or.inr ⟨i, m, hold⟩
  · intro i m held inode hi hinode
    rcases hlisted.mp hi with ⟨_, heq, hm⟩ | ⟨_, hold⟩
    · rw [hm, hself] at hinode
      cases hinode
      rw [heq]
      exact Function.update_self name [] a.content
    · rcases hkeep hold with ⟨_, hne, hsame⟩
      rw [hsame] at hinode
      rcases hinv.inode_of_listed hold with ⟨_, _, _, inode1, hinode1, hfile⟩
      rw [Inv.inode_unique hinode1 hinode] at hfile
      have hbytes := inodeBytes_sameOutsideSlot hfile (enterSlot_same fs.fsData j name k)
        hslot.left
      exact (Function.update_of_ne hne [] a.content).trans
        ((h.content hold hinode).trans hbytes.symm)
  · intro fh e hnone hopen
    exact h.closed hnone
      ((OpenAt.frame fs (fs.createFile j name k) rfl rfl rfl).mp hopen)
  · intro fh held offset hentry
    rcases h.opened hentry with ⟨i, m, hopen, hi, hle⟩
    rcases hkeep hi with ⟨hi', hne, _⟩
    refine ⟨i, m, (OpenAt.frame fs (fs.createFile j name k) rfl rfl rfl).mpr hopen, hi', ?_⟩
    have hsame := congrArg List.length (Function.update_of_ne hne [] a.content)
    exact Nat.le_trans hle (Nat.le_of_eq hsame.symm)
  · intro b hb hb0
    rcases h.noLeak hb hb0 with ⟨i, m, held, inode, hi, hinode, hpos, hblock⟩
    rcases hkeep hi with ⟨hi', _, hsame⟩
    exact ⟨i, m, held, inode, hi', hsame.trans hinode, hpos, hblock⟩

/-- Removing a file without open handles. -/
theorem removeFile (h : Refines params fs a) {i k : Nat} {name : CStr} {inode : Inode}
    (hlisted : Listed fs i name k) (hinode : fs.inodeTable[k]? = some inode)
    (hquiet : a.NoHandleOn name) :
    Refines params (fs.removeFile i k inode) { a with names := a.names.erase name } := by
  rcases h.inv with ⟨made, hinv⟩
  rcases hinv.inode_of_listed hlisted with ⟨_, _, _, inode1, hinode1, hfile⟩
  rw [Inv.inode_unique hinode1 hinode] at hfile
  have hfs : forall {j m : Nat} {held : CStr},
      Listed (fs.removeFile i k inode) j held m <-> j ≠ i ∧ Listed fs j held m :=
    Inv.listed_removeFile
  have hkeep : forall {j m : Nat} {held : CStr}, Listed fs j held m -> held ≠ name ->
      Listed (fs.removeFile i k inode) j held m ∧ m ≠ k := by
    intro j m held hj hne
    constructor
    · refine hfs.mpr ⟨fun hji => ?_, hj⟩
      rw [hji] at hj
      exact hne (hj.entry.name_unique hlisted.entry).left
    · intro hm
      rw [hm] at hj
      exact hne (hinv.listed_injective hj hlisted)
  have hgone : forall {j m : Nat} {held : CStr}, Listed fs j held m -> j ≠ i ->
      held ≠ name := by
    intro j m held hj hji heq
    rw [heq] at hj
    exact hji (hinv.listed_unique hj hlisted).left
  constructor
  · exact ⟨made, hinv.removeFile hlisted hinode⟩
  · rcases h.sized with ⟨hparams, hinodes, htable, hdata⟩
    exact ⟨hparams, hinodes, htable, hdata⟩
  · intro held
    rw [Finset.mem_erase, h.names held]
    constructor
    · rintro ⟨hne, j, m, hj⟩
      exact ⟨j, m, (hkeep hj hne).left⟩
    · rintro ⟨j, m, hj⟩
      rcases hfs.mp hj with ⟨hji, hold⟩
      exact ⟨hgone hold hji, j, m, hold⟩
  · intro j m held inode2 hj hinode2
    rcases hfs.mp hj with ⟨_, hold⟩
    rcases hinv.inode_of_listed hold with ⟨_, _, _, inode3, hinode3, hfile3⟩
    rw [Inv.inode_unique hinode3 hinode2] at hfile3
    have hbytes := inodeBytes_sameOutsideSlot hfile3 (eraseSlot_same fs.fsData i) hlisted.lt
    exact (h.content hold hinode2).trans hbytes.symm
  · intro fh e hnone hopen
    exact h.closed hnone
      ((OpenAt.frame fs (fs.removeFile i k inode) rfl rfl rfl).mp hopen)
  · intro fh held offset hentry
    rcases h.opened hentry with ⟨j, m, hopen, hj, hle⟩
    have hne : held ≠ name := by
      intro heq
      exact hquiet fh offset (heq ▸ hentry)
    exact ⟨j, m, (OpenAt.frame fs (fs.removeFile i k inode) rfl rfl rfl).mpr hopen,
      (hkeep hj hne).left, hle⟩
  · intro b hb hb0
    rcases Inv.blockTaken_removeFile.mp hb with ⟨hnot, hblock⟩
    rcases h.noLeak hblock hb0 with ⟨j, m, held, inode2, hj, hinode2, hpos, hb2⟩
    have hne : held ≠ name := by
      intro heq
      rw [heq] at hj
      have hm := (hinv.listed_unique hj hlisted).right
      rw [hm, hinode] at hinode2
      cases hinode2
      exact hnot ⟨hpos, by omega⟩
    exact ⟨j, m, held, inode2, (hkeep hj hne).left, hinode2, hpos, hb2⟩

/-- The bytes of a file after a write are its old bytes, patched. -/
theorem bytes_patch {fh k b : Nat} {e : OpenFileEntry} {inode : Inode} {bytes : List UInt8}
    (hst : Stored fs fh k b e inode bytes fs') (hle : e.ofOffset <= inode.iSize) :
    inodeBytes fs' ⟨inode.iNodeType, max inode.iSize (e.ofOffset + bytes.length), b⟩ =
      AbstractFs.patch (inodeBytes fs inode) e.ofOffset bytes := by
  rw [hst.bytes_self, AbstractFs.patch]
  rcases hst.block with ⟨hzero, _, _⟩ | ⟨_, hb⟩
  · have hoffset : e.ofOffset = 0 := by omega
    have hnil : inodeBytes fs inode = [] := by
      rw [← List.length_eq_zero_iff, inodeBytes_length, hzero]
    simp [hnil, hoffset, hzero]
  · have htoNat : inode.iDataBlock.toNat = b := by omega
    have hold : inodeBytes fs inode = fs.fsData.window (b * fs.blockSize) inode.iSize := by
      rw [inodeBytes, htoNat]
    rw [hold, Region.window_take _ _ _ _ hle]
    by_cases hend : e.ofOffset + bytes.length <= inode.iSize
    · rw [Region.window_drop _ _ _ _ hend]
    · have hrest : inode.iSize - (e.ofOffset + bytes.length) = 0 := by omega
      rw [hrest, List.drop_eq_nil_of_le (by simp; omega)]
      rfl

section Stored

variable {fh i k b offset : Nat} {name : CStr} {inode : Inode} {bytes : List UInt8}

/-- The file of a handle has, after a write, as many bytes as its record says. -/
theorem stored_own (h : Refines params fs a)
    (hst : Stored fs fh k b ⟨k, offset⟩ inode bytes fs')
    (hentry : a.handles fh = some (name, offset)) (hlisted : Listed fs i name k) :
    inodeBytes fs' ⟨inode.iNodeType, max inode.iSize (offset + bytes.length), b⟩ =
        AbstractFs.patch (a.content name) offset bytes ∧
      (AbstractFs.patch (a.content name) offset bytes).length =
        max inode.iSize (offset + bytes.length) := by
  rcases h.inv with ⟨made, hinv⟩
  have hle : offset <= inode.iSize := by
    rcases h.opened hentry with ⟨i', k', _, hlisted', hle⟩
    have hk := (hinv.listed_unique hlisted' hlisted).right
    rwa [h.content hlisted hst.record, inodeBytes_length] at hle
  have hown : inodeBytes fs' ⟨inode.iNodeType, max inode.iSize (offset + bytes.length), b⟩ =
      AbstractFs.patch (a.content name) offset bytes := by
    rw [h.content hlisted hst.record]
    exact bytes_patch hst hle
  refine ⟨hown, ?_⟩
  rw [← hown, inodeBytes_length]

theorem stored_content (h : Refines params fs a)
    (hst : Stored fs fh k b ⟨k, offset⟩ inode bytes fs')
    (hentry : a.handles fh = some (name, offset)) (hlisted : Listed fs i name k) {j m : Nat}
    {held : CStr} {inode' : Inode} (hj : Listed fs j held m)
    (hinode' : fs'.inodeTable[m]? = some inode') :
    (a.setContent name (AbstractFs.patch (a.content name) offset bytes)).content held =
      inodeBytes fs' inode' := by
  rcases h.inv with ⟨made, hinv⟩
  by_cases hm : m = k
  · rw [hm] at hj hinode'
    rw [hst.inode_self] at hinode'
    cases hinode'
    rw [hinv.listed_injective hj hlisted]
    exact (Function.update_self name _ a.content).trans (h.stored_own hst hentry hlisted).left.symm
  · have hheld : held ≠ name := by
      intro heq
      rw [heq] at hj
      exact hm (hinv.listed_unique hj hlisted).right
    rw [hst.inode_other hm] at hinode'
    refine (Function.update_of_ne hheld _ a.content).trans ?_
    rw [h.content hj hinode', hst.bytes_listed hinv hlisted hj hm hinode']

/-- No file gets shorter by a write. -/
theorem stored_length (h : Refines params fs a)
    (hst : Stored fs fh k b ⟨k, offset⟩ inode bytes fs')
    (hentry : a.handles fh = some (name, offset)) (hlisted : Listed fs i name k)
    (held : CStr) : (a.content held).length <=
      ((a.setContent name (AbstractFs.patch (a.content name) offset bytes)).content
        held).length := by
  by_cases hheld : held = name
  · have hbytes : (a.setContent name (AbstractFs.patch (a.content name) offset bytes)).content
        name = AbstractFs.patch (a.content name) offset bytes :=
      Function.update_self name _ a.content
    rw [hheld, hbytes, (h.stored_own hst hentry hlisted).right, h.content hlisted hst.record,
      inodeBytes_length]
    exact Nat.le_max_left _ _
  · exact Nat.le_of_eq (congrArg List.length (Function.update_of_ne hheld _ a.content)).symm

theorem stored_noLeak (h : Refines params fs a)
    (hst : Stored fs fh k b ⟨k, offset⟩ inode bytes fs') (hlisted : Listed fs i name k)
    {c : Nat} (hc : BlockTaken fs' c) (hc0 : c ≠ 0) : exists i k name inode,
      Listed fs' i name k ∧ fs'.inodeTable[k]? = some inode ∧ 0 < inode.iSize ∧
        inode.iDataBlock = c := by
  rcases h.inv with ⟨made, hinv⟩
  have hpositive := hst.pos
  have hgrown : 0 < max inode.iSize (offset + bytes.length) := by omega
  have hself : c = b -> exists i k name inode, Listed fs' i name k ∧
      fs'.inodeTable[k]? = some inode ∧ 0 < inode.iSize ∧ inode.iDataBlock = c := by
    intro hcb
    exact ⟨i, k, name, _, (hst.listed hinv).mpr hlisted, hst.inode_self, hgrown, by rw [hcb]⟩
  rcases hst.blocks.mp hc with ⟨hcb, _⟩ | hold
  · exact hself hcb
  · rcases h.noLeak hold hc0 with ⟨j, m, held, inode', hj, hinode', hpos', hblock'⟩
    by_cases hm : m = k
    · rw [hm, hst.record] at hinode'
      cases hinode'
      rcases hst.block with ⟨hzero, _, _⟩ | ⟨_, hb⟩
      · omega
      · exact hself (by omega)
    · exact ⟨j, m, held, inode', (hst.listed hinv).mpr hj, (hst.inode_other hm).trans hinode',
        hpos', hblock'⟩

/-- A write through a handle patches its own file and no other. -/
theorem stored (h : Refines params fs a)
    (hst : Stored fs fh k b ⟨k, offset⟩ inode bytes fs')
    (hentry : a.handles fh = some (name, offset)) (hlisted : Listed fs i name k)
    (hinv' : exists made, Inv made fs') :
    Refines params fs'
      ((a.setContent name (AbstractFs.patch (a.content name) offset bytes)).setHandle fh
        (some (name, offset + bytes.length))) := by
  rcases h.inv with ⟨made, hinv⟩
  have hlisteds : forall {j m : Nat} {held : CStr},
      Listed fs' j held m <-> Listed fs j held m := hst.listed hinv
  constructor
  · exact hinv'
  · rcases h.sized with ⟨hp, hi, ht, hd⟩
    refine ⟨hst.fsParams.trans hp, ?_, hst.tableLength.trans ht, ?_⟩
    · rw [hst.inodeTable, List.length_set, hi]
    · rw [hst.fsData, Region.overlay_size, hd]
  · intro held
    simp only [hlisteds]
    exact h.names held
  · intro j m held inode' hj hinode'
    exact h.stored_content hst hentry hlisted (hlisteds.mp hj) hinode'
  · intro j e hnone hopen'
    by_cases hj : j = fh
    · simp [hj, AbstractFs.setHandle] at hnone
    · have hold : a.handles j = none := (Function.update_of_ne hj _ a.handles).symm.trans hnone
      rcases hst.handles.mp hopen' with ⟨heq, _⟩ | ⟨_, hopen0⟩
      · exact hj heq
      · exact h.closed hold hopen0
  · intro j held offset' hentry'
    by_cases hj : j = fh
    · rw [hj] at hentry'
      have heq := (Function.update_self fh _ a.handles).symm.trans hentry'
      cases heq
      refine ⟨i, k, hst.handles.mpr (Or.inl ⟨hj, rfl⟩), hlisteds.mpr hlisted, ?_⟩
      have hlength := (h.stored_own hst hentry hlisted).right
      have hbytes := congrArg List.length (Function.update_self name
        (AbstractFs.patch (a.content name) offset bytes) a.content)
      exact Nat.le_trans (Nat.le_max_right inode.iSize _)
        (Nat.le_of_eq (hbytes.trans hlength).symm)
    · have hold : a.handles j = some (held, offset') :=
        (Function.update_of_ne hj _ a.handles).symm.trans hentry'
      rcases h.opened hold with ⟨i', k', hopen', hlisted', hle'⟩
      exact ⟨i', k', hst.handles.mpr (Or.inr ⟨hj, hopen'⟩), hlisteds.mpr hlisted',
        Nat.le_trans hle' (h.stored_length hst hentry hlisted held)⟩
  · exact fun hc hc0 => h.stored_noLeak hst hlisted hc hc0

end Stored

/-!
## Calls
-/

theorem fitsEntry_iff {name : CStr} :
    FitsEntry name <-> 1 <= name.bytes.length ∧ name.bytes.length <= 39 := by
  simp only [FitsEntry, maxFileName]
  omega

/-- An open of a file of the directory. -/
theorem openListed (h : Refines params fs a) (hfits : FitsMachine params)
    {path : Option CStr} {mode i k : Nat} (hvalid : validPathname path = true)
    (hlisted : Listed fs i (skipSlash path) k)
    (hquiet : hasFlag mode tfsOTrunc = true -> a.NoHandleOn (skipSlash path)) :
    exists fs', OpenStep fs path mode (a.openFile params path mode).1 fs' ∧
      Refines params fs' (a.openFile params path mode).2 := by
  rcases h.inv with ⟨made, hinv⟩
  have hok : ¬ validPathname path = false := by simp [hvalid]
  have hthere : skipSlash path ∈ a.names := (h.names _).mpr ⟨i, k, hlisted⟩
  rcases hinv.inode_of_listed hlisted with ⟨_, _, _, inode, hinode, hfile⟩
  rcases truncateStep_exists (k := k) hinv mode hfile with ⟨inode', fs1, htrunc⟩
  rcases h.truncate hlisted hinode hquiet htrunc with ⟨h1, hlisted1, hinode1⟩
  have hlen : ((a.truncated mode (skipSlash path)).content (skipSlash path)).length =
      inode'.iSize := by
    rw [h1.content hlisted1 hinode1, inodeBytes_length]
  have hle : (if hasFlag mode tfsOAppend then inode'.iSize else 0) <=
      ((a.truncated mode (skipSlash path)).content (skipSlash path)).length := by
    rw [hlen]
    split <;> omega
  rcases h1.newHandle hfits hlisted1 hle with ⟨fs2, hhandle, h2⟩
  rw [AbstractFs.openFile, if_neg hok, if_pos hthere]
  simp only [hlen]
  exact ⟨fs2, OpenStep.existing hvalid hlisted hinode htrunc hhandle, h2⟩

theorem notThere (h : Refines params fs a) {name : CStr} (habsent : Absent fs name) :
    name ∉ a.names := by
  intro hthere
  rcases (h.names name).mp hthere with ⟨i, k, hlisted⟩
  exact habsent i k hlisted

/-- An open that finds no file and an inode for a new one. -/
theorem openNew (h : Refines params fs a) (hfits : FitsMachine params) {path : Option CStr}
    {mode k : Nat} (hvalid : validPathname path = true) (habsent : Absent fs (skipSlash path))
    (hflag : hasFlag mode tfsOCreat = true)
    (hfirst : FirstAt fs.freeinodeTs fs.inodeTableSize .free k) :
    exists fs', OpenStep fs path mode (a.openFile params path mode).1 fs' ∧
      Refines params fs' (a.openFile params path mode).2 := by
  rw [AbstractFs.openFile, if_neg (by simp [hvalid]), if_neg (h.notThere habsent)]
  have hcount := h.freeInode_iff.mp ⟨k, hfirst⟩
  have hklt := hfirst.left
  rw [h.inodeTableSize_eq] at hklt
  have hint : k < intLimit := by
    have hmax := hfits.inodes
    simp only [intLimit]
    omega
  have hlt : k < fs.inodeTable.length := by
    rw [h.sized.inodeCells]
    exact hklt
  by_cases hname : FitsEntry (skipSlash path)
  · by_cases hslot : exists j, FreeSlot fs.fsData fs.maxDirEntries j
    · have hcan : a.canCreate params (skipSlash path) :=
        ⟨fitsEntry_iff.mp hname, hcount, h.freeSlot_iff.mp hslot⟩
      rcases hslot with ⟨j, hslot⟩
      rcases h.createFile habsent hfirst hint hlt hname hslot with ⟨h1, hlisted1⟩
      rcases h1.newHandle hfits hlisted1 (Nat.zero_le _) with ⟨fs2, hhandle, h2⟩
      rw [if_pos ⟨hflag, hcan⟩]
      exact ⟨fs2, OpenStep.created hvalid habsent hflag hfirst hint hlt hname hslot hhandle, h2⟩
    · have hfull : FullDir fs.fsData fs.maxDirEntries := by
        rcases freeSlot_or_fullDir fs.fsData fs.maxDirEntries with hj | hfull
        · exact absurd hj hslot
        · exact hfull
      rw [if_neg fun hcan => hslot (h.freeSlot_iff.mpr hcan.right.right.right)]
      exact ⟨_, OpenStep.notEntered hvalid habsent hflag hfirst hint hlt (Or.inr hfull),
        h.resetInode hfirst hint hlt⟩
  · rw [if_neg fun hcan => hname (fitsEntry_iff.mpr hcan.right.left)]
    exact ⟨_, OpenStep.notEntered hvalid habsent hflag hfirst hint hlt (Or.inl hname),
      h.resetInode hfirst hint hlt⟩

theorem openStep (h : Refines params fs a) (hfits : FitsMachine params)
    {path : Option CStr} {mode : Nat}
    (hquiet : validPathname path = true -> hasFlag mode tfsOTrunc = true ->
      a.NoHandleOn (skipSlash path)) :
    exists fs', OpenStep fs path mode (a.openFile params path mode).1 fs' ∧
      Refines params fs' (a.openFile params path mode).2 := by
  rcases h.inv with ⟨made, hinv⟩
  cases hvalid : validPathname path with
  | false =>
      refine ⟨fs, ?_, ?_⟩
      · rw [AbstractFs.openFile, if_pos hvalid]
        exact OpenStep.badPath hvalid
      · rw [AbstractFs.openFile, if_pos hvalid]
        exact h
  | true =>
      rcases listed_or_absent fs (skipSlash path) with ⟨i, k, hlisted⟩ | habsent
      · exact h.openListed hfits hvalid hlisted (hquiet hvalid)
      · have hopenFile : a.openFile params path mode =
            if hasFlag mode tfsOCreat ∧ a.canCreate params (skipSlash path) then
              (a.created (skipSlash path)).newHandle params (skipSlash path) 0
            else (-1, a) := by
          rw [AbstractFs.openFile, if_neg (by simp [hvalid]), if_neg (h.notThere habsent)]
        by_cases hflag : hasFlag mode tfsOCreat = true
        · rcases firstAt_or_nowhereAt fs.freeinodeTs .free
            (Nat.le_of_eq hinv.layout.inodeCells.symm) with ⟨k, hfirst⟩ | hnone
          · exact h.openNew hfits hvalid habsent hflag hfirst
          · rw [hopenFile, if_neg fun hcan => by
              rcases h.freeInode_iff.mpr hcan.right.right.left with ⟨k, hfirst⟩
              exact hnone.not_firstAt hfirst]
            exact ⟨fs, OpenStep.noInode hvalid habsent hflag hnone, h⟩
        · rw [hopenFile, if_neg fun hcan => hflag hcan.left]
          exact ⟨fs, OpenStep.absent hvalid habsent (by simpa using hflag), h⟩

theorem closeStep (h : Refines params fs a) (fhandle : Int) :
    exists fs', CloseStep fs fhandle (a.closeFile fhandle).1 fs' ∧
      Refines params fs' (a.closeFile fhandle).2 := by
  rcases h.inv with ⟨made, hinv⟩
  rcases h.entry_cases fhandle with ⟨hentry, hnot⟩ |
    ⟨fh, name, offset, i, k, hfh, hentry, hhandle, hopen, hlisted, hle⟩
  · rw [AbstractFs.closeFile, hentry]
    exact ⟨fs, CloseStep.notOpen hnot, h⟩
  · rw [AbstractFs.closeFile, hentry]
    have hsame : SameStorage fs (fs.dropHandle fh) := ⟨rfl, rfl, rfl, rfl, rfl⟩
    refine ⟨fs.dropHandle fh, CloseStep.closed hfh hopen, ?_⟩
    have htoNat : fhandle.toNat = fh := by omega
    rw [htoNat]
    refine h.sameStorage hsame ⟨made, hinv.dropHandle fh⟩ rfl ?_ ?_
    · intro j e hnone hopen'
      rcases openAt_dropHandle.mp hopen' with ⟨hne, hold⟩
      exact h.closed ((Function.update_of_ne hne _ a.handles).symm.trans hnone) hold
    · intro j held offset' hentry'
      by_cases hj : j = fh
      · rw [hj, Function.update_self] at hentry'
        cases hentry'
      · rcases h.opened ((Function.update_of_ne hj _ a.handles).symm.trans hentry') with
          ⟨i', k', hopen', hlisted', hle'⟩
        exact ⟨i', k', openAt_dropHandle.mpr ⟨hj, hopen'⟩, hlisted', hle'⟩

theorem region_of_block (h : Refines params fs a) {b offset n : Nat} (hlt : b < fs.dataBlocks)
    (hfits : offset + n <= fs.blockSize) :
    b * fs.blockSize + offset + n <= fs.fsData.size := by
  have hblock : (b + 1) * fs.blockSize <= fs.dataBlocks * fs.blockSize :=
    Nat.mul_le_mul_right _ hlt
  rw [h.sized.data, ← h.dataBlocks_eq, ← h.blockSize_eq]
  rw [Nat.succ_mul] at hblock
  omega

theorem readStep (h : Refines params fs a) (fhandle : Int) (len : Nat) :
    exists fs', ReadStep fs fhandle len (a.readFile fhandle len).1.ret
        (a.readFile fhandle len).1.data fs' ∧
      Refines params fs' (a.readFile fhandle len).2 := by
  rcases h.inv with ⟨made, hinv⟩
  rcases h.entry_cases fhandle with ⟨hentry, hnot⟩ |
    ⟨fh, name, offset, i, k, hfh, hentry, hhandle, hopen, hlisted, hle⟩
  · rw [AbstractFs.readFile, hentry]
    exact ⟨fs, ReadStep.notOpen hnot, h⟩
  · rcases hinv.inode_of_listed hlisted with ⟨_, htaken, _, inode, hinode, hfile⟩
    have hcontent := h.content hlisted hinode
    rw [hcontent, inodeBytes_length] at hle
    have hclip : clippedRead inode.iSize offset len = min len (inode.iSize - offset) := by
      rw [clippedRead, sizeSub_eq hle (hinv.size_lt hfile)]
      split <;> omega
    have hdata : ((a.content name).drop offset).take len =
        ((inodeBytes fs inode).drop offset).take (clippedRead inode.iSize offset len) := by
      rw [hcontent, hclip, List.take_eq_take_min]
      simp
    have hlen : (((a.content name).drop offset).take len).length =
        clippedRead inode.iSize offset len := by
      rw [hdata, List.length_take, List.length_drop, inodeBytes_length, hclip]
      omega
    have htoNat : fhandle.toNat = fh := by omega
    rw [AbstractFs.readFile, hentry]
    simp only [hlen, htoNat]
    by_cases hn : clippedRead inode.iSize offset len = 0
    · refine ⟨fs, ?_, ?_⟩
      · have hnil : ((a.content name).drop offset).take len = [] := by
          rw [← List.length_eq_zero_iff, hlen, hn]
        rw [hn, hnil]
        exact ReadStep.nothing hfh hopen rfl hinode hn
      · have hsame : a.setHandle fh (some (name, offset + clippedRead inode.iSize offset len)) =
            a := by
          rw [hn, Nat.add_zero, AbstractFs.setHandle, ← hhandle, Function.update_eq_self]
        rw [hsame]
        exact h
    · have hpos : 0 < inode.iSize := by omega
      rcases hinv.usable_of_size hfile hpos with ⟨b, hb, husable⟩
      have hend : offset + clippedRead inode.iSize offset len <= inode.iSize := by omega
      have hregion := h.region_of_block husable.lt (Nat.le_trans hend hfile.size)
      have hwindow : ((a.content name).drop offset).take len =
          fs.fsData.window (b * fs.blockSize + offset) (clippedRead inode.iSize offset len) := by
        have htoNat' : inode.iDataBlock.toNat = b := by omega
        rw [hdata, inodeBytes, htoNat', Region.window_drop _ _ _ _ hle,
          Region.window_take _ _ _ _ (by omega)]
      have hoffset : offset + clippedRead inode.iSize offset len < sizeMod :=
        Nat.lt_of_le_of_lt hend (hinv.size_lt hfile)
      refine ⟨fs.setEntry fh ⟨k, offset + clippedRead inode.iSize offset len⟩, ?_, ?_⟩
      · rw [hwindow]
        exact ReadStep.copied hfh hopen rfl hinode rfl hn hb hregion
      · have hsame : SameStorage fs (fs.setEntry fh
            ⟨k, offset + clippedRead inode.iSize offset len⟩) := ⟨rfl, rfl, rfl, rfl, rfl⟩
        refine h.putHandle hsame ⟨made, hinv.setEntry hopen hoffset⟩ (by simp [Fs.setEntry])
          (openAt_setEntry hopen) hlisted ?_
        rw [hcontent, inodeBytes_length]
        exact hend

theorem clippedWrite_min {blockSize offset toWrite : Nat} (hle : offset <= blockSize)
    (hblock : blockSize < sizeMod) (hsum : toWrite + offset < sizeMod) :
    clippedWrite blockSize offset toWrite = min toWrite (blockSize - offset) := by
  rw [clippedWrite, sizeAdd_eq hsum, sizeSub_eq hle hblock]
  split <;> omega

theorem writeStep (h : Refines params fs a) (hfits : FitsMachine params) {fhandle : Int}
    {buffer : List UInt8} {toWrite : Nat} (hbuffer : toWrite <= buffer.length)
    (hsum : forall name offset, a.entry fhandle = some (name, offset) ->
      toWrite + offset < sizeMod) :
    exists fs', WriteStep fs fhandle buffer toWrite
        (a.writeFile params fhandle buffer toWrite).1 fs' ∧
      Refines params fs' (a.writeFile params fhandle buffer toWrite).2 := by
  rcases h.inv with ⟨made, hinv⟩
  rcases h.entry_cases fhandle with ⟨hentry, hnot⟩ |
    ⟨fh, name, offset, i, k, hfh, hentry, hhandle, hopen, hlisted, hle⟩
  · rw [AbstractFs.writeFile, hentry]
    exact ⟨fs, WriteStep.notOpen hnot, h⟩
  · rcases hinv.inode_of_listed hlisted with ⟨_, htaken, _, inode, hinode, hfile⟩
    have hcontent := h.content hlisted hinode
    rw [hcontent, inodeBytes_length] at hle
    have hsize := hfile.size
    have hclip := clippedWrite_min (Nat.le_trans hle hsize) hinv.blockSize_lt
      (hsum name offset hentry)
    rw [AbstractFs.writeFile, hentry]
    simp only [← h.blockSize_eq, ← hclip]
    have htoNat : fhandle.toNat = fh := by omega
    rw [htoNat]
    generalize hn : clippedWrite fs.blockSize offset toWrite = n
    rw [hclip] at hn
    have hclip' : clippedWrite fs.blockSize offset toWrite = n := hclip.trans hn
    by_cases hzero : n = 0
    · rw [if_pos hzero]
      exact ⟨fs, WriteStep.nothing hfh hopen (hclip'.trans hzero), h⟩
    · rw [if_neg hzero]
      have hne : clippedWrite fs.blockSize offset toWrite ≠ 0 := by
        rw [hclip']
        exact hzero
      have hbuf : n <= buffer.length := by omega
      have hlen : (buffer.take n).length = n := by simp [hbuf]
      have hend : offset + n <= fs.blockSize := by omega
      have hend' : offset + (buffer.take n).length <= fs.blockSize := by
        rw [hlen]
        exact hend
      have hempty : a.content name = [] <-> inode.iSize = 0 := by
        rw [hcontent, ← List.length_eq_zero_iff, inodeBytes_length]
      have hstate : offset + n = offset + (buffer.take n).length := by rw [hlen]
      rw [hstate]
      by_cases hspace : a.content name = [] ∧ a.nonEmpty.card = params.maxBlockCount - 1
      · rw [if_pos hspace]
        have hnone : NowhereAt fs.freeBlocks fs.dataBlocks .free := by
          rcases firstAt_or_nowhereAt fs.freeBlocks .free
            (Nat.le_of_eq hinv.layout.blockCells.symm) with hb | hnone
          · exact absurd hspace.right (h.freeBlock_iff.mp hb)
          · exact hnone
        exact ⟨fs, WriteStep.noSpace hfh hopen hne rfl hinode (hempty.mp hspace.left) hnone, h⟩
      · rw [if_neg hspace]
        by_cases hpos : inode.iSize = 0
        · have hfree : exists b, FirstAt fs.freeBlocks fs.dataBlocks .free b :=
            h.freeBlock_iff.mpr fun hcard => hspace ⟨hempty.mpr hpos, hcard⟩
          rcases hfree with ⟨b, hfirst⟩
          have hint : b < intLimit := by
            have hlt := hfirst.left
            have hmax := hfits.blocks
            rw [h.dataBlocks_eq] at hlt
            simp only [intLimit]
            omega
          have hregion := h.region_of_block hfirst.left hend
          have hstep : WriteStep fs fhandle buffer toWrite n _ :=
            WriteStep.fresh hfh hopen hclip' hzero rfl hinode hpos hfirst hint hbuf hregion
          exact ⟨_, hstep, h.stored (Stored.fresh hopen rfl hinode hpos hfirst hint (by omega)
            hend' (hlen.symm ▸ hregion)) hhandle hlisted ⟨made, hinv.writeStep hstep⟩⟩
        · have hpos' : 0 < inode.iSize := by omega
          rcases hinv.usable_of_size hfile hpos' with ⟨b, hb, husable⟩
          have hregion := h.region_of_block husable.lt hend
          have hstep : WriteStep fs fhandle buffer toWrite n _ :=
            WriteStep.inPlace hfh hopen hclip' hzero rfl hinode hpos' hb hbuf hregion
          exact ⟨_, hstep, h.stored (Stored.inPlace hopen rfl hinode hpos' hb (by omega) hend'
            (hlen.symm ▸ hregion)) hhandle hlisted ⟨made, hinv.writeStep hstep⟩⟩

theorem unlinkStep (h : Refines params fs a) {path : Option CStr}
    (hquiet : validPathname path = true -> a.NoHandleOn (skipSlash path)) :
    exists fs', UnlinkStep fs path (a.unlinkFile path).1 fs' ∧
      Refines params fs' (a.unlinkFile path).2 := by
  rcases h.inv with ⟨made, hinv⟩
  cases hvalid : validPathname path with
  | false =>
      have hnot : ¬ (validPathname path = true ∧ skipSlash path ∈ a.names) := by simp [hvalid]
      rw [AbstractFs.unlinkFile, if_neg hnot]
      exact ⟨fs, UnlinkStep.badPath hvalid, h⟩
  | true =>
      rcases listed_or_absent fs (skipSlash path) with ⟨i, k, hlisted⟩ | habsent
      · have hthere := (h.names _).mpr ⟨i, k, hlisted⟩
        rcases hinv.inode_of_listed hlisted with ⟨_, _, _, inode, hinode, _⟩
        rw [AbstractFs.unlinkFile, if_pos ⟨hvalid, hthere⟩]
        exact ⟨_, UnlinkStep.removed hvalid hlisted hinode,
          h.removeFile hlisted hinode (hquiet hvalid)⟩
      · have hnot : ¬ (validPathname path = true ∧ skipSlash path ∈ a.names) := by
          rintro ⟨_, hthere⟩
          exact h.notThere habsent hthere
        rw [AbstractFs.unlinkFile, if_neg hnot]
        exact ⟨fs, UnlinkStep.absent hvalid habsent, h⟩

theorem initial {mem : Mallocs} (h : Initial params mem fs) (hfits : FitsMachine params) :
    Refines params fs AbstractFs.empty := by
  constructor
  · exact ⟨_, h.inv⟩
  · rcases h.inodeTable with ⟨t, hmalloc, _, htable⟩
    rcases h.fsData with ⟨data, hdata, hslots⟩
    have hinodes := hfits.inodes
    have hhandles := hfits.handles
    refine ⟨h.fsParams, ?_, ?_, ?_⟩
    · rw [htable, List.length_set, mallocArray_length hmalloc (by decide) (by
        simp only [sizeofInode, sizeMod]
        omega)]
    · rw [mallocArray_length h.openFileTable (by decide) (by
        simp only [sizeofOpenFileEntry, sizeMod]
        omega)]
    · rw [(freeSlots_ok hslots).left, (mallocRegion_some hdata).right]
      exact Nat.mod_eq_of_lt hfits.data
  · intro name
    constructor
    · intro hname
      simp [AbstractFs.empty] at hname
    · rintro ⟨i, k, hlisted⟩
      exact absurd hlisted h.notListed
  · intro i k name inode hlisted
    exact absurd hlisted h.notListed
  · intro fh e _
    exact h.notOpen
  · intro fh name offset hentry
    cases hentry
  · intro b hb hne
    exact absurd (h.blockTaken_iff.mp hb) hne

end Refines

/-- Every disciplined call returns the abstract reply. -/
theorem refines_simulates (hfits : FitsMachine params) :
    Simulates exec (AbstractFs.exec params) AbstractFs.Disciplined (Refines params) := by
  intro call fs a h hallowed
  rcases h.inv with ⟨made, hinv⟩
  cases call with
  | «open» path mode =>
      rcases h.openStep hfits hallowed with ⟨fs', hstep, h'⟩
      exact ⟨fs', (exec_iff hinv).mpr (Step.open hstep), h'⟩
  | close fhandle =>
      rcases h.closeStep fhandle with ⟨fs', hstep, h'⟩
      exact ⟨fs', (exec_iff hinv).mpr (Step.close hstep), h'⟩
  | read fhandle len =>
      rcases h.readStep fhandle len with ⟨fs', hstep, h'⟩
      exact ⟨fs', (exec_iff hinv).mpr (Step.read hstep), h'⟩
  | write fhandle buffer toWrite =>
      rcases h.writeStep hfits hallowed.left hallowed.right with ⟨fs', hstep, h'⟩
      exact ⟨fs', (exec_iff hinv).mpr (Step.write hstep), h'⟩
  | unlink path =>
      rcases h.unlinkStep hallowed with ⟨fs', hstep, h'⟩
      exact ⟨fs', (exec_iff hinv).mpr (Step.unlink hstep), h'⟩

/-- From a successful {lit}`tfs_init`, every disciplined sequence of calls succeeds
with the replies of the abstract file system, and ends in a state that refines it. -/
theorem runCalls_refines {paramsPtr : Option TfsParams} {mem : Mallocs} {fs fs0 : Fs}
    (hinit : tfsInit paramsPtr mem fs = .ok (0, fs0))
    (hfits : FitsMachine (paramsPtr.getD tfsDefaultParams)) {calls : List Call}
    (hallowed : AllowedRun (AbstractFs.exec (paramsPtr.getD tfsDefaultParams))
      AbstractFs.Disciplined calls AbstractFs.empty) :
    exists fs',
      runCalls calls fs0 = .ok ((absRun (AbstractFs.exec (paramsPtr.getD tfsDefaultParams))
        calls AbstractFs.empty).1, fs') ∧
      Refines (paramsPtr.getD tfsDefaultParams) fs'
        (absRun (AbstractFs.exec (paramsPtr.getD tfsDefaultParams)) calls
          AbstractFs.empty).2 :=
  Simulates.run (refines_simulates hfits) (Refines.initial (tfsInit_initial hinit) hfits) hallowed

/-- A file is created, written, closed, reopened, read and unlinked. -/
def sessionCalls : List Call :=
  [.open pathA 1, .write 0 [1, 2, 3] 3, .close 0, .open pathA 0, .read 0 9, .close 0,
    .unlink pathA]

theorem sessionCalls_allowed :
    AllowedRun (AbstractFs.exec smallParams) AbstractFs.Disciplined sessionCalls
      AbstractFs.empty := by
  refine ⟨fun _ hflag => absurd hflag (by decide), ⟨by decide, ?_⟩, trivial,
    fun _ hflag => absurd hflag (by decide), trivial, trivial, ?_, trivial⟩
  · intro name offset hentry
    have hzero : (0 : Nat) = offset := congrArg Prod.snd (Option.some.inj hentry)
    rw [← hzero]
    decide
  · intro _ h offset hentry
    have hnone : ((absRun (AbstractFs.exec smallParams) (sessionCalls.take 6)
        AbstractFs.empty).2.handles h) = none := by
      cases h with
      | zero => decide +kernel
      | succ j => rfl
    exact absurd (hnone.symm.trans hentry) (by simp)

theorem runCalls_refines_session : exists fs',
    runCalls sessionCalls smallFs = .ok ([⟨0, []⟩, ⟨3, []⟩, ⟨0, []⟩, ⟨0, []⟩,
      ⟨3, [1, 2, 3]⟩, ⟨0, []⟩, ⟨0, []⟩], fs') := by
  have hfits : FitsMachine smallParams := by constructor <;> decide
  rcases runCalls_refines smallInit hfits sessionCalls_allowed with ⟨fs', hrun, _⟩
  have hreplies : (absRun (AbstractFs.exec smallParams) sessionCalls AbstractFs.empty).1 =
      [⟨0, []⟩, ⟨3, []⟩, ⟨0, []⟩, ⟨0, []⟩, ⟨3, [1, 2, 3]⟩, ⟨0, []⟩, ⟨0, []⟩] := by
    decide +kernel
  exact ⟨fs', hreplies ▸ hrun⟩

end TecnicoFs
