import TecnicoFs.Fs.Preservation

/-!
# The initial state

A successful {lit}`tfs_init` leaves an empty root directory in the first inode and
the first block, and nothing else in use.  The rest of every table, and the whole
data area but for the inode numbers of the directory's slots, keeps the bytes it
was allocated with.
-/

namespace TecnicoFs

open Library

theorem mallocArray_some {count size : Nat} {answer : Option (Nat -> alpha)} {t : List alpha}
    (h : mallocArray count size answer = some t) : t.length <= count := by
  unfold mallocArray at h
  split at h
  · cases answer with
    | none => cases h
    | some garbage =>
        cases h
        rw [List.length_map, List.length_range]
        by_cases hsize : size = 0
        · simp [hsize]
        · apply Nat.div_le_of_le_mul
          rw [Nat.mul_comm]
          exact Nat.mod_le _ _
  · cases h

/-- An array whose byte count is a size has all its cells. -/
theorem mallocArray_length {count size : Nat} {answer : Option (Nat -> alpha)}
    {t : List alpha} (h : mallocArray count size answer = some t) (hpos : 0 < size)
    (hsmall : count * size < sizeMod) : t.length = count := by
  unfold mallocArray at h
  split at h
  · cases answer with
    | none => cases h
    | some garbage =>
        cases h
        rw [List.length_map, List.length_range, sizeMul, Nat.mod_eq_of_lt hsmall,
          Nat.mul_div_cancel _ hpos]
  · cases h

theorem mallocRegion_some {count size : Nat} {answer : Option (Nat -> alpha)}
    {m : Region alpha} (h : mallocRegion count size answer = some m) :
    m.size <= ptrdiffMax ∧ m.size = sizeMul count size := by
  unfold mallocRegion at h
  split at h
  · rename_i hfits
    cases answer with
    | none => cases h
    | some garbage =>
        cases h
        exact ⟨hfits, rfl⟩
  · cases h

theorem fillCells_some {t t' : List alpha} {n : Nat} {x : alpha}
    (h : fillCells t n x = some t') (hlen : t.length <= n) : t' = List.replicate n x := by
  unfold fillCells at h
  split at h
  · cases h
    rw [List.drop_eq_nil_of_le hlen, List.append_nil]
  · cases h

/-- The tables after a successful {lit}`state_init`. -/
structure FreshTables (params : TfsParams) (mem : Mallocs) (fs : Fs) : Prop where
  fsParams : fs.fsParams = params
  inodeTableSet : fs.inodeTableSet = true
  inodeTable :
    mallocArray params.maxInodeCount sizeofInode mem.inodeTable = some fs.inodeTable
  freeinodeTs : fs.freeinodeTs = List.replicate params.maxInodeCount .free
  fsData : mallocRegion params.maxBlockCount params.blockSize mem.fsData = some fs.fsData
  freeBlocks : fs.freeBlocks = List.replicate params.maxBlockCount .free
  openFileTable : mallocArray params.maxOpenFilesCount sizeofOpenFileEntry mem.openFileTable =
    some fs.openFileTable
  freeOpenFileEntries :
    fs.freeOpenFileEntries = List.replicate params.maxOpenFilesCount .free

theorem stateInit_fresh {params : TfsParams} {mem : Mallocs} {fs fs' : Fs}
    (h : stateInit params mem fs = .ok (0, fs')) : FreshTables params mem fs' := by
  unfold stateInit at h
  cases hset : fs.inodeTableSet with
  | true => simp [hset] at h
  | false =>
      simp only [hset, Bool.false_eq_true, if_false, Fs.inodeTableSize, Fs.dataBlocks,
        Fs.blockSize, Fs.maxOpenFiles] at h
      cases hinodes : mallocArray params.maxInodeCount sizeofInode mem.inodeTable with
      | none => simp [hinodes] at h
      | some inodes =>
      cases hfree : mallocArray params.maxInodeCount sizeofAllocationState mem.freeinodeTs with
      | none => simp [hfree] at h
      | some free =>
      cases hdata : mallocRegion params.maxBlockCount params.blockSize mem.fsData with
      | none => simp [hdata] at h
      | some data =>
      cases hblocks : mallocArray params.maxBlockCount sizeofAllocationState mem.freeBlocks with
      | none => simp [hblocks] at h
      | some blocks =>
      cases htable : mallocArray params.maxOpenFilesCount sizeofOpenFileEntry
          mem.openFileTable with
      | none => simp [htable] at h
      | some table =>
      cases hentries : mallocArray params.maxOpenFilesCount sizeofAllocationState
          mem.freeOpenFileEntries with
      | none => simp [hentries] at h
      | some entries =>
      simp only [hinodes, hfree, hdata, hblocks, htable, hentries, Option.isNone_some,
        Bool.or_false, Bool.false_eq_true, if_false, Option.getD_some, Option.isSome_some] at h
      rcases bind_eq_ok.mp h with ⟨free', hfree', h⟩
      rcases bind_eq_ok.mp h with ⟨blocks', hblocks', h⟩
      rcases bind_eq_ok.mp h with ⟨entries', hentries', h⟩
      cases h
      have hfree'' := fillCells_some (inside_eq_ok.mp hfree') (mallocArray_some hfree)
      have hblocks'' := fillCells_some (inside_eq_ok.mp hblocks') (mallocArray_some hblocks)
      have hentries'' := fillCells_some (inside_eq_ok.mp hentries') (mallocArray_some hentries)
      exact ⟨rfl, rfl, hinodes, hfree'', hdata, hblocks'', htable, hentries''⟩

/-!
## The root directory
-/

/-- The bytes of the root directory's block after its slots have been freed. -/
def freeSlots (n : Nat) (data : Region UInt8) : Res (Region UInt8) :=
  forLoop (fun i data => inside (data.store (dInumberAt 0 i) (intBytes (-1)))) n data

theorem freeSlots_ok {n : Nat} {data data' : Region UInt8} (h : freeSlots n data = .ok data') :
    data'.size = data.size ∧ sizeofDirEntry * n <= data.size ∧
      forall i, i < n -> dInumber data' i = -1 := by
  refine forLoop_invariant
    (P := fun j m => m.size = data.size ∧ sizeofDirEntry * j <= data.size ∧
      forall i, i < j -> dInumber m i = -1) h ⟨rfl, Nat.zero_le _, fun i hi => by omega⟩ ?_
  intro j m m' _ hm hbody
  rcases hm with ⟨hsize, _, hbefore⟩
  rcases Region.store_eq_some.mp (inside_eq_ok.mp hbody) with ⟨hfits, hm'⟩
  rw [hsize] at hfits
  refine ⟨by rw [hm', Region.overlay_size, hsize], ?_, ?_⟩
  · simp only [dInumberAt, sizeofDirEntry, maxFileName, intBytes_length] at *
    omega
  · intro i hi
    by_cases hij : i = j
    · have hself := Region.window_overlay_self m (dInumberAt 0 j) (intBytes (-1))
      rw [intBytes_length] at hself
      rw [hm', dInumber, hij, hself, bytesInt_intBytes (by omega) (by omega)]
    · have hframe : dInumber m' i = dInumber m i := by
        rw [hm', dInumber, dInumber, Region.window_overlay_disjoint]
        left
        simp only [dInumberAt, sizeofDirEntry, maxFileName]
        omega
      rw [hframe]
      exact hbefore i (by omega)

/-- The state after a successful {lit}`tfs_init`. -/
structure Initial (params : TfsParams) (mem : Mallocs) (fs : Fs) : Prop where
  fsParams : fs.fsParams = params
  inodeTableSet : fs.inodeTableSet = true
  inodeTable : exists t : List Inode,
    mallocArray params.maxInodeCount sizeofInode mem.inodeTable = some t ∧ 0 < t.length ∧
      fs.inodeTable = t.set 0 ⟨.directory, params.blockSize, 0⟩
  inodeCount : 0 < params.maxInodeCount
  blockCount : 0 < params.maxBlockCount
  blockPos : 0 < params.blockSize
  freeinodeTs : fs.freeinodeTs = (List.replicate params.maxInodeCount .free).set 0 .taken
  freeBlocks : fs.freeBlocks = (List.replicate params.maxBlockCount .free).set 0 .taken
  fsData : exists data,
    mallocRegion params.maxBlockCount params.blockSize mem.fsData = some data ∧
      freeSlots (params.blockSize / sizeofDirEntry) data = .ok fs.fsData
  openFileTable : mallocArray params.maxOpenFilesCount sizeofOpenFileEntry mem.openFileTable =
    some fs.openFileTable
  freeOpenFileEntries :
    fs.freeOpenFileEntries = List.replicate params.maxOpenFilesCount .free

theorem firstAt_replicate {n : Nat} (hn : 0 < n) :
    FirstAt (List.replicate n AllocationState.free) n .free 0 := by
  refine ⟨hn, ?_, fun j hj => by omega⟩
  rw [List.getElem?_replicate, if_pos hn]

theorem modifyInode_ok {fs fs' : Fs} {k : Nat} {f : Inode -> Inode}
    (h : fs.modifyInode (k : Int) f = .ok fs') :
    exists inode, fs.inodeTable[k]? = some inode ∧
      fs' = { fs with inodeTable := fs.inodeTable.set k (f inode) } := by
  rcases bind_eq_ok.mp h with ⟨inode, hinode, _⟩
  have hcell : fs.inodeTable[k]? = some inode := by
    simpa [Fs.inodeAt] using inside_eq_ok.mp hinode
  rw [modifyInode_nat f hcell] at h
  cases h
  exact ⟨inode, hcell, rfl⟩

theorem dataBlockAlloc_firstAt {fs : Fs} {b : Nat} (hblock : 0 < fs.blockSize)
    (h : FirstAt fs.freeBlocks fs.dataBlocks .free b) :
    dataBlockAlloc fs = .ok (intOfSize b, fs.takeBlock b) := by
  simp [dataBlockAlloc, allocFirst_firstAt hblock h, Fs.takeBlock]

theorem dataBlockAlloc_nowhereAt {fs : Fs} (hblock : 0 < fs.blockSize)
    (h : NowhereAt fs.freeBlocks fs.dataBlocks .free) : dataBlockAlloc fs = .ok (-1, fs) := by
  simp [dataBlockAlloc, allocFirst_nowhereAt hblock h]

section FreshTables

variable {params : TfsParams} {mem : Mallocs} {fs fs' : Fs}

/-- Without inodes nothing is allocated. -/
theorem FreshTables.inodeAlloc_none (hfresh : FreshTables params mem fs)
    (h : params.maxInodeCount = 0) : inodeAlloc fs = .ok (-1, fs) := by
  have hcount : fs.inodeTableSize = 0 := by
    rw [Fs.inodeTableSize, hfresh.fsParams, h]
  simp [inodeAlloc, hcount, allocFirst, firstHit]

/-- With empty blocks the search divides by zero. -/
theorem FreshTables.inodeAlloc_zero (hfresh : FreshTables params mem fs)
    (hpos : 0 < params.maxInodeCount) (hzero : params.blockSize = 0) :
    forall r, inodeAlloc fs ≠ .ok r := by
  have hcount : fs.inodeTableSize = params.maxInodeCount := by
    rw [Fs.inodeTableSize, hfresh.fsParams]
  have hsize : fs.blockSize = 0 := by
    rw [Fs.blockSize, hfresh.fsParams, hzero]
  obtain ⟨n, hn⟩ : exists n, params.maxInodeCount = n + 1 :=
    ⟨params.maxInodeCount - 1, by omega⟩
  simp [inodeAlloc, hcount, hsize, hn, allocFirst, firstHit]

/-- The first inode is the first one allocated. -/
theorem FreshTables.inodeAlloc_root (hfresh : FreshTables params mem fs)
    (hpos : 0 < params.maxInodeCount) (hblock : 0 < params.blockSize) :
    inodeAlloc fs = .ok (0, { fs with freeinodeTs := fs.freeinodeTs.set 0 .taken }) := by
  have hfirst := firstAt_replicate hpos
  have hcount : fs.inodeTableSize = params.maxInodeCount := by
    rw [Fs.inodeTableSize, hfresh.fsParams]
  have hsize : fs.blockSize = params.blockSize := by
    rw [Fs.blockSize, hfresh.fsParams]
  rw [← hfresh.freeinodeTs, ← hcount] at hfirst
  rw [inodeAlloc, allocFirst_firstAt (hsize ▸ hblock) hfirst]
  rfl

theorem FreshTables.firstBlock (hfresh : FreshTables params mem fs)
    (hpos : 0 < params.maxBlockCount) : FirstAt fs.freeBlocks fs.dataBlocks .free 0 := by
  have hfirst := firstAt_replicate hpos
  rw [← hfresh.freeBlocks] at hfirst
  rwa [Fs.dataBlocks, hfresh.fsParams]

theorem inodeCreate_root (hfresh : FreshTables params mem fs)
    (h : inodeCreate .directory fs = .ok (rootDirInum, fs')) : Initial params mem fs' := by
  have hblocks : fs.dataBlocks = params.maxBlockCount := by
    rw [Fs.dataBlocks, hfresh.fsParams]
  have hsize : fs.blockSize = params.blockSize := by
    rw [Fs.blockSize, hfresh.fsParams]
  rw [inodeCreate] at h
  rcases Nat.eq_zero_or_pos params.maxInodeCount with hnone | hpos
  · rw [hfresh.inodeAlloc_none hnone] at h
    cases h
  · rcases Nat.eq_zero_or_pos params.blockSize with hzero | hblockPos
    · rcases bind_eq_ok.mp h with ⟨r, halloc, _⟩
      exact absurd halloc (hfresh.inodeAlloc_zero hpos hzero r)
    · have hne : ¬ ((0 : Int) = -1) := by decide
      rw [hfresh.inodeAlloc_root hpos hblockPos] at h
      simp only [ok_bind, hne, if_false] at h
      rcases bind_eq_ok.mp h with ⟨fs1, htype, h⟩
      rcases modifyInode_ok (k := 0) htype with ⟨inode, hinode, hfs1⟩
      have hblockPos1 : 0 < fs1.blockSize := by
        rw [hfs1]
        exact hsize ▸ hblockPos
      rcases Nat.eq_zero_or_pos params.maxBlockCount with hnone | hcountPos
      · have hnowhere : NowhereAt fs1.freeBlocks fs1.dataBlocks .free := by
          intro j hj
          have hcount1 : fs1.dataBlocks = 0 := by
            rw [hfs1]
            exact hblocks.trans hnone
          omega
        rw [dataBlockAlloc_nowhereAt hblockPos1 hnowhere] at h
        simp only [ok_bind, if_true] at h
        rcases bind_eq_ok.mp h with ⟨fs2, _, h⟩
        rcases bind_eq_ok.mp h with ⟨fs3, _, h⟩
        cases h
      · have hfirstBlock : FirstAt fs1.freeBlocks fs1.dataBlocks .free 0 := by
          rw [hfs1]
          exact hfresh.firstBlock hcountPos
        have hzero : intOfSize 0 = 0 := rfl
        rw [dataBlockAlloc_firstAt hblockPos1 hfirstBlock, hzero] at h
        simp only [ok_bind, hne, if_false] at h
        rcases bind_eq_ok.mp h with ⟨fs2, hroot, h⟩
        rcases modifyInode_ok (k := 0) hroot with ⟨inode', hinode', hfs2⟩
        have hcount2 : 0 < fs2.dataBlocks := by
          rw [hfs2, hfs1]
          exact hblocks ▸ hcountPos
        have hget := dataBlockGet_nat hcount2
        rw [show ((0 : Nat) : Int) = 0 from rfl] at hget
        rw [hget, ok_bind] at h
        rcases bind_eq_ok.mp h with ⟨data, hloop, h⟩
        cases h
        have hmul : sizeMul 0 fs2.blockSize = 0 := by simp [sizeMul]
        rw [hmul] at hloop
        have hlen : 0 < fs.inodeTable.length := getElem?_lt hinode
        have htable1 : fs1.inodeTable =
            fs.inodeTable.set 0 { inode with iNodeType := .directory } := by
          rw [hfs1]
        have htype' : inode'.iNodeType = .directory := by
          have hcell : fs1.inodeTable[0]? = some inode' := hinode'
          rw [htable1, List.getElem?_set_self hlen] at hcell
          rw [← Option.some.inj hcell]
        have htable2 : fs2.inodeTable =
            fs.inodeTable.set 0 ⟨.directory, params.blockSize, 0⟩ := by
          rw [hfs2]
          simp only [Fs.takeBlock, htable1, List.set_set, htype']
          rw [hfs1]
          simp only [Fs.blockSize, hfresh.fsParams]
        constructor
        · rw [hfs2, hfs1]
          exact hfresh.fsParams
        · rw [hfs2, hfs1]
          exact hfresh.inodeTableSet
        · exact ⟨fs.inodeTable, hfresh.inodeTable, hlen, htable2⟩
        · exact hpos
        · exact hcountPos
        · exact hblockPos
        · rw [hfs2, hfs1, ← hfresh.freeinodeTs]
          rfl
        · rw [hfs2, hfs1, ← hfresh.freeBlocks]
          rfl
        · refine ⟨fs.fsData, hfresh.fsData, ?_⟩
          rw [hfs2, hfs1] at hloop
          rw [← hsize]
          exact hloop
        · rw [hfs2, hfs1]
          exact hfresh.openFileTable
        · rw [hfs2, hfs1]
          exact hfresh.freeOpenFileEntries

end FreshTables

theorem tfsInit_initial {paramsPtr : Option TfsParams} {mem : Mallocs} {fs fs' : Fs}
    (h : tfsInit paramsPtr mem fs = .ok (0, fs')) :
    Initial (paramsPtr.getD tfsDefaultParams) mem fs' := by
  rcases bind_eq_ok.mp h with ⟨⟨r, fs1⟩, hstate, h⟩
  by_cases hr : r = 0
  · rw [hr] at hstate h
    rcases bind_eq_ok.mp h with ⟨⟨root, fs2⟩, hcreate, h⟩
    by_cases hroot : root = rootDirInum
    · rw [hroot] at hcreate h
      cases h
      exact inodeCreate_root (stateInit_fresh hstate) hcreate
    · simp [hroot] at h
  · simp [hr] at h

namespace Initial

variable {params : TfsParams} {mem : Mallocs} {fs : Fs}

theorem inodeTaken_iff (h : Initial params mem fs) {k : Nat} : InodeTaken fs k <-> k = 0 := by
  rw [InodeTaken, h.freeinodeTs, set_taken_iff (by simpa using h.inodeCount)]
  simp [List.getElem?_replicate]

theorem blockTaken_iff (h : Initial params mem fs) {b : Nat} : BlockTaken fs b <-> b = 0 := by
  rw [BlockTaken, h.freeBlocks, set_taken_iff (by simpa using h.blockCount)]
  simp [List.getElem?_replicate]

theorem notOpen (h : Initial params mem fs) {fh : Nat} {e : OpenFileEntry} :
    ¬ OpenAt fs fh e := by
  intro hopen
  have htaken := hopen.taken
  rw [h.freeOpenFileEntries] at htaken
  simp [List.getElem?_replicate] at htaken

theorem freeSlot (h : Initial params mem fs) {i : Nat} (hi : i < fs.maxDirEntries) :
    dInumber fs.fsData i = -1 := by
  rcases h.fsData with ⟨data, _, hslots⟩
  simp only [Fs.maxDirEntries, Fs.blockSize, h.fsParams] at hi
  exact (freeSlots_ok hslots).right.right i hi

theorem notListed (h : Initial params mem fs) {i k : Nat} {name : CStr} :
    ¬ Listed fs i name k := by
  intro hlisted
  exact hlisted.entry.ne_free (h.freeSlot hlisted.lt)

/-- The initial state satisfies the invariant, and no inode was created as a file. -/
theorem inv (h : Initial params mem fs) : Inv (fun _ => False) fs := by
  rcases h.fsData with ⟨data, hmalloc, hslots⟩
  rcases freeSlots_ok hslots with ⟨hsize, hfits, _⟩
  rcases h.inodeTable with ⟨t, _, hlen, htable⟩
  have hmax : fs.maxDirEntries = params.blockSize / sizeofDirEntry := by
    rw [Fs.maxDirEntries, Fs.blockSize, h.fsParams]
  have hroot : forall {k inode}, InodeTaken fs k -> fs.inodeTable[k]? = some inode ->
      k = 0 ∧ inode = ⟨.directory, fs.blockSize, 0⟩ := by
    intro k inode hk hinode
    have hk0 := h.inodeTaken_iff.mp hk
    rw [hk0, htable, List.getElem?_set_self hlen] at hinode
    rw [Fs.blockSize, h.fsParams]
    exact ⟨hk0, (Option.some.inj hinode).symm⟩
  constructor
  · constructor
    · rw [Fs.blockSize, h.fsParams]
      exact h.blockPos
    · rw [h.freeinodeTs, Fs.inodeTableSize, h.fsParams]
      simp
    · rw [h.freeBlocks, Fs.dataBlocks, h.fsParams]
      simp
    · rw [h.freeOpenFileEntries, Fs.maxOpenFiles, h.fsParams]
      simp
    · rw [hsize]
      exact (mallocRegion_some hmalloc).left
    · rw [htable, List.getElem?_set_self hlen, Fs.blockSize, h.fsParams]
    · exact h.inodeTaken_iff.mpr rfl
    · exact h.blockTaken_iff.mpr rfl
  · refine ⟨0, ⟨?_, Nat.zero_le _, fun i _ hi => h.freeSlot hi, fun i hi => by omega⟩,
      by decide, ?_, ?_, ?_, ?_⟩
    · rw [hmax, hsize]
      exact hfits
    · intro i j name k k' hi
      exact absurd hi h.notListed
    · intro i j name name' k hi
      exact absurd hi h.notListed
    · intro i name k hi
      exact absurd hi h.notListed
    · intro k hk hk0
      exact absurd (h.inodeTaken_iff.mp hk) hk0
  · constructor
    · intro k hk hk0
      exact absurd (h.inodeTaken_iff.mp hk) hk0
    · intro k hk
      cases hk
    · intro k inode b hk hinode _ hb
      rcases hroot hk hinode with ⟨_, heq⟩
      rw [heq] at hb
      apply h.blockTaken_iff.mpr
      exact Int.ofNat_inj.mp hb.symm
    · intro k k' inode inode' hk hk' _ _ _ _ _
      rw [h.inodeTaken_iff.mp hk, h.inodeTaken_iff.mp hk']
    · intro b hb
      rw [h.blockTaken_iff.mp hb]
      decide
    · intro b hb hb0
      exact absurd (h.blockTaken_iff.mp hb) hb0
  · constructor
    · intro fh e hopen
      exact absurd hopen h.notOpen
    · intro fh e hopen
      exact absurd hopen h.notOpen
    · intro fh htaken
      rw [h.freeOpenFileEntries] at htaken
      simp [List.getElem?_replicate] at htaken

end Initial

end TecnicoFs
