import TecnicoFs.Fs.World

/-!
# Failed initialisations

A call of {lit}`tfs_init` sets the parameters before it finds out whether it can go
on, and it keeps the tables that it has allocated when it cannot.  So a failure
leaves the state as it was only if the parameters are the ones that are set, and
no pointer to a table was assigned anew.  The state before the call is any state,
also one that an earlier failure has left with some of the tables.
-/

namespace TecnicoFs

open Library

/-- Six pointers to tables, as the block that each points to; NULL is {lit}`none`. -/
@[ext] structure TablePointers where
  inodeTable : Option Nat
  freeinodeTs : Option Nat
  fsData : Option Nat
  freeBlocks : Option Nat
  openFileTable : Option Nat
  freeOpenFileEntries : Option Nat
deriving DecidableEq

namespace TablePointers

def null : TablePointers := ⟨none, none, none, none, none, none⟩

def blocks (pointers : TablePointers) : List Nat :=
  [pointers.inodeTable, pointers.freeinodeTs, pointers.fsData, pointers.freeBlocks,
    pointers.openFileTable, pointers.freeOpenFileEntries].filterMap id

theorem eq_null {pointers : TablePointers} (h : pointers.blocks = []) : pointers = null := by
  have hnone := List.filterMap_eq_nil_iff.mp h
  rcases pointers with ⟨_, _, _, _, _, _⟩
  simpa [null] using hnone

end TablePointers

/-- The tables and the pointers to them.  Behind NULL there are no cells. -/
structure Static where
  fs : Fs
  pointers : TablePointers
  inodeTableSet : fs.inodeTableSet = pointers.inodeTable.isSome
  inodeTable : pointers.inodeTable = none -> fs.inodeTable = []
  freeinodeTs : pointers.freeinodeTs = none -> fs.freeinodeTs = []
  fsData : pointers.fsData = none -> fs.fsData = Fs.unset.fsData
  freeBlocks : pointers.freeBlocks = none -> fs.freeBlocks = []
  openFileTable : pointers.openFileTable = none -> fs.openFileTable = []
  freeOpenFileEntries : pointers.freeOpenFileEntries = none -> fs.freeOpenFileEntries = []

/-- The blocks of the six allocations of {lit}`state_init`. -/
structure Answered (params : TfsParams) (mem : Mallocs) where
  pointers : TablePointers
  inodeTable : pointers.inodeTable.isSome =
    (mallocArray params.maxInodeCount sizeofInode mem.inodeTable).isSome
  freeinodeTs : pointers.freeinodeTs.isSome =
    (mallocArray params.maxInodeCount sizeofAllocationState mem.freeinodeTs).isSome
  fsData : pointers.fsData.isSome =
    (mallocRegion params.maxBlockCount params.blockSize mem.fsData).isSome
  freeBlocks : pointers.freeBlocks.isSome =
    (mallocArray params.maxBlockCount sizeofAllocationState mem.freeBlocks).isSome
  openFileTable : pointers.openFileTable.isSome =
    (mallocArray params.maxOpenFilesCount sizeofOpenFileEntry mem.openFileTable).isSome
  freeOpenFileEntries : pointers.freeOpenFileEntries.isSome =
    (mallocArray params.maxOpenFilesCount sizeofAllocationState mem.freeOpenFileEntries).isSome

/-- The pointers after the assignments of {lit}`state_init`, which come after the test of
the pointer to the inode table. -/
def assignTables (answers pointers : TablePointers) : TablePointers :=
  if pointers.inodeTable.isSome then pointers else answers

/-- A failure leaves the parameters, the tables and the pointers to them as they were. -/
def InitKeeps (paramsPtr : Option TfsParams) (mem : Mallocs) (answers : TablePointers)
    (state : Static) : Prop :=
  forall fs', tfsInit paramsPtr mem state.fs = .ok (-1, fs') ->
    fs' = state.fs ∧ assignTables answers state.pointers = state.pointers

/-- All the tables are allocated. -/
structure AllAllocated (params : TfsParams) (mem : Mallocs) : Prop where
  inodeTable : (mallocArray params.maxInodeCount sizeofInode mem.inodeTable).isSome
  freeinodeTs : (mallocArray params.maxInodeCount sizeofAllocationState mem.freeinodeTs).isSome
  fsData : (mallocRegion params.maxBlockCount params.blockSize mem.fsData).isSome
  freeBlocks : (mallocArray params.maxBlockCount sizeofAllocationState mem.freeBlocks).isSome
  openFileTable :
    (mallocArray params.maxOpenFilesCount sizeofOpenFileEntry mem.openFileTable).isSome
  freeOpenFileEntries :
    (mallocArray params.maxOpenFilesCount sizeofAllocationState mem.freeOpenFileEntries).isSome

/-- No table is allocated. -/
structure NoneAllocated (params : TfsParams) (mem : Mallocs) : Prop where
  inodeTable : mallocArray params.maxInodeCount sizeofInode mem.inodeTable = none
  freeinodeTs : mallocArray params.maxInodeCount sizeofAllocationState mem.freeinodeTs = none
  fsData : mallocRegion params.maxBlockCount params.blockSize mem.fsData = none
  freeBlocks : mallocArray params.maxBlockCount sizeofAllocationState mem.freeBlocks = none
  openFileTable :
    mallocArray params.maxOpenFilesCount sizeofOpenFileEntry mem.openFileTable = none
  freeOpenFileEntries :
    mallocArray params.maxOpenFilesCount sizeofAllocationState mem.freeOpenFileEntries = none

/-- All the tables are allocated, with all their cells, and the root directory gets no
inode or no block. -/
structure NoRoot (params : TfsParams) (mem : Mallocs) : Prop where
  allocated : AllAllocated params mem
  inodeCells : forall t, mallocArray params.maxInodeCount sizeofAllocationState mem.freeinodeTs =
    some t -> params.maxInodeCount <= t.length
  blockCells : forall t, mallocArray params.maxBlockCount sizeofAllocationState mem.freeBlocks =
    some t -> params.maxBlockCount <= t.length
  handleCells : forall t, mallocArray params.maxOpenFilesCount sizeofAllocationState
    mem.freeOpenFileEntries = some t -> params.maxOpenFilesCount <= t.length
  root : params.maxInodeCount = 0 ∨ params.maxBlockCount = 0 ∧ 0 < params.blockSize ∧
    mallocArray params.maxInodeCount sizeofInode mem.inodeTable ≠ some []

/-- A failure leaves nothing behind. -/
def LeavesNothing (params : TfsParams) (mem : Mallocs) (state : Static) : Prop :=
  if state.fs.inodeTableSet then params = state.fs.fsParams
  else ¬ NoRoot params mem ∧
    (AllAllocated params mem ∨
      params = state.fs.fsParams ∧ NoneAllocated params mem ∧ state.pointers = .null)

section InitFailures

variable {params : TfsParams} {mem : Mallocs} {fs fs' : Fs}

/-- The file system is initialised already: only the parameters are set. -/
theorem initKeeps_set (paramsPtr : Option TfsParams) (answers : TablePointers) {state : Static}
    (hset : state.fs.inodeTableSet = true) :
    InitKeeps paramsPtr mem answers state <->
      paramsPtr.getD tfsDefaultParams = state.fs.fsParams := by
  have hinit : tfsInit paramsPtr mem state.fs =
      .ok (-1, { state.fs with fsParams := paramsPtr.getD tfsDefaultParams }) := by
    simp [tfsInit, stateInit, hset]
  constructor
  · intro hkeeps
    exact congrArg Fs.fsParams (hkeeps _ hinit).left
  · intro hparams fs' hfailed
    rw [hinit] at hfailed
    cases hfailed
    rw [hparams]
    exact ⟨rfl, if_pos (state.inodeTableSet.symm.trans hset)⟩

/-- The state that a failed allocation leaves. -/
def partlyAllocated (params : TfsParams) (mem : Mallocs) : Fs :=
  let inodeTable := mallocArray params.maxInodeCount sizeofInode mem.inodeTable
  { fsParams := params
    inodeTableSet := inodeTable.isSome
    inodeTable := inodeTable.getD []
    freeinodeTs :=
      (mallocArray params.maxInodeCount sizeofAllocationState mem.freeinodeTs).getD []
    fsData :=
      (mallocRegion params.maxBlockCount params.blockSize mem.fsData).getD Fs.unset.fsData
    freeBlocks := (mallocArray params.maxBlockCount sizeofAllocationState mem.freeBlocks).getD []
    openFileTable :=
      (mallocArray params.maxOpenFilesCount sizeofOpenFileEntry mem.openFileTable).getD []
    freeOpenFileEntries := (mallocArray params.maxOpenFilesCount sizeofAllocationState
      mem.freeOpenFileEntries).getD [] }

theorem stateInit_unallocated (hunset : fs.inodeTableSet = false)
    (hnot : ¬ AllAllocated params mem) :
    stateInit params mem fs = .ok (-1, partlyAllocated params mem) := by
  rw [stateInit]
  simp only [hunset, Bool.false_eq_true, if_false, Fs.inodeTableSize, Fs.dataBlocks,
    Fs.blockSize, Fs.maxOpenFiles]
  refine (if_pos ?_).trans rfl
  by_contra hsome
  simp only [Bool.or_eq_true, not_or, Bool.not_eq_true, Option.isNone_eq_false_iff] at hsome
  rcases hsome with ⟨⟨⟨⟨⟨hinodes, hfree⟩, hdata⟩, hblocks⟩, hentries⟩, hhandles⟩
  exact hnot ⟨hinodes, hfree, hdata, hblocks, hentries, hhandles⟩

theorem Answered.eq_null_iff (answers : Answered params mem) :
    answers.pointers = .null <-> NoneAllocated params mem := by
  have hnone : forall {beta : Type} {pointer : Option Nat} {table : Option beta},
      pointer.isSome = table.isSome -> (pointer = none <-> table = none) := by
    intro beta pointer table hsome
    cases pointer <;> cases table <;> simp_all
  constructor
  · intro hnull
    exact ⟨(hnone answers.inodeTable).mp (congrArg TablePointers.inodeTable hnull),
      (hnone answers.freeinodeTs).mp (congrArg TablePointers.freeinodeTs hnull),
      (hnone answers.fsData).mp (congrArg TablePointers.fsData hnull),
      (hnone answers.freeBlocks).mp (congrArg TablePointers.freeBlocks hnull),
      (hnone answers.openFileTable).mp (congrArg TablePointers.openFileTable hnull),
      (hnone answers.freeOpenFileEntries).mp
        (congrArg TablePointers.freeOpenFileEntries hnull)⟩
  · intro h
    exact TablePointers.ext ((hnone answers.inodeTable).mpr h.inodeTable)
      ((hnone answers.freeinodeTs).mpr h.freeinodeTs) ((hnone answers.fsData).mpr h.fsData)
      ((hnone answers.freeBlocks).mpr h.freeBlocks)
      ((hnone answers.openFileTable).mpr h.openFileTable)
      ((hnone answers.freeOpenFileEntries).mpr h.freeOpenFileEntries)

/-- With no pointer set there are no tables. -/
theorem Static.eq_unset {state : Static} (hnull : state.pointers = .null) :
    state.fs = { Fs.unset with fsParams := state.fs.fsParams } := by
  have hset := state.inodeTableSet
  rw [hnull] at hset
  have hinodes := state.inodeTable (congrArg TablePointers.inodeTable hnull)
  have hfree := state.freeinodeTs (congrArg TablePointers.freeinodeTs hnull)
  have hdata := state.fsData (congrArg TablePointers.fsData hnull)
  have hblocks := state.freeBlocks (congrArg TablePointers.freeBlocks hnull)
  have htable := state.openFileTable (congrArg TablePointers.openFileTable hnull)
  have hentries := state.freeOpenFileEntries
    (congrArg TablePointers.freeOpenFileEntries hnull)
  cases hfs : state.fs with
  | mk _ _ _ _ _ _ _ _ =>
      rw [hfs] at hset hinodes hfree hdata hblocks htable hentries
      simp only at hset hinodes hfree hdata hblocks htable hentries
      rw [hset, hinodes, hfree, hdata, hblocks, htable, hentries]
      rfl

theorem NoneAllocated.partlyAllocated (h : NoneAllocated params mem) :
    partlyAllocated params mem = { Fs.unset with fsParams := params } := by
  rw [TecnicoFs.partlyAllocated, h.inodeTable, h.freeinodeTs, h.fsData, h.freeBlocks,
    h.openFileTable, h.freeOpenFileEntries]
  rfl

section Root

variable {fs1 fs2 : Fs} {root : Int}

/-- The root directory has the first inode, and no block is free for it. -/
theorem inodeCreate_noBlock {inode : Inode} (halloc : inodeAlloc fs = .ok (0, fs1))
    (htype : fs1.modifyInode 0 (fun inode => { inode with iNodeType := .directory }) = .ok fs2)
    (hblockPos : 0 < fs2.blockSize) (hnone : fs2.dataBlocks = 0)
    (hcells : fs2.freeBlocks.length = fs2.dataBlocks) (hcount : 0 < fs2.inodeTableSize)
    (htaken : InodeTaken fs2 0) (hinode : fs2.inodeTable[0]? = some inode) :
    exists fs', inodeCreate .directory fs = .ok (-1, fs') ∧
      fs'.inodeTableSet = fs2.inodeTableSet := by
  have hne : ¬ ((0 : Int) = -1) := by decide
  have hnowhere : NowhereAt fs2.freeBlocks fs2.dataBlocks .free := by
    intro j hj
    omega
  generalize hempty : ({ inode with iSize := 0, iDataBlock := -1 } : Inode) = empty
  have hsize : empty.iSize = 0 := by rw [← hempty]
  generalize hfs3 : ({ fs2 with inodeTable := fs2.inodeTable.set 0 empty } : Fs) = fs3
  have hclear : fs2.modifyInode 0 (fun inode => { inode with iSize := 0, iDataBlock := -1 }) =
      .ok fs3 := by
    rw [← hfs3, ← hempty]
    exact modifyInode_nat (k := 0) _ hinode
  have hcell : fs3.inodeTable[0]? = some empty := by
    rw [← hfs3]
    exact List.getElem?_set_self (getElem?_lt hinode)
  have hdelete : inodeDelete 0 fs3 = .ok (fs3.dropInode 0 empty) := by
    have htaken3 : InodeTaken fs3 0 := by
      rw [← hfs3]
      exact htaken
    refine inodeDelete_nat (k := 0) ?_ ?_ htaken3 hcell fun hpos => by omega
    · rw [← hfs3]
      exact hcount
    · rw [← hfs3]
      exact hcells
  refine ⟨fs3.dropInode 0 empty, ?_, by rw [← hfs3]; rfl⟩
  rw [inodeCreate, halloc]
  simp only [ok_bind, hne, if_false, htype, dataBlockAlloc_nowhereAt hblockPos hnowhere,
    if_true, hclear, hdelete, pure_ok]

/-- The root directory has the first inode and a block. -/
theorem inodeCreate_block (halloc : inodeAlloc fs = .ok (0, fs1))
    (htype : fs1.modifyInode 0 (fun inode => { inode with iNodeType := .directory }) = .ok fs2)
    (hblockPos : 0 < fs2.blockSize) (hfirst : FirstAt fs2.freeBlocks fs2.dataBlocks .free 0)
    (hcreate : inodeCreate .directory fs = .ok (root, fs')) : root = rootDirInum := by
  have hne : ¬ ((0 : Int) = -1) := by decide
  have hzero : intOfSize 0 = 0 := rfl
  rw [inodeCreate, halloc] at hcreate
  simp only [ok_bind, hne, if_false, htype, dataBlockAlloc_firstAt hblockPos hfirst, hzero]
    at hcreate
  rcases bind_eq_ok.mp hcreate with ⟨fs3, _, hget⟩
  rcases bind_eq_ok.mp hget with ⟨dirEntry, _, hloop⟩
  rcases bind_eq_ok.mp hloop with ⟨data, _, hresult⟩
  cases hresult
  rfl

end Root

/-- The tables are allocated, and the root directory is not created. -/
theorem inodeCreate_noRoot (hfresh : FreshTables params mem fs) :
    (forall root fs', inodeCreate .directory fs = .ok (root, fs') -> root ≠ rootDirInum ->
      params.maxInodeCount = 0 ∨ params.maxBlockCount = 0 ∧ 0 < params.blockSize ∧
        fs.inodeTable ≠ []) ∧
    (params.maxInodeCount = 0 ∨ params.maxBlockCount = 0 ∧ 0 < params.blockSize ∧
        fs.inodeTable ≠ [] ->
      exists fs', inodeCreate .directory fs = .ok (-1, fs') ∧
        fs'.inodeTableSet = fs.inodeTableSet) := by
  have hcount : fs.inodeTableSize = params.maxInodeCount := by
    rw [Fs.inodeTableSize, hfresh.fsParams]
  have hsize : fs.blockSize = params.blockSize := by
    rw [Fs.blockSize, hfresh.fsParams]
  rcases Nat.eq_zero_or_pos params.maxInodeCount with hnone | hpos
  · refine ⟨fun _ _ _ _ => Or.inl hnone, fun _ => ⟨fs, ?_, rfl⟩⟩
    rw [inodeCreate, hfresh.inodeAlloc_none hnone]
    rfl
  · rcases Nat.eq_zero_or_pos params.blockSize with hzero | hblockPos
    · constructor
      · intro root fs' hcreate _
        rcases bind_eq_ok.mp hcreate with ⟨r, halloc, _⟩
        exact absurd halloc (hfresh.inodeAlloc_zero hpos hzero r)
      · rintro (hcount0 | ⟨_, hblock, _⟩) <;> omega
    · have halloc := hfresh.inodeAlloc_root hpos hblockPos
      cases hinode : fs.inodeTable[0]? with
      | none =>
          have hempty : fs.inodeTable = [] := by simpa using hinode
          constructor
          · intro root fs' hcreate _
            rw [inodeCreate, halloc] at hcreate
            simp [Fs.modifyInode, Fs.inodeAt, hempty, loadCell] at hcreate
          · rintro (hcount0 | ⟨_, _, htable⟩)
            · omega
            · exact absurd hempty htable
      | some inode =>
          have htable : fs.inodeTable ≠ [] := by
            intro hempty
            rw [hempty] at hinode
            cases hinode
          have htype := @modifyInode_nat
            { fs with freeinodeTs := fs.freeinodeTs.set 0 .taken } 0 inode
            (fun inode => { inode with iNodeType := .directory }) hinode
          rcases Nat.eq_zero_or_pos params.maxBlockCount with hnone | hblockCount
          · refine ⟨fun _ _ _ _ => Or.inr ⟨hnone, hblockPos, htable⟩, fun _ => ?_⟩
            have hblocks : fs.dataBlocks = 0 := by
              rw [Fs.dataBlocks, hfresh.fsParams, hnone]
            have htaken : (fs.freeinodeTs.set 0 .taken)[0]? = some .taken :=
              List.getElem?_set_self (by
                rw [hfresh.freeinodeTs, List.length_replicate]
                exact hpos)
            have hcells : fs.freeBlocks.length = fs.dataBlocks := by
              rw [hfresh.freeBlocks, hblocks, hnone]
              rfl
            have hcreate := inodeCreate_noBlock halloc htype (hsize.symm ▸ hblockPos) hblocks
              hcells (hcount.symm ▸ hpos) htaken (List.getElem?_set_self (getElem?_lt hinode))
            exact hcreate
          · constructor
            · intro root fs' hcreate hroot
              exact absurd (inodeCreate_block halloc htype (hsize.symm ▸ hblockPos)
                (hfresh.firstBlock hblockCount) hcreate) hroot
            · rintro (hcount0 | ⟨hcount0, _, _⟩) <;> omega

/-- All tables are allocated: their cells are freed. -/
theorem stateInit_allocated (hunset : fs.inodeTableSet = false)
    (hall : AllAllocated params mem) :
    stateInit params mem fs = (do
      let table := partlyAllocated params mem
      let freeinodeTs <- inside (fillCells table.freeinodeTs params.maxInodeCount .free)
      let freeBlocks <- inside (fillCells table.freeBlocks params.maxBlockCount .free)
      let freeOpenFileEntries <-
        inside (fillCells table.freeOpenFileEntries params.maxOpenFilesCount .free)
      pure (0,
        { table with
          freeinodeTs := freeinodeTs
          freeBlocks := freeBlocks
          freeOpenFileEntries := freeOpenFileEntries })) := by
  rw [stateInit]
  simp only [hunset, Bool.false_eq_true, if_false, Fs.inodeTableSize, Fs.dataBlocks,
    Fs.blockSize, Fs.maxOpenFiles]
  refine (if_neg ?_).trans rfl
  simp only [Bool.or_eq_true, not_or, Bool.not_eq_true, Option.isNone_eq_false_iff]
  exact ⟨⟨⟨⟨⟨hall.inodeTable, hall.freeinodeTs⟩, hall.fsData⟩, hall.freeBlocks⟩,
    hall.openFileTable⟩, hall.freeOpenFileEntries⟩

theorem fillCells_isSome {t : List AllocationState} {n : Nat} :
    (exists t', fillCells t n .free = some t') <-> n <= t.length := by
  rw [fillCells]
  constructor
  · rintro ⟨t', hfill⟩
    by_contra hlt
    rw [if_neg hlt] at hfill
    cases hfill
  · intro hle
    exact ⟨_, if_pos hle⟩

theorem cells_of_getD {o : Option (List AllocationState)} {n : Nat} (hle : n <= (o.getD []).length)
    (t : List AllocationState) (ht : o = some t) : n <= t.length := by
  rw [ht] at hle
  exact hle

section AllTables

variable {paramsPtr : Option TfsParams} (hparams : paramsPtr.getD tfsDefaultParams = params)
  (hunset : fs.inodeTableSet = false)

include hparams hunset

/-- When all tables are allocated, a failure is one to create the root directory. -/
theorem tfsInit_noRoot (hall : AllAllocated params mem)
    (hinit : tfsInit paramsPtr mem fs = .ok (-1, fs')) :
    NoRoot params mem := by
  rcases bind_eq_ok.mp hinit with ⟨⟨r, fs1⟩, hfirst, hrest⟩
  rw [hparams] at hfirst
  have hfills := hfirst
  rw [stateInit_allocated hunset hall] at hfills
  rcases bind_eq_ok.mp hfills with ⟨freeinodeTs, hinodes, hfills⟩
  rcases bind_eq_ok.mp hfills with ⟨freeBlocks, hblocks, hfills⟩
  rcases bind_eq_ok.mp hfills with ⟨freeOpenFileEntries, hhandles, hfills⟩
  cases hfills
  have hfresh := stateInit_fresh hfirst
  rcases bind_eq_ok.mp hrest with ⟨⟨root, fs2⟩, hcreate, hresult⟩
  have hroot : root ≠ rootDirInum := by
    intro hroot
    rw [hroot] at hresult
    cases hresult
  have hinodes := fillCells_isSome.mp ⟨_, inside_eq_ok.mp hinodes⟩
  have hblocks := fillCells_isSome.mp ⟨_, inside_eq_ok.mp hblocks⟩
  have hhandles := fillCells_isSome.mp ⟨_, inside_eq_ok.mp hhandles⟩
  refine ⟨hall, cells_of_getD hinodes, cells_of_getD hblocks, cells_of_getD hhandles, ?_⟩
  rw [hfresh.inodeTable]
  rcases (inodeCreate_noRoot hfresh).left root fs2 hcreate hroot with
    hnone | ⟨hnone, hblock, htable⟩
  · exact Or.inl hnone
  · exact Or.inr ⟨hnone, hblock, fun hempty => htable (Option.some.inj hempty)⟩

theorem NoRoot.tfsInit (hroot : NoRoot params mem) :
    exists fs', tfsInit paramsPtr mem fs = .ok (-1, fs') ∧
      fs'.inodeTableSet = true := by
  have hall := hroot.allocated
  have hgetD : forall {o : Option (List AllocationState)} {n : Nat}, o.isSome ->
      (forall t, o = some t -> n <= t.length) -> n <= (o.getD []).length := by
    intro o n hsome hle
    rcases Option.isSome_iff_exists.mp hsome with ⟨t, ht⟩
    rw [ht]
    exact hle t ht
  have hstate := stateInit_allocated hunset hall
  rcases fillCells_isSome.mpr (hgetD hall.freeinodeTs hroot.inodeCells) with ⟨t1, h1⟩
  rcases fillCells_isSome.mpr (hgetD hall.freeBlocks hroot.blockCells) with ⟨t2, h2⟩
  rcases fillCells_isSome.mpr (hgetD hall.freeOpenFileEntries hroot.handleCells) with ⟨t3, h3⟩
  simp only [partlyAllocated, h1, h2, h3, inside_some, ok_bind, pure_ok] at hstate
  have hfresh := stateInit_fresh hstate
  have hcond : params.maxInodeCount = 0 ∨ params.maxBlockCount = 0 ∧ 0 < params.blockSize ∧
      (mallocArray params.maxInodeCount sizeofInode mem.inodeTable).getD [] ≠ [] := by
    rcases hroot.root with hnone | ⟨hnone, hblock, htable⟩
    · exact Or.inl hnone
    · refine Or.inr ⟨hnone, hblock, fun hempty => htable ?_⟩
      rw [hfresh.inodeTable]
      exact congrArg some hempty
  rcases (inodeCreate_noRoot hfresh).right hcond with ⟨fs2, hcreate, hset⟩
  refine ⟨fs2, ?_, hset.trans hfresh.inodeTableSet⟩
  rw [TecnicoFs.tfsInit, hparams, hstate]
  simp [hcreate, rootDirInum]

end AllTables

/-- In every state, whether initialised or not, a failure of an initialisation whose
blocks are not those that are in use leaves the state as it was exactly when it leaves
nothing behind. -/
theorem initKeeps_iff (state : Static) (paramsPtr : Option TfsParams) (mem : Mallocs)
    (answers : Answered (paramsPtr.getD tfsDefaultParams) mem)
    (hfresh : List.Disjoint answers.pointers.blocks state.pointers.blocks) :
    InitKeeps paramsPtr mem answers.pointers state <->
      LeavesNothing (paramsPtr.getD tfsDefaultParams) mem state := by
  cases hset : state.fs.inodeTableSet with
  | true => rw [initKeeps_set paramsPtr _ hset, LeavesNothing, if_pos hset]
  | false =>
      have hassign : assignTables answers.pointers state.pointers = answers.pointers :=
        if_neg (by rw [← state.inodeTableSet, hset]; exact Bool.false_ne_true)
      rw [LeavesNothing, hset, if_neg Bool.false_ne_true]
      by_cases hall : AllAllocated (paramsPtr.getD tfsDefaultParams) mem
      · constructor
        · intro hkeeps
          refine ⟨fun hroot => ?_, Or.inl hall⟩
          -- The inode table stays allocated.
          rcases hroot.tfsInit rfl hset with ⟨fs', hinit, hset'⟩
          rw [(hkeeps fs' hinit).left, hset] at hset'
          cases hset'
        · rintro ⟨hroot, _⟩ fs' hinit
          exact absurd (tfsInit_noRoot rfl hset hall hinit) hroot
      · have hinit : tfsInit paramsPtr mem state.fs =
            .ok (-1, partlyAllocated (paramsPtr.getD tfsDefaultParams) mem) := by
          simp [tfsInit, stateInit_unallocated hset hall]
        constructor
        · intro hkeeps
          rcases hkeeps _ hinit with ⟨hsame, hpointers⟩
          -- A pointer that is not NULL would be to a block that was in use before.
          have hequal : answers.pointers = state.pointers := hassign.symm.trans hpointers
          rw [← hequal] at hfresh
          have hnull := TablePointers.eq_null
            (List.eq_nil_iff_forall_not_mem.mpr fun block hblock => hfresh hblock hblock)
          exact ⟨fun hroot => hall hroot.allocated, Or.inr ⟨congrArg Fs.fsParams hsame,
            answers.eq_null_iff.mp hnull, hequal.symm.trans hnull⟩⟩
        · rintro ⟨_, hall' | ⟨hparams, hnone, hnull⟩⟩ fs' hinit'
          · exact absurd hall' hall
          · rw [hinit] at hinit'
            cases hinit'
            constructor
            · rw [hnone.partlyAllocated, state.eq_unset hnull, hparams]
            · rw [hassign, answers.eq_null_iff.mpr hnone, hnull]

end InitFailures

/-- A file system in use, with its six tables in blocks of their own. -/
def smallState : Static where
  fs := smallFs
  pointers := ⟨some 1, some 2, some 3, some 4, some 5, some 6⟩
  inodeTableSet := (tfsInit_initial smallInit).inodeTableSet
  inodeTable := by rintro ⟨⟩
  freeinodeTs := by rintro ⟨⟩
  fsData := by rintro ⟨⟩
  freeBlocks := by rintro ⟨⟩
  openFileTable := by rintro ⟨⟩
  freeOpenFileEntries := by rintro ⟨⟩

/-- One call of {lit}`tfs_init` too many. -/
theorem initKeeps_again : ¬ InitKeeps (some ⟨1, 1, 1, 1⟩) smallMallocs
    ⟨some 11, some 12, some 13, some 14, some 15, some 16⟩ smallState := by
  intro hkeeps
  have hset : smallState.fs.inodeTableSet = true := (tfsInit_initial smallInit).inodeTableSet
  have hparams : smallState.fs.fsParams = smallParams := (tfsInit_initial smallInit).fsParams
  have hsame := (initKeeps_set _ _ hset).mp hkeeps
  rw [hparams] at hsame
  cases hsame

/-- No memory for the inode table. -/
def noInodeTable : Mallocs := { smallMallocs with inodeTable := none }

/-- What a call leaves that fails for want of an inode table. -/
def leftState : Static where
  fs := partlyAllocated smallParams noInodeTable
  pointers := ⟨none, some 2, some 3, some 4, some 5, some 6⟩
  inodeTableSet := rfl
  inodeTable := fun _ => rfl
  freeinodeTs := by rintro ⟨⟩
  fsData := by rintro ⟨⟩
  freeBlocks := by rintro ⟨⟩
  openFileTable := by rintro ⟨⟩
  freeOpenFileEntries := by rintro ⟨⟩

/-- A second call that fails in the same way loses the five tables of the first. -/
theorem initKeeps_iff_left : ¬ InitKeeps (some smallParams) noInodeTable
    ⟨none, some 12, some 13, some 14, some 15, some 16⟩ leftState := by
  have hfresh : List.Disjoint
      (TablePointers.blocks ⟨none, some 12, some 13, some 14, some 15, some 16⟩)
      leftState.pointers.blocks := by
    simp [leftState, TablePointers.blocks]
  intro hkeeps
  rcases ((initKeeps_iff leftState (some smallParams) noInodeTable
    ⟨_, rfl, rfl, rfl, rfl, rfl, rfl⟩ hfresh).mp hkeeps).right with hall | ⟨_, _, hnull⟩
  · exact absurd hall.inodeTable Bool.false_ne_true
  · cases hnull

end TecnicoFs
