import TecnicoFs.Fs.World
import TecnicoFs.Broker.Handlers

/-!
# The file system between requests

Between two requests every handle of the file system is closed, so the handle that
a handler gets is handle 0, and a handler has one file open at a time.  Each call of
a handler is described once, on such states.
-/

namespace TecnicoFs
namespace Broker

open Library

/-- The parameters and the lengths of the tables stay. -/
structure SameTables (fs fs' : Fs) : Prop where
  fsParams : fs'.fsParams = fs.fsParams
  inodes : fs'.inodeTable.length = fs.inodeTable.length
  entries : fs'.openFileTable.length = fs.openFileTable.length

/-- The file system of a broker at work. -/
structure Steady (fs : Fs) : Prop where
  inv : exists made, Inv made fs
  fsParams : fs.fsParams = tfsDefaultParams
  inodes : fs.inodeTable.length = tfsDefaultParams.maxInodeCount
  entries : fs.openFileTable.length = tfsDefaultParams.maxOpenFilesCount

/-- No file is open. -/
structure Idle (fs : Fs) : Prop where
  steady : Steady fs
  closed : forall {fh e}, ¬ OpenAt fs fh e

/-- One file is open, with handle 0. -/
structure Busy (fs : Fs) : Prop where
  steady : Steady fs
  opened : exists e, OpenAt fs 0 e
  others : forall {fh e}, OpenAt fs fh e -> fh = 0

/-- The directory has a file of this name. -/
def Named (fs : Fs) (held : CStr) : Prop := exists i k, Listed fs i held k

/-- A new file of this name can be entered: the name is a path whose last part fits an
entry, and an inode and a slot are free. -/
structure Creatable (fs : Fs) (name : Option CStr) : Prop where
  valid : validPathname name = true
  fits : FitsEntry (skipSlash name)
  inode : exists k, k < fs.inodeTableSize ∧ fs.freeinodeTs[k]? = some .free
  slot : exists i, i < fs.maxDirEntries ∧ dInumber fs.fsData i = -1

def SameNames (fs fs' : Fs) : Prop := forall held, Named fs' held <-> Named fs held

section Calls

variable {fs fs' : Fs}

namespace SameTables

theorem refl (fs : Fs) : SameTables fs fs := ⟨rfl, rfl, rfl⟩

theorem trans {fs1 : Fs} (h : SameTables fs fs1) (h' : SameTables fs1 fs') : SameTables fs fs' :=
  ⟨h'.fsParams.trans h.fsParams, h'.inodes.trans h.inodes, h'.entries.trans h.entries⟩

theorem handleStep {inum r : Int} {offset : Nat} (h : HandleStep fs inum offset r fs') :
    SameTables fs fs' := by
  cases h with
  | full _ => exact refl fs
  | added _ _ => exact ⟨rfl, rfl, List.length_set⟩

theorem openStep {name : Option CStr} {mode : Nat} {r : Int} (h : OpenStep fs name mode r fs') :
    SameTables fs fs' := by
  cases h with
  | badPath _ => exact refl fs
  | existing _ _ _ htrunc hhandle =>
      refine trans ?_ (handleStep hhandle)
      cases htrunc with
      | keep _ => exact refl fs
      | cut _ _ _ _ => exact ⟨rfl, List.length_set, rfl⟩
  | absent _ _ _ => exact refl fs
  | noInode _ _ _ _ => exact refl fs
  | notEntered _ _ _ _ _ _ _ => exact ⟨rfl, List.length_set, rfl⟩
  | created _ _ _ _ _ _ _ _ hhandle =>
      refine trans ?_ (handleStep hhandle)
      exact ⟨rfl, List.length_set, rfl⟩

theorem writeStep {made : Nat -> Prop} (hinv : Inv made fs) {fhandle r : Int}
    {buffer : List UInt8} {toWrite : Nat} (h : WriteStep fs fhandle buffer toWrite r fs') :
    SameTables fs fs' := by
  rcases h.stored hinv with ⟨hsame, _⟩ | ⟨_, _, _, _, _, _, _, _, _, _, hstored⟩
  · rw [hsame]
    exact refl fs
  · refine ⟨hstored.fsParams, ?_, hstored.tableLength⟩
    rw [hstored.inodeTable, List.length_set]

theorem step {made : Nat -> Prop} (hinv : Inv made fs) {call : Call} {reply : Reply}
    (h : Step fs call reply fs') : SameTables fs fs' := by
  cases h with
  | «open» hopen => exact openStep hopen
  | close hclose =>
      cases hclose with
      | notOpen _ => exact refl fs
      | closed _ _ => exact ⟨rfl, rfl, rfl⟩
  | read hread =>
      cases hread with
      | notOpen _ => exact refl fs
      | nothing _ _ _ _ _ => exact refl fs
      | copied _ _ _ _ _ _ _ _ => exact ⟨rfl, rfl, List.length_set⟩
  | write hwrite => exact writeStep hinv hwrite
  | unlink hunlink =>
      cases hunlink with
      | badPath _ => exact refl fs
      | absent _ _ => exact refl fs
      | removed _ _ _ => exact ⟨rfl, rfl, rfl⟩

end SameTables

namespace Steady

theorem step (h : Steady fs) {call : Call} {reply : Reply} (hstep : Step fs call reply fs') :
    Steady fs' := by
  rcases h.inv with ⟨made, hinv⟩
  have hsame := SameTables.step hinv hstep
  exact ⟨⟨_, hinv.step hstep⟩, hsame.fsParams.trans h.fsParams, hsame.inodes.trans h.inodes,
    hsame.entries.trans h.entries⟩

theorem maxOpenFiles (h : Steady fs) : fs.maxOpenFiles = 16 := by
  rw [Fs.maxOpenFiles, h.fsParams]
  rfl

theorem inodeTableSize (h : Steady fs) : fs.inodeTableSize = 64 := by
  rw [Fs.inodeTableSize, h.fsParams]
  rfl

end Steady

namespace Idle

theorem handle_free (h : Idle fs) {i : Nat} (hi : i < fs.maxOpenFiles) :
    fs.freeOpenFileEntries[i]? = some .free := by
  rcases h.steady.inv with ⟨made, hinv⟩
  have hlt : i < fs.freeOpenFileEntries.length := by
    rw [hinv.layout.handleCells]
    exact hi
  have hcell := List.getElem?_eq_getElem hlt
  cases hstate : fs.freeOpenFileEntries[i] with
  | free => rw [hcell, hstate]
  | taken =>
      rw [hstate] at hcell
      have hentry := List.getElem?_eq_getElem (hinv.handles.handleInt hcell).right
      exact absurd ⟨hi, hcell, hentry⟩ h.closed

/-- The first free handle is handle 0. -/
theorem handleStep (h : Idle fs) (hsame : fs'.freeOpenFileEntries = fs.freeOpenFileEntries)
    (htables : SameTables fs fs') (inum : Int) (offset : Nat) :
    HandleStep fs' inum offset 0 (fs'.addHandle 0 ⟨inum, offset⟩) := by
  have hmax := h.steady.maxOpenFiles
  have hmax' : fs'.maxOpenFiles = fs.maxOpenFiles := by
    rw [Fs.maxOpenFiles, htables.fsParams, Fs.maxOpenFiles]
  refine @HandleStep.added fs' inum offset 0 ⟨?_, ?_, fun j hj => ?_⟩ ?_
  · rw [hmax', hmax]
    decide
  · rw [hsame]
    exact h.handle_free (by omega)
  · omega
  · rw [htables.entries, h.steady.entries]
    decide

end Idle

/-- After handle 0 was opened and no other. -/
theorem Busy.opening {made : Nat -> Prop} {inum : Int} {offset : Nat} (hinv : Inv made fs)
    (hclosed : forall {fh e}, ¬ OpenAt fs fh e) (hhandle : HandleStep fs inum offset 0 fs')
    (hsteady : Steady fs') : Busy fs' := by
  refine ⟨hsteady, ⟨_, (hhandle.openAt hinv).mpr (Or.inl ⟨rfl, rfl⟩)⟩, fun hfh => ?_⟩
  rcases (hhandle.openAt hinv).mp hfh with ⟨heq, _⟩ | ⟨_, hold⟩
  · omega
  · exact absurd hold hclosed

/-!
## The calls of a handler
-/

theorem absent_of_not_named {held : CStr} (h : ¬ Named fs held) : Absent fs held :=
  fun i k hlisted => h ⟨i, k, hlisted⟩

theorem sameNames_of_storage (h : SameStorage fs fs') : SameNames fs fs' := by
  intro held
  simp only [Named, h.listed]

/-- Opening a file to append to it leaves handle 0 at its end. -/
theorem open_atEnd (h : Idle fs) {name : Option CStr} (hvalid : validPathname name = true)
    {i k : Nat} {inode : Inode} (hlisted : Listed fs i (skipSlash name) k)
    (hinode : fs.inodeTable[k]? = some inode) :
    exists fs', tfsOpen name tfsOAppend fs = .ok (0, fs') ∧ Busy fs' ∧ SameStorage fs fs' ∧
      OpenAt fs' 0 ⟨k, inode.iSize⟩ := by
  rcases h.steady.inv with ⟨made, hinv⟩
  have hhandle := h.handleStep rfl (SameTables.refl fs) k
    (if hasFlag tfsOAppend tfsOAppend then inode.iSize else 0)
  have hstep := OpenStep.existing hvalid hlisted hinode (TruncateStep.keep (Or.inl rfl)) hhandle
  exact ⟨_, hstep.sound hinv, Busy.opening hinv h.closed hhandle (h.steady.step (Step.open hstep)),
    hhandle.sameStorage, (hhandle.openAt hinv).mpr (Or.inl ⟨rfl, rfl⟩)⟩

theorem open_listed (h : Idle fs) {name : Option CStr} (hvalid : validPathname name = true)
    (hnamed : Named fs (skipSlash name)) :
    exists fs', tfsOpen name tfsOAppend fs = .ok (0, fs') ∧ Busy fs' ∧ SameStorage fs fs' := by
  rcases hnamed with ⟨i, k, hlisted⟩
  rcases h.steady.inv with ⟨made, hinv⟩
  rcases hinv.inode_of_listed hlisted with ⟨_, _, _, inode, hinode, _⟩
  rcases open_atEnd h hvalid hlisted hinode with ⟨fs', hopen, hbusy, hsame, _⟩
  exact ⟨fs', hopen, hbusy, hsame⟩

theorem open_absent (h : Steady fs) {name : Option CStr}
    (habsent : validPathname name = true -> ¬ Named fs (skipSlash name)) :
    tfsOpen name tfsOAppend fs = .ok (-1, fs) := by
  rcases h.inv with ⟨made, hinv⟩
  cases hvalid : validPathname name with
  | false => exact (OpenStep.badPath hvalid).sound hinv
  | true => exact (OpenStep.absent hvalid (absent_of_not_named (habsent hvalid)) rfl).sound hinv

theorem named_insert {j k : Nat} {held name : CStr}
    (hfree : forall i m, Listed fs i held m -> i ≠ j) :
    (exists i m, (i = j ∧ held = name ∧ m = k) ∨ (i ≠ j ∧ Listed fs i held m)) <->
      held = name ∨ exists i m, Listed fs i held m := by
  constructor
  · rintro ⟨i, m, ⟨_, hname, _⟩ | ⟨_, hold⟩⟩
    · exact Or.inl hname
    · exact Or.inr ⟨i, m, hold⟩
  · rintro (hname | ⟨i, m, hold⟩)
    · exact ⟨j, k, Or.inl ⟨rfl, hname, rfl⟩⟩
    · exact ⟨i, m, Or.inr ⟨hfree i m hold, hold⟩⟩

/-- Creating a file: the open fails, or the file has a new entry and handle 0. -/
theorem open_create (h : Idle fs) {name : Option CStr}
    (habsent : validPathname name = true -> ¬ Named fs (skipSlash name)) :
    (exists fs', tfsOpen name tfsOCreat fs = .ok (-1, fs') ∧ Idle fs' ∧ SameNames fs fs' ∧
      ¬ Creatable fs name) ∨
      exists fs', tfsOpen name tfsOCreat fs = .ok (0, fs') ∧ Busy fs' ∧ Creatable fs name ∧
        forall held, Named fs' held <-> held = skipSlash name ∨ Named fs held := by
  rcases h.steady.inv with ⟨made, hinv⟩
  have hlayout := hinv.layout
  have hfailed : forall {fs' : Fs}, ¬ Creatable fs name ->
      OpenStep fs name tfsOCreat (-1) fs' -> fs'.fsParams = fs.fsParams -> fs'.fsData = fs.fsData ->
      fs'.openFileTable = fs.openFileTable ->
      fs'.freeOpenFileEntries = fs.freeOpenFileEntries ->
      tfsOpen name tfsOCreat fs = .ok (-1, fs') ∧ Idle fs' ∧ SameNames fs fs' ∧
        ¬ Creatable fs name := by
    intro fs' hnot hstep hparams hdata hentries hfree
    refine ⟨hstep.sound hinv, ⟨h.steady.step (Step.open hstep), fun hfh => ?_⟩, fun held => ?_,
      hnot⟩
    · exact h.closed ((OpenAt.frame fs fs' hparams hentries hfree).mp hfh)
    · simp only [Named, Listed.sameData fs fs' hparams hdata]
  cases hvalid : validPathname name with
  | false =>
      have hnot : ¬ Creatable fs name := fun hcreatable => by
        rw [hcreatable.valid] at hvalid
        cases hvalid
      exact Or.inl ⟨fs, hfailed hnot (OpenStep.badPath hvalid) rfl rfl rfl rfl⟩
  | true =>
      have habsent' := absent_of_not_named (habsent hvalid)
      have hcells : fs.inodeTableSize <= fs.freeinodeTs.length := by
        rw [hlayout.inodeCells]
      rcases firstAt_or_nowhereAt fs.freeinodeTs .free hcells with ⟨k, hfirst⟩ | hnone
      · have hk : k < 64 := by
          rw [← h.steady.inodeTableSize]
          exact hfirst.left
        have hint : k < intLimit := Nat.lt_of_lt_of_le hk (by decide)
        have hlt : k < fs.inodeTable.length := by
          rw [h.steady.inodes]
          exact hk
        have hunentered : ¬ FitsEntry (skipSlash name) ∨ FullDir fs.fsData fs.maxDirEntries ->
            OpenStep fs name tfsOCreat (-1) (fs.resetInode k) :=
          OpenStep.notEntered hvalid habsent' rfl hfirst hint hlt
        by_cases hfits : FitsEntry (skipSlash name)
        · rcases freeSlot_or_fullDir fs.fsData fs.maxDirEntries with ⟨j, hslot⟩ | hfull
          · right
            have hhandle := @Idle.handleStep fs (fs.createFile j (skipSlash name) k) h rfl
              ⟨rfl, List.length_set, rfl⟩ k 0
            have hstep : OpenStep fs name tfsOCreat 0
                ((fs.createFile j (skipSlash name) k).addHandle 0 ⟨k, 0⟩) :=
              OpenStep.created hvalid habsent' rfl hfirst hint hlt hfits hslot hhandle
            have hclosed : forall {fh e}, ¬ OpenAt (fs.createFile j (skipSlash name) k) fh e :=
              fun hfh => h.closed
                ((OpenAt.frame fs (fs.createFile j (skipSlash name) k) rfl rfl rfl).mp hfh)
            have hinv1 := hinv.createFile habsent' hfirst hint hlt hfits hslot
            refine ⟨_, hstep.sound hinv,
              Busy.opening hinv1 hclosed hhandle (h.steady.step (Step.open hstep)),
              ⟨hvalid, hfits, ⟨k, hfirst.left, hfirst.right.left⟩,
                ⟨j, hslot.left, hslot.right.left⟩⟩, ?_⟩
            intro held
            simp only [Named, hhandle.sameStorage.listed, Inv.listed_createFile hfits hint hslot]
            exact named_insert fun i m hi => fun hij => hi.entry.ne_free (hij ▸ hslot.right.left)
          · have hnot : ¬ Creatable fs name := fun hcreatable => by
              rcases hcreatable.slot with ⟨i, hi, hfree⟩
              exact hfull i hi hfree
            exact Or.inl ⟨_, hfailed hnot (hunentered (Or.inr hfull)) rfl rfl rfl rfl⟩
        · have hnot : ¬ Creatable fs name := fun hcreatable => hfits hcreatable.fits
          exact Or.inl ⟨_, hfailed hnot (hunentered (Or.inl hfits)) rfl rfl rfl rfl⟩
      · have hnot : ¬ Creatable fs name := fun hcreatable => by
          rcases hcreatable.inode with ⟨k, hk, hfree⟩
          rcases hnone k hk with ⟨x, hx, hne⟩
          rw [hfree] at hx
          exact hne (Option.some.inj hx).symm
        exact Or.inl ⟨fs, hfailed hnot (OpenStep.noInode hvalid habsent' rfl hnone)
          rfl rfl rfl rfl⟩

theorem close_busy (h : Busy fs) :
    exists fs', tfsClose 0 fs = .ok (0, fs') ∧ Idle fs' ∧ SameStorage fs fs' := by
  rcases h.steady.inv with ⟨made, hinv⟩
  rcases h.opened with ⟨e, hopen⟩
  have hstep : CloseStep fs ((0 : Nat) : Int) 0 (fs.dropHandle 0) := CloseStep.closed rfl hopen
  refine ⟨_, hstep.sound hinv, ⟨h.steady.step (Step.close hstep), fun hfh => ?_⟩,
    hstep.sameStorage⟩
  rcases openAt_dropHandle.mp hfh with ⟨hne, hold⟩
  exact hne (h.others hold)

theorem close_idle (h : Idle fs) (fhandle : Int) : tfsClose fhandle fs = .ok (-1, fs) := by
  rcases h.steady.inv with ⟨made, hinv⟩
  exact (CloseStep.notOpen fun _ _ _ => h.closed).sound hinv

theorem write_busy (h : Busy fs) {fhandle r : Int} {buffer : List UInt8} {toWrite : Nat}
    (hwrite : tfsWrite fhandle buffer toWrite fs = .ok (r, fs')) :
    Busy fs' ∧ SameNames fs fs' := by
  rcases h.steady.inv with ⟨made, hinv⟩
  have hstep := (tfsWrite_iff hinv).mp hwrite
  refine ⟨⟨h.steady.step (Step.write hstep), ?_, fun hfh => ?_⟩, fun held => ?_⟩
  · rcases h.opened with ⟨e, hopen⟩
    rcases hstep.stored hinv with ⟨hsame, _⟩ | ⟨fh, _, _, _, _, _, _, _, _, _, hstored⟩
    · exact ⟨e, hsame ▸ hopen⟩
    · have hfh := h.others hstored.openAt
      exact ⟨_, hstored.handles.mpr (Or.inl ⟨hfh.symm, rfl⟩)⟩
  · rcases hstep.openAt hinv hfh with ⟨e0, hold, _⟩
    exact h.others hold
  · simp only [Named, hstep.listed hinv]

theorem unlink_listed (h : Idle fs) {target : Option CStr} (hvalid : validPathname target = true)
    (hnamed : Named fs (skipSlash target)) :
    exists fs', tfsUnlink target fs = .ok (0, fs') ∧ Idle fs' ∧
      forall held, Named fs' held <-> held ≠ skipSlash target ∧ Named fs held := by
  rcases hnamed with ⟨i, k, hlisted⟩
  rcases h.steady.inv with ⟨made, hinv⟩
  rcases hinv.inode_of_listed hlisted with ⟨_, _, _, inode, hk, _⟩
  have hstep := UnlinkStep.removed hvalid hlisted hk
  refine ⟨_, hstep.sound hinv, ⟨h.steady.step (Step.unlink hstep), fun hfh => ?_⟩, ?_⟩
  · exact h.closed ((OpenAt.frame fs (fs.removeFile i k inode) rfl rfl rfl).mp hfh)
  · rcases hstep.listed hinv with ⟨hr, _⟩ | ⟨_, hiff⟩
    · cases hr
    · intro held
      simp only [Named, hiff, exists_and_left]

/-- The file system that the broker starts with. -/
theorem idle_initial {mem : Mallocs} {fs0 : Fs} (hinit : tfsInit none mem fs0 = .ok (0, fs)) :
    Idle fs ∧ forall held, ¬ Named fs held := by
  have h := tfsInit_initial hinit
  refine ⟨⟨⟨⟨_, h.inv⟩, h.fsParams, ?_, ?_⟩, h.notOpen⟩, fun held ⟨_, _, hi⟩ => h.notListed hi⟩
  · rcases h.inodeTable with ⟨t, hmalloc, _, htable⟩
    rw [htable, List.length_set]
    exact mallocArray_length hmalloc (by decide) (by decide)
  · exact mallocArray_length h.openFileTable (by decide) (by decide)

end Calls

end Broker
end TecnicoFs
