import TecnicoFs.Fs.World

/-!
# Failed opens

An open that fails leaves everything as it was, or leaves the empty file that it has
just created.  There are two exceptions: an open that truncates a file and then finds no
free handle, and an open that initialises a free inode and then finds no entry for the
file's name.  The record of a free inode matters, since a handle may still name it.
-/

namespace TecnicoFs

open Library

/-- The search for a free handle fails. -/
def NoHandle (fs : Fs) : Prop :=
  NowhereAt fs.freeOpenFileEntries (intLoopBound fs.maxOpenFiles) .free

/-- The open has created the file, and has not opened it. -/
structure LeftCreated (fs : Fs) (name : Option CStr) (mode : Nat) (fs' : Fs) : Prop where
  creat : hasFlag mode tfsOCreat = true
  absent : fileContent fs (skipSlash name) = none
  empty : fileContent fs' (skipSlash name) = some []
  full : NoHandle fs
  created : exists j k, FreeSlot fs.fsData fs.maxDirEntries j ∧
    FirstAt fs.freeinodeTs fs.inodeTableSize .free k ∧
      fs' = fs.createFile j (skipSlash name) k

/-- A failure of the open loses no data. -/
def FailureKeeps (fs : Fs) (name : Option CStr) (mode : Nat) : Prop :=
  forall fs', tfsOpen name mode fs = .ok (-1, fs') ->
    (forall held content, fileContent fs held = some content ->
      fileContent fs' held = some content) ∧
    (fs' = fs ∨ LeftCreated fs name mode fs')

/-- The open is to truncate a file that has bytes, and no handle is free. -/
structure CutsUnopened (fs : Fs) (name : Option CStr) (mode : Nat) : Prop where
  valid : validPathname name = true
  trunc : hasFlag mode tfsOTrunc = true
  nonempty : exists i k inode, Listed fs i (skipSlash name) k ∧
    fs.inodeTable[k]? = some inode ∧ 0 < inode.iSize
  full : NoHandle fs

/-- The open is to create a file, whose name gets no entry, and the record of the first
free inode is not the one of an empty file. -/
structure ResetsRecord (fs : Fs) (name : Option CStr) (mode : Nat) : Prop where
  valid : validPathname name = true
  creat : hasFlag mode tfsOCreat = true
  absent : Absent fs (skipSlash name)
  noEntry : ¬ FitsEntry (skipSlash name) ∨ FullDir fs.fsData fs.maxDirEntries
  record : exists k inode, FirstAt fs.freeinodeTs fs.inodeTableSize .free k ∧ k < intLimit ∧
    fs.inodeTable[k]? = some inode ∧ inode ≠ Fs.emptyFile

section OpenFailures

variable {made : Nat -> Prop} {fs fs' : Fs} {name : Option CStr} {mode : Nat}

theorem tfsOpen_iff (hinv : Inv made fs) {r : Int} :
    tfsOpen name mode fs = .ok (r, fs') <-> OpenStep fs name mode r fs' := by
  constructor
  · intro hrun
    have hexec : exec (.open name mode) fs = .ok (⟨r, []⟩, fs') := by
      simp [exec, hrun]
    cases (exec_iff hinv).mp hexec with
    | «open» hstep => exact hstep
  · exact OpenStep.sound hinv

/-- The file of a truncation that was not opened has lost its bytes. -/
theorem CutsUnopened.loses (h : CutsUnopened fs name mode) (hinv : Inv made fs) :
    ¬ FailureKeeps fs name mode := by
  intro hkeeps
  rcases h.nonempty with ⟨i, k, inode, hlisted, hk, hsize⟩
  rcases hinv.inode_of_listed hlisted with ⟨_, _, hlt, inode', hk', hfile⟩
  rw [hk] at hk'
  cases hk'
  rcases hfile.block with ⟨_, hzero⟩ | ⟨b, hb, husable⟩
  · omega
  have hcut : TruncateStep fs k inode mode { inode with iSize := 0 } (fs.cutInode k b inode) :=
    TruncateStep.cut h.trunc hsize hb husable.lt
  have hstep := OpenStep.existing h.valid hlisted hk hcut (HandleStep.full h.full)
  have hinv' := hinv.step (Step.open hstep)
  have hlisted' : Listed (fs.cutInode k b inode) i (skipSlash name) k :=
    hcut.listed.mpr hlisted
  have hbefore := fileContent_listed hinv hlisted hk
  have hafter := fileContent_listed hinv' hlisted'
    (List.getElem?_set_self (getElem?_lt hk))
  have hsame := (hkeeps _ (hstep.sound hinv)).left _ _ hbefore
  rw [hafter] at hsame
  have hlength := congrArg List.length (Option.some.inj hsame)
  rw [inodeBytes_length, inodeBytes_length] at hlength
  simp only at hlength
  omega

/-- The inode of a file that was not created has lost its record. -/
theorem ResetsRecord.loses (h : ResetsRecord fs name mode) (hinv : Inv made fs) :
    ¬ FailureKeeps fs name mode := by
  intro hkeeps
  rcases h.record with ⟨k, inode, hfirst, hint, hk, hne⟩
  have hstep := OpenStep.notEntered h.valid h.absent h.creat hfirst hint (getElem?_lt hk) h.noEntry
  rcases (hkeeps _ (hstep.sound hinv)).right with hsame | hcreated
  · have hrecord : (fs.resetInode k).inodeTable[k]? = some Fs.emptyFile :=
      List.getElem?_set_self (getElem?_lt hk)
    rw [hsame, hk] at hrecord
    exact hne (Option.some.inj hrecord)
  · -- A file that is created takes the inode.
    rcases hcreated.created with ⟨j, m, _, hm, hfs⟩
    have htaken : (fs.createFile j (skipSlash name) m).freeinodeTs[m]? = some .taken :=
      List.getElem?_set_self (getElem?_lt hm.right.left)
    rw [← hfs] at htaken
    have hfree : (fs.resetInode k).freeinodeTs[m]? = some .free := hm.right.left
    rw [hfree] at htaken
    cases htaken

/-- The files stay when the open creates another. -/
theorem content_createFile {j k : Nat} {sub held : CStr} (hinv : Inv made fs)
    (habsent : Absent fs sub) (hfirst : FirstAt fs.freeinodeTs fs.inodeTableSize .free k)
    (hint : k < intLimit) (hlt : k < fs.inodeTable.length) (hfits : FitsEntry sub)
    (hslot : FreeSlot fs.fsData fs.maxDirEntries j) {content : List UInt8}
    (hheld : fileContent fs held = some content) :
    fileContent (fs.createFile j sub k) held = some content := by
  have hinv' := hinv.createFile habsent hfirst hint hlt hfits hslot
  rcases hinv.content_cases held with
    ⟨_, hnone⟩ | ⟨i, m, inode, hi, _, htaken, hm, hfile, hsome⟩
  · rw [hnone] at hheld
    cases hheld
  · have hij : i ≠ j := fun hij => hi.entry.ne_free (hij ▸ hslot.right.left)
    have hlisted : Listed (fs.createFile j sub k) i held m :=
      (Inv.listed_createFile hfits hint hslot).mpr (Or.inr ⟨hij, hi⟩)
    have hkm : k ≠ m := by
      intro hkm
      rw [InodeTaken, ← hkm, hfirst.right.left] at htaken
      cases htaken
    have hm' : (fs.createFile j sub k).inodeTable[m]? = some inode :=
      (List.getElem?_set_ne hkm).trans hm
    rw [fileContent_listed hinv' hlisted hm', ← hheld, hsome]
    exact congrArg some
      (inodeBytes_sameOutsideSlot hfile (enterSlot_same fs.fsData j sub k) hslot.left)

theorem HandleStep.failed {inum r : Int} {offset : Nat} (h : HandleStep fs inum offset r fs')
    (hr : r = -1) : NoHandle fs ∧ fs' = fs := by
  cases h with
  | full hfull => exact ⟨hfull, rfl⟩
  | added _ _ => omega

/-- What a failed open leaves. -/
theorem OpenStep.failed {r : Int} (hstep : OpenStep fs name mode r fs') (hr : r = -1)
    (hinv : Inv made fs) (hcuts : ¬ CutsUnopened fs name mode)
    (hresets : ¬ ResetsRecord fs name mode) :
    (forall held content, fileContent fs held = some content ->
      fileContent fs' held = some content) ∧
    (fs' = fs ∨ LeftCreated fs name mode fs') := by
  have hsame : fs' = fs -> (forall held content,
      fileContent fs held = some content -> fileContent fs' held = some content) ∧
        (fs' = fs ∨ LeftCreated fs name mode fs') := by
    intro h
    exact ⟨fun held content hheld => h ▸ hheld, Or.inl h⟩
  cases hstep with
  | badPath _ => exact hsame rfl
  | absent _ _ _ => exact hsame rfl
  | noInode _ _ _ _ => exact hsame rfl
  | @notEntered k hvalid habsent hcreat hfirst hint hlt hnoEntry =>
      have hk := List.getElem?_eq_getElem hlt
      by_cases hempty : fs.inodeTable[k] = Fs.emptyFile
      · refine hsame ?_
        rw [Fs.resetInode, ← hempty, List.set_getElem_self]
      · exact absurd ⟨hvalid, hcreat, habsent, hnoEntry, k, _, hfirst, hint, hk, hempty⟩ hresets
  | existing hvalid hlisted hk htrunc hhandle =>
      rcases hhandle.failed hr with ⟨hfull, heq⟩
      cases htrunc with
      | keep _ => exact hsame heq
      | cut hflag hsize _ _ =>
          exact absurd ⟨hvalid, hflag, ⟨_, _, _, hlisted, hk, hsize⟩, hfull⟩ hcuts
  | created hvalid habsent hcreat hfirst hint hlt hfits hslot hhandle =>
      rcases hhandle.failed hr with ⟨hfull, heq⟩
      rw [heq]
      refine ⟨fun held content =>
        content_createFile hinv habsent hfirst hint hlt hfits hslot, Or.inr ?_⟩
      have hinv1 := hinv.createFile habsent hfirst hint hlt hfits hslot
      have hlisted := (Inv.listed_createFile hfits hint hslot).mpr (Or.inl ⟨rfl, rfl, rfl⟩)
      have hempty := fileContent_listed hinv1 hlisted (List.getElem?_set_self hlt)
      exact ⟨hcreat, fileContent_absent hinv habsent, hempty, hfull, _, _, hslot, hfirst, rfl⟩

/-- In every reachable state, a failure of an open leaves everything as it was exactly
when the open neither truncates a file and finds no free handle nor writes the record of
an inode and finds no entry. -/
theorem failureKeeps_iff {w : World} (hreachable : Reachable w) (name : Option CStr)
    (mode : Nat) :
    FailureKeeps w.fs name mode <->
      ¬ CutsUnopened w.fs name mode ∧ ¬ ResetsRecord w.fs name mode := by
  have hinv := hreachable.invariant.inv
  constructor
  · intro hkeeps
    exact ⟨fun hcuts => hcuts.loses hinv hkeeps, fun hresets => hresets.loses hinv hkeeps⟩
  · rintro ⟨hcuts, hresets⟩ fs' hopen
    exact ((tfsOpen_iff hinv).mp hopen).failed rfl hinv hcuts hresets

end OpenFailures

/-- Both handles are taken by a file with a byte. -/
def fullCalls : List Call := [.open pathA 1, .write 0 [7] 1, .open pathA 0]

/-- The open with {lit}`TFS_O_TRUNC` fails, and the byte is lost. -/
theorem failureKeeps_full :
    ¬ FailureKeeps (smallWorld fullCalls).fs pathA tfsOTrunc := by
  intro hkeeps
  have hcontent : fileContent (smallWorld fullCalls).fs (skipSlash pathA) = some [7] := by
    decide +kernel
  have hfailed : (tfsOpen pathA tfsOTrunc (smallWorld fullCalls).fs).toOption.map (fun r =>
      (r.1, fileContent r.2 (skipSlash pathA))) = some (-1, some []) := by
    decide +kernel
  cases hopen : tfsOpen pathA tfsOTrunc (smallWorld fullCalls).fs with
  | error e =>
      rw [hopen] at hfailed
      cases hfailed
  | ok r =>
      rcases r with ⟨r, fs'⟩
      rw [hopen] at hfailed
      simp only [Except.toOption, Option.map_some, Option.some.injEq, Prod.mk.injEq] at hfailed
      rw [hfailed.left] at hopen
      have hsame := (hkeeps fs' hopen).left _ _ hcontent
      rw [hfailed.right] at hsame
      cases hsame

/-- Opening the file once more without the flag fails. -/
theorem failureKeeps_iff_full :
    FailureKeeps (smallWorld fullCalls).fs pathA 0 <->
      ¬ CutsUnopened (smallWorld fullCalls).fs pathA 0 ∧
        ¬ ResetsRecord (smallWorld fullCalls).fs pathA 0 :=
  failureKeeps_iff (smallWorld_reachable (by decide +kernel)) pathA 0

end TecnicoFs
