import TecnicoFs.Fs.World

/-!
# The directory as a finite map

The occupied slots of the root directory hold distinct terminated names of
distinct taken files, and every taken inode but the root has exactly one slot.
The lookup skips free slots and the erasure does not, yet they agree on every
name, so unlinking erases exactly the slot that the lookup finds.
-/

namespace TecnicoFs

open Library

/-- Slot `i` is in use. -/
def Occupied (fs : Fs) (i : Nat) : Prop :=
  i < fs.maxDirEntries ∧ dInumber fs.fsData i ≠ -1

/-- The name bytes of slot `i` are the name, its terminator and padding. -/
def SlotName (fs : Fs) (i : Nat) (name : CStr) : Prop :=
  dName fs.fsData i = strncpyBytes name.bytes maxFileName ∧ FitsEntry name

structure FiniteMap (fs : Fs) : Prop where
  named : forall i, Occupied fs i -> exists name, SlotName fs i name
  namesDistinct : forall i j name, Occupied fs i -> Occupied fs j -> SlotName fs i name ->
    SlotName fs j name -> i = j
  inumbersDistinct : forall i j, Occupied fs i -> Occupied fs j ->
    dInumber fs.fsData i = dInumber fs.fsData j -> i = j
  names_file : forall i, Occupied fs i -> exists (k : Nat) (inode : Inode),
    dInumber fs.fsData i = k ∧ InodeTaken fs k ∧ fs.inodeTable[k]? = some inode ∧
      inode.iNodeType = .file
  taken_named : forall k, InodeTaken fs k -> k ≠ 0 ->
    exists i, (Occupied fs i ∧ dInumber fs.fsData i = k) ∧
      forall j, Occupied fs j -> dInumber fs.fsData j = k -> j = i

/-- The lookup of the name stops at slot `i`. -/
def FoundAt (fs : Fs) (name : CStr) (i : Nat) : Prop :=
  i < fs.maxDirEntries ∧
    findTurn fs 0 name i = .ok (some (dInumber fs.fsData i)) ∧
      forall j, j < i -> findTurn fs 0 name j = .ok none

structure UnlinkAgrees (fs : Fs) (target : Option CStr) (r : Int) (fs' : Fs) : Prop where
  found : r = 0 <-> exists k : Nat, findInDir rootDirInum (skipSlash target) fs = .ok (k : Int)
  cleared : r = 0 -> exists i, FoundAt fs (skipSlash target) i ∧
    fs'.fsData = eraseSlot fs.fsData i
  failed : r ≠ 0 -> r = -1 ∧ fs' = fs
  gone : findInDir rootDirInum (skipSlash target) fs' = .ok (-1)
  others : forall name, name ≠ skipSlash target ->
    findInDir rootDirInum name fs' = findInDir rootDirInum name fs

section Catalogue

variable {made made' : Nat -> Prop} {fs fs' : Fs}

theorem Inv.occupied_entry (h : Inv made fs) {i : Nat} (hi : Occupied fs i) :
    exists name k, Listed fs i name k := by
  rcases h.directory with ⟨used, hdir⟩
  rcases hdir.shape.entry_of_occupied hi.left hi.right with ⟨name, k, hentry⟩
  exact ⟨name, k, hi.left, hentry⟩

theorem Inv.finiteMap (h : Inv made fs) : FiniteMap fs := by
  rcases h.directory with ⟨used, hdir⟩
  constructor
  · intro i hi
    rcases h.occupied_entry hi with ⟨name, k, hlisted⟩
    exact ⟨name, hlisted.entry.bytes, hlisted.entry.fits⟩
  · intro i j name hi hj hname hname'
    rcases h.occupied_entry hi with ⟨held, k, hlisted⟩
    rcases h.occupied_entry hj with ⟨held', k', hlisted'⟩
    have heq : held = name := (hlisted.entry.name_unique
      ⟨hlisted.entry.inumber, hname.left, hname.right⟩).left
    have heq' : held' = name := (hlisted'.entry.name_unique
      ⟨hlisted'.entry.inumber, hname'.left, hname'.right⟩).left
    rw [heq] at hlisted
    rw [heq'] at hlisted'
    exact hdir.nameInj hlisted hlisted'
  · intro i j hi hj hsame
    rcases h.occupied_entry hi with ⟨held, k, hlisted⟩
    rcases h.occupied_entry hj with ⟨held', k', hlisted'⟩
    have hkk : k' = k := by
      have hk := hlisted.entry.inumber
      have hk' := hlisted'.entry.inumber
      omega
    rw [hkk] at hlisted'
    exact hdir.inodeInj hlisted hlisted'
  · intro i hi
    rcases h.occupied_entry hi with ⟨name, k, hlisted⟩
    rcases h.inode_of_listed hlisted with ⟨_, htaken, _, inode, hinode, hfile⟩
    exact ⟨k, inode, hlisted.entry.inumber, htaken, hinode, hfile.type⟩
  · intro k hk hk0
    rcases hdir.takenListed hk hk0 with ⟨i, name, hlisted⟩
    refine ⟨i, ⟨⟨hlisted.lt, hlisted.entry.ne_free⟩, hlisted.entry.inumber⟩, ?_⟩
    intro j hj hinum
    rcases h.occupied_entry hj with ⟨held, k', hlisted'⟩
    have hkk : k' = k := by
      have hk' := hlisted'.entry.inumber
      omega
    rw [hkk] at hlisted'
    exact hdir.inodeInj hlisted' hlisted

/-- The lookup of a listed name stops at its slot. -/
theorem Inv.foundAt (h : Inv made fs) {i k : Nat} {name : CStr} (hlisted : Listed fs i name k) :
    FoundAt fs name i := by
  rcases h.directory with ⟨used, hdir⟩
  refine ⟨hlisted.lt, ?_, ?_⟩
  · rw [findTurn_listed hdir.shape hlisted, if_pos rfl, hlisted.entry.inumber]
  · intro j hj
    have hjlt : j < fs.maxDirEntries := Nat.lt_trans hj hlisted.lt
    by_cases hfree : dInumber fs.fsData j = -1
    · exact findTurn_free hdir.shape hjlt hfree
    · rcases h.occupied_entry ⟨hjlt, hfree⟩ with ⟨held, k', hlisted'⟩
      have hne : held ≠ name := by
        intro heq
        rw [heq] at hlisted'
        exact Nat.ne_of_lt hj (h.listed_unique hlisted' hlisted).left
      rw [findTurn_listed hdir.shape hlisted', if_neg hne]

/-- Directories that list the same name for the same inode look it up alike. -/
theorem Inv.findInDir_congr (h : Inv made fs) (h' : Inv made' fs') {name : CStr}
    (hlisted : forall i k, Listed fs' i name k <-> Listed fs i name k) :
    findInDir rootDirInum name fs' = findInDir rootDirInum name fs := by
  rcases h.directory with ⟨used, hdir⟩
  rcases h'.directory with ⟨used', hdir'⟩
  rcases listed_or_absent fs name with ⟨i, k, hi⟩ | habsent
  · rw [findInDir_listed h.layout hdir hi,
      findInDir_listed h'.layout hdir' ((hlisted i k).mpr hi)]
  · have habsent' : Absent fs' name := fun i k hi => habsent i k ((hlisted i k).mp hi)
    rw [findInDir_absent h.layout hdir habsent, findInDir_absent h'.layout hdir' habsent']

/-- Unlinking a valid path name always returns, and agrees with the lookup. -/
theorem Inv.unlinkAgrees (h : Inv made fs) {target : Option CStr}
    (hvalid : validPathname target = true) :
    exists r fs', tfsUnlink target fs = .ok (r, fs') ∧ UnlinkAgrees fs target r fs' := by
  rcases h.directory with ⟨used, hdir⟩
  rcases listed_or_absent fs (skipSlash target) with ⟨i, k, hlisted⟩ | habsent
  · rcases h.inode_of_listed hlisted with ⟨_, _, _, inode, hinode, _⟩
    have hstep := UnlinkStep.removed hvalid hlisted hinode
    have hinv' := h.unlinkStep hstep
    rcases hinv'.directory with ⟨used', hdir'⟩
    refine ⟨0, fs.removeFile i k inode, hstep.sound h, ?_, ?_, ?_, ?_, ?_⟩
    · exact ⟨fun _ => ⟨k, findInDir_listed h.layout hdir hlisted⟩, fun _ => rfl⟩
    · exact fun _ => ⟨i, h.foundAt hlisted, rfl⟩
    · intro hne
      exact absurd rfl hne
    · apply findInDir_absent hinv'.layout hdir'
      intro j m hj
      rcases Inv.listed_removeFile.mp hj with ⟨hji, hold⟩
      exact hji (h.listed_unique hold hlisted).left
    · intro name hname
      apply h.findInDir_congr hinv'
      intro j m
      rw [Inv.listed_removeFile]
      constructor
      · exact fun hj => hj.right
      · intro hj
        refine ⟨fun hji => ?_, hj⟩
        rw [hji] at hj
        exact hname (hj.entry.name_unique hlisted.entry).left
  · have hfind := findInDir_absent h.layout hdir habsent
    refine ⟨-1, fs, (UnlinkStep.absent hvalid habsent).sound h, ?_, ?_, ?_, hfind,
      fun _ _ => rfl⟩
    · constructor
      · intro hzero
        cases hzero
      · rintro ⟨k, hk⟩
        rw [hfind] at hk
        have heq : (-1 : Int) = k := Except.ok.inj hk
        omega
    · intro hzero
      cases hzero
    · exact fun _ => ⟨rfl, rfl⟩

end Catalogue

/-- In every reachable world the directory is a finite map, and unlinking agrees
with the lookup on every valid path name. -/
theorem directory_of_reachable {w : World} (h : Reachable w) :
    FiniteMap w.fs ∧ forall target, validPathname target = true ->
      exists r fs', tfsUnlink target w.fs = .ok (r, fs') ∧
        UnlinkAgrees w.fs target r fs' :=
  ⟨h.invariant.inv.finiteMap, fun _ hvalid => h.invariant.inv.unlinkAgrees hvalid⟩

/-- The first slot has been cleared, the second is occupied. -/
def gapCalls : List Call :=
  [.open pathA 1, .open pathB 1, .unlink pathA]

theorem directory_gap :
    FiniteMap (smallWorld gapCalls).fs ∧ forall target, validPathname target = true ->
      exists r fs', tfsUnlink target (smallWorld gapCalls).fs = .ok (r, fs') ∧
        UnlinkAgrees (smallWorld gapCalls).fs target r fs' :=
  directory_of_reachable (smallWorld_reachable (by decide +kernel))

end TecnicoFs
