import TecnicoFs.Fs.Leaks
import TecnicoFs.Broker.Appends

/-!
# The blocks of the boxes

The broker unlinks a file only when none is open, so its handles name files of the
directory, and it loses no block.  The directory has fewer slots than there are blocks;
so a block is always free.
-/

namespace TecnicoFs
namespace Broker

open Library

/-- Every open handle is of an inode in use. -/
def HandlesTaken (fs : Fs) : Prop :=
  forall fh e, OpenAt fs fh e -> exists k : Nat, e.ofInumber = k ∧ InodeTaken fs k

/-- No handle names a freed inode, and no block is lost. -/
structure Thrifty (fs : Fs) : Prop where
  inv : exists made, Inv made fs
  handles : HandlesTaken fs
  noLeak : NoLeak fs

section Blocks

variable {made : Nat -> Prop} {fs fs' : Fs}

theorem HandlesTaken.keep (h : HandlesTaken fs)
    (hopen : forall fh e, OpenAt fs' fh e ->
      exists e0, OpenAt fs fh e0 ∧ e.ofInumber = e0.ofInumber)
    (htaken : forall k, InodeTaken fs k -> InodeTaken fs' k) : HandlesTaken fs' := by
  intro fh e hfh
  rcases hopen fh e hfh with ⟨e0, hfh0, hinum⟩
  rcases h fh e0 hfh0 with ⟨k, hk, hktaken⟩
  exact ⟨k, hinum.trans hk, htaken k hktaken⟩

/-- A new handle is of an inode in use. -/
theorem HandlesTaken.handleStep (hinv : Inv made fs) (h : HandlesTaken fs) {k offset : Nat}
    {r : Int} (hk : InodeTaken fs k) (hstep : HandleStep fs k offset r fs') :
    HandlesTaken fs' := by
  have htaken : forall {m}, InodeTaken fs m -> InodeTaken fs' m := by
    intro m hm
    rw [InodeTaken, hstep.sameStorage.freeinodeTs]
    exact hm
  intro fh e hfh
  rcases (hstep.openAt hinv).mp hfh with ⟨_, he⟩ | ⟨_, hold⟩
  · exact ⟨k, by rw [he], htaken hk⟩
  · rcases h fh e hold with ⟨m, hm, hmtaken⟩
    exact ⟨m, hm, htaken hmtaken⟩

theorem HandlesTaken.openStep (hinv : Inv made fs) (h : HandlesTaken fs) {name : Option CStr}
    {mode : Nat} {r : Int} (hstep : OpenStep fs name mode r fs') : HandlesTaken fs' := by
  cases hstep with
  | badPath _ => exact h
  | absent _ _ _ => exact h
  | noInode _ _ _ _ => exact h
  | notEntered _ _ _ _ _ _ _ =>
      refine h.keep (fun fh e hfh => ⟨e, ?_, rfl⟩) fun k hk => hk
      exact (OpenAt.frame fs (fs.resetInode _) rfl rfl rfl).mp hfh
  | @existing i k inode inode' fs1 _ _ _ hlisted hk htrunc hhandle =>
      rcases hinv.inode_of_listed hlisted with ⟨hne, htaken, _⟩
      have htrunc' : forall m, InodeTaken fs m -> InodeTaken fs1 m := by
        intro m hm
        rw [InodeTaken, htrunc.freeinodeTs]
        exact hm
      have hcut := h.keep (fun fh e hfh => ⟨e, htrunc.openAt.mp hfh, rfl⟩) htrunc'
      exact hcut.handleStep (hinv.truncateStep hne htaken hk htrunc) (htrunc' _ htaken) hhandle
  | @created j k _ _ _ habsent _ hfirst hint hlt hfits hslot hhandle =>
      have hset : forall {m}, InodeTaken (fs.createFile j (skipSlash name) k) m <->
          m = k ∨ InodeTaken fs m := set_taken_iff (getElem?_lt hfirst.right.left)
      have hcreate : HandlesTaken (fs.createFile j (skipSlash name) k) :=
        h.keep
          (fun fh e hfh => ⟨e, (OpenAt.frame fs (fs.createFile _ _ _) rfl rfl rfl).mp hfh, rfl⟩)
          fun m hm => hset.mpr (Or.inr hm)
      exact hcreate.handleStep (hinv.createFile habsent hfirst hint hlt hfits hslot)
        (hset.mpr (Or.inl rfl)) hhandle

/-- A call keeps the handles on inodes in use, if it does not unlink an open file. -/
theorem HandlesTaken.step (hinv : Inv made fs) (h : HandlesTaken fs) {call : Call}
    {reply : Reply} (hstep : Step fs call reply fs') (hcall : UnlinksClosed fs call) :
    HandlesTaken fs' := by
  have hsame : SameStorage fs fs' -> forall k, InodeTaken fs k -> InodeTaken fs' k := by
    intro hstorage k hk
    rw [InodeTaken, hstorage.freeinodeTs]
    exact hk
  cases hstep with
  | «open» hopen => exact h.openStep hinv hopen
  | close hclose =>
      refine h.keep (fun fh e hfh => ⟨e, ?_, rfl⟩) (hsame hclose.sameStorage)
      cases hclose with
      | notOpen _ => exact hfh
      | closed _ _ => exact (openAt_dropHandle.mp hfh).right
  | read hread => exact h.keep (fun fh e hfh => hread.openAt hfh) (hsame hread.sameStorage)
  | write hwrite =>
      rcases hwrite.stored hinv with ⟨heq, _⟩ | ⟨_, _, _, _, _, _, _, _, _, _, hstored⟩
      · exact heq ▸ h
      · refine h.keep (fun fh e hfh => ?_) fun k hk => ?_
        · rcases hstored.handles.mp hfh with ⟨heq, he⟩ | ⟨_, hold⟩
          · exact ⟨_, heq ▸ hstored.openAt, by rw [he]⟩
          · exact ⟨e, hold, rfl⟩
        · rw [InodeTaken, hstored.freeinodeTs]
          exact hk
  | unlink hunlink =>
      intro fh e hfh
      refine absurd ?_ (hcall fh e)
      cases hunlink with
      | badPath _ => exact hfh
      | absent _ _ => exact hfh
      | removed _ _ _ => exact (OpenAt.frame fs (fs.removeFile _ _ _) rfl rfl rfl).mp hfh

/-- A write through a handle of an inode in use loses no block. -/
theorem HandlesTaken.leakFree (h : HandlesTaken fs) (call : Call) :
    TecnicoFs.LeakFree fs call := by
  cases call with
  | write fhandle buffer toWrite =>
      intro fh k e inode _ hopen hk _ _ _ _
      rcases h fh e hopen with ⟨m, hm, htaken⟩
      rw [hk] at hm
      exact Int.ofNat_inj.mp hm ▸ htaken
  | «open» name mode => trivial
  | close fhandle => trivial
  | read fhandle len => trivial
  | unlink target => trivial

theorem thrifty_preserved : Preserved Thrifty := by
  intro call fs reply fs' h hexec hcall
  rcases h.inv with ⟨made, hinv⟩
  have hstep := (exec_iff hinv).mp hexec
  exact ⟨⟨_, hinv.step hstep⟩, h.handles.step hinv hstep hcall,
    (noLeak_step hinv hstep).mpr ⟨h.noLeak, h.handles.leakFree call⟩⟩

theorem thrifty_initial {mem : Mallocs} {fs0 : Fs} (hinit : tfsInit none mem fs0 = .ok (0, fs)) :
    Thrifty fs := by
  have h := tfsInit_initial hinit
  exact ⟨⟨_, h.inv⟩, fun fh e hopen => absurd hopen h.notOpen, h.noLeak⟩

/-- With the default parameters there are more blocks than files. -/
theorem Thrifty.hasFreeBlock (h : Thrifty fs) (hsteady : Steady fs) : HasFreeBlock fs := by
  rcases h.inv with ⟨made, hinv⟩
  have hcount := takenBlocks_eq hinv h.noLeak
  have hfiles : nonEmptyFiles fs <= fs.maxDirEntries := by
    have hle := Finset.card_filter_le (Finset.range fs.maxDirEntries) fun i => holdsBytes fs i
    rwa [Finset.card_range] at hle
  have hslots : fs.maxDirEntries = 23 := by
    rw [Fs.maxDirEntries, hsteady.blockSize]
    rfl
  have hblocks := hsteady.dataBlocks
  have hfewer : takenBlocks fs < (Finset.range fs.dataBlocks).card := by
    rw [Finset.card_range]
    omega
  rcases Finset.exists_mem_notMem_of_card_lt_card hfewer with ⟨b, hb, hnot⟩
  have hlt : b < fs.freeBlocks.length := by
    rw [hinv.layout.blockCells]
    exact Finset.mem_range.mp hb
  refine ⟨b, ?_⟩
  rw [List.getElem?_eq_getElem hlt]
  cases hcell : fs.freeBlocks[b] with
  | free => rfl
  | taken =>
      refine absurd (Finset.mem_filter.mpr ⟨hb, ?_⟩) hnot
      rw [List.getElem?_eq_getElem hlt, hcell]

end Blocks

end Broker
end TecnicoFs
