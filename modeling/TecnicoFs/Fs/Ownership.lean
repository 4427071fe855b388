import TecnicoFs.Fs.World

/-!
# Block ownership

In every reachable world a taken inode with bytes owns its block: the block is
valid, taken, and no other taken inode's.  The block of the root directory is
never the block of an inode that was created as a file, even after that inode has
been freed and while handles still refer to it.
-/

namespace TecnicoFs

open Library

structure BlocksOwned (w : World) : Prop where
  owned : forall k, InodeTaken w.fs k -> exists inode, w.fs.inodeTable[k]? = some inode ∧
    (0 < inode.iSize -> inode.iSize <= w.fs.blockSize ∧
      exists b : Nat, inode.iDataBlock = b ∧ b < w.fs.dataBlocks ∧ BlockTaken w.fs b)
  distinct : forall k k' inode inode', k ≠ k' -> InodeTaken w.fs k -> InodeTaken w.fs k' ->
    w.fs.inodeTable[k]? = some inode -> w.fs.inodeTable[k']? = some inode' ->
      0 < inode.iSize -> 0 < inode'.iSize -> inode.iDataBlock ≠ inode'.iDataBlock
  root : exists dir, w.fs.inodeTable[0]? = some dir ∧ dir.iNodeType = .directory ∧
    forall k : Nat, (k : Int) ∈ w.history.inodes -> exists inode,
      w.fs.inodeTable[k]? = some inode ∧ inode.iDataBlock ≠ dir.iDataBlock

namespace Inv

variable {made : Nat -> Prop} {fs : Fs}

/-- A taken inode is the root directory or a file. -/
theorem taken_cases (h : Inv made fs) {k : Nat} (hk : InodeTaken fs k) :
    (k = 0 ∧ fs.inodeTable[k]? = some ⟨.directory, fs.blockSize, 0⟩) ∨
      (k ≠ 0 ∧ exists inode, fs.inodeTable[k]? = some inode ∧ FileInode fs inode) := by
  by_cases hk0 : k = 0
  · left
    rw [hk0]
    exact ⟨rfl, h.layout.rootInode⟩
  · right
    rcases h.storage.madeInode (h.storage.takenMade hk hk0) with ⟨_, _, _, hinode⟩
    exact ⟨hk0, hinode⟩

/-- The block of a file is not the root directory's block. -/
theorem file_block_ne_root {inode : Inode} (hfile : FileInode fs inode) :
    inode.iDataBlock ≠ 0 := by
  rcases hfile.block with ⟨hnone, _⟩ | ⟨b, hb, husable⟩
  · omega
  · have hpos := husable.pos
    omega

end Inv

/-- Block ownership holds in every reachable world, whatever calls were made. -/
theorem blocksOwned_of_reachable {w : World} (h : Reachable w) : BlocksOwned w := by
  have hinv := h.invariant.inv
  constructor
  · intro k hk
    rcases hinv.taken_cases hk with ⟨_, hroot⟩ | ⟨_, inode, hinode, hfile⟩
    · refine ⟨_, hroot, fun _ => ⟨Nat.le_refl _, 0, rfl, ?_, hinv.layout.rootBlock⟩⟩
      exact hinv.layout.dataBlocks_pos
    · refine ⟨inode, hinode, fun hpos => ⟨hfile.size, ?_⟩⟩
      rcases hinv.usable_of_size hfile hpos with ⟨b, hb, husable⟩
      exact ⟨b, hb, husable.lt, hinv.storage.blockOwned hk hinode hpos hb⟩
  · intro k k' inode inode' hne hk hk' hinode hinode' hpos hpos' heq
    exact hne (hinv.storage.blockInj hk hk' hinode hinode' hpos hpos' heq)
  · refine ⟨_, hinv.layout.rootInode, rfl, fun k hk => ?_⟩
    rcases hinv.storage.madeInode hk with ⟨_, _, _, inode, hinode, hfile⟩
    exact ⟨inode, hinode, Inv.file_block_ne_root hfile⟩

/-- A file is written, unlinked and its block reused through a stale handle. -/
def reuseCalls : List Call :=
  [.open pathA 1, .write 0 [1, 2, 3] 3, .unlink pathA, .open pathB 1, .write 1 [4] 1]

theorem blocksOwned_reuse : BlocksOwned (smallWorld reuseCalls) :=
  blocksOwned_of_reachable (smallWorld_reachable (by decide +kernel))

end TecnicoFs
