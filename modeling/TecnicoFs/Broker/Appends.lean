import TecnicoFs.Fs.Refinement
import TecnicoFs.Broker.Calls

/-!
# Appending to a box

A session opens the file of its box at the end.  Each write of a message appends it, cut
where the block of the file is full, and leaves the handle at the new end and the other
files as they were.
-/

namespace TecnicoFs
namespace Broker

open Library

/-- The bytes that a box has room for. -/
def boxSize : Nat := tfsDefaultParams.blockSize

def HasFreeBlock (fs : Fs) : Prop := exists b : Nat, fs.freeBlocks[b]? = some AllocationState.free

/-- A write to a file with these bytes finds a block. -/
def HasRoom (fs : Fs) (content : List UInt8) : Prop := content ≠ [] ∨ HasFreeBlock fs

/-- Handle 0 is open at the end of the file, which has these bytes. -/
structure AtEnd (fs : Fs) (held : CStr) (content : List UInt8) : Prop where
  busy : Busy fs
  full : FullData fs
  record : exists (i k : Nat) (inode : Inode), Listed fs i held k ∧
    OpenAt fs 0 ⟨k, content.length⟩ ∧ fs.inodeTable[k]? = some inode ∧
      inodeBytes fs inode = content

/-- The other files keep their bytes. -/
def SameOthers (held : CStr) (fs fs' : Fs) : Prop :=
  forall other, other ≠ held -> fileContent fs' other = fileContent fs other

section Appends

variable {fs fs' : Fs} {held : CStr} {content message : List UInt8}

theorem SameOthers.refl (held : CStr) (fs : Fs) : SameOthers held fs fs := fun _ _ => rfl

theorem SameOthers.trans {fs1 : Fs} (h : SameOthers held fs fs1) (h' : SameOthers held fs1 fs') :
    SameOthers held fs fs' :=
  fun other hother => (h' other hother).trans (h other hother)

theorem sameOthers_of_storage (held : CStr) (h : SameStorage fs fs') : SameOthers held fs fs' :=
  fun other _ => h.content other

theorem Steady.blockSize (h : Steady fs) : fs.blockSize = boxSize := by
  rw [Fs.blockSize, h.fsParams]
  rfl

theorem Steady.dataBlocks (h : Steady fs) : fs.dataBlocks = 1024 := by
  rw [Fs.dataBlocks, h.fsParams]
  rfl

theorem FullData.block (h : FullData fs) {b offset n : Nat} (hlt : b < fs.dataBlocks)
    (hend : offset + n <= fs.blockSize) :
    b * fs.blockSize + offset + n <= fs.fsData.size := by
  have hblock : (b + 1) * fs.blockSize <= fs.dataBlocks * fs.blockSize :=
    Nat.mul_le_mul_right _ hlt
  rw [h.size]
  rw [Nat.succ_mul] at hblock
  omega

/-- The first free block, if there is one. -/
theorem firstFreeBlock (h : Steady fs) (hfree : HasFreeBlock fs) :
    exists b, FirstAt fs.freeBlocks fs.dataBlocks .free b ∧ b < intLimit := by
  rcases h.inv with ⟨made, hinv⟩
  have hcells := hinv.layout.blockCells
  rcases firstAt_or_nowhereAt fs.freeBlocks .free (Nat.le_of_eq hcells.symm) with
    ⟨b, hfirst⟩ | hnone
  · refine ⟨b, hfirst, ?_⟩
    have hlt := hfirst.left
    rw [h.dataBlocks] at hlt
    simp only [intLimit]
    omega
  · rcases hfree with ⟨b, hb⟩
    have hlt : b < fs.dataBlocks := by
      rw [← hcells]
      exact (List.getElem?_eq_some_iff.mp hb).choose
    rcases hnone b hlt with ⟨x, hx, hne⟩
    rw [hb] at hx
    exact absurd (Option.some.inj hx).symm hne

theorem AtEnd.content_eq (h : AtEnd fs held content) : fileContent fs held = some content := by
  rcases h.busy.steady.inv with ⟨made, hinv⟩
  rcases h.record with ⟨i, k, inode, hlisted, _, hinode, hbytes⟩
  rw [fileContent_listed hinv hlisted hinode, hbytes]

theorem AtEnd.length_le (h : AtEnd fs held content) : content.length <= boxSize := by
  rcases h.busy.steady.inv with ⟨made, hinv⟩
  rcases h.record with ⟨i, k, inode, hlisted, _, hinode, hbytes⟩
  rcases hinv.inode_of_listed hlisted with ⟨_, _, _, inode', hinode', hfile⟩
  rw [Inv.inode_unique hinode' hinode] at hfile
  rw [← hbytes, inodeBytes_length, ← h.busy.steady.blockSize]
  exact hfile.size

/-- Opening a file to append to it. -/
theorem AtEnd.of_open (hidle : Idle fs) (hfull : FullData fs) {name : Option CStr}
    (hvalid : validPathname name = true) {i k : Nat} {inode : Inode}
    (hlisted : Listed fs i (skipSlash name) k) (hinode : fs.inodeTable[k]? = some inode) :
    exists fs', tfsOpen name tfsOAppend fs = .ok (0, fs') ∧ SameStorage fs fs' ∧
      AtEnd fs' (skipSlash name) (inodeBytes fs inode) := by
  rcases open_atEnd hidle hvalid hlisted hinode with ⟨fs', hopen, hbusy, hsame, hhandle⟩
  have hexec : exec (.open name tfsOAppend) fs = .ok (⟨0, []⟩, fs') := by
    simp [exec, hopen]
  refine ⟨fs', hopen, hsame, hbusy, fullData_preserved hfull hexec trivial, i, k, inode,
    hsame.listed.mpr hlisted, ?_, ?_, ?_⟩
  · rw [inodeBytes_length]
    exact hhandle
  · rw [hsame.inodeTable]
    exact hinode
  · rw [inodeBytes, hsame.fsData, Fs.blockSize, hsame.fsParams]
    rfl

/-- Storing bytes at the end of a file. -/
theorem stored_atEnd (hbusy : Busy fs) {i k b : Nat} {inode : Inode} {bytes : List UInt8}
    (hlisted : Listed fs i held k) (hbytes : inodeBytes fs inode = content)
    (hstored : Stored fs 0 k b ⟨k, content.length⟩ inode bytes fs')
    (hbusy' : Busy fs') (hfull' : FullData fs') :
    AtEnd fs' held (content ++ bytes) ∧ SameOthers held fs fs' := by
  rcases hbusy.steady.inv with ⟨made, hinv⟩
  have hlength : content.length = inode.iSize := by rw [← hbytes, inodeBytes_length]
  constructor
  · refine ⟨hbusy', hfull', i, k, _, (hstored.listed hinv).mpr hlisted,
      hstored.handles.mpr (Or.inl ⟨rfl, ?_⟩), hstored.inode_self, ?_⟩
    · rw [List.length_append]
    · rw [Refines.bytes_patch hstored (Nat.le_of_eq hlength), hbytes, AbstractFs.patch]
      simp
  · intro other hother
    rcases hbusy'.steady.inv with ⟨made', hinv'⟩
    rcases hinv.content_cases other with ⟨habsent, hnone⟩ |
      ⟨j, m, inode', hj, _, _, hinode', _, hsome⟩
    · rw [hnone]
      exact fileContent_absent hinv' fun j m hj => habsent j m ((hstored.listed hinv).mp hj)
    · have hm : m ≠ k := fun heq => hother (hinv.listed_injective (heq ▸ hj) hlisted)
      have hinode1 := (hstored.inode_other hm).trans hinode'
      rw [hsome, fileContent_listed hinv' ((hstored.listed hinv).mpr hj) hinode1,
        hstored.bytes_listed hinv hlisted hj hm hinode']

/-- A write at the end appends the bytes that fit. -/
theorem AtEnd.write (h : AtEnd fs held content) (hlength : message.length < msize)
    (hroom : HasRoom fs content) :
    exists (r : Int) (fs' : Fs), tfsWrite 0 message message.length fs = .ok (r, fs') ∧ 0 <= r ∧
      AtEnd fs' held ((content ++ message).take boxSize) ∧ SameOthers held fs fs' := by
  rcases h.busy.steady.inv with ⟨made, hinv⟩
  have hsize := h.length_le
  rcases h.record with ⟨i, k, inode, hlisted, hopen, hinode, hbytes⟩
  have hblockSize := h.busy.steady.blockSize
  have hclip : clippedWrite fs.blockSize content.length message.length =
      min message.length (fs.blockSize - content.length) :=
    Refines.clippedWrite_min (hblockSize ▸ hsize) hinv.blockSize_lt (by
      simp only [boxSize, tfsDefaultParams, msize, sizeMod] at *
      omega)
  generalize hn : min message.length (fs.blockSize - content.length) = n at hclip
  have htake : (content ++ message).take boxSize = content ++ message.take n := by
    rw [List.take_append, List.take_of_length_le hsize, ← hn, hblockSize,
      List.take_eq_take_min, Nat.min_comm]
  rw [htake]
  by_cases hzero : n = 0
  · have hstep : WriteStep fs 0 message message.length 0 fs :=
      WriteStep.nothing rfl hopen (hclip.trans hzero)
    refine ⟨0, fs, hstep.sound hinv, Int.le_refl 0, ?_, SameOthers.refl held fs⟩
    rw [hzero, List.take_zero, List.append_nil]
    exact h
  · have hend : content.length + n <= fs.blockSize := by omega
    have hbuffer : n <= message.length := by omega
    have hlen : (message.take n).length = n := by simp [hbuffer]
    have hend' : content.length + (message.take n).length <= fs.blockSize := by rwa [hlen]
    have hfinish : forall {b : Nat} {fs' : Fs},
        WriteStep fs 0 message message.length n fs' ->
        Stored fs 0 k b ⟨k, content.length⟩ inode (message.take n) fs' ->
        exists (r : Int) (fs' : Fs), tfsWrite 0 message message.length fs = .ok (r, fs') ∧
          0 <= r ∧ AtEnd fs' held (content ++ message.take n) ∧ SameOthers held fs fs' := by
      intro b fs' hstep hstored
      have hwrite := hstep.sound hinv
      have hexec : exec (.write 0 message message.length) fs = .ok (⟨n, []⟩, fs') := by
        simp [exec, hwrite]
      rcases stored_atEnd h.busy hlisted hbytes hstored (write_busy h.busy hwrite).left
        (fullData_preserved h.full hexec trivial) with ⟨hatEnd, hothers⟩
      exact ⟨n, fs', hwrite, Int.natCast_nonneg n, hatEnd, hothers⟩
    by_cases hempty : inode.iSize = 0
    · have hfree : HasFreeBlock fs := by
        rcases hroom with hne | hfree
        · have hnil : content = [] := by
            rw [← List.length_eq_zero_iff, ← hbytes, inodeBytes_length, hempty]
          exact absurd hnil hne
        · exact hfree
      rcases firstFreeBlock h.busy.steady hfree with ⟨b, hfirst, hint⟩
      have hregion := h.full.block hfirst.left hend
      exact hfinish (WriteStep.fresh rfl hopen hclip hzero rfl hinode hempty hfirst hint hbuffer
        hregion) (Stored.fresh hopen rfl hinode hempty hfirst hint (by omega) hend'
          (by rwa [hlen]))
    · have hpos : 0 < inode.iSize := by omega
      rcases hinv.inode_of_listed hlisted with ⟨_, _, _, inode', hinode', hfile⟩
      rw [Inv.inode_unique hinode' hinode] at hfile
      rcases hinv.usable_of_size hfile hpos with ⟨b, hb, husable⟩
      have hregion := h.full.block husable.lt hend
      exact hfinish (WriteStep.inPlace rfl hopen hclip hzero rfl hinode hpos hb hbuffer hregion)
        (Stored.inPlace hopen rfl hinode hpos hb (by omega) hend' (by rwa [hlen]))

end Appends

end Broker
end TecnicoFs
