import TecnicoFs.Fs.World

/-!
# Offsets and lengths

As long as no handle is left past the end of an inode that loses its bytes, every
offset lies inside its file, so that neither subtraction of sizes wraps, reads
return bytes of the file and writes stay inside its block.  Two kinds of opens take
bytes from under a handle: a truncation, and the creation of a file in an inode
that a handle still refers to.
-/

namespace TecnicoFs

open Library

/-- `of_offset <= i_size <= block_size` for every open handle. -/
def OffsetsInside (fs : Fs) : Prop :=
  forall (fh k : Nat) (e : OpenFileEntry) (inode : Inode), OpenAt fs fh e ->
    e.ofInumber = k -> fs.inodeTable[k]? = some inode ->
      e.ofOffset <= inode.iSize ∧ inode.iSize <= fs.blockSize

/-- No length computation of a read or a write wraps, and the call copies exactly
the bytes that it should between the buffer and the inode's block. -/
def LengthsExact (fs : Fs) : Call -> Prop
  | .read fhandle len => forall (fh k : Nat) (e : OpenFileEntry) (inode : Inode),
      fhandle = fh -> OpenAt fs fh e -> e.ofInumber = k -> fs.inodeTable[k]? = some inode ->
        sizeSub inode.iSize e.ofOffset = inode.iSize - e.ofOffset ∧
        e.ofOffset <= inode.iSize ∧ inode.iSize <= fs.blockSize ∧
          exists fs', tfsRead fhandle len fs =
            .ok ((min len (inode.iSize - e.ofOffset) : Nat),
              ((inodeBytes fs inode).drop e.ofOffset).take len, fs')
  | .write fhandle buffer toWrite => forall (fh k : Nat) (e : OpenFileEntry) (inode : Inode),
      fhandle = fh -> OpenAt fs fh e -> e.ofInumber = k -> fs.inodeTable[k]? = some inode ->
        sizeAdd toWrite e.ofOffset = toWrite + e.ofOffset ∧
        sizeSub fs.blockSize e.ofOffset = fs.blockSize - e.ofOffset ∧
        e.ofOffset <= fs.blockSize ∧
          exists n fs', n = min toWrite (fs.blockSize - e.ofOffset) ∧
            tfsWrite fhandle buffer toWrite fs = .ok ((n : Nat), fs') ∧
              (n ≠ 0 -> exists (b : Nat) (inode' : Inode),
                fs'.inodeTable[k]? = some inode' ∧ inode'.iDataBlock = b ∧
                  e.ofOffset + n <= fs.blockSize ∧
                    fs'.fsData = fs.fsData.overlay (b * fs.blockSize + e.ofOffset)
                      (buffer.take n))
  | _ => True

/-- The call reads and writes inside the file, and leaves the offsets inside. -/
def InsideFile (fs : Fs) (call : Call) : Prop :=
  LengthsExact fs call ∧ forall reply fs', exec call fs = .ok (reply, fs') -> OffsetsInside fs'

def HandlesAtStart (fs : Fs) (k : Nat) : Prop :=
  forall (fh : Nat) (e : OpenFileEntry), OpenAt fs fh e -> e.ofInumber = k -> e.ofOffset = 0

/-- An open that truncates or creates finds the handles of the inode at its start;
a write has a length that is no wrapped sum, a buffer of that length and a block to
go to. -/
def KeepsOffsets (fs : Fs) : Call -> Prop
  | .open name mode => validPathname name = true ->
      (forall i k, hasFlag mode tfsOTrunc = true -> Listed fs i (skipSlash name) k ->
        HandlesAtStart fs k) ∧
      (forall k, hasFlag mode tfsOCreat = true -> Absent fs (skipSlash name) ->
        FirstAt fs.freeinodeTs fs.inodeTableSize .free k -> HandlesAtStart fs k)
  | .write fhandle buffer toWrite => forall (fh k : Nat) (e : OpenFileEntry) (inode : Inode),
      fhandle = fh -> OpenAt fs fh e -> e.ofInumber = k -> fs.inodeTable[k]? = some inode ->
        toWrite + e.ofOffset < sizeMod ∧
          (toWrite ≠ 0 -> e.ofOffset ≠ fs.blockSize ->
            min toWrite (fs.blockSize - e.ofOffset) <= buffer.length ∧
              exists b, TargetBlock fs inode b ∧
                b * fs.blockSize + e.ofOffset + min toWrite (fs.blockSize - e.ofOffset) <=
                  fs.fsData.size)
  | _ => True

/-- What keeps the offsets inside: the bytes of every inode also lie in the data
area. -/
structure Bounded (made : Nat -> Prop) (fs : Fs) : Prop where
  inv : Inv made fs
  offset : forall {fh k e inode}, OpenAt fs fh e -> e.ofInumber = (k : Nat) ->
    fs.inodeTable[k]? = some inode -> e.ofOffset <= inode.iSize
  backed : forall {k inode} {b : Nat}, made k -> fs.inodeTable[k]? = some inode ->
    0 < inode.iSize -> inode.iDataBlock = b ->
      b * fs.blockSize + inode.iSize <= fs.fsData.size

namespace Bounded

variable {made made' : Nat -> Prop} {fs fs' : Fs} {r : Int}

theorem offsetsInside (h : Bounded made fs) : OffsetsInside fs := by
  intro fh k e inode hopen hk hinode
  exact ⟨h.offset hopen hk hinode, (h.inv.fileInode_of_open hopen hk hinode).size⟩

/-- Steps that open no handle, and only take bytes from inodes whose handles stand
at the start. -/
theorem shrink (h : Bounded made fs) (hinv : Inv made' fs')
    (hparams : fs'.fsParams = fs.fsParams) (hsize : fs'.fsData.size = fs.fsData.size)
    (hopen : forall {fh e}, OpenAt fs' fh e -> OpenAt fs fh e)
    (hrecord : forall {k inode}, made' k -> fs'.inodeTable[k]? = some inode ->
      (made k ∧ fs.inodeTable[k]? = some inode) ∨
        (inode.iSize = 0 ∧ HandlesAtStart fs k)) : Bounded made' fs' := by
  refine ⟨hinv, ?_, ?_⟩
  · intro fh k e inode hfh hk hinode
    rcases hinv.inode_of_open hfh hk with ⟨hmade, _⟩
    rcases hrecord hmade hinode with ⟨_, hold⟩ | ⟨_, hstart⟩
    · exact h.offset (hopen hfh) hk hold
    · rw [hstart fh e (hopen hfh) hk]
      exact Nat.zero_le _
  · intro k inode b hmade hinode hpos hb
    rcases hrecord hmade hinode with ⟨hmade0, hold⟩ | ⟨hzero, _⟩
    · rw [hsize, Fs.blockSize, hparams]
      exact h.backed hmade0 hold hpos hb
    · omega

/-- Steps that only move handles, and leave them inside. -/
theorem moveHandle (h : Bounded made fs) (hinv : Inv made fs') (hsame : SameStorage fs fs')
    (hopen : forall {fh e}, OpenAt fs' fh e -> OpenAt fs fh e ∨
      exists (k : Nat) (inode : Inode), e.ofInumber = k ∧ fs.inodeTable[k]? = some inode ∧
        e.ofOffset <= inode.iSize) : Bounded made fs' := by
  refine ⟨hinv, ?_, ?_⟩
  · intro fh k e inode hfh hk hinode
    rw [hsame.inodeTable] at hinode
    rcases hopen hfh with hold | ⟨k', inode', hk', hinode', hle⟩
    · exact h.offset hold hk hinode
    · have hkk : k' = k := by omega
      rw [hkk] at hinode'
      rw [Inv.inode_unique hinode hinode']
      exact hle
  · intro k inode b hmade hinode hpos hb
    rw [hsame.inodeTable] at hinode
    rw [hsame.fsData, Fs.blockSize, hsame.fsParams]
    exact h.backed hmade hinode hpos hb

theorem handleStep (h : Bounded made fs) {k offset : Nat} {inode : Inode} (hk : made k)
    (hinode : fs.inodeTable[k]? = some inode) (hle : offset <= inode.iSize)
    (hstep : HandleStep fs k offset r fs') : Bounded made fs' := by
  have hfile : FileInode fs inode := by
    rcases h.inv.storage.madeInode hk with ⟨_, _, _, inode', hinode', hfile⟩
    exact Inv.inode_unique hinode' hinode ▸ hfile
  have hlt := Nat.lt_of_le_of_lt hle (h.inv.size_lt hfile)
  refine h.moveHandle (h.inv.handleStep hk hlt hstep) hstep.sameStorage ?_
  intro fh e hfh
  rcases (hstep.openAt h.inv).mp hfh with ⟨_, he⟩ | ⟨_, hold⟩
  · exact Or.inr ⟨k, inode, by rw [he], hinode, by rw [he]; exact hle⟩
  · exact Or.inl hold

theorem truncateStep (h : Bounded made fs) {k : Nat} {inode inode' : Inode} {mode : Nat}
    (hne : k ≠ 0) (htaken : InodeTaken fs k) (hk : fs.inodeTable[k]? = some inode)
    (hstart : hasFlag mode tfsOTrunc = true -> HandlesAtStart fs k)
    (hstep : TruncateStep fs k inode mode inode' fs') : Bounded made fs' := by
  have hinv := h.inv.truncateStep hne htaken hk hstep
  cases hstep with
  | keep _ => exact h
  | cut hflag hpos hb hlt =>
      refine h.shrink hinv rfl rfl (OpenAt.frame fs (fs.cutInode k _ inode) rfl rfl rfl).mp ?_
      intro m inode' hm hinode'
      by_cases hmk : m = k
      · right
        simp only [Fs.cutInode, hmk, List.getElem?_set_self (getElem?_lt hk)] at hinode'
        rw [← Option.some.inj hinode', hmk]
        exact ⟨rfl, hstart hflag⟩
      · left
        simp only [Fs.cutInode, List.getElem?_set_ne (Ne.symm hmk)] at hinode'
        exact ⟨hm, hinode'⟩

/-- The free inode `k` becomes an empty file, listed or not. -/
theorem emptyFile (h : Bounded made fs) {k : Nat} (hlt : k < fs.inodeTable.length)
    (hinv : Inv (fun m => made m ∨ m = k) fs') (hstart : HandlesAtStart fs k)
    (hparams : fs'.fsParams = fs.fsParams) (hsize : fs'.fsData.size = fs.fsData.size)
    (hopen : forall {fh e}, OpenAt fs' fh e -> OpenAt fs fh e)
    (htable : fs'.inodeTable = fs.inodeTable.set k Fs.emptyFile) :
    Bounded (fun m => made m ∨ m = k) fs' := by
  refine h.shrink hinv hparams hsize hopen ?_
  intro m inode' hm hinode'
  rw [htable] at hinode'
  by_cases hmk : m = k
  · right
    rw [hmk, List.getElem?_set_self hlt] at hinode'
    rw [← Option.some.inj hinode', hmk]
    exact ⟨rfl, hstart⟩
  · left
    rw [List.getElem?_set_ne (Ne.symm hmk)] at hinode'
    rcases hm with hm | hm
    · exact ⟨hm, hinode'⟩
    · exact absurd hm hmk

theorem openStep (h : Bounded made fs) {name : Option CStr} {mode : Nat}
    (hkeep : KeepsOffsets fs (.open name mode)) (hstep : OpenStep fs name mode r fs') :
    exists made', Bounded made' fs' := by
  cases hstep with
  | badPath _ => exact ⟨made, h⟩
  | existing hvalid hlisted hk htrunc hhandle =>
      rename_i i k inode inode' fs1
      rcases h.inv.inode_of_listed hlisted with ⟨hne, htaken, _⟩
      have hmade := h.inv.storage.takenMade htaken hne
      have hk' := (htrunc.sound h.inv.layout.blockCells hk).right
      have h1 := h.truncateStep hne htaken hk
        (fun hflag => (hkeep hvalid).left i k hflag hlisted) htrunc
      refine ⟨made, h1.handleStep hmade hk' ?_ hhandle⟩
      split
      · exact Nat.le_refl _
      · exact Nat.zero_le _
  | absent _ _ _ => exact ⟨made, h⟩
  | noInode _ _ _ _ => exact ⟨made, h⟩
  | notEntered hvalid habsent hflag hfirst hint hlt hwhy =>
      rename_i k
      exact ⟨_, h.emptyFile hlt (h.inv.resetInode hfirst hint hlt)
        ((hkeep hvalid).right k hflag habsent hfirst) rfl rfl
        (OpenAt.frame fs (fs.resetInode k) rfl rfl rfl).mp rfl⟩
  | created hvalid habsent hflag hfirst hint hlt hfits hslot hhandle =>
      rename_i j k
      have h1 := h.emptyFile hlt (h.inv.createFile habsent hfirst hint hlt hfits hslot)
        ((hkeep hvalid).right k hflag habsent hfirst) rfl rfl
        (OpenAt.frame fs (fs.createFile j (skipSlash name) k) rfl rfl rfl).mp rfl
      have hnew : (fs.createFile j (skipSlash name) k).inodeTable[k]? = some Fs.emptyFile :=
        List.getElem?_set_self hlt
      exact ⟨_, h1.handleStep (Or.inr rfl) hnew (Nat.zero_le _) hhandle⟩

theorem readStep (h : Bounded made fs) {fhandle : Int} {len : Nat} {data : List UInt8}
    (hstep : ReadStep fs fhandle len r data fs') : Bounded made fs' := by
  have hinv := h.inv.readStep hstep
  have hsame := hstep.sameStorage
  cases hstep with
  | notOpen _ => exact h
  | nothing _ _ _ _ _ => exact h
  | copied heq hopen hk hinode hn hne hb hregion =>
      rename_i fh k b n e inode
      have hoff := h.offset hopen hk hinode
      have hsize := h.inv.size_lt (h.inv.fileInode_of_open hopen hk hinode)
      refine h.moveHandle hinv hsame fun hfh => ?_
      rcases (openAt_setEntry hopen).mp hfh with ⟨_, he⟩ | ⟨_, hold⟩
      · refine Or.inr ⟨k, inode, by rw [he]; exact hk, hinode, ?_⟩
        have hle : n <= inode.iSize - e.ofOffset := by
          rw [← hn, clippedRead, sizeSub_eq hoff hsize]
          split <;> omega
        rw [he]
        simp only
        omega
      · exact Or.inl hold

theorem closeStep (h : Bounded made fs) {fhandle : Int}
    (hstep : CloseStep fs fhandle r fs') : Bounded made fs' := by
  have hinv := h.inv.closeStep hstep
  have hsame := hstep.sameStorage
  cases hstep with
  | notOpen _ => exact h
  | closed _ _ =>
      exact h.moveHandle hinv hsame fun hfh => Or.inl (openAt_dropHandle.mp hfh).right

theorem stored (h : Bounded made fs) {fh k b : Nat} {e : OpenFileEntry} {inode : Inode}
    {bytes : List UInt8} (hinv : Inv made fs') (hst : Stored fs fh k b e inode bytes fs') :
    Bounded made fs' := by
  have hmade := (h.inv.inode_of_open hst.openAt hst.inumber).left
  refine ⟨hinv, ?_, ?_⟩
  · intro fh' m e' inode' hfh hm hinode'
    by_cases hmk : m = k
    · rw [hmk, hst.inode_self] at hinode'
      rw [← Option.some.inj hinode']
      simp only
      rcases hst.handles.mp hfh with ⟨_, he⟩ | ⟨_, hold⟩
      · rw [he]
        exact Nat.le_max_right _ _
      · have hle := h.offset hold (hmk ▸ hm) hst.record
        omega
    · rw [hst.inode_other hmk] at hinode'
      rcases hst.handles.mp hfh with ⟨_, he⟩ | ⟨_, hold⟩
      · have hmk' : m = k := by
          have hinum := hst.inumber
          rw [he] at hm
          simp only at hm
          omega
        exact absurd hmk' hmk
      · exact h.offset hold hm hinode'
  · intro m inode' c hm hinode' hpos hc
    rw [hst.fsData, Region.overlay_size, hst.blockSize]
    by_cases hmk : m = k
    · rw [hmk, hst.inode_self] at hinode'
      rw [← Option.some.inj hinode'] at hc ⊢
      have hcb : c = b := by
        simp only at hc
        omega
      have hend := hst.inRegion
      rcases hst.block with ⟨hzero, _, _⟩ | ⟨hsize, hb⟩
      · rw [hcb, hzero]
        simp only
        omega
      · have hold := h.backed hmade hst.record hsize hb
        rw [hcb]
        simp only
        omega
    · rw [hst.inode_other hmk] at hinode'
      exact h.backed hm hinode' hpos hc

theorem step (h : Bounded made fs) {call : Call} {reply : Reply}
    (hkeep : KeepsOffsets fs call) (hstep : Step fs call reply fs') :
    exists made', Bounded made' fs' := by
  cases hstep with
  | «open» hopen => exact h.openStep hkeep hopen
  | close hclose => exact ⟨made, h.closeStep hclose⟩
  | read hread => exact ⟨made, h.readStep hread⟩
  | write hwrite =>
      have hinv := h.inv.writeStep hwrite
      rcases hwrite.stored h.inv with ⟨hsame, _⟩ | ⟨_, _, _, _, _, _, _, _, _, _, hst⟩
      · exact ⟨made, hsame ▸ h⟩
      · exact ⟨made, h.stored hinv hst⟩
  | unlink hunlink =>
      have hinv := h.inv.unlinkStep hunlink
      cases hunlink with
      | badPath _ => exact ⟨made, h⟩
      | absent _ _ => exact ⟨made, h⟩
      | removed _ hlisted hk =>
          exact ⟨made, h.shrink hinv rfl rfl
            (OpenAt.frame fs (fs.removeFile _ _ _) rfl rfl rfl).mp
            (fun hm hinode' => Or.inl ⟨hm, hinode'⟩)⟩

/-!
## Lengths
-/

/-- A read returns the bytes of the file from the offset on. -/
theorem readExact (h : Bounded made fs) (fhandle : Int) (len : Nat) :
    LengthsExact fs (.read fhandle len) := by
  intro fh k e inode heq hopen hk hinode
  have hfile := h.inv.fileInode_of_open hopen hk hinode
  have hoff := h.offset hopen hk hinode
  have hsub := sizeSub_eq hoff (h.inv.size_lt hfile)
  have hclip : clippedRead inode.iSize e.ofOffset len = min len (inode.iSize - e.ofOffset) := by
    rw [clippedRead, hsub]
    split <;> omega
  refine ⟨hsub, hoff, hfile.size, ?_⟩
  by_cases hn : min len (inode.iSize - e.ofOffset) = 0
  · refine ⟨fs, ?_⟩
    have hstep : ReadStep fs fhandle len 0 [] fs :=
      ReadStep.nothing heq hopen hk hinode (hclip.trans hn)
    have hnone : ((inodeBytes fs inode).drop e.ofOffset).take len = [] := by
      apply List.eq_nil_of_length_eq_zero
      rw [List.length_take, List.length_drop, inodeBytes_length]
      exact hn
    rw [hstep.sound h.inv, hn, hnone]
    rfl
  · have hpos : 0 < inode.iSize := by omega
    rcases h.inv.usable_of_size hfile hpos with ⟨b, hb, _⟩
    have hmade := (h.inv.inode_of_open hopen hk).left
    have hbacked := h.backed hmade hinode hpos hb
    have htoNat : inode.iDataBlock.toNat = b := by omega
    have hbytes : ((inodeBytes fs inode).drop e.ofOffset).take len =
        fs.fsData.window (b * fs.blockSize + e.ofOffset)
          (min len (inode.iSize - e.ofOffset)) := by
      rw [inodeBytes, htoNat, Region.window_drop _ _ _ _ hoff]
      by_cases hlen : len <= inode.iSize - e.ofOffset
      · rw [Region.window_take _ _ _ _ hlen, Nat.min_eq_left hlen]
      · rw [List.take_of_length_le (by rw [Region.window_length]; omega),
          Nat.min_eq_right (by omega)]
    have hstep := ReadStep.copied heq hopen hk hinode hclip hn hb (by omega)
    exact ⟨_, by rw [hstep.sound h.inv, hbytes]⟩

/-- A write whose length does not wrap and that has a block to go to stays inside
that block. -/
theorem writeExact (h : Bounded made fs) {fhandle : Int} {buffer : List UInt8} {toWrite : Nat}
    (hkeep : KeepsOffsets fs (.write fhandle buffer toWrite)) :
    LengthsExact fs (.write fhandle buffer toWrite) := by
  intro fh k e inode heq hopen hk hinode
  rcases hkeep fh k e inode heq hopen hk hinode with ⟨hsum, hroom⟩
  have hfile := h.inv.fileInode_of_open hopen hk hinode
  have hoff : e.ofOffset <= fs.blockSize :=
    Nat.le_trans (h.offset hopen hk hinode) hfile.size
  have hadd := sizeAdd_eq hsum
  have hsub := sizeSub_eq hoff h.inv.blockSize_lt
  have hclip : clippedWrite fs.blockSize e.ofOffset toWrite =
      min toWrite (fs.blockSize - e.ofOffset) := by
    rw [clippedWrite, hadd, hsub]
    split <;> omega
  refine ⟨hadd, hsub, hoff, ?_⟩
  by_cases hn : min toWrite (fs.blockSize - e.ofOffset) = 0
  · have hstep : WriteStep fs fhandle buffer toWrite 0 fs :=
      WriteStep.nothing heq hopen (hclip.trans hn)
    refine ⟨0, fs, hn.symm, hstep.sound h.inv, fun hne => absurd rfl hne⟩
  · rcases hroom (by omega) (by omega) with ⟨hbuf, b, hblock, hregion⟩
    have hlen : (buffer.take (min toWrite (fs.blockSize - e.ofOffset))).length =
        min toWrite (fs.blockSize - e.ofOffset) := by
      rw [List.length_take, Nat.min_eq_left hbuf]
    have hstep : exists fs', WriteStep fs fhandle buffer toWrite
        (min toWrite (fs.blockSize - e.ofOffset) : Nat) fs' ∧
          Stored fs fh k b e inode (buffer.take (min toWrite (fs.blockSize - e.ofOffset))) fs' := by
      rcases hblock with ⟨hzero, hfirst, hint⟩ | ⟨hpos, hb⟩
      · exact ⟨_, WriteStep.fresh heq hopen hclip hn hk hinode hzero hfirst hint hbuf hregion,
          Stored.fresh hopen hk hinode hzero hfirst hint (by omega) (by omega) (by omega)⟩
      · exact ⟨_, WriteStep.inPlace heq hopen hclip hn hk hinode hpos hb hbuf hregion,
          Stored.inPlace hopen hk hinode hpos hb (by omega) (by omega) (by omega)⟩
    rcases hstep with ⟨fs', hstep, hst⟩
    refine ⟨_, fs', rfl, hstep.sound h.inv, fun _ => ?_⟩
    exact ⟨b, _, hst.inode_self, rfl, by omega, hst.fsData⟩

theorem insideFile (h : Bounded made fs) {call : Call} (hkeep : KeepsOffsets fs call) :
    InsideFile fs call := by
  constructor
  · cases call with
    | read fhandle len => exact h.readExact fhandle len
    | write fhandle buffer toWrite => exact h.writeExact hkeep
    | «open» name mode => trivial
    | close fhandle => trivial
    | unlink target => trivial
  · intro reply fs' hexec
    rcases h.step hkeep ((exec_iff h.inv).mp hexec) with ⟨made', h'⟩
    exact h'.offsetsInside

theorem initial {params : TfsParams} {mem : Mallocs} (h : Initial params mem fs) :
    exists made, Bounded made fs := by
  refine ⟨_, h.inv, ?_, ?_⟩
  · intro fh k e inode hopen
    exact absurd hopen h.notOpen
  · intro k inode b hmade
    exact absurd hmade id

end Bounded

/-- In a run whose opens find the handles of the inodes they empty at the start, and
whose writes have a length and a block to go to, every read and write stays inside
its file, and so does every offset. -/
theorem insideFile_of_keepsOffsets {paramsPtr : Option TfsParams} {mem : Mallocs}
    {fs fs0 : Fs} (hinit : tfsInit paramsPtr mem fs = .ok (0, fs0)) {calls : List Call}
    (hkeep : EveryCall exec KeepsOffsets calls fs0) : EveryCall exec InsideFile calls fs0 := by
  refine everyCall_imp (P := fun fs => exists made, Bounded made fs) ?_ ?_
    (Bounded.initial (tfsInit_initial hinit)) hkeep
  · rintro fs call ⟨made, h⟩ hcall
    exact h.insideFile hcall
  · rintro fs call reply fs' ⟨made, h⟩ hcall hexec
    exact h.step hcall ((exec_iff h.inv).mp hexec)

/-- A file is truncated under a handle that stands behind its three bytes. -/
def truncatedCalls : List Call :=
  [.open pathA 1, .write 0 [1, 2, 3] 3, .open pathA 2]

/-- The offset of handle 0 is then 3 in a file of no bytes. -/
theorem insideFile_truncated : ¬ EveryCall exec InsideFile truncatedCalls smallFs := by
  intro hinside
  rcases smallWorld_run truncatedCalls (by decide +kernel) with ⟨replies, hrun⟩
  have hcalls := runWorld_erase.mpr ⟨_, hrun, rfl⟩
  have hstart : OffsetsInside smallFs := by
    rcases Bounded.initial (tfsInit_initial smallInit) with ⟨made, h⟩
    exact h.offsetsInside
  have hend := everyCall_invariant (P := OffsetsInside)
    (fun _ hq hexec => hq.right _ _ hexec) hcalls hinside hstart
  have hopen : OpenAt (smallWorld truncatedCalls).fs 0 ⟨1, 3⟩ := by
    constructor <;> decide +kernel
  have hinode : (smallWorld truncatedCalls).fs.inodeTable[1]? = some ⟨.file, 0, 1⟩ := by
    decide +kernel
  exact absurd (hend 0 1 ⟨1, 3⟩ ⟨.file, 0, 1⟩ hopen rfl hinode).left (by decide)

/-- Three bytes are written to a new file. -/
def freshCalls : List Call :=
  [.open pathA 1, .write 0 [1, 2, 3] 3, .read 0 9]

theorem insideFile_fresh : EveryCall exec InsideFile freshCalls smallFs := by
  apply insideFile_of_keepsOffsets smallInit
  have hnotOpen : forall {fh e}, ¬ OpenAt smallFs fh e := (tfsInit_initial smallInit).notOpen
  refine ⟨fun _ => ⟨?_, ?_⟩, fun r1 fs1 hopen => ⟨?_, fun r2 fs2 _ => ⟨trivial, ?_⟩⟩⟩
  · intro i k _ _ fh e hfh
    exact absurd hfh hnotOpen
  · intro k _ _ _ fh e hfh
    exact absurd hfh hnotOpen
  · have hfs1 : fs1 = (smallWorld [.open pathA 1]).fs :=
      smallWorld_snoc [] (by decide +kernel) hopen
    intro fh k e inode heq hfh hk hinode
    have hfh0 : fh = 0 := by omega
    have hentry : fs1.openFileTable[0]? = some ⟨1, 0⟩ := by
      rw [hfs1]
      decide +kernel
    have htable : fs1.inodeTable[1]? = some ⟨.file, 0, -1⟩ := by
      rw [hfs1]
      decide +kernel
    have he := hfh.entry
    rw [hfh0, hentry] at he
    rw [← Option.some.inj he] at hk ⊢
    have hk1 : k = 1 := by
      simp only at hk
      omega
    rw [hk1, htable] at hinode
    rw [← Option.some.inj hinode, hfs1]
    refine ⟨by decide, fun _ _ => ⟨by decide +kernel, 1, Or.inl ⟨rfl, ?_, by decide⟩, ?_⟩⟩
    · refine ⟨by decide +kernel, by decide +kernel, fun j hj => ?_⟩
      have hj0 : j = 0 := by omega
      rw [hj0]
      exact ⟨.taken, by decide +kernel, by decide⟩
    · decide +kernel
  · intro _ _ _
    trivial

end TecnicoFs
