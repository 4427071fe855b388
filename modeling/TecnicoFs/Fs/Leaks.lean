import TecnicoFs.Fs.World

/-!
# Leaked blocks

A taken block is leaked when no taken inode has bytes in it.  The only call that
leaks a block is a write through a handle whose inode has been freed and is empty:
it takes a block for an inode that no file has.  No later call frees the block, so
a state has no leaked block exactly when no call of the run that led to it was of
this kind.
-/

namespace TecnicoFs

open Library

/-- Block `b` holds the bytes of a taken inode. -/
def Held (fs : Fs) (b : Nat) : Prop :=
  exists k inode, InodeTaken fs k ∧ fs.inodeTable[k]? = some inode ∧ 0 < inode.iSize ∧
    inode.iDataBlock = b

def NoLeak (fs : Fs) : Prop :=
  forall b, BlockTaken fs b -> Held fs b

def takenBlocks (fs : Fs) : Nat :=
  ((Finset.range fs.dataBlocks).filter fun b => fs.freeBlocks[b]? = some .taken).card

/-- Directory slot `i` names an inode with bytes. -/
def holdsBytes (fs : Fs) (i : Nat) : Bool :=
  (loadCell fs.inodeTable (dInumber fs.fsData i)).any fun inode => 0 < inode.iSize

def nonEmptyFiles (fs : Fs) : Nat :=
  ((Finset.range fs.maxDirEntries).filter fun i => holdsBytes fs i).card

structure BlocksAccounted (fs : Fs) : Prop where
  noLeak : NoLeak fs
  count : takenBlocks fs = 1 + nonEmptyFiles fs
  onlyRoot : (forall name, Absent fs name) -> forall b, BlockTaken fs b <-> b = 0

/-- A write that takes a block takes it for an inode that is still in use. -/
def LeakFree (fs : Fs) : Call -> Prop
  | .write fhandle _ toWrite => forall (fh k : Nat) (e : OpenFileEntry) (inode : Inode),
      fhandle = fh -> OpenAt fs fh e -> e.ofInumber = k -> fs.inodeTable[k]? = some inode ->
        inode.iSize = 0 -> clippedWrite fs.blockSize e.ofOffset toWrite ≠ 0 ->
          (exists b, FirstAt fs.freeBlocks fs.dataBlocks .free b) -> InodeTaken fs k
  | _ => True

section Leaks

variable {made : Nat -> Prop} {fs fs' : Fs} {r : Int}

/-- Steps that free blocks that hold bytes, together with those bytes. -/
theorem noLeak_congr (freed : Nat -> Prop) (hfreed : forall b, freed b -> Held fs b)
    (hblock : forall b, BlockTaken fs' b <-> ¬ freed b ∧ BlockTaken fs b)
    (hheld : forall b, Held fs' b <-> ¬ freed b ∧ Held fs b) : NoLeak fs' <-> NoLeak fs := by
  constructor
  · intro h b hb
    by_cases hfree : freed b
    · exact hfreed b hfree
    · exact ((hheld b).mp (h b ((hblock b).mpr ⟨hfree, hb⟩))).right
  · intro h b hb
    rcases (hblock b).mp hb with ⟨hfree, hold⟩
    exact (hheld b).mpr ⟨hfree, h b hold⟩

/-- Steps that free no block. -/
theorem noLeak_same (hblock : forall b, BlockTaken fs' b <-> BlockTaken fs b)
    (hheld : forall b, Held fs' b <-> Held fs b) : NoLeak fs' <-> NoLeak fs := by
  apply noLeak_congr (fun _ => False) (fun _ h => absurd h id)
  · intro b
    simpa using hblock b
  · intro b
    simpa using hheld b

theorem SameStorage.noLeak (h : SameStorage fs fs') : NoLeak fs' <-> NoLeak fs := by
  apply noLeak_same
  · intro b
    rw [BlockTaken, h.freeBlocks, BlockTaken]
  · intro b
    simp only [Held, InodeTaken, h.freeinodeTs, h.inodeTable]

theorem noLeak_truncateStep (h : Inv made fs) {k : Nat} {inode inode' : Inode} {mode : Nat}
    (htaken : InodeTaken fs k) (hk : fs.inodeTable[k]? = some inode)
    (hstep : TruncateStep fs k inode mode inode' fs') : NoLeak fs' <-> NoLeak fs := by
  cases hstep with
  | keep _ => exact Iff.rfl
  | cut hflag hpos hb hlt =>
      rename_i b
      apply noLeak_congr (fun c => c = b)
      · intro c hc
        exact ⟨k, inode, htaken, hk, hpos, hc ▸ hb⟩
      · intro c
        exact set_free_iff
      · intro c
        constructor
        · rintro ⟨m, inode1, hm, hinode1, hpos1, hc⟩
          by_cases hmk : m = k
          · simp only [Fs.cutInode, hmk, List.getElem?_set_self (getElem?_lt hk)] at hinode1
            rw [← Option.some.inj hinode1] at hpos1
            exact absurd hpos1 (Nat.lt_irrefl 0)
          · simp only [Fs.cutInode, List.getElem?_set_ne (Ne.symm hmk)] at hinode1
            refine ⟨fun hcb => hmk ?_, m, inode1, hm, hinode1, hpos1, hc⟩
            exact h.storage.blockInj hm htaken hinode1 hk hpos1 hpos (by rw [hc, hb, hcb])
        · rintro ⟨hcb, m, inode1, hm, hinode1, hpos1, hc⟩
          have hmk : m ≠ k := by
            intro hmk
            rw [hmk] at hinode1
            rw [Inv.inode_unique hinode1 hk] at hc
            omega
          refine ⟨m, inode1, hm, ?_, hpos1, hc⟩
          simp only [Fs.cutInode, List.getElem?_set_ne (Ne.symm hmk)]
          exact hinode1

/-- A new empty file holds no block. -/
theorem noLeak_emptyFile {k : Nat} (hfree : ¬ InodeTaken fs k)
    (hlt : k < fs.inodeTable.length)
    (htable : fs'.inodeTable = fs.inodeTable.set k Fs.emptyFile)
    (hblocks : fs'.freeBlocks = fs.freeBlocks)
    (htaken : forall m, InodeTaken fs m -> InodeTaken fs' m)
    (hback : forall m, m ≠ k -> InodeTaken fs' m -> InodeTaken fs m) :
    NoLeak fs' <-> NoLeak fs := by
  apply noLeak_same
  · intro b
    rw [BlockTaken, hblocks, BlockTaken]
  · intro b
    constructor
    · rintro ⟨m, inode, hm, hinode, hpos, hb⟩
      rw [htable] at hinode
      by_cases hmk : m = k
      · rw [hmk, List.getElem?_set_self hlt] at hinode
        rw [← Option.some.inj hinode] at hpos
        exact absurd hpos (by decide)
      · rw [List.getElem?_set_ne (Ne.symm hmk)] at hinode
        exact ⟨m, inode, hback m hmk hm, hinode, hpos, hb⟩
    · rintro ⟨m, inode, hm, hinode, hpos, hb⟩
      have hmk : m ≠ k := fun heq => hfree (heq ▸ hm)
      refine ⟨m, inode, htaken m hm, ?_, hpos, hb⟩
      rw [htable, List.getElem?_set_ne (Ne.symm hmk)]
      exact hinode

theorem noLeak_openStep (h : Inv made fs) {name : Option CStr} {mode : Nat}
    (hstep : OpenStep fs name mode r fs') : NoLeak fs' <-> NoLeak fs := by
  have hnotTaken : forall {k}, FirstAt fs.freeinodeTs fs.inodeTableSize .free k ->
      ¬ InodeTaken fs k := by
    intro k hfirst htaken
    rw [InodeTaken, hfirst.right.left] at htaken
    cases htaken
  cases hstep with
  | badPath _ => exact Iff.rfl
  | existing _ hlisted hk htrunc hhandle =>
      rcases h.inode_of_listed hlisted with ⟨_, htaken, _⟩
      exact hhandle.sameStorage.noLeak.trans (noLeak_truncateStep h htaken hk htrunc)
  | absent _ _ _ => exact Iff.rfl
  | noInode _ _ _ _ => exact Iff.rfl
  | notEntered _ _ _ hfirst _ hlt _ =>
      exact noLeak_emptyFile (hnotTaken hfirst) hlt rfl rfl (fun _ hm => hm) fun _ _ hm => hm
  | created hvalid habsent hflag hfirst hint hlt hfits hslot hhandle =>
      rename_i j k
      have hset : forall {m}, InodeTaken (fs.createFile j (skipSlash name) k) m <->
          m = k ∨ InodeTaken fs m :=
        set_taken_iff (getElem?_lt hfirst.right.left)
      refine hhandle.sameStorage.noLeak.trans
        (noLeak_emptyFile (hnotTaken hfirst) hlt rfl rfl (fun m hm => hset.mpr (Or.inr hm)) ?_)
      intro m hmk hm
      rcases hset.mp hm with heq | hold
      · exact absurd heq hmk
      · exact hold

theorem noLeak_unlinkStep (h : Inv made fs) {target : Option CStr}
    (hstep : UnlinkStep fs target r fs') : NoLeak fs' <-> NoLeak fs := by
  cases hstep with
  | badPath _ => exact Iff.rfl
  | absent _ _ => exact Iff.rfl
  | removed hvalid hlisted hk =>
      rename_i i k inode
      rcases h.inode_of_listed hlisted with ⟨_, htaken, _, inode', hk', hfile⟩
      rw [Inv.inode_unique hk' hk] at hfile
      have hfreed : forall {c : Nat}, 0 < inode.iSize -> c = inode.iDataBlock.toNat ->
          inode.iDataBlock = c := by
        intro c hpos hc
        rcases h.usable_of_size hfile hpos with ⟨b, hb, _⟩
        omega
      have hset : forall {m}, InodeTaken (fs.removeFile i k inode) m <-> m ≠ k ∧ InodeTaken fs m :=
        set_free_iff
      apply noLeak_congr (fun c => 0 < inode.iSize ∧ c = inode.iDataBlock.toNat)
      · rintro c ⟨hpos, hc⟩
        exact ⟨k, inode, htaken, hk, hpos, hfreed hpos hc⟩
      · intro c
        exact Inv.blockTaken_removeFile
      · intro c
        constructor
        · rintro ⟨m, inode1, hm, hinode1, hpos1, hc⟩
          rcases hset.mp hm with ⟨hmk, hold⟩
          refine ⟨?_, m, inode1, hold, hinode1, hpos1, hc⟩
          rintro ⟨hpos, hck⟩
          exact hmk (h.storage.blockInj hold htaken hinode1 hk hpos1 hpos
            (hc.trans (hfreed hpos hck).symm))
        · rintro ⟨hnot, m, inode1, hm, hinode1, hpos1, hc⟩
          refine ⟨m, inode1, hset.mpr ⟨fun hmk => hnot ?_, hm⟩, hinode1, hpos1, hc⟩
          rw [hmk] at hinode1
          rw [Inv.inode_unique hinode1 hk] at hpos1 hc
          exact ⟨hpos1, by omega⟩

/-- A write that stores bytes leaks a block when the inode is empty and free. -/
theorem noLeak_stored (h : Inv made fs) {fh k b : Nat} {e : OpenFileEntry} {inode : Inode}
    {bytes : List UInt8} (hst : Stored fs fh k b e inode bytes fs') :
    NoLeak fs' <-> NoLeak fs ∧ (inode.iSize = 0 -> InodeTaken fs k) := by
  have htaken : forall m, InodeTaken fs' m <-> InodeTaken fs m := by
    intro m
    rw [InodeTaken, hst.freeinodeTs, InodeTaken]
  have hself : InodeTaken fs k -> Held fs' b := by
    intro hk
    have hpos := hst.pos
    refine ⟨k, _, (htaken k).mpr hk, hst.inode_self, ?_, rfl⟩
    simp only
    omega
  have hother : forall {m inode' c}, m ≠ k -> InodeTaken fs m ->
      fs.inodeTable[m]? = some inode' -> 0 < inode'.iSize -> inode'.iDataBlock = (c : Nat) ->
        Held fs' c := by
    intro m inode' c hmk hm hinode' hpos hc
    exact ⟨m, inode', (htaken m).mpr hm, (hst.inode_other hmk).trans hinode', hpos, hc⟩
  have hback : forall {c}, Held fs' c -> (c = b ∧ InodeTaken fs k) ∨ Held fs c := by
    rintro c ⟨m, inode', hm, hinode', hpos, hc⟩
    by_cases hmk : m = k
    · rw [hmk, hst.inode_self] at hinode'
      rw [← Option.some.inj hinode'] at hc
      refine Or.inl ⟨?_, hmk ▸ (htaken m).mp hm⟩
      simp only at hc
      omega
    · rw [hst.inode_other hmk] at hinode'
      exact Or.inr ⟨m, inode', (htaken m).mp hm, hinode', hpos, hc⟩
  rcases hst.block with ⟨hzero, hfirst, _⟩ | ⟨hsize, hb⟩
  · have hfree : ¬ BlockTaken fs b := by
      intro hb
      rw [BlockTaken, hfirst.right.left] at hb
      cases hb
    constructor
    · intro hno
      have hheld := hno b (hst.blocks.mpr (Or.inl ⟨rfl, hzero⟩))
      have hk : InodeTaken fs k := by
        rcases hback hheld with ⟨_, hk⟩ | ⟨m, inode', hm, hinode', hpos, hc⟩
        · exact hk
        · exact absurd (h.storage.blockOwned hm hinode' hpos hc) hfree
      refine ⟨fun c hc => ?_, fun _ => hk⟩
      rcases hback (hno c (hst.blocks.mpr (Or.inr hc))) with ⟨hcb, _⟩ | hold
      · exact absurd (hcb ▸ hc) hfree
      · exact hold
    · rintro ⟨hno, hk⟩ c hc
      rcases hst.blocks.mp hc with ⟨hcb, _⟩ | hold
      · exact hcb ▸ hself (hk hzero)
      · rcases hno c hold with ⟨m, inode', hm, hinode', hpos, hcm⟩
        refine hother (fun hmk => ?_) hm hinode' hpos hcm
        rw [hmk] at hinode'
        rw [Inv.inode_unique hinode' hst.record] at hpos
        omega
  · have hne : inode.iSize ≠ 0 := by omega
    rw [and_iff_left (fun hzero => absurd hzero hne)]
    apply noLeak_same
    · intro c
      rw [hst.blocks]
      simp [hne]
    · intro c
      constructor
      · intro hheld
        rcases hback hheld with ⟨hcb, hk⟩ | hold
        · exact ⟨k, inode, hk, hst.record, hsize, hcb ▸ hb⟩
        · exact hold
      · rintro ⟨m, inode', hm, hinode', hpos, hc⟩
        by_cases hmk : m = k
        · rw [hmk] at hm hinode'
          rw [Inv.inode_unique hinode' hst.record, hb] at hc
          exact (Int.ofNat_inj.mp hc) ▸ hself hm
        · exact hother hmk hm hinode' hpos hc

theorem leakFree_stored {fh k b n toWrite : Nat} {e : OpenFileEntry}
    {inode : Inode} {buffer : List UInt8} (hn : n = clippedWrite fs.blockSize e.ofOffset toWrite)
    (hst : Stored fs fh k b e inode (buffer.take n) fs') :
    LeakFree fs (.write fh buffer toWrite) <-> (inode.iSize = 0 -> InodeTaken fs k) := by
  constructor
  · intro hfree hzero
    have hpos := hst.pos
    rw [List.length_take] at hpos
    rcases hst.block with ⟨_, hfirst, _⟩ | ⟨hsize, _⟩
    · exact hfree fh k e inode rfl hst.openAt hst.inumber hst.record hzero (by omega) ⟨b, hfirst⟩
    · omega
  · intro hk fh' k' e' inode' heq hopen hk' hinode' hzero _ _
    have hfh : fh' = fh := (Int.ofNat_inj.mp heq).symm
    rw [hfh] at hopen
    have he := hopen.unique hst.openAt
    have hkk : k' = k := by
      have hinum := hst.inumber
      rw [he] at hk'
      omega
    rw [hkk] at hinode' ⊢
    exact hk (Inv.inode_unique hinode' hst.record ▸ hzero)

/-- A call keeps the state without leaks exactly when it is not the one kind that
leaks a block, and no call repairs a leak. -/
theorem noLeak_step (h : Inv made fs) {call : Call} {reply : Reply}
    (hstep : Step fs call reply fs') : NoLeak fs' <-> NoLeak fs ∧ LeakFree fs call := by
  cases hstep with
  | «open» hopen => exact (noLeak_openStep h hopen).trans (and_iff_left trivial).symm
  | close hclose => exact hclose.sameStorage.noLeak.trans (and_iff_left trivial).symm
  | read hread => exact hread.sameStorage.noLeak.trans (and_iff_left trivial).symm
  | unlink hunlink => exact (noLeak_unlinkStep h hunlink).trans (and_iff_left trivial).symm
  | write hwrite =>
      rcases hwrite.stored h with ⟨hsame, hnothing⟩ | ⟨_, _, _, _, _, _, heq, _, hn, _, hst⟩
      · rw [hsame]
        refine (and_iff_left ?_).symm
        intro fh k e inode heq hopen _ _ _ hne ⟨b, hfirst⟩
        exact absurd hfirst (hnothing fh e heq hopen hne).not_firstAt
      · rw [noLeak_stored h hst, heq, leakFree_stored hn hst]

/-!
## Counting blocks
-/

theorem holdsBytes_iff (h : Inv made fs) {i : Nat} (hi : i < fs.maxDirEntries) :
    holdsBytes fs i = true <-> exists name k inode, Listed fs i name k ∧
      fs.inodeTable[k]? = some inode ∧ 0 < inode.iSize := by
  rcases h.directory with ⟨used, hdir⟩
  constructor
  · intro hholds
    by_cases hfree : dInumber fs.fsData i = -1
    · rw [holdsBytes, hfree, loadCell_neg (by decide)] at hholds
      cases hholds
    · rcases hdir.shape.entry_of_occupied hi hfree with ⟨name, k, hentry⟩
      have hlisted : Listed fs i name k := ⟨hi, hentry⟩
      rcases h.inode_of_listed hlisted with ⟨_, _, _, inode, hinode, _⟩
      rw [holdsBytes, hentry.inumber, loadCell_nat, hinode] at hholds
      exact ⟨name, k, inode, hlisted, hinode, of_decide_eq_true hholds⟩
  · rintro ⟨name, k, inode, hlisted, hinode, hpos⟩
    rw [holdsBytes, hlisted.entry.inumber, loadCell_nat, hinode]
    exact decide_eq_true hpos

/-- The inode that holds a block other than the root's is a file of the directory. -/
theorem Held.listed (h : Inv made fs) {b : Nat} (hne : b ≠ 0) (hheld : Held fs b) :
    exists i name k inode, Listed fs i name k ∧ fs.inodeTable[k]? = some inode ∧
      0 < inode.iSize ∧ inode.iDataBlock = b := by
  rcases hheld with ⟨k, inode, htaken, hinode, hpos, hb⟩
  have hk : k ≠ 0 := by
    intro hk
    rw [hk] at hinode
    rw [Inv.inode_unique hinode h.layout.rootInode] at hb
    simp only at hb
    omega
  rcases h.directory with ⟨used, hdir⟩
  rcases hdir.takenListed htaken hk with ⟨i, name, hlisted⟩
  exact ⟨i, name, k, inode, hlisted, hinode, hpos, hb⟩

/-- Without leaks there is one taken block for each file with bytes, and the root's. -/
theorem takenBlocks_eq (h : Inv made fs) (hno : NoLeak fs) :
    takenBlocks fs = 1 + nonEmptyFiles fs := by
  rcases h.directory with ⟨used, hdir⟩
  have hmem : forall {b}, (b ∈ (Finset.range fs.dataBlocks).filter fun b =>
      fs.freeBlocks[b]? = some .taken) <-> BlockTaken fs b := by
    intro b
    rw [Finset.mem_filter, Finset.mem_range, and_iff_right_of_imp]
    · exact Iff.rfl
    · intro hb
      exact h.layout.blockCells ▸ getElem?_lt hb
  rw [takenBlocks, ← Finset.card_erase_add_one (hmem.mpr h.layout.rootBlock), Nat.add_comm]
  congr 1
  apply card_eq_of_matching fun (b : Nat) i => exists name k inode, Listed fs i name k ∧
    fs.inodeTable[k]? = some inode ∧ 0 < inode.iSize ∧ inode.iDataBlock = b
  · intro b hb
    rcases Finset.mem_erase.mp hb with ⟨hne, htaken⟩
    rcases (hno b (hmem.mp htaken)).listed h hne with
      ⟨i, name, k, inode, hlisted, hinode, hpos, hblock⟩
    refine ⟨i, Finset.mem_filter.mpr ⟨Finset.mem_range.mpr hlisted.lt, ?_⟩, name, k, inode,
      hlisted, hinode, hpos, hblock⟩
    exact (holdsBytes_iff h hlisted.lt).mpr ⟨name, k, inode, hlisted, hinode, hpos⟩
  · intro i hi
    rcases Finset.mem_filter.mp hi with ⟨hlt, hholds⟩
    rcases (holdsBytes_iff h (Finset.mem_range.mp hlt)).mp hholds with
      ⟨name, k, inode, hlisted, hinode, hpos⟩
    rcases h.inode_of_listed hlisted with ⟨_, htaken, _, inode', hinode', hfile⟩
    rw [Inv.inode_unique hinode' hinode] at hfile
    rcases h.usable_of_size hfile hpos with ⟨b, hb, husable⟩
    refine ⟨b, Finset.mem_erase.mpr ⟨Nat.one_le_iff_ne_zero.mp husable.pos, hmem.mpr ?_⟩, name, k,
      inode, hlisted, hinode, hpos, hb⟩
    exact h.storage.blockOwned htaken hinode hpos hb
  · rintro b i j ⟨name, k, inode, hi, hinode, hpos, hb⟩
      ⟨name', m, inode', hj, hinode', hpos', hb'⟩
    have hkm := h.storage.blockInj (h.inode_of_listed hi).right.left
      (h.inode_of_listed hj).right.left hinode hinode' hpos hpos' (hb.trans hb'.symm)
    rw [← hkm] at hj
    exact hdir.inodeInj hi hj
  · rintro b c i ⟨name, k, inode, hi, hinode, _, hb⟩ ⟨name', m, inode', hi', hinode', _, hc⟩
    rw [(hi.entry.name_unique hi'.entry).right] at hinode
    rw [Inv.inode_unique hinode hinode'] at hb
    exact Int.ofNat_inj.mp (hb.symm.trans hc)

theorem blocksAccounted_of_noLeak (h : Inv made fs) (hno : NoLeak fs) :
    BlocksAccounted fs := by
  refine ⟨hno, takenBlocks_eq h hno, fun habsent b => ⟨fun hb => ?_, fun hb => ?_⟩⟩
  · by_contra hne
    rcases (hno b hb).listed h hne with ⟨i, name, k, _, hlisted, _⟩
    exact habsent name i k hlisted
  · rw [hb]
    exact h.layout.rootBlock

end Leaks

theorem Initial.noLeak {params : TfsParams} {mem : Mallocs} {fs : Fs}
    (h : Initial params mem fs) : NoLeak fs := by
  intro b hb
  have hroot := h.inv.layout.rootInode
  exact ⟨0, _, h.inv.layout.rootTaken, hroot, h.inv.layout.blockPos,
    by rw [h.blockTaken_iff.mp hb]; rfl⟩

/-- The blocks are accounted for after a run exactly when no call of the run was a
write that takes a block for a freed inode. -/
theorem blocksAccounted_iff {paramsPtr : Option TfsParams} {mem : Mallocs} {fs fs0 fs' : Fs}
    (hinit : tfsInit paramsPtr mem fs = .ok (0, fs0)) {calls : List Call}
    {replies : List Reply} (hrun : runCalls calls fs0 = .ok (replies, fs')) :
    BlocksAccounted fs' <-> EveryCall exec LeakFree calls fs0 := by
  have hinitial := tfsInit_initial hinit
  have hinv0 : exists made, Inv made fs0 := ⟨_, hinitial.inv⟩
  have hnext : forall {fs call reply fs'}, (exists made, Inv made fs) ->
      exec call fs = .ok (reply, fs') -> exists made, Inv made fs' := by
    rintro fs call reply fs' ⟨made, hinv⟩ hexec
    exact ⟨_, hinv.step ((exec_iff hinv).mp hexec)⟩
  have hkeeps := run_keeps_iff NoLeak hnext
    (fun ⟨_, hinv⟩ hexec => noLeak_step hinv ((exec_iff hinv).mp hexec)) hrun hinv0
  rw [and_iff_right hinitial.noLeak] at hkeeps
  rcases run_invariant hnext hrun hinv0 with ⟨made, hinv'⟩
  rw [← hkeeps]
  exact ⟨fun h => h.noLeak, blocksAccounted_of_noLeak hinv'⟩

/-- A file is unlinked before the first write through its handle. -/
def leakCalls : List Call :=
  [.open pathA 1, .unlink pathA, .write 0 [7] 1]

/-- The directory is empty, and two blocks are taken. -/
theorem blocksAccounted_leak :
    Reachable (smallWorld leakCalls) ∧ ¬ BlocksAccounted (smallWorld leakCalls).fs := by
  refine ⟨smallWorld_reachable (by decide +kernel), fun h => absurd h.count ?_⟩
  decide +kernel

theorem blocksAccounted_iff_leak : exists replies fs',
    runCalls leakCalls smallFs = .ok (replies, fs') ∧
      (BlocksAccounted fs' <-> EveryCall exec LeakFree leakCalls smallFs) := by
  rcases smallWorld_run leakCalls (by decide +kernel) with ⟨replies, hrun⟩
  have hcalls := runWorld_erase.mpr ⟨_, hrun, rfl⟩
  exact ⟨replies, _, hcalls, blocksAccounted_iff smallInit hcalls⟩

end TecnicoFs
