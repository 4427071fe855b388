import TecnicoFs.Fs.World

/-!
# What a write may change

A write changes the file its handle was opened on.  The handle only records an
inode, so a handle that outlived its file also reaches a later file that was given
the same inode, or the block the inode still names.  The handles from which a write
can change a file are described exactly.
-/

namespace TecnicoFs

open Library

/-- The directory still has the file that the handle was opened on, as `name`. -/
def World.OwnFile (w : World) (fhandle : Nat) (name : CStr) : Prop :=
  exists id, w.OpenedOn fhandle name id ∧ w.HasFile name id

/-- No write through the handle changes a file other than its own. -/
def WriteFramed (w : World) (fhandle : Nat) : Prop :=
  forall buffer toWrite r fs' name, tfsWrite fhandle buffer toWrite w.fs = .ok (r, fs') ->
    ¬ w.OwnFile fhandle name -> fileContent fs' name = fileContent w.fs name

/-- A byte can be stored at the offset in block `b`, the target of a write. -/
def HasRoom (fs : Fs) (inode : Inode) (offset b : Nat) : Prop :=
  offset < fs.blockSize ∧ b * fs.blockSize + offset < fs.fsData.size ∧
    TargetBlock fs inode b

/-- A write through the handle can change the file: the file has the handle's
inode, or bytes past the handle's offset in the block of that inode. -/
inductive Exposed (fs : Fs) (fhandle : Nat) (name : CStr) : Prop where
  | sameInode {i k b : Nat} {e : OpenFileEntry} {inode : Inode} :
      OpenAt fs fhandle e -> e.ofInumber = k -> fs.inodeTable[k]? = some inode ->
      HasRoom fs inode e.ofOffset b -> Listed fs i name k -> Exposed fs fhandle name
  | sameBlock {i k m b : Nat} {e : OpenFileEntry} {inode inode' : Inode} :
      OpenAt fs fhandle e -> e.ofInumber = k -> fs.inodeTable[k]? = some inode ->
      HasRoom fs inode e.ofOffset b -> Listed fs i name m ->
      fs.inodeTable[m]? = some inode' -> m ≠ k -> 0 < inode.iSize ->
      inode'.iDataBlock = inode.iDataBlock -> e.ofOffset < inode'.iSize ->
      Exposed fs fhandle name

section WriteFrame

variable {made : Nat -> Prop} {fs fs' : Fs} {fh k b : Nat} {e : OpenFileEntry} {inode : Inode}

/-- Where a byte can be stored, a write of one byte stores it. -/
theorem stored_byte (hinv : Inv made fs) (hopen : OpenAt fs fh e) (hk : e.ofInumber = k)
    (hinode : fs.inodeTable[k]? = some inode) (hroom : HasRoom fs inode e.ofOffset b)
    (v : UInt8) : exists fs', tfsWrite fh [v] 1 fs = .ok (1, fs') ∧ Inv made fs' ∧
      (forall i m name, Listed fs' i name m <-> Listed fs i name m) ∧
        Stored fs fh k b e inode [v] fs' := by
  rcases hroom with ⟨hoff, hsize, hblock⟩
  have hadd : sizeAdd 1 e.ofOffset = 1 + e.ofOffset := by
    have hlt := hinv.blockSize_lt
    apply sizeAdd_eq
    omega
  have hn : clippedWrite fs.blockSize e.ofOffset 1 = 1 := by
    rw [clippedWrite, hadd, if_neg (by omega)]
  have hend : b * fs.blockSize + e.ofOffset + 1 <= fs.fsData.size := by omega
  have hfits : e.ofOffset + ([v] : List UInt8).length <= fs.blockSize := by
    simp only [List.length_singleton]
    omega
  rcases hblock with ⟨hzero, hfirst, hint⟩ | ⟨hpos, hb⟩
  · have hstep := WriteStep.fresh rfl hopen hn (by decide) hk hinode hzero hfirst hint
      (Nat.le_refl [v].length) hend
    exact ⟨_, hstep.sound hinv, hinv.writeStep hstep, fun _ _ _ => hstep.listed hinv,
      Stored.fresh hopen hk hinode hzero hfirst hint (by simp) hfits hend⟩
  · have hstep := WriteStep.inPlace rfl hopen hn (by decide) hk hinode hpos hb
      (Nat.le_refl [v].length) hend
    exact ⟨_, hstep.sound hinv, hinv.writeStep hstep, fun _ _ _ => hstep.listed hinv,
      Stored.inPlace hopen hk hinode hpos hb (by simp) hfits hend⟩

/-- A byte unlike the one it replaces changes the inode it is stored in. -/
theorem stored_changes_self {v : UInt8}
    (hv : v ≠ fs.fsData.cell (b * fs.blockSize + e.ofOffset))
    (h : Stored fs fh k b e inode [v] fs') :
    inodeBytes fs' ⟨inode.iNodeType, max inode.iSize (e.ofOffset + 1), b⟩ ≠
      inodeBytes fs inode := by
  intro heq
  have hlen := congrArg List.length heq
  rw [inodeBytes_length, inodeBytes_length] at hlen
  have hlt : e.ofOffset < inode.iSize := by
    simp only at hlen
    omega
  rcases h.block with ⟨hzero, _⟩ | ⟨_, hb⟩
  · omega
  · have hself := h.bytes_self
    simp only [List.length_singleton] at hself
    have hget := inodeBytes_getElem? fs hlt hb
    rw [← heq, hself, List.append_assoc, List.getElem?_append_right (by simp)] at hget
    simp only [Region.window_length, Nat.sub_self, List.cons_append, List.nil_append,
      List.getElem?_cons_zero] at hget
    exact hv (Option.some.inj hget)

/-- It changes every other inode with bytes in the same place. -/
theorem stored_changes_other {inode' : Inode} {v : UInt8}
    (hv : v ≠ fs.fsData.cell (b * fs.blockSize + e.ofOffset))
    (h : Stored fs fh k b e inode [v] fs') (hb : inode'.iDataBlock = b)
    (hlt : e.ofOffset < inode'.iSize) :
    inodeBytes fs' inode' ≠ inodeBytes fs inode' := by
  intro heq
  have hget := inodeBytes_getElem? fs hlt hb
  have hget' := inodeBytes_getElem? fs' hlt hb
  have hcell := @Region.overlay_cell_inside _ fs.fsData (b * fs.blockSize + e.ofOffset) [v] 0
    (by simp)
  rw [heq, hget, h.fsData, h.blockSize] at hget'
  exact hv (hcell.symm.trans (Option.some.inj hget').symm)

/-- An exposed file is changed by a write of one byte. -/
theorem exposed_changes (hinv : Inv made fs) {name : CStr} (h : Exposed fs fh name) :
    exists v fs', tfsWrite fh [v] 1 fs = .ok (1, fs') ∧
      fileContent fs' name ≠ fileContent fs name := by
  have hbyte : forall x : UInt8, exists v, v ≠ x := fun x => by
    by_cases hx : x = 0
    · exact ⟨1, by rw [hx]; decide⟩
    · exact ⟨0, Ne.symm hx⟩
  cases h with
  | sameInode hopen hk hinode hroom hlisted =>
      rename_i i k b e inode
      rcases hbyte (fs.fsData.cell (b * fs.blockSize + e.ofOffset)) with ⟨v, hv⟩
      rcases stored_byte hinv hopen hk hinode hroom v with
        ⟨fs', hwrite, hinv', hsame, hstored⟩
      refine ⟨v, fs', hwrite, fun heq => ?_⟩
      rw [fileContent_listed hinv hlisted hinode,
        fileContent_listed hinv' ((hsame i k name).mpr hlisted) hstored.inode_self] at heq
      exact stored_changes_self hv hstored (Option.some.inj heq)
  | sameBlock hopen hk hinode hroom hlisted hinode' hne hpos hb hlt =>
      rename_i i k m b e inode inode'
      rcases hbyte (fs.fsData.cell (b * fs.blockSize + e.ofOffset)) with ⟨v, hv⟩
      rcases stored_byte hinv hopen hk hinode hroom v with
        ⟨fs', hwrite, hinv', hsame, hstored⟩
      have hblock : inode'.iDataBlock = b := by
        rcases hstored.block with ⟨hzero, _⟩ | ⟨_, hblock⟩
        · omega
        · exact hb.trans hblock
      have hother := (hstored.inode_other hne).trans hinode'
      refine ⟨v, fs', hwrite, fun heq => ?_⟩
      rw [fileContent_listed hinv hlisted hinode',
        fileContent_listed hinv' ((hsame i m name).mpr hlisted) hother] at heq
      exact stored_changes_other hv hstored hblock hlt (Option.some.inj heq)

theorem hasRoom_of_stored {bytes : List UInt8} (h : Stored fs fh k b e inode bytes fs') :
    HasRoom fs inode e.ofOffset b := by
  have hpos := h.pos
  have hfits := h.fits
  have hsize := h.inRegion
  exact ⟨by omega, by omega, h.block⟩

/-- A file that is not exposed keeps its bytes in every write. -/
theorem unexposed_kept (hinv : Inv made fs) {name : CStr} (hnot : ¬ Exposed fs fh name)
    {buffer : List UInt8} {toWrite : Nat} {r : Int}
    (hwrite : tfsWrite fh buffer toWrite fs = .ok (r, fs')) :
    fileContent fs' name = fileContent fs name := by
  have hstep := (tfsWrite_iff hinv).mp hwrite
  have hinv' := hinv.writeStep hstep
  rcases hstep.stored hinv with ⟨hsame, _⟩ | ⟨fh', k, b, n, e, inode, heq, _, _, _, hstored⟩
  · rw [hsame]
  · have hfh : fh' = fh := by omega
    rw [hfh] at hstored
    have hroom := hasRoom_of_stored hstored
    rcases hinv.content_cases name with
      ⟨habsent, hnone⟩ | ⟨i, m, inode', hlisted, _, htaken, hinode', hfile, hcontent⟩
    · rw [hnone]
      exact fileContent_absent hinv' fun i m hi => habsent i m ((hstep.listed hinv).mp hi)
    · have hmk : m ≠ k := by
        intro hmk
        rw [hmk] at hlisted
        exact hnot (Exposed.sameInode hstored.openAt hstored.inumber hstored.record hroom hlisted)
      rw [hcontent, fileContent_listed hinv' ((hstep.listed hinv).mpr hlisted)
        ((hstored.inode_other hmk).trans hinode'),
        hstored.bytes_other hinv hinode' htaken hfile]
      intro hpos hb
      by_contra hlt
      exact hnot (Exposed.sameBlock hstored.openAt hstored.inumber hstored.record hroom hlisted
        hinode' hmk hpos hb (by omega))

/-- While its own file is in the directory, a handle exposes no other file. -/
theorem exposed_of_live {w : World} (hw : Invariant w) {own name : CStr} {id : Nat}
    (hopened : w.OpenedOn fh own id) (hthere : w.HasFile own id)
    (h : Exposed w.fs fh name) : w.OwnFile fh name := by
  have hown : forall {i j k : Nat}, Listed w.fs i name k -> Listed w.fs j own k ->
      w.OwnFile fh name := by
    intro i j k hi hj
    rw [hw.inv.listed_injective hi hj]
    exact ⟨id, hopened, hthere⟩
  cases h with
  | sameInode hopen hk _ _ hlisted =>
      rcases hw.tracked.live hopen hopened hthere with ⟨j, k', hj, hk'⟩
      have hkk : k' = _ := Int.ofNat_inj.mp (hk'.symm.trans hk)
      rw [hkk] at hj
      exact hown hlisted hj
  | sameBlock hopen hk hinode hroom hlisted hinode' hne hpos hb hlt =>
      rcases hw.tracked.live hopen hopened hthere with ⟨j, k', hj, hk'⟩
      have hkk : k' = _ := Int.ofNat_inj.mp (hk'.symm.trans hk)
      rw [hkk] at hj
      rcases hw.inv.inode_of_listed hlisted with ⟨_, htaken', _⟩
      rcases hw.inv.inode_of_listed hj with ⟨_, htaken, _⟩
      exact absurd (hw.inv.storage.blockInj htaken' htaken hinode' hinode (by omega) hpos hb) hne

end WriteFrame

/-- In every reachable world a handle keeps the frame exactly when the only file
exposed to it is its own. -/
theorem writeFramed_iff {w : World} (h : Reachable w) (fhandle : Nat) :
    WriteFramed w fhandle <->
      forall name, Exposed w.fs fhandle name -> w.OwnFile fhandle name := by
  have hinv := h.invariant.inv
  constructor
  · intro hframed name hexposed
    by_contra hown
    rcases exposed_changes hinv hexposed with ⟨v, fs', hwrite, hne⟩
    exact hne (hframed [v] 1 1 fs' name hwrite hown)
  · intro hall buffer toWrite r fs' name hwrite hown
    exact unexposed_kept hinv (fun hexposed => hown (hall name hexposed)) hwrite

/-- A handle keeps the frame for as long as the directory has its file. -/
theorem writeFramed_live {w : World} (h : Reachable w) {fhandle id : Nat} {name : CStr}
    (hopened : w.OpenedOn fhandle name id) (hthere : w.HasFile name id) :
    WriteFramed w fhandle := by
  intro buffer toWrite r fs' other hwrite hown
  have hnot : ¬ Exposed w.fs fhandle other :=
    fun hexposed => hown (exposed_of_live h.invariant hopened hthere hexposed)
  exact unexposed_kept h.invariant.inv hnot hwrite

/-- Handle 0 was opened on a file that was unlinked, and whose inode was then given
to the file {lit}`b`. -/
def staleCalls : List Call :=
  [.open pathA 1, .unlink pathA, .open pathB 1]

/-- A write through handle 0 puts its bytes in the file {lit}`b`. -/
theorem writeFramed_stale :
    Reachable (smallWorld staleCalls) ∧ (exists e, OpenAt (smallWorld staleCalls).fs 0 e) ∧
      ¬ WriteFramed (smallWorld staleCalls) 0 := by
  refine ⟨smallWorld_reachable (by decide +kernel), ⟨⟨1, 0⟩, ?_, ?_, ?_⟩, fun hframed => ?_⟩
  · decide +kernel
  · decide +kernel
  · decide +kernel
  · have hwrite : (tfsWrite 0 [7] 1 (smallWorld staleCalls).fs).map
        (fun result => (result.1, fileContent result.2 (skipSlash pathB))) =
          .ok (1, some [7]) := by
      decide +kernel
    have hbefore : fileContent (smallWorld staleCalls).fs (skipSlash pathB) = some [] := by
      decide +kernel
    have hopened : (smallWorld staleCalls).history.opened 0 = some (skipSlash pathA, 0) := by
      decide +kernel
    rcases map_eq_ok.mp hwrite with ⟨⟨r, fs'⟩, hrun, hresult⟩
    have hafter : fileContent fs' (skipSlash pathB) = some [7] := congrArg Prod.snd hresult
    have hown : ¬ (smallWorld staleCalls).OwnFile 0 (skipSlash pathB) := by
      rintro ⟨id, hid, _⟩
      have hname : skipSlash pathB = skipSlash pathA :=
        congrArg Prod.fst (Option.some.inj (hid.symm.trans hopened))
      exact absurd hname (by decide)
    have hsame := hframed [7] 1 r fs' (skipSlash pathB) hrun hown
    rw [hafter, hbefore] at hsame
    cases hsame

theorem writeFramed_iff_stale :
    WriteFramed (smallWorld staleCalls) 0 <->
      forall name, Exposed (smallWorld staleCalls).fs 0 name ->
        (smallWorld staleCalls).OwnFile 0 name :=
  writeFramed_iff (smallWorld_reachable (by decide +kernel)) 0

end TecnicoFs
