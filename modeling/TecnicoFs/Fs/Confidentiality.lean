import TecnicoFs.Fs.Twins

/-!
# Confidentiality between files

Two runs of the same calls that differ in the initial bytes of the data area, and in
what is written through the handles of other files, read the same from a file as
long as every call keeps it a secret of its own handles.
-/

namespace TecnicoFs

open Library

/-- The handle was opened on the name, on whichever file had it. -/
def World.Owns (w : World) (name : CStr) (fhandle : Nat) : Prop :=
  exists id, w.OpenedOn fhandle name id

/-- The call reads through a handle that was opened on the name. -/
def readsName (name : CStr) (w : World) : Call -> Bool
  | .read fhandle _ =>
      0 <= fhandle && (w.history.opened fhandle.toNat).any fun file => file.1 = name
  | _ => false

/-- What the reads through the name's handles return in a run. -/
def readsOf (name : CStr) (calls : List Call) (fs : Fs) : List Reply :=
  observed World.exec (readsName name) calls (World.start fs)

def VariantCalls (name : CStr) (calls calls' : List Call) (fs : Fs) : Prop :=
  EveryPair World.exec (fun w => VariantCall (w.Owns name)) calls calls' (World.start fs)

def KeepSecret (name : CStr) (calls : List Call) (fs : Fs) : Prop :=
  EveryCall World.exec (fun w => KeepsSecret name (w.Owns name) w.fs) calls (World.start fs)

/-- Worlds with the same past but for the data. -/
structure TwinWorlds (name : CStr) (w v : World) : Prop where
  first : Invariant w
  second : Invariant v
  fs : v.fs = w.fs.withData v.fs.fsData
  twin : Twin name w.fs v.fs.fsData
  clock : v.history.clock = w.history.clock
  files : v.history.files = w.history.files
  opened : v.history.opened = w.history.opened

section TwinHistories

variable {name : CStr} {w w' v v' : World}

theorem readsName_iff {fhandle : Int} {len : Nat} :
    readsName name w (.read fhandle len) = true <->
      exists fh : Nat, fhandle = fh ∧ w.Owns name fh := by
  rw [readsName, Bool.and_eq_true, decide_eq_true_eq, Option.any_eq_true]
  constructor
  · rintro ⟨hpos, ⟨held, id⟩, hopened, hheld⟩
    refine ⟨fhandle.toNat, by omega, id, ?_⟩
    rw [← of_decide_eq_true hheld]
    exact hopened
  · rintro ⟨fh, heq, id, hopened⟩
    have htoNat : fhandle.toNat = fh := by omega
    rw [htoNat]
    exact ⟨by omega, (name, id), hopened, decide_eq_true rfl⟩

/-- Directories that list the same names. -/
theorem present_congr {made made' : Nat -> Prop} {fs fs' : Fs} (hinv : Inv made fs)
    (hinv' : Inv made' fs') {held : CStr}
    (hlisted : forall {i k}, Listed fs' i held k <-> Listed fs i held k) :
    present held fs' = present held fs := by
  rw [Bool.eq_iff_iff, present_iff hinv', present_iff hinv]
  simp only [hlisted]

/-- The histories of both runs name the same files. -/
theorem afterFiles_twin {hist hist' : History} (hclock : hist'.clock = hist.clock)
    (hfiles : hist'.files = hist.files) {owns : Nat -> Prop} {call call' : Call}
    (hcall : VariantCall owns call call') {reply reply' : Reply}
    (hret : reply'.ret = reply.ret) {fs fs' : Fs}
    (hpresent : forall held, present held fs' = present held fs) :
    hist'.afterFiles call' reply' fs' = hist.afterFiles call reply fs := by
  rcases hcall with heq | ⟨fhandle, buffer, buffer', toWrite, heq, heq', _⟩
  · rw [heq]
    cases call <;> simp only [History.afterFiles, hclock, hfiles, hret, hpresent]
  · rw [heq, heq']
    exact hfiles

theorem afterOpened_twin {hist hist' : History} (hclock : hist'.clock = hist.clock)
    (hfiles : hist'.files = hist.files) (hopened : hist'.opened = hist.opened)
    {owns : Nat -> Prop} {call call' : Call} (hcall : VariantCall owns call call')
    {reply reply' : Reply} (hret : reply'.ret = reply.ret) {fs fs' : Fs}
    (hpresent : forall held, present held fs' = present held fs) :
    hist'.afterOpened call' reply' fs' = hist.afterOpened call reply fs := by
  have hafter := afterFiles_twin hclock hfiles hcall hret hpresent
  rcases hcall with heq | ⟨fhandle, buffer, buffer', toWrite, heq, heq', _⟩
  · rw [heq] at hafter ⊢
    cases call with
    | «open» path mode => simp only [History.afterOpened, hret, hopened, hafter]
    | close fhandle => simp only [History.afterOpened, hret, hopened]
    | read fhandle len => exact hopened
    | write fhandle buffer toWrite => exact hopened
    | unlink target => exact hopened
  · rw [heq, heq']
    exact hopened

theorem readsName_twin (hopened : v.history.opened = w.history.opened) {owns : Nat -> Prop}
    {call call' : Call} (hcall : VariantCall owns call call') :
    readsName name w call = readsName name v call' := by
  rcases hcall with heq | ⟨fhandle, buffer, buffer', toWrite, heq, heq', _⟩
  · rw [heq]
    cases call <;> simp only [readsName, hopened]
  · rw [heq, heq']
    rfl

/-- A call keeps the worlds twins, and shows the name's reader the same reply. -/
theorem TwinWorlds.step (h : TwinWorlds name w v) {call call' : Call}
    (hcall : VariantCall (w.Owns name) call call')
    (hkeep : KeepsSecret name (w.Owns name) w.fs call) {reply : Reply}
    (hexec : World.exec call w = .ok (reply, w')) :
    exists reply' v', World.exec call' v = .ok (reply', v') ∧ TwinWorlds name w' v' ∧
      readsName name w call = readsName name v call' ∧
        (readsName name w call = true -> reply = reply') := by
  have hinv' : Inv v.made (w.fs.withData v.fs.fsData) := by
    have hinv := h.second.inv
    rwa [h.fs] at hinv
  rcases h.first.exec_iff.mp hexec with ⟨hstep, hhist⟩
  rcases hstep.twin h.twin h.first.inv hinv' hcall hkeep with
    ⟨reply', data', hstep', htwin', hret, hreads⟩
  have hexec' : World.exec call' v = .ok (reply', ⟨w'.fs.withData data',
      v.history.after call' reply' v.fs (w'.fs.withData data')⟩) := by
    refine h.second.exec_iff.mpr ⟨?_, rfl⟩
    rw [h.fs]
    exact hstep'
  have hfirst := h.first.step hexec
  have hsecond := h.second.step hexec'
  have hpresent : forall held, present held (w'.fs.withData data') = present held w'.fs :=
    fun held => present_congr hfirst.inv hsecond.inv htwin'.dir.listed
  refine ⟨reply', _, hexec', ⟨hfirst, hsecond, rfl, htwin', ?_, ?_, ?_⟩,
    readsName_twin h.opened hcall, ?_⟩
  · rw [hhist]
    exact congrArg (· + 1) h.clock
  · rw [hhist]
    exact afterFiles_twin h.clock h.files hcall hret hpresent
  · rw [hhist]
    exact afterOpened_twin h.clock h.files h.opened hcall hret hpresent
  · intro hsees
    cases call with
    | read fhandle len =>
        rcases readsName_iff.mp hsees with ⟨fh, heq, howns⟩
        rw [heq] at hreads
        exact (hreads fh len rfl howns).symm
    | «open» path mode => cases hsees
    | close fhandle => cases hsees
    | write fhandle buffer toWrite => cases hsees
    | unlink target => cases hsees

end TwinHistories

/-- Initial states that differ in what the data area was allocated with. -/
theorem TwinWorlds.initial {name : CStr} {params : TfsParams} {mem : Mallocs}
    {garbage : Option (Nat -> UInt8)} {fs fs' : Fs} (h : Initial params mem fs)
    (h' : Initial params { mem with fsData := garbage } fs') :
    TwinWorlds name (World.start fs) (World.start fs') := by
  have hfs : fs' = fs.withData fs'.fsData := by
    rcases h.inodeTable with ⟨t, ht, _, htable⟩
    rcases h'.inodeTable with ⟨t', ht', _, htable'⟩
    have htt : t' = t := Option.some.inj (ht'.symm.trans ht)
    have hinodes : fs'.inodeTable = fs.inodeTable := by rw [htable', htable, htt]
    have hparams := h'.fsParams.trans h.fsParams.symm
    have hset := h'.inodeTableSet.trans h.inodeTableSet.symm
    have hstates := h'.freeinodeTs.trans h.freeinodeTs.symm
    have hblocks := h'.freeBlocks.trans h.freeBlocks.symm
    have hhandles := Option.some.inj (h'.openFileTable.symm.trans h.openFileTable)
    have hentries := h'.freeOpenFileEntries.trans h.freeOpenFileEntries.symm
    cases fs
    cases fs'
    simp only [Fs.withData, Fs.mk.injEq]
    exact ⟨hparams, hset, hinodes, hstates, trivial, hblocks, hhandles, hentries⟩
  have hlisted : forall {held i k}, ¬ Listed (fs.withData fs'.fsData) i held k := by
    intro held i k
    rw [← hfs]
    exact h'.notListed
  refine ⟨Invariant.initial h, Invariant.initial h', hfs, ⟨⟨?_, fun {i held k} => ?_⟩, ?_⟩, rfl,
    rfl, rfl⟩
  · rcases h.fsData with ⟨data, hdata, hslots⟩
    rcases h'.fsData with ⟨data', hdata', hslots'⟩
    change fs'.fsData.size = fs.fsData.size
    rw [(freeSlots_ok hslots).left, (freeSlots_ok hslots').left, (mallocRegion_some hdata).right,
      (mallocRegion_some hdata').right]
  · exact ⟨fun hi => absurd hi hlisted, fun hi => absurd hi h.notListed⟩
  · intro i k inode hi
    exact absurd hi h.notListed

/-- What the handles of a name read is the same in two runs of the same calls that
differ in the initial bytes of the data area and in the bytes written through other
handles, as long as every call keeps the file a secret. -/
theorem readsOf_eq {paramsPtr : Option TfsParams} {mem : Mallocs}
    {garbage : Option (Nat -> UInt8)} {fs fs1 fs2 : Fs}
    (hinit1 : tfsInit paramsPtr mem fs = .ok (0, fs1))
    (hinit2 : tfsInit paramsPtr { mem with fsData := garbage } fs = .ok (0, fs2))
    {name : CStr} {calls calls' : List Call} {replies : List Reply} {w : World}
    (hrun : runWorld calls (World.start fs1) = .ok (replies, w))
    (hcalls : VariantCalls name calls calls' fs1) (hkeep : KeepSecret name calls fs1) :
    exists replies' w', runWorld calls' (World.start fs2) = .ok (replies', w') ∧
      readsOf name calls fs1 = readsOf name calls' fs2 := by
  have hstart : TwinWorlds name (World.start fs1) (World.start fs2) :=
    TwinWorlds.initial (tfsInit_initial hinit1) (tfsInit_initial hinit2)
  rcases observed_eq (readsName name) (fun h hcall hq hexec => h.step hcall hq hexec)
    hstart hcalls hkeep hrun with ⟨replies', w', hrun', _, hsame⟩
  exact ⟨replies', w', hrun', hsame⟩

theorem everyPair_refl {owns : World -> Nat -> Prop} (calls : List Call) (w : World) :
    EveryPair World.exec (fun w => VariantCall (owns w)) calls calls w := by
  induction calls generalizing w with
  | nil => trivial
  | cons call calls ih => exact ⟨Or.inl rfl, fun _ w' _ => ih w'⟩

/-- The file {lit}`a` is truncated under a handle that stands behind its three bytes;
the next byte written through it goes to a block that nothing was written to. -/
def gapRevealCalls : List Call :=
  [.open pathA 1, .write 0 [1, 2, 3] 3, .open pathA 2, .close 1, .open pathB 1, .write 1 [5] 1,
    .write 0 [9] 1, .close 1, .open pathA 0, .read 1 4]

def zeroMallocs : Mallocs := { smallMallocs with fsData := some fun _ => 0 }

theorem zeroInit :
    tfsInit (some smallParams) zeroMallocs Fs.unset = .ok (0, initFs smallParams zeroMallocs) :=
  initFs_ok (by decide +kernel)

/-- The three bytes before it come from the allocator. -/
theorem readsOf_gap :
    VariantCalls (skipSlash pathA) gapRevealCalls gapRevealCalls smallFs ∧
      readsOf (skipSlash pathA) gapRevealCalls smallFs = [⟨4, [255, 255, 255, 9]⟩] ∧
      readsOf (skipSlash pathA) gapRevealCalls (initFs smallParams zeroMallocs) =
        [⟨4, [0, 0, 0, 9]⟩] := by
  refine ⟨everyPair_refl _ _, ?_, ?_⟩
  · decide +kernel
  · decide +kernel

/-- A file is written through one handle and read through another. -/
def shareCalls : List Call :=
  [.open pathA 1, .write 0 [1, 2, 3] 3, .open pathA 0, .read 1 9]

theorem readsOf_share :
    readsOf (skipSlash pathA) shareCalls smallFs =
      readsOf (skipSlash pathA) shareCalls (initFs smallParams zeroMallocs) := by
  rcases smallWorld_run shareCalls (by decide +kernel) with ⟨replies, hrun⟩
  have hkeep : KeepSecret (skipSlash pathA) shareCalls smallFs := by
    refine ⟨trivial, fun r1 w1 hopen => ⟨?_, fun r2 w2 hwrite => ⟨trivial,
      fun r3 w3 hopen' => ⟨?_, fun _ _ _ => trivial⟩⟩⟩⟩
    · have hw1 := smallWorld_next [] (by decide +kernel) hopen
      intro fh k i m e inode inode' heq hfh hk hinode _ _ _
      have hfh0 : fh = 0 := by omega
      have hentry : w1.fs.openFileTable[0]? = some ⟨1, 0⟩ := by
        rw [hw1]
        decide +kernel
      have htable : w1.fs.inodeTable[1]? = some ⟨.file, 0, -1⟩ := by
        rw [hw1]
        decide +kernel
      have he := hfh.entry
      rw [hfh0, hentry] at he
      rw [← Option.some.inj he] at hk ⊢
      have hk1 : k = 1 := by
        simp only at hk
        omega
      rw [hk1, htable] at hinode
      rw [← Option.some.inj hinode, hfh0, hw1]
      refine ⟨fun _ => ⟨⟨0, ?_⟩, Nat.le_refl 0⟩, fun _ hpos => absurd hpos (by decide)⟩
      rw [World.OpenedOn]
      decide +kernel
    · have hw1 := smallWorld_next [] (by decide +kernel) hopen
      rw [hw1] at hwrite
      have hw2 := smallWorld_next _ (by decide +kernel) hwrite
      rw [hw2] at hopen'
      have hw3 := smallWorld_next _ (by decide +kernel) hopen'
      intro fh k e inode heq hfh _ hk hinode _
      have hfh1 : fh = 1 := by omega
      have hentry : w3.fs.openFileTable[1]? = some ⟨1, 0⟩ := by
        rw [hw3]
        decide +kernel
      have he := hfh.entry
      rw [hfh1, hentry] at he
      rw [← Option.some.inj he] at hk ⊢
      have hk1 : k = 1 := by
        simp only at hk
        omega
      refine ⟨Nat.zero_le _, 0, ?_⟩
      rw [hk1, hw3]
      exact ⟨by decide +kernel, by decide +kernel, by decide +kernel, by decide⟩
  rcases readsOf_eq smallInit zeroInit hrun (everyPair_refl _ _) hkeep with ⟨_, _, _, hsame⟩
  exact hsame

end TecnicoFs
