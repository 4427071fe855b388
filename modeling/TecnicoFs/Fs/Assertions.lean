import TecnicoFs.Fs.World

/-!
# Failed assertions

A run fails an assertion exactly at one of two kinds of calls.  The first is a
read whose handle stands past the start of an inode that never had a block, which
needs a handle that outlived its file: the inode was freed and created again.  The
second is a write that is handed the block numbered one past the largest
{lit}`int`.
-/

namespace TecnicoFs

open Library

/-- The handle stands past the start of an inode without a block. -/
def ReadsNoBlock (fs : Fs) (fhandle : Int) (len : Nat) : Prop :=
  exists (h k : Nat) (e : OpenFileEntry) (inode : Inode),
    fhandle = h ∧ OpenAt fs h e ∧ e.ofInumber = k ∧ fs.inodeTable[k]? = some inode ∧
      inode.iDataBlock = -1 ∧ 0 < e.ofOffset ∧ 0 < len

/-- The inode needs a block, and the first free block has no {lit}`int` number. -/
def WritesPastInt (fs : Fs) (fhandle : Int) (toWrite : Nat) : Prop :=
  exists (h k : Nat) (e : OpenFileEntry) (inode : Inode),
    fhandle = h ∧ OpenAt fs h e ∧ e.ofInumber = k ∧ fs.inodeTable[k]? = some inode ∧
      inode.iSize = 0 ∧ 0 < clippedWrite fs.blockSize e.ofOffset toWrite ∧
        FirstAt fs.freeBlocks fs.dataBlocks .free intLimit

def AssertionsHold (fs : Fs) : Call -> Prop
  | .read fhandle len => ¬ ReadsNoBlock fs fhandle len
  | .write fhandle _ toWrite => ¬ WritesPastInt fs fhandle toWrite
  | _ => True

section Assertions

variable {made : Nat -> Prop} {fs : Fs}

theorem clippedRead_zero_iff {offset len : Nat} (h : offset < sizeMod) :
    clippedRead 0 offset len ≠ 0 <-> 0 < offset ∧ 0 < len := by
  simp only [clippedRead, sizeSub, Nat.mod_eq_of_lt h, Nat.zero_add]
  by_cases hlt : len < (sizeMod - offset) % sizeMod
  · rw [if_pos hlt]
    simp only [sizeMod] at *
    omega
  · rw [if_neg hlt]
    simp only [sizeMod] at *
    omega

theorem panics_read_iff (hinv : Inv made fs) {fhandle : Int} {len : Nat} :
    Panics fs (.read fhandle len) <-> ReadsNoBlock fs fhandle len := by
  have hclipped : forall {h k : Nat} {e : OpenFileEntry} {inode : Inode}, OpenAt fs h e ->
      e.ofInumber = k -> fs.inodeTable[k]? = some inode -> inode.iDataBlock = -1 ->
      (clippedRead inode.iSize e.ofOffset len ≠ 0 <-> 0 < e.ofOffset ∧ 0 < len) := by
    intro h k e inode hopen hk hinode hb
    rw [(hinv.fileInode_of_open hopen hk hinode).size_of_noBlock hb]
    exact clippedRead_zero_iff (hinv.handles.offset hopen)
  constructor
  · intro h
    cases h with
    | read heq hopen hk hinode hn hb =>
        exact ⟨_, _, _, _, heq, hopen, hk, hinode, hb, (hclipped hopen hk hinode hb).mp hn⟩
  · rintro ⟨h, k, e, inode, heq, hopen, hk, hinode, hb, hpos⟩
    exact Panics.read heq hopen hk hinode ((hclipped hopen hk hinode hb).mpr hpos) hb

theorem panics_write_iff {fhandle : Int} {buffer : List UInt8} {toWrite : Nat} :
    Panics fs (.write fhandle buffer toWrite) <-> WritesPastInt fs fhandle toWrite := by
  constructor
  · intro h
    cases h with
    | write heq hopen hn hk hinode hzero hfirst =>
        exact ⟨_, _, _, _, heq, hopen, hk, hinode, hzero, Nat.pos_of_ne_zero hn, hfirst⟩
  · rintro ⟨h, k, e, inode, heq, hopen, hk, hinode, hzero, hn, hfirst⟩
    exact Panics.write heq hopen (Nat.ne_of_gt hn) hk hinode hzero hfirst

theorem assertionsHold_iff (hinv : Inv made fs) {call : Call} :
    (forall e, exec call fs = .error e -> ¬ exists msg, e = .panic msg) <->
      AssertionsHold fs call := by
  have hpanic : (forall e, exec call fs = .error e -> ¬ exists msg, e = .panic msg) <->
      ¬ Panics fs call := by
    rw [← exec_panic_iff hinv]
    constructor
    · rintro h ⟨msg, herror⟩
      exact h _ herror ⟨msg, rfl⟩
    · rintro h e herror ⟨msg, heq⟩
      exact h ⟨msg, heq ▸ herror⟩
  rw [hpanic]
  cases call with
  | read fhandle len => rw [panics_read_iff hinv, AssertionsHold]
  | write fhandle buffer toWrite => rw [panics_write_iff, AssertionsHold]
  | «open» name mode => exact ⟨fun _ => trivial, fun _ h => by cases h⟩
  | close fhandle => exact ⟨fun _ => trivial, fun _ h => by cases h⟩
  | unlink target => exact ⟨fun _ => trivial, fun _ h => by cases h⟩

end Assertions

/-- A run from a successful initialisation fails no assertion exactly when none
of the calls it attempts is of the two kinds. -/
theorem run_noPanic_iff {paramsPtr : Option TfsParams} {mem : Mallocs} {fs fs0 : Fs}
    (hinit : tfsInit paramsPtr mem fs = .ok (0, fs0)) (calls : List Call) :
    (forall msg, runCalls calls fs0 ≠ .error (.panic msg)) <->
      EveryCall exec AssertionsHold calls fs0 := by
  have hinv0 : exists made, Inv made fs0 := ⟨_, (tfsInit_initial hinit).inv⟩
  have hrun : (forall msg, runCalls calls fs0 ≠ .error (.panic msg)) <->
      forall e, run exec calls fs0 = .error e -> ¬ exists msg, e = .panic msg := by
    constructor
    · rintro h e herror ⟨msg, heq⟩
      exact h msg (heq ▸ herror)
    · intro h msg herror
      exact h _ herror ⟨msg, rfl⟩
  rw [hrun, run_avoids_iff]
  refine everyCall_iff (P := fun fs => exists made, Inv made fs) ?_ ?_ hinv0
  · rintro fs call ⟨made, hinv⟩
    exact assertionsHold_iff hinv
  · rintro fs call reply fs' ⟨made, hinv⟩ _ hexec
    exact ⟨_, hinv.step ((exec_iff hinv).mp hexec)⟩

/-- A handle outlives its file, whose inode is created again. -/
def recreatedCalls : List Call :=
  [.open pathA 1, .write 0 [1, 2, 3] 3, .unlink pathA, .open pathB 1, .read 0 1]

/-- The read finds three bytes less than none left to read. -/
theorem recreated_panics :
    runCalls recreatedCalls smallFs =
      .error (.panic "data_block_get: invalid block number") := by
  apply map_eq_error.mp
  change (runCalls recreatedCalls smallFs).map Prod.fst = _
  decide +kernel

theorem run_noPanic_recreated :
    (forall msg, runCalls recreatedCalls smallFs ≠ .error (.panic msg)) <->
      EveryCall exec AssertionsHold recreatedCalls smallFs :=
  run_noPanic_iff smallInit recreatedCalls

end TecnicoFs
