import TecnicoFs.Library.Mutex
import TecnicoFs.Fs.Commutation

/-!
# Calls from several threads

Every call of the library takes the library mutex first and gives it back before each of
its returns.  The code of the calls is written here action by action, so that other
threads can get between any two of them.
-/

namespace TecnicoFs

open Library
open Code

abbrev TfsCode (alpha : Type) := Code Fs Fault alpha

/-- The mutex is given back, and the call returns. -/
def leave (r : alpha) : TfsCode alpha := do
  mutexUnlock
  pure r

/-!
## The code of the calls
-/

/-- The truncation of an existing file in {lit}`tfs_open`, if it is requested. -/
def truncateCode (inode : Int) (mode : Nat) : TfsCode Unit :=
  if hasFlag mode tfsOTrunc then do
    let file <- read fun fs => fs.inodeAt inode
    if 0 < file.iSize then do
      modify (dataBlockFree file.iDataBlock)
      modify fun fs => fs.modifyInode inode fun file => { file with iSize := 0 }
    else
      pure ()
  else
    pure ()

def openCode (name : Option CStr) (mode : Nat) : TfsCode Int := do
  mutexLock
  if !validPathname name then
    leave (-1)
  else do
    let rootDirInode <- read (inodeGet rootDirInum)
    let inum <- read (tfsLookup name rootDirInode)
    if 0 <= inum then do
      let inode <- read (inodeGet inum)
      truncateCode inode mode
      let file <- read fun fs => fs.inodeAt inode
      let ret <- step (addToOpenFileTable inum
        (if hasFlag mode tfsOAppend then file.iSize else 0))
      leave ret
    else if hasFlag mode tfsOCreat then do
      let inum <- step (inodeCreate .file)
      if inum = -1 then
        leave (-1)
      else do
        let added <- step (addDirEntry rootDirInode (skipSlash name) inum)
        if added = -1 then do
          modify (inodeDelete inum)
          leave (-1)
        else do
          let ret <- step (addToOpenFileTable inum 0)
          leave ret
    else
      leave (-1)

def closeCode (fhandle : Int) : TfsCode Int := do
  mutexLock
  let file <- read (getOpenFileEntry fhandle)
  match file with
  | none => leave (-1)
  | some _ => do
      modify (removeFromOpenFileTable fhandle)
      leave 0

/-- The file is as long as the offset behind the written bytes. -/
def growCode (inum : Int) (iSize offset : Nat) : TfsCode Unit :=
  if iSize < offset then
    modify fun fs => fs.modifyInode inum fun inode => { inode with iSize := offset }
  else
    pure ()

/-- The copy into the inode's block at the end of {lit}`tfs_write`. -/
def writeBlockCode (file inum : Int) (buffer : List UInt8) (toWrite : Nat) : TfsCode Int := do
  let entry <- read fun fs => inside (loadCell fs.openFileTable file)
  let inode <- read fun fs => fs.inodeAt inum
  let block <- read (dataBlockGet inode.iDataBlock)
  let offset := sizeAdd entry.ofOffset toWrite
  modify fun fs => do
    let source <- inside (if toWrite <= buffer.length then some (buffer.take toWrite) else none)
    let data <- inside (fs.fsData.store (block + entry.ofOffset) source)
    pure { fs with fsData := data }
  modify fun fs => do
    let entries <- inside (storeCell fs.openFileTable file { entry with ofOffset := offset })
    pure { fs with openFileTable := entries }
  growCode inum inode.iSize offset
  leave toWrite

def writeCode (fhandle : Int) (buffer : List UInt8) (toWrite : Nat) : TfsCode Int := do
  mutexLock
  let file <- read (getOpenFileEntry fhandle)
  match file with
  | none => leave (-1)
  | some file => do
      let entry <- read fun fs => inside (loadCell fs.openFileTable file)
      let inum <- read (inodeGet entry.ofInumber)
      let blockSize <- read fun fs => pure fs.blockSize
      let toWrite := clippedWrite blockSize entry.ofOffset toWrite
      if toWrite = 0 then
        leave 0
      else do
        let inode <- read fun fs => fs.inodeAt inum
        if inode.iSize = 0 then do
          let bnum <- step dataBlockAlloc
          if bnum = -1 then
            leave (-1)
          else do
            modify fun fs => fs.modifyInode inum fun inode => { inode with iDataBlock := bnum }
            writeBlockCode file inum buffer toWrite
        else
          writeBlockCode file inum buffer toWrite

def readCode (fhandle : Int) (len : Nat) : TfsCode Reply := do
  mutexLock
  let file <- read (getOpenFileEntry fhandle)
  match file with
  | none => leave ⟨-1, []⟩
  | some file => do
      let entry <- read fun fs => inside (loadCell fs.openFileTable file)
      let inum <- read (inodeGet entry.ofInumber)
      let inode <- read fun fs => fs.inodeAt inum
      let toRead := clippedRead inode.iSize entry.ofOffset len
      if toRead = 0 then
        leave ⟨0, []⟩
      else do
        let block <- read (dataBlockGet inode.iDataBlock)
        let bytes <- read fun fs => inside (fs.fsData.load (block + entry.ofOffset) toRead)
        modify fun fs => do
          let entries <- inside (storeCell fs.openFileTable file
            { entry with ofOffset := sizeAdd entry.ofOffset toRead })
          pure { fs with openFileTable := entries }
        leave ⟨toRead, bytes⟩

def unlinkCode (target : Option CStr) : TfsCode Int := do
  mutexLock
  if !validPathname target then
    leave (-1)
  else do
    let rootDirInode <- read (inodeGet rootDirInum)
    let inum <- read (tfsLookup target rootDirInode)
    if inum = -1 then
      leave (-1)
    else do
      modify (inodeDelete inum)
      let cleared <- step (clearDirEntry rootDirInode (skipSlash target))
      if cleared = -1 then
        leave (-1)
      else
        leave 0

/-- The code of a call. -/
def callCode : Call -> TfsCode Reply
  | .open name mode => do
      let ret <- openCode name mode
      pure ⟨ret, []⟩
  | .close fhandle => do
      let ret <- closeCode fhandle
      pure ⟨ret, []⟩
  | .read fhandle len => readCode fhandle len
  | .write fhandle buffer toWrite => do
      let ret <- writeCode fhandle buffer toWrite
      pure ⟨ret, []⟩
  | .unlink target => do
      let ret <- unlinkCode target
      pure ⟨ret, []⟩

/-!
## Bracketing
-/

section Bracketing

theorem guarded_leave (r : alpha) : (leave r : TfsCode alpha).Guarded := guarded_unlock r

theorem guarded_ite {c : Prop} [Decidable c] {a b : TfsCode alpha} (ha : a.Guarded)
    (hb : b.Guarded) : (if c then a else b).Guarded := by
  split
  · exact ha
  · exact hb

theorem plain_ite {c : Prop} [Decidable c] {a b : TfsCode alpha} (ha : a.Plain)
    (hb : b.Plain) : (if c then a else b).Plain := by
  split
  · exact ha
  · exact hb

theorem plain_truncateCode (inode : Int) (mode : Nat) : (truncateCode inode mode).Plain := by
  refine plain_ite ?_ (plain_pure _)
  refine (plain_step _).bind fun file => plain_ite ?_ (plain_pure _)
  exact (plain_step _).bind fun _ => plain_step _

theorem plain_growCode (inum : Int) (iSize offset : Nat) : (growCode inum iSize offset).Plain :=
  plain_ite (plain_step _) (plain_pure _)

theorem openCode_bracketed (name : Option CStr) (mode : Nat) : (openCode name mode).Bracketed := by
  refine bracketed_lock ?_
  refine guarded_ite (guarded_leave _) ?_
  refine (plain_step _).guarded fun rootDirInode => (plain_step _).guarded fun inum => ?_
  refine guarded_ite ?_ (guarded_ite ?_ (guarded_leave _))
  · refine (plain_step _).guarded fun inode => ?_
    refine (plain_truncateCode inode mode).guarded fun _ => ?_
    exact (plain_step _).guarded fun file => (plain_step _).guarded guarded_leave
  · refine (plain_step _).guarded fun inum => guarded_ite (guarded_leave _) ?_
    refine (plain_step _).guarded fun added => guarded_ite ?_ ?_
    · exact (plain_step _).guarded fun _ => guarded_leave _
    · exact (plain_step _).guarded guarded_leave

theorem closeCode_bracketed (fhandle : Int) : (closeCode fhandle).Bracketed := by
  refine bracketed_lock ((plain_step _).guarded fun file => ?_)
  cases file with
  | none => exact guarded_leave _
  | some _ => exact (plain_step _).guarded fun _ => guarded_leave _

theorem writeBlockCode_guarded (file inum : Int) (buffer : List UInt8) (toWrite : Nat) :
    (writeBlockCode file inum buffer toWrite).Guarded := by
  refine (plain_step _).guarded fun entry => (plain_step _).guarded fun inode => ?_
  refine (plain_step _).guarded fun block => (plain_step _).guarded fun _ => ?_
  refine (plain_step _).guarded fun _ => ?_
  exact (plain_growCode _ _ _).guarded fun _ => guarded_leave _

theorem writeCode_bracketed (fhandle : Int) (buffer : List UInt8) (toWrite : Nat) :
    (writeCode fhandle buffer toWrite).Bracketed := by
  refine bracketed_lock ((plain_step _).guarded fun file => ?_)
  cases file with
  | none => exact guarded_leave _
  | some file =>
      refine (plain_step _).guarded fun entry => (plain_step _).guarded fun inum => ?_
      refine (plain_step _).guarded fun blockSize => guarded_ite (guarded_leave _) ?_
      refine (plain_step _).guarded fun inode => guarded_ite ?_ (writeBlockCode_guarded _ _ _ _)
      refine (plain_step _).guarded fun bnum => guarded_ite (guarded_leave _) ?_
      exact (plain_step _).guarded fun _ => writeBlockCode_guarded _ _ _ _

theorem readCode_bracketed (fhandle : Int) (len : Nat) : (readCode fhandle len).Bracketed := by
  refine bracketed_lock ((plain_step _).guarded fun file => ?_)
  cases file with
  | none => exact guarded_leave _
  | some file =>
      refine (plain_step _).guarded fun entry => (plain_step _).guarded fun inum => ?_
      refine (plain_step _).guarded fun inode => guarded_ite (guarded_leave _) ?_
      refine (plain_step _).guarded fun block => (plain_step _).guarded fun bytes => ?_
      exact (plain_step _).guarded fun _ => guarded_leave _

theorem unlinkCode_bracketed (target : Option CStr) : (unlinkCode target).Bracketed := by
  refine bracketed_lock ?_
  refine guarded_ite (guarded_leave _) ?_
  refine (plain_step _).guarded fun rootDirInode => (plain_step _).guarded fun inum => ?_
  refine guarded_ite (guarded_leave _) ((plain_step _).guarded fun _ => ?_)
  exact (plain_step _).guarded fun cleared => guarded_ite (guarded_leave _) (guarded_leave _)

theorem callCode_bracketed (call : Call) : (callCode call).Bracketed := by
  cases call with
  | «open» name mode => exact Bracketed.map (openCode_bracketed name mode) _
  | close fhandle => exact Bracketed.map (closeCode_bracketed fhandle) _
  | read fhandle len => exact readCode_bracketed fhandle len
  | write fhandle buffer toWrite =>
      exact Bracketed.map (writeCode_bracketed fhandle buffer toWrite) _
  | unlink target => exact Bracketed.map (unlinkCode_bracketed target) _

end Bracketing

/-!
## A thread by itself
-/

section Alone

@[simp] theorem leave_alone (r : alpha) (fs : Fs) :
    (leave r : TfsCode alpha).alone fs = .ok (r, fs) := rfl

/-- An action that only reads leaves the state to the rest of the code. -/
theorem map_read_bind {beta : Type} (x : Res alpha) (fs : Fs)
    (k : alpha × Fs -> Res beta) :
    (x.map fun a => (a, fs)) >>= k = x >>= fun a => k (a, fs) := by
  cases x <;> rfl

theorem map_modify_bind {beta : Type} (x : Res Fs) (k : Unit × Fs -> Res beta) :
    (x.map fun fs => ((), fs)) >>= k = x >>= fun fs => k ((), fs) := by
  cases x <;> rfl

theorem truncateCode_alone (inode : Int) (mode : Nat) (fs : Fs) :
    (truncateCode inode mode).alone fs =
      (if hasFlag mode tfsOTrunc then tfsTruncate inode fs else pure fs).map
        fun fs => ((), fs) := by
  unfold truncateCode tfsTruncate
  split
  · simp only [alone_bind, alone_read, map_read_bind]
    cases fs.inodeAt inode with
    | error e => rfl
    | ok file =>
        simp only [ok_bind]
        split
        · simp only [alone_bind, alone_modify, map_modify_bind]
          cases dataBlockFree file.iDataBlock fs <;> rfl
        · rfl
  · rfl

theorem growCode_alone (inum : Int) (iSize offset : Nat) (fs : Fs) :
    (growCode inum iSize offset).alone fs =
      (if iSize < offset then
        fs.modifyInode inum fun inode => { inode with iSize := offset }
      else pure fs).map fun fs => ((), fs) := by
  unfold growCode
  split
  · exact alone_modify _ fs
  · rfl

theorem openCode_alone (name : Option CStr) (mode : Nat) (fs : Fs) :
    (openCode name mode).alone fs = tfsOpen name mode fs := by
  unfold openCode tfsOpen
  simp only [alone_bind, alone_mutexLock, ok_bind]
  split
  · rfl
  · simp only [alone_bind, alone_read, map_read_bind]
    cases inodeGet rootDirInum fs with
    | error e => rfl
    | ok rootDirInode =>
        simp only [ok_bind]
        cases tfsLookup name rootDirInode fs with
        | error e => rfl
        | ok inum =>
            simp only [ok_bind]
            split
            · simp only [alone_bind, alone_read, map_read_bind]
              cases inodeGet inum fs with
              | error e => rfl
              | ok inode =>
                  simp only [ok_bind]
                  simp only [truncateCode_alone, map_modify_bind]
                  cases (if hasFlag mode tfsOTrunc = true then tfsTruncate inode fs
                      else pure fs : Res Fs) with
                  | error e => rfl
                  | ok fs1 =>
                      simp only [ok_bind]
                      cases fs1.inodeAt inode with
                      | error e => rfl
                      | ok file =>
                          simp only [ok_bind, alone_step]
                          cases addToOpenFileTable inum
                            (if hasFlag mode tfsOAppend = true then file.iSize else 0) fs1 <;> rfl
            · split
              · simp only [alone_bind, alone_step]
                cases inodeCreate .file fs with
                | error e => rfl
                | ok created =>
                    rcases created with ⟨inum, fs1⟩
                    simp only [ok_bind]
                    split
                    · rfl
                    · simp only [alone_bind, alone_step]
                      cases addDirEntry rootDirInode (skipSlash name) inum fs1 with
                      | error e => rfl
                      | ok added =>
                          rcases added with ⟨added, fs2⟩
                          simp only [ok_bind]
                          split
                          · simp only [alone_bind, alone_modify, map_modify_bind]
                            cases inodeDelete inum fs2 <;> rfl
                          · simp only [alone_bind, alone_step]
                            cases addToOpenFileTable inum 0 fs2 <;> rfl
              · rfl

theorem closeCode_alone (fhandle : Int) (fs : Fs) :
    (closeCode fhandle).alone fs = tfsClose fhandle fs := by
  unfold closeCode tfsClose
  simp only [alone_bind, alone_mutexLock, ok_bind, alone_read, map_read_bind]
  cases getOpenFileEntry fhandle fs with
  | error e => rfl
  | ok file =>
      simp only [ok_bind]
      cases file with
      | none => rfl
      | some file =>
          simp only [alone_bind, alone_modify, map_modify_bind]
          cases removeFromOpenFileTable fhandle fs <;> rfl

theorem writeBlockCode_alone (file inum : Int) (buffer : List UInt8) (toWrite : Nat) (fs : Fs) :
    (writeBlockCode file inum buffer toWrite).alone fs =
      tfsWriteBlock file inum buffer toWrite fs := by
  unfold writeBlockCode tfsWriteBlock
  simp only [alone_bind, alone_read, map_read_bind]
  cases inside (loadCell fs.openFileTable file) with
  | error e => rfl
  | ok entry =>
      simp only [ok_bind]
      cases fs.inodeAt inum with
      | error e => rfl
      | ok inode =>
          simp only [ok_bind]
          cases dataBlockGet inode.iDataBlock fs with
          | error e => rfl
          | ok block =>
              simp only [ok_bind, alone_modify, map_modify_bind]
              cases inside (if toWrite <= buffer.length then some (buffer.take toWrite)
                  else none) with
              | error e => rfl
              | ok source =>
                  simp only [ok_bind]
                  cases inside (fs.fsData.store (block + entry.ofOffset) source) with
                  | error e => rfl
                  | ok data =>
                      simp only [ok_bind, pure_ok]
                      cases inside (storeCell fs.openFileTable file
                          { entry with ofOffset := sizeAdd entry.ofOffset toWrite }) with
                      | error e => rfl
                      | ok entries =>
                          simp only [ok_bind, growCode_alone, map_modify_bind]
                          rfl

theorem writeCode_alone (fhandle : Int) (buffer : List UInt8) (toWrite : Nat) (fs : Fs) :
    (writeCode fhandle buffer toWrite).alone fs = tfsWrite fhandle buffer toWrite fs := by
  unfold writeCode tfsWrite
  simp only [alone_bind, alone_mutexLock, ok_bind, alone_read, map_read_bind]
  cases getOpenFileEntry fhandle fs with
  | error e => rfl
  | ok file =>
      simp only [ok_bind]
      cases file with
      | none => rfl
      | some file =>
          simp only [alone_bind, alone_read, map_read_bind]
          cases inside (loadCell fs.openFileTable file) with
          | error e => rfl
          | ok entry =>
              simp only [ok_bind]
              cases inodeGet entry.ofInumber fs with
              | error e => rfl
              | ok inum =>
                  simp only [ok_bind, pure_ok]
                  split
                  · rfl
                  · simp only [alone_bind, alone_read, map_read_bind]
                    cases fs.inodeAt inum with
                    | error e => rfl
                    | ok inode =>
                        simp only [ok_bind]
                        split
                        · simp only [alone_bind, alone_step]
                          cases dataBlockAlloc fs with
                          | error e => rfl
                          | ok allocated =>
                              rcases allocated with ⟨bnum, fs1⟩
                              simp only [ok_bind]
                              split
                              · rfl
                              · simp only [alone_bind, alone_modify, map_modify_bind,
                                  writeBlockCode_alone]
                        · exact writeBlockCode_alone file inum buffer _ fs

theorem readCode_alone (fhandle : Int) (len : Nat) (fs : Fs) :
    (readCode fhandle len).alone fs =
      (tfsRead fhandle len fs).map fun r => (⟨r.1, r.2.1⟩, r.2.2) := by
  unfold readCode tfsRead
  simp only [alone_bind, alone_mutexLock, ok_bind, alone_read, map_read_bind]
  cases getOpenFileEntry fhandle fs with
  | error e => rfl
  | ok file =>
      simp only [ok_bind]
      cases file with
      | none => rfl
      | some file =>
          simp only [alone_bind, alone_read, map_read_bind]
          cases inside (loadCell fs.openFileTable file) with
          | error e => rfl
          | ok entry =>
              simp only [ok_bind]
              cases inodeGet entry.ofInumber fs with
              | error e => rfl
              | ok inum =>
                  simp only [ok_bind]
                  cases fs.inodeAt inum with
                  | error e => rfl
                  | ok inode =>
                      simp only [ok_bind]
                      split
                      · rfl
                      · simp only [alone_bind, alone_read, map_read_bind]
                        cases dataBlockGet inode.iDataBlock fs with
                        | error e => rfl
                        | ok block =>
                            simp only [ok_bind, alone_modify, map_modify_bind]
                            cases inside (fs.fsData.load (block + entry.ofOffset)
                                (clippedRead inode.iSize entry.ofOffset len)) with
                            | error e => rfl
                            | ok bytes =>
                                simp only [ok_bind]
                                cases inside (storeCell fs.openFileTable file
                                    { entry with
                                      ofOffset := sizeAdd entry.ofOffset
                                        (clippedRead inode.iSize entry.ofOffset len) }) <;> rfl

theorem unlinkCode_alone (target : Option CStr) (fs : Fs) :
    (unlinkCode target).alone fs = tfsUnlink target fs := by
  unfold unlinkCode tfsUnlink
  simp only [alone_bind, alone_mutexLock, ok_bind]
  split
  · rfl
  · simp only [alone_bind, alone_read, map_read_bind]
    cases inodeGet rootDirInum fs with
    | error e => rfl
    | ok rootDirInode =>
        simp only [ok_bind]
        cases tfsLookup target rootDirInode fs with
        | error e => rfl
        | ok inum =>
            simp only [ok_bind]
            split
            · rfl
            · simp only [alone_bind, alone_modify, map_modify_bind]
              cases inodeDelete inum fs with
              | error e => rfl
              | ok fs1 =>
                  simp only [ok_bind, alone_step]
                  cases clearDirEntry rootDirInode (skipSlash target) fs1 with
                  | error e => rfl
                  | ok cleared =>
                      rcases cleared with ⟨cleared, fs2⟩
                      simp only [ok_bind]
                      split <;> rfl

/-- With no other thread, the code of a call does what the call does. -/
theorem callCode_alone (call : Call) (fs : Fs) : (callCode call).alone fs = exec call fs := by
  cases call with
  | «open» name mode => simp only [callCode, exec, alone_bind, openCode_alone, alone_pure, pure_ok]
  | close fhandle => simp only [callCode, exec, alone_bind, closeCode_alone, alone_pure, pure_ok]
  | read fhandle len =>
      simp only [callCode, exec, readCode_alone]
      cases tfsRead fhandle len fs <;> rfl
  | write fhandle buffer toWrite =>
      simp only [callCode, exec, alone_bind, writeCode_alone, alone_pure, pure_ok]
  | unlink target => simp only [callCode, exec, alone_bind, unlinkCode_alone, alone_pure, pure_ok]

end Alone

theorem callCode_implements : Implements callCode exec :=
  ⟨callCode_bracketed, callCode_alone⟩

/-!
## Threads that use the library
-/

section Library

abbrev TfsThreads (tid : Type) := Threads tid Call Reply Fs Fault

variable {tid : Type} {fs fs0 : Fs}

/-- The replies of the abstract file system to calls that come one after another. -/
def abstractReplies (params : TfsParams) (calls : List (tid × Call)) : List Reply :=
  (absRun (AbstractFs.exec params) (calls.map Prod.snd) AbstractFs.empty).1

/-- Disciplined calls one after another have the replies of the abstract file system. -/
theorem run_abstract {paramsPtr : Option TfsParams} {mem : Mallocs}
    (hinit : tfsInit paramsPtr mem fs = .ok (0, fs0))
    (hfits : FitsMachine (paramsPtr.getD tfsDefaultParams)) {calls : List (tid × Call)}
    (hrun : DisciplinedRun (paramsPtr.getD tfsDefaultParams) (calls.map Prod.snd)) :
    exists s, runCalls (calls.map Prod.snd) fs0 =
      .ok (abstractReplies (paramsPtr.getD tfsDefaultParams) calls, s) := by
  have hstart := Refines.initial (tfsInit_initial hinit) hfits
  rcases Simulates.run (refines_simulates hfits) hstart hrun with ⟨s, hcalls, _⟩
  exact ⟨s, hcalls⟩

variable [DecidableEq tid] {program : tid -> List Call} {sys sys' : TfsThreads tid}

/-- However the steps of the threads alternate, the threads see the calls one after another
in the order in which they took the library mutex, an order that later steps only extend.  A
call that fails does so in that order too. -/
theorem threads_linearized (hsteps : Interleaving callCode (Threads.start program fs) sys)
    (hlater : Interleaving callCode sys sys') :
    (exists rs s, Linearized exec program fs sys rs s) ∧
      (exists rs s, Linearized exec program fs sys' rs s) ∧ sys.log <+: sys'.log ∧
      forall t e, Fails sys t e -> runCalls (sys.log.map Prod.snd) fs = .error e := by
  have hserial := Serial.start.interleaving callCode_implements hsteps
  have hserial' := hserial.interleaving callCode_implements hlater
  exact ⟨hserial.linearized, hserial'.linearized, log_grows hlater,
    fun t e hfails => hserial.fails callCode_implements hfails⟩

/-- Every order in which the threads may take the mutex keeps to the discipline. -/
def DisciplinedThreads (params : TfsParams) (program : tid -> List Call) (fs : Fs) : Prop :=
  forall sys, Interleaving callCode (Threads.start program fs) sys ->
    DisciplinedRun params (sys.log.map Prod.snd)

section Disciplined

variable {paramsPtr : Option TfsParams} {mem : Mallocs}

/-- The calls that are over have had the replies of the abstract file system. -/
theorem linearized_abstract (hinit : tfsInit paramsPtr mem fs = .ok (0, fs0))
    (hfits : FitsMachine (paramsPtr.getD tfsDefaultParams)) {rs : List Reply} {s : Fs}
    (h : Linearized exec program fs0 sys rs s)
    (hrun : DisciplinedRun (paramsPtr.getD tfsDefaultParams) (sys.log.map Prod.snd)) :
    rs = abstractReplies (paramsPtr.getD tfsDefaultParams) sys.ended := by
  rcases sys.ended_log with ⟨later, hlog⟩
  rw [← hlog, List.map_append] at hrun
  rcases run_abstract hinit hfits ((allowedRun_append _ _ _).mp hrun).left with ⟨s', hcalls⟩
  have hsame := h.run.symm.trans hcalls
  cases hsame
  rfl

/-- No call fails in an order of the mutex that keeps to the discipline. -/
theorem disciplined_noFailure (hinit : tfsInit paramsPtr mem fs = .ok (0, fs0))
    (hfits : FitsMachine (paramsPtr.getD tfsDefaultParams))
    (hsteps : Interleaving callCode (Threads.start program fs0) sys)
    (hrun : DisciplinedRun (paramsPtr.getD tfsDefaultParams) (sys.log.map Prod.snd)) (t : tid)
    (e : Fault) : ¬ Fails sys t e := by
  intro hfails
  have herror := (Serial.start.interleaving callCode_implements hsteps).fails
    callCode_implements hfails
  rcases run_abstract hinit hfits hrun with ⟨s, hcalls⟩
  have hsame := herror.symm.trans hcalls
  cases hsame

/-- Every thread can make all its calls. -/
theorem disciplined_finishes (hinit : tfsInit paramsPtr mem fs = .ok (0, fs0))
    (hfits : FitsMachine (paramsPtr.getD tfsDefaultParams))
    (hdisciplined : DisciplinedThreads (paramsPtr.getD tfsDefaultParams) program fs0)
    (hsteps : Interleaving callCode (Threads.start program fs0) sys) (t : tid) :
    exists sys', Interleaving callCode sys sys' ∧ Finished sys' t := by
  have hserial := Serial.start.interleaving callCode_implements hsteps
  rcases hserial.finishes callCode_implements t with ⟨sys', hrest, hfinished | ⟨u, e, hfails⟩⟩
  · exact ⟨sys', hrest, hfinished⟩
  · have hsteps' := Relation.ReflTransGen.trans hsteps hrest
    exact absurd hfails (disciplined_noFailure hinit hfits hsteps' (hdisciplined sys' hsteps') u e)

/-- Threads that keep to the discipline in every order: no call fails, every thread has the
replies that the abstract file system gives in the order of the mutex, and every thread can
make all its calls. -/
theorem threads_refine (hinit : tfsInit paramsPtr mem fs = .ok (0, fs0))
    (hfits : FitsMachine (paramsPtr.getD tfsDefaultParams))
    (hdisciplined : DisciplinedThreads (paramsPtr.getD tfsDefaultParams) program fs0)
    (hsteps : Interleaving callCode (Threads.start program fs0) sys) (t : tid) :
    (forall e, ¬ Fails sys t e) ∧
      (sys.thread t).replies <+:
        repliesOf t sys.ended (abstractReplies (paramsPtr.getD tfsDefaultParams) sys.ended) ∧
      exists sys', Interleaving callCode sys sys' ∧ Finished sys' t ∧
        callsOf t sys'.ended = program t ∧
        (sys'.thread t).replies =
          repliesOf t sys'.ended
            (abstractReplies (paramsPtr.getD tfsDefaultParams) sys'.ended) := by
  have hserial := Serial.start.interleaving callCode_implements hsteps
  refine ⟨disciplined_noFailure hinit hfits hsteps (hdisciplined sys hsteps) t, ?_, ?_⟩
  · rcases hserial.linearized with ⟨rs, s, hlinear⟩
    rw [← linearized_abstract hinit hfits hlinear (hdisciplined sys hsteps)]
    exact hlinear.replies t
  · rcases disciplined_finishes hinit hfits hdisciplined hsteps t with ⟨sys', hrest, hfinished⟩
    have hdisciplined' := hdisciplined sys' (Relation.ReflTransGen.trans hsteps hrest)
    rcases (hserial.interleaving callCode_implements hrest).linearized with ⟨rs, s, hlinear⟩
    rcases hlinear.returned t hfinished.right with ⟨hreplies, hcalls⟩
    rw [hfinished.left, List.append_nil] at hcalls
    rw [linearized_abstract hinit hfits hlinear hdisciplined'] at hreplies
    exact ⟨sys', hrest, hfinished, hcalls, hreplies⟩

end Disciplined

/-- Two threads: each creates a file, and reads and closes a file that it may not know. -/
def twoThreads (t : Bool) : List Call :=
  if t then [.open pathA 1, .read 0 9, .close 1] else [.open pathB 1, .read 1 9, .close 0]

theorem twoThreads_disciplined : DisciplinedThreads smallParams twoThreads smallFs := by
  have halways : forall c, c ∈ twoThreads true ++ twoThreads false ->
      forall a : AbstractFs, a.Disciplined c := by
    intro c hc a
    simp only [twoThreads, if_true, List.cons_append, List.nil_append, List.mem_cons,
      List.not_mem_nil, or_false, Bool.false_eq_true, if_false] at hc
    rcases hc with rfl | rfl | rfl | rfl | rfl | rfl
    · exact fun _ hflag => absurd hflag (by decide)
    · trivial
    · trivial
    · exact fun _ hflag => absurd hflag (by decide)
    · trivial
    · trivial
  have hruns : forall (calls : List Call) (a : AbstractFs),
      (forall c, c ∈ calls -> c ∈ twoThreads true ++ twoThreads false) ->
      AllowedRun (AbstractFs.exec smallParams) AbstractFs.Disciplined calls a := by
    intro calls
    induction calls with
    | nil => exact fun _ _ => trivial
    | cons c cs ih =>
        intro a hall
        exact ⟨halways c (hall c (by simp)) a, ih _ fun d hd => hall d (by simp [hd])⟩
  intro sys hsteps
  refine hruns _ _ fun c hc => ?_
  rcases List.mem_map.mp hc with ⟨⟨t, d⟩, hmem, hd⟩
  rcases (Serial.start.interleaving callCode_implements hsteps).linearized with ⟨rs, s, hlinear⟩
  have hprogram : c ∈ twoThreads t := hd ▸ (hlinear.order t).subset (mem_callsOf hmem)
  cases t with
  | true => exact List.mem_append_left _ hprogram
  | false => exact List.mem_append_right _ hprogram

end Library

theorem threads_linearized_two : exists sys sys' : TfsThreads Bool,
    Finished sys true ∧ Finished sys' false ∧
      (exists rs s, Linearized exec twoThreads smallFs sys' rs s) ∧ sys.log <+: sys'.log := by
  have hfits : FitsMachine smallParams := by constructor <;> decide
  rcases disciplined_finishes smallInit hfits twoThreads_disciplined Relation.ReflTransGen.refl
    true with ⟨sys, hsteps, hfinished⟩
  rcases disciplined_finishes smallInit hfits twoThreads_disciplined hsteps false with
    ⟨sys', hlater, hfinished'⟩
  rcases threads_linearized hsteps hlater with ⟨_, hlinear, hgrows, _⟩
  exact ⟨sys, sys', hfinished, hfinished', hlinear, hgrows⟩

theorem threads_refine_two : exists sys : TfsThreads Bool,
    Interleaving callCode (Threads.start twoThreads smallFs) sys ∧ Finished sys true ∧
      callsOf true sys.ended = twoThreads true := by
  rcases threads_refine smallInit (by constructor <;> decide) twoThreads_disciplined
    Relation.ReflTransGen.refl true with ⟨_, _, sys, hsteps, hfinished, hcalls, _⟩
  exact ⟨sys, hsteps, hfinished, hcalls⟩

end TecnicoFs
