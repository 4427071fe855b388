import TecnicoFs.Broker.Reachable

/-!
# The file system behind the handlers

A handler reaches the file system only by the calls of the library.  What every call
preserves holds after every request, so the file system of a running broker is one that
a sequence of calls leads to.
-/

namespace TecnicoFs
namespace Broker

open Library

/-- The outcome, if there is one, leads to a file system with the property. -/
def Keeps (P : Fs -> Prop) (x : Out (List Event × State)) : Prop :=
  Ensures (fun _ => False) x fun r => P r.2.fs

/-- The call is not to unlink a file while one is open. -/
def UnlinksClosed (fs : Fs) : Call -> Prop
  | .unlink _ => forall fh e, ¬ OpenAt fs fh e
  | _ => True

/-- The calls that the handlers make preserve the property. -/
def Preserved (P : Fs -> Prop) : Prop :=
  forall {call fs reply fs'}, P fs -> exec call fs = .ok (reply, fs') -> UnlinksClosed fs call ->
    P fs'

theorem ensures_trivial {alpha : Type} (x : Out alpha) :
    Ensures (fun _ => False) x fun _ => True := by
  cases x <;> simp [Ensures]

section Handlers

variable {P : Fs -> Prop} {fs : Fs} {b : State}

namespace Preserved

theorem tfsOpen (hP : Preserved P) (hfs : P fs) (name : Option CStr) (mode : Nat) :
    Ensures (fun _ => False) (ofFs (tfsOpen name mode fs)) fun r => P r.2 := by
  cases hopen : TecnicoFs.tfsOpen name mode fs with
  | error e => simp [Ensures]
  | ok r =>
      have hexec : exec (.open name mode) fs = .ok (⟨r.1, []⟩, r.2) := by
        simp [exec, hopen]
      exact hP hfs hexec trivial

theorem tfsClose (hP : Preserved P) (hfs : P fs) (fhandle : Int) :
    Ensures (fun _ => False) (ofFs (tfsClose fhandle fs)) fun r => P r.2 := by
  cases hclose : TecnicoFs.tfsClose fhandle fs with
  | error e => simp [Ensures]
  | ok r =>
      have hexec : exec (.close fhandle) fs = .ok (⟨r.1, []⟩, r.2) := by
        simp [exec, hclose]
      exact hP hfs hexec trivial

theorem tfsWrite (hP : Preserved P) (hfs : P fs) (fhandle : Int) (buffer : List UInt8)
    (toWrite : Nat) :
    Ensures (fun _ => False) (ofFs (tfsWrite fhandle buffer toWrite fs)) fun r => P r.2 := by
  cases hwrite : TecnicoFs.tfsWrite fhandle buffer toWrite fs with
  | error e => simp [Ensures]
  | ok r =>
      have hexec : exec (.write fhandle buffer toWrite) fs = .ok (⟨r.1, []⟩, r.2) := by
        simp [exec, hwrite]
      exact hP hfs hexec trivial

theorem tfsUnlink (hP : Preserved P) (hfs : P fs) (hidle : Idle fs) (target : Option CStr) :
    Ensures (fun _ => False) (ofFs (tfsUnlink target fs)) fun r => P r.2 := by
  cases hunlink : TecnicoFs.tfsUnlink target fs with
  | error e => simp [Ensures]
  | ok r =>
      have hexec : exec (.unlink target) fs = .ok (⟨r.1, []⟩, r.2) := by
        simp [exec, hunlink]
      exact hP hfs hexec fun _ _ => hidle.closed

theorem answerCreate (hP : Preserved P) (hfs : P b.fs) (env : Env) (fd : Nat)
    (past : List Event) (returnCode : Int) (text : List UInt8) (fh : Int) :
    Keeps P (answerCreate env fd past returnCode text fh b) := by
  refine Ensures.bind (ensures_trivial _) fun answer _ => ?_
  exact Ensures.bind (hP.tfsClose hfs fh) fun r hr => hr

theorem createBox (hP : Preserved P) (hfs : P b.fs) (clientInput : Args) (env : Env) :
    Keeps P (createBox clientInput env b) := by
  rw [Keeps, Broker.createBox]
  cases env.fd with
  | none => exact hfs
  | some fd =>
      refine Ensures.bind (ensures_trivial _) fun r _ => ?_
      refine Ensures.bind (hP.tfsOpen hfs _ _) fun r1 hr1 => ?_
      refine Ensures.bind (ensures_trivial _) fun found _ => ?_
      cases found with
      | true =>
          refine Ensures.bind (ensures_trivial _) fun boxes _ => ?_
          refine Ensures.bind (hP.tfsClose hr1 _) fun r2 hr2 => ?_
          exact hP.answerCreate (b := { b with fs := r2.2, boxes := boxes }) hr2 _ _ _ _ _ _
      | false =>
          refine Ensures.bind (hP.tfsOpen hr1 _ _) fun r2 hr2 => ?_
          by_cases hfh : r2.1 = -1
          · simp only [if_pos hfh]
            exact hr2
          · simp only [if_neg hfh]
            refine Ensures.bind (ensures_trivial _) fun boxes _ => ?_
            refine Ensures.bind (ensures_trivial _) fun r3 _ => ?_
            exact hP.answerCreate (b := ⟨r2.2, r3.2, r3.1⟩) hr2 _ _ _ _ _ _

theorem answerRemove (hfs : P b.fs) (env : Env) (fd : Nat) (past : List Event)
    (returnCode : Int) (text : List UInt8) :
    Keeps P (answerRemove env fd past returnCode text b) := by
  refine Ensures.bind (ensures_trivial _) fun answer _ => ?_
  exact Ensures.bind (ensures_trivial _) fun _ _ => hfs

theorem publishLoop (hP : Preserved P) (hfs : P fs) (fh : Int) (reads : List Chunk)
    (buffer : List UInt8) (message : CStr) :
    Ensures (fun _ => False) (publishLoop fh reads buffer message fs) P := by
  induction reads generalizing fs buffer message with
  | nil => exact hfs
  | cons read reads ih =>
      rw [Broker.publishLoop]
      refine Ensures.bind (ensures_trivial _) fun text _ => ?_
      refine Ensures.bind (ensures_trivial _) fun message1 _ => ?_
      by_cases hempty : message1.strlen = 0
      · rw [if_pos hempty]
        exact hfs
      · rw [if_neg hempty]
        refine Ensures.bind (ensures_trivial _) fun message2 _ => ?_
        refine Ensures.bind (hP.tfsWrite hfs _ _ _) fun r hr => ?_
        by_cases hbreak : r.1 + 1 < 0
        · simp only [if_pos hbreak]
          exact hr
        · simp only [if_neg hbreak]
          exact ih hr _ _

theorem regPublisher (hP : Preserved P) (hfs : P b.fs) (clientInput : Args) (env : Env) :
    Keeps P (regPublisher clientInput env b) := by
  rw [Keeps, Broker.regPublisher]
  cases env.fd with
  | none => exact hfs
  | some fd =>
      refine Ensures.bind (ensures_trivial _) fun r _ => ?_
      refine Ensures.bind (ensures_trivial _) fun box _ => ?_
      split
      · exact Ensures.bind (ensures_trivial _) fun boxes _ => hfs
      · refine Ensures.bind (hP.tfsOpen hfs _ _) fun r1 hr1 => ?_
        by_cases hfh : r1.1 = -1
        · simp only [if_pos hfh]
          exact Ensures.bind (ensures_trivial _) fun boxes _ => hr1
        · simp only [if_neg hfh]
          refine Ensures.bind (ensures_trivial _) fun boxes _ => ?_
          refine Ensures.bind (hP.publishLoop hr1 _ _ _ _) fun fs2 hfs2 => ?_
          refine Ensures.bind (hP.tfsClose hfs2 _) fun r3 hr3 => ?_
          exact Ensures.bind (ensures_trivial _) fun _ _ => hr3

end Preserved

theorem listBox_keeps (hfs : P b.fs) (clientInput : Args) (env : Env) :
    Keeps P (listBox clientInput env b) := by
  rw [Keeps, listBox]
  cases env.fd with
  | none => exact hfs
  | some fd =>
      cases b.head with
      | none => exact Ensures.bind (ensures_trivial _) fun _ _ => hfs
      | some a => exact Ensures.bind (ensures_trivial _) fun _ _ => hfs

end Handlers

/-!
## Open files

Every handler closes the file that it has opened, with one exception: a request to remove a
box that is a file and not in the list, which no reachable state has.
-/

section Closed

variable {fs : Fs} {b : State} {clientInput : Args} {env : Env}

/-- Opening a file to append to it: it gets handle 0, or there is no such file. -/
theorem open_idle (h : Idle fs) (name : Option CStr) :
    (exists fs', tfsOpen name tfsOAppend fs = .ok (0, fs') ∧ Busy fs') ∨
      (tfsOpen name tfsOAppend fs = .ok (-1, fs) ∧
        (validPathname name = true -> ¬ Named fs (skipSlash name))) := by
  by_cases hnamed : validPathname name = true ∧ Named fs (skipSlash name)
  · rcases open_listed h hnamed.left hnamed.right with ⟨fs', hopen, hbusy, _⟩
    exact Or.inl ⟨fs', hopen, hbusy⟩
  · have habsent : validPathname name = true -> ¬ Named fs (skipSlash name) :=
      fun hvalid hname => hnamed ⟨hvalid, hname⟩
    exact Or.inr ⟨open_absent h.steady habsent, habsent⟩

/-- No file is open when the file has been closed again, or was not opened. -/
theorem close_opened (h : Idle fs) {name : Option CStr} {r r' : Int × Fs}
    (hopen : tfsOpen name tfsOAppend fs = .ok r) (hclose : tfsClose r.1 r.2 = .ok r') :
    Idle r'.2 := by
  rcases open_idle h name with ⟨fs1, hopen', hbusy⟩ | ⟨hopen', _⟩
  · rw [hopen] at hopen'
    cases hopen'
    rcases close_busy hbusy with ⟨fs2, hclose', hidle, _⟩
    rw [hclose] at hclose'
    cases hclose'
    exact hidle
  · rw [hopen] at hopen'
    cases hopen'
    rw [close_idle h] at hclose
    cases hclose
    exact h

theorem answerCreate_keeps (h : Idle b.fs) (fd : Nat) (past : List Event) (returnCode : Int)
    (text : List UInt8) (fh : Int) :
    Keeps Idle (answerCreate env fd past returnCode text fh b) := by
  refine Ensures.bind (ensures_trivial _) fun answer _ => ?_
  rw [close_idle h]
  exact h

theorem answerCreate_closes (h : Busy b.fs) (fd : Nat) (past : List Event) (returnCode : Int)
    (text : List UInt8) : Keeps Idle (answerCreate env fd past returnCode text 0 b) := by
  refine Ensures.bind (ensures_trivial _) fun answer _ => ?_
  rcases close_busy h with ⟨fs', hclose, hidle, _⟩
  rw [hclose]
  exact hidle

theorem createBox_idle (h : Idle b.fs) : Keeps Idle (createBox clientInput env b) := by
  rw [Keeps, createBox]
  cases env.fd with
  | none => exact h
  | some fd =>
      refine Ensures.bind (ensures_trivial _) fun r _ => ?_
      rcases open_idle h (some clientInput.boxName.str) with
        ⟨fs1, hopen, hbusy⟩ | ⟨hopen, habsent⟩
      · have hfound : boxExists 0 r.1 r.2 = .ok true := rfl
        simp only [hopen, hfound, ofFs_ok, ok_bind, if_true]
        refine Ensures.bind (ensures_trivial _) fun boxes _ => ?_
        rcases close_busy hbusy with ⟨fs2, hclose, hidle, _⟩
        simp only [hclose, ofFs_ok, ok_bind]
        exact answerCreate_keeps (b := { b with fs := fs2, boxes := boxes }) hidle _ _ _ _ _
      · simp only [hopen, ofFs_ok, ok_bind]
        refine Ensures.bind (ensures_trivial _) fun found _ => ?_
        cases found with
        | true =>
            refine Ensures.bind (ensures_trivial _) fun boxes _ => ?_
            simp only [close_idle h, ofFs_ok, ok_bind]
            exact answerCreate_keeps (b := { b with boxes := boxes }) h _ _ _ _ _
        | false =>
            rcases open_create h habsent with ⟨fs1, hcreate, hidle, _⟩ | ⟨fs1, hcreate, hbusy, _⟩
            · simp only [hcreate, ofFs_ok, ok_bind]
              exact hidle
            · simp only [hcreate, ofFs_ok, ok_bind]
              refine Ensures.bind (ensures_trivial _) fun boxes _ => ?_
              refine Ensures.bind (ensures_trivial _) fun r1 _ => ?_
              exact answerCreate_closes (b := ⟨fs1, r1.2, r1.1⟩) hbusy _ _ _ _

theorem regPublisher_idle (h : Idle b.fs) : Keeps Idle (regPublisher clientInput env b) := by
  rw [Keeps, regPublisher]
  cases env.fd with
  | none => exact h
  | some fd =>
      refine Ensures.bind (ensures_trivial _) fun r _ => ?_
      refine Ensures.bind (ensures_trivial _) fun box _ => ?_
      split
      · exact Ensures.bind (ensures_trivial _) fun boxes _ => h
      · rcases open_idle h (some box.value.boxName.str) with ⟨fs1, hopen, hbusy⟩ | ⟨hopen, _⟩
        · simp only [hopen, ofFs_ok, ok_bind]
          refine Ensures.bind (ensures_trivial _) fun boxes _ => ?_
          have hloop : Ensures (fun _ => False)
              (publishLoop 0 env.reads ((List.range bufferSize).map env.buffer) emptyStr fs1)
              fun fs2 => Busy fs2 ∧ SameNames fs1 fs2 :=
            (publishLoop_busy hbusy 0 env.reads _ emptyStr).mono fun _ hfalse => hfalse.elim
          refine Ensures.bind hloop fun fs2 hfs2 => ?_
          rcases close_busy hfs2.left with ⟨fs3, hclose, hidle, _⟩
          simp only [hclose, ofFs_ok, ok_bind]
          exact Ensures.bind (ensures_trivial _) fun _ _ => hidle
        · simp only [hopen, ofFs_ok, ok_bind]
          exact Ensures.bind (ensures_trivial _) fun boxes _ => h

theorem Reachable.idle (h : Reachable b) : Idle b.fs := by
  rcases h with ⟨mem, fs0, fs, requests, events, hinit, hrun⟩
  have hstart := good_start hinit
  refine (run_invariant (P := fun b => ((exists cells, Good b cells) ∨
    exists pre a, Dangling b pre a) ∧ Idle b.fs) ?_ hrun ⟨Or.inl ⟨[], hstart⟩, hstart.idle⟩).right
  intro request b events b' hstate hserve
  rcases hstate with ⟨hcases, hidle⟩
  refine ⟨?_, ?_⟩
  · rcases hcases with ⟨cells, hgood⟩ | ⟨pre, a, hdangling⟩
    · exact hgood.serve_cases hserve
    · exact Or.inr (hdangling.serve hserve)
  · cases request with
    | regPublisher clientInput env => exact (regPublisher_idle hidle).value hserve
    | createBox clientInput env => exact (createBox_idle hidle).value hserve
    | listBox clientInput env =>
        exact (listBox_keeps (P := Idle) hidle clientInput env).value hserve
    | removeBox clientInput env =>
        rcases hcases with ⟨cells, hgood⟩ | ⟨pre, a, hdangling⟩
        · rcases (removeBox_good hgood clientInput env).value hserve with ⟨cells', hgood'⟩
          exact hgood'.idle
        · rcases bind_eq_ok.mp hserve with ⟨u, hiterate, _⟩
          exact absurd (ofHeap_eq_ok.mp hiterate) hdangling.not_iterate

namespace Preserved

variable {P : Fs -> Prop}

theorem removeBox (hP : Preserved P) (hfs : P b.fs) (hidle : Idle b.fs) (clientInput : Args)
    (env : Env) : Keeps P (removeBox clientInput env b) := by
  refine Ensures.bind (ensures_trivial _) fun _ _ => ?_
  cases env.fd with
  | none => exact hfs
  | some fd =>
      refine Ensures.bind (ensures_trivial _) fun r _ => ?_
      refine Ensures.bind (hP.tfsOpen hfs _ _).known fun r1 hr1 => ?_
      rcases hr1 with ⟨hopen, hr1⟩
      refine Ensures.bind (ensures_trivial _) fun missing _ => ?_
      cases missing with
      | true =>
          refine Ensures.bind (ensures_trivial _) fun boxes _ => ?_
          exact answerRemove (b := { b with fs := r1.2, boxes := boxes }) hr1 _ _ _ _ _
      | false =>
          refine Ensures.bind (ensures_trivial _) fun r2 _ => ?_
          refine Ensures.bind (hP.tfsClose hr1 _).known fun r3 hr3 => ?_
          rcases hr3 with ⟨hclose, hr3⟩
          have hidle3 := close_opened hidle (ofFs_eq_ok.mp hopen) (ofFs_eq_ok.mp hclose)
          refine Ensures.bind (hP.tfsUnlink hr3 hidle3 _) fun r4 hr4 => ?_
          exact answerRemove (b := ⟨r4.2, r2.2, r2.1⟩) hr4 _ _ _ _ _

/-- What the calls of the handlers preserve holds after a request. -/
theorem serve (hP : Preserved P) (hfs : P b.fs) (hidle : Idle b.fs) (request : Request) :
    Keeps P (serve request b) := by
  cases request with
  | regPublisher clientInput env => exact hP.regPublisher hfs clientInput env
  | createBox clientInput env => exact hP.createBox hfs clientInput env
  | removeBox clientInput env => exact hP.removeBox hfs hidle clientInput env
  | listBox clientInput env => exact listBox_keeps hfs clientInput env

/-- It holds in every state that the broker reaches, if it holds after the
initialisation. -/
theorem reachable (hP : Preserved P)
    (hinit : forall {mem fs0 fs}, tfsInit none mem fs0 = .ok (0, fs) -> P fs)
    (h : Reachable b) : P b.fs := by
  rcases h with ⟨mem, fs0, fs, requests, events, hstart, hrun⟩
  refine (run_invariant (P := fun b : State => Reachable b ∧ P b.fs) ?_ hrun
    ⟨reachable_start hstart, hinit hstart⟩).right
  rintro request b events b' ⟨hreach, hfs⟩ hserve
  exact ⟨hreach.serve hserve, (hP.serve hfs hreach.idle request).value hserve⟩

end Preserved

end Closed

/-!
## The data area
-/

/-- The data area has all its blocks. -/
structure FullData (fs : Fs) : Prop where
  inv : exists made, Inv made fs
  size : fs.fsData.size = fs.dataBlocks * fs.blockSize

theorem step_sizes {fs fs' : Fs} {call : Call} {reply : Reply} (h : Step fs call reply fs') :
    fs'.fsData.size = fs.fsData.size ∧ fs'.fsParams = fs.fsParams := by
  have hhandle : forall {fs fs' : Fs} {inum r : Int} {offset : Nat},
      HandleStep fs inum offset r fs' ->
      fs'.fsData.size = fs.fsData.size ∧ fs'.fsParams = fs.fsParams := by
    intro fs fs' inum r offset h
    rw [h.sameStorage.fsData, h.sameStorage.fsParams]
    exact ⟨rfl, rfl⟩
  cases h with
  | «open» hopen =>
      cases hopen with
      | badPath _ => exact ⟨rfl, rfl⟩
      | existing _ _ _ htrunc hadd =>
          have hsame := hhandle hadd
          cases htrunc with
          | keep _ => exact hsame
          | cut _ _ _ _ => exact hsame
      | absent _ _ _ => exact ⟨rfl, rfl⟩
      | noInode _ _ _ _ => exact ⟨rfl, rfl⟩
      | notEntered _ _ _ _ _ _ _ => exact ⟨rfl, rfl⟩
      | created _ _ _ _ _ _ _ _ hadd =>
          have hsame := hhandle hadd
          exact hsame
  | close hclose => cases hclose <;> exact ⟨rfl, rfl⟩
  | read hread => cases hread <;> exact ⟨rfl, rfl⟩
  | write hwrite => cases hwrite <;> exact ⟨rfl, rfl⟩
  | unlink hunlink => cases hunlink <;> exact ⟨rfl, rfl⟩

theorem fullData_preserved : Preserved FullData := by
  intro call fs reply fs' h hexec _
  rcases h.inv with ⟨made, hinv⟩
  have hstep := (exec_iff hinv).mp hexec
  rcases step_sizes hstep with ⟨hsize, hparams⟩
  refine ⟨⟨_, hinv.step hstep⟩, ?_⟩
  rw [hsize, h.size, Fs.dataBlocks, Fs.blockSize, Fs.dataBlocks, Fs.blockSize, hparams]

theorem fullData_initial {mem : Mallocs} {fs0 fs : Fs}
    (hinit : tfsInit none mem fs0 = .ok (0, fs)) : FullData fs := by
  have h := tfsInit_initial hinit
  rcases h.fsData with ⟨data, hdata, hslots⟩
  refine ⟨⟨_, h.inv⟩, ?_⟩
  rw [(freeSlots_ok hslots).left, (mallocRegion_some hdata).right, Fs.dataBlocks, Fs.blockSize,
    h.fsParams]
  rfl

theorem Reachable.fullData {b : State} (h : Reachable b) : FullData b.fs :=
  fullData_preserved.reachable fullData_initial h

end Broker
end TecnicoFs
