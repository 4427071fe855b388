import TecnicoFs.Broker.BoxList
import TecnicoFs.Broker.Files

/-!
# What each request does

Between requests the list of boxes is a chain of idle boxes with distinct names, the
names of the directory's files.  From such a state each path of a handler leads to
one outcome.
-/

namespace TecnicoFs
namespace Broker

open Library

/-- The list of boxes and the directory agree, and nobody uses a box. -/
structure Good (b : State) (cells : List (Nat × Box)) : Prop where
  idle : Idle b.fs
  chain : Chain b.boxes b.head cells
  nodup : (boxNames cells).Nodup
  valid : forall {name}, name ∈ boxNames cells -> validPathname (some name) = true
  named : forall {name}, validPathname (some name) = true ->
    (Named b.fs (skipSlash (some name)) <-> name ∈ boxNames cells)
  quiet : forall {cell}, cell ∈ cells -> cell.2.hasWriter = 0 ∧ cell.2.nReaders = 0

/-- The end of a run at a node that is not live, or in a list that does not end. -/
def HeapMisuse (stop : Stop) : Prop := exists fault, stop = .heap fault

/-- An end that does not come from the file system or from a string. -/
def NotSession (stop : Stop) : Prop := HeapMisuse stop ∨ stop = .exit

/-- An end other than the exit of the process. -/
def NotExit (stop : Stop) : Prop := stop ≠ .exit

/-- The outcome of a handler that ends with the answer of its only frame. -/
def answered (env : Env) (events : List Event) (b : State) : Out (List Event × State) :=
  if env.writes 0 then .ok (events, b) else .error .exit

/-- A path name is a slash and what follows it. -/
theorem bytes_of_valid {name : CStr} (h : validPathname (some name) = true) :
    name.bytes = 47 :: (skipSlash (some name)).bytes := by
  simp only [validPathname, Bool.and_eq_true, beq_iff_eq] at h
  cases hbytes : name.bytes with
  | nil => simp [hbytes] at h
  | cons c rest =>
      rw [hbytes] at h
      have hc : c = 47 := Option.some.inj h.right
      simp [skipSlash, CStr.tail, hbytes, hc]

theorem skipSlash_injective {name name' : CStr} (h : validPathname (some name) = true)
    (h' : validPathname (some name') = true)
    (heq : skipSlash (some name) = skipSlash (some name')) : name = name' := by
  apply CStr.ext
  rw [bytes_of_valid h, bytes_of_valid h', heq]

section Requests

variable {b b' : State} {cells pre post : List (Nat × Box)} {clientInput : Args} {env : Env}
  {fd a : Nat} {box : Box}

theorem boxNames_append (pre : List (Nat × Box)) (a : Nat) (box : Box)
    (post : List (Nat × Box)) :
    boxNames (pre ++ (a, box) :: post) = boxNames pre ++ box.boxName.str :: boxNames post := by
  simp [boxNames]

namespace Good

/-- A change of the file system that keeps its names, and of nodes outside the list. -/
theorem keep (h : Good b cells) (hidle : Idle b'.fs) (hsame : SameNames b.fs b'.fs)
    (hchain : Chain b'.boxes b'.head cells) : Good b' cells :=
  ⟨hidle, hchain, h.nodup, h.valid, fun hvalid => (hsame _).trans (h.named hvalid), h.quiet⟩

theorem absent (h : Good b cells) {name : CStr} (hnot : name ∉ boxNames cells)
    (hvalid : validPathname (some name) = true) : ¬ Named b.fs (skipSlash (some name)) :=
  fun hnamed => hnot ((h.named hvalid).mp hnamed)

/-- The next node to be allocated is not in the list. -/
theorem top_notMem (h : Good b cells) : b.boxes.top ∉ addresses cells := by
  intro hmem
  exact Nat.lt_irrefl _ (Segment.live h.chain hmem).lt_top

/-- A new box with a new file. -/
theorem insert (h : Good b cells) (hidle : Idle b'.fs)
    (hchain : Chain b'.boxes b'.head (cells ++ [(a, ⟨clientInput.boxName, 0, 0⟩)]))
    (hvalid : validPathname (some clientInput.boxName.str) = true)
    (hnot : clientInput.boxName.str ∉ boxNames cells)
    (hnamed : forall held, Named b'.fs held <->
      held = skipSlash (some clientInput.boxName.str) ∨ Named b.fs held) :
    Good b' (cells ++ [(a, ⟨clientInput.boxName, 0, 0⟩)]) := by
  have hnames : boxNames (cells ++ [(a, ⟨clientInput.boxName, 0, 0⟩)]) =
      boxNames cells ++ [clientInput.boxName.str] := boxNames_append cells a _ []
  refine ⟨hidle, hchain, ?_, fun hmem => ?_, fun hname => ?_, fun hmem => ?_⟩
  · rw [hnames]
    exact h.nodup.append (List.nodup_singleton _) (by simpa using hnot)
  · rw [hnames] at hmem
    rcases List.mem_append.mp hmem with hold | hnew
    · exact h.valid hold
    · rw [List.mem_singleton.mp hnew]
      exact hvalid
  · rename_i name
    rw [hnames, hnamed, h.named hname, List.mem_append, List.mem_singleton, or_comm]
    constructor
    · rintro (hold | heq)
      · exact Or.inl hold
      · exact Or.inr (skipSlash_injective hname hvalid heq)
    · rintro (hold | heq)
      · exact Or.inl hold
      · exact Or.inr (by rw [heq])
  · rcases List.mem_append.mp hmem with hold | hnew
    · exact h.quiet hold
    · rw [List.mem_singleton.mp hnew]
      exact ⟨rfl, rfl⟩

/-- A box and its file are gone. -/
theorem delete (h : Good b (pre ++ (a, box) :: post)) (hidle : Idle b'.fs)
    (hchain : Chain b'.boxes b'.head (pre ++ post))
    (hnamed : forall held, Named b'.fs held <->
      held ≠ skipSlash (some box.boxName.str) ∧ Named b.fs held) : Good b' (pre ++ post) := by
  have hnames := boxNames_append pre a box post
  have hrest : boxNames (pre ++ post) = boxNames pre ++ boxNames post := List.map_append
  have hperm : (boxNames pre ++ box.boxName.str :: boxNames post).Perm
      (box.boxName.str :: boxNames (pre ++ post)) := by
    rw [hrest]
    exact List.perm_middle
  have hnodup := h.nodup
  rw [hnames, hperm.nodup_iff, List.nodup_cons] at hnodup
  have hmem : forall {name}, name ∈ boxNames (pre ++ (a, box) :: post) <->
      name = box.boxName.str ∨ name ∈ boxNames (pre ++ post) := by
    intro name
    rw [hnames, hperm.mem_iff, List.mem_cons]
  have hbox : validPathname (some box.boxName.str) = true := h.valid (hmem.mpr (Or.inl rfl))
  refine ⟨hidle, hchain, hnodup.right, fun hname => h.valid (hmem.mpr (Or.inr hname)),
    fun hname => ?_, fun hcell => h.quiet ?_⟩
  · rename_i name
    rw [hnamed, h.named hname, hmem]
    constructor
    · rintro ⟨hne, heq | hold⟩
      · exact absurd (by rw [heq]) hne
      · exact hold
    · intro hold
      refine ⟨fun heq => ?_, Or.inr hold⟩
      rw [skipSlash_injective hname hbox heq] at hold
      exact hnodup.left hold
  · rename_i cell
    rcases List.mem_append.mp hcell with hpre | hpost
    · exact List.mem_append_left _ hpre
    · exact List.mem_append_right _ (List.mem_cons_of_mem _ hpost)

end Good

/-!
## Answers
-/

/-- The answer of {lit}`create_box` and {lit}`remove_box`, in the pipe. -/
def answerEvent (env : Env) (fd : Nat) (returnCode : Int) (text : List UInt8) : Event :=
  .wrote fd (frame (serializeAnswer answerCreateBox returnCode text) (env.behind 0))

theorem answerCreate_idle (h : Idle b.fs) (past : List Event) (returnCode fh : Int)
    (text : List UInt8) :
    answerCreate env fd past returnCode text fh b =
      answered env (.opened fd :: past ++ [answerEvent env fd returnCode text, .tfsClosed fh])
        b := by
  rw [answerCreate, sendRequest, answered, close_idle h]
  split <;> rfl

theorem answerCreate_busy (h : Busy b.fs) (past : List Event) (returnCode : Int)
    (text : List UInt8) :
    exists fs', Idle fs' ∧ SameStorage b.fs fs' ∧
      answerCreate env fd past returnCode text 0 b =
        answered env (.opened fd :: past ++ [answerEvent env fd returnCode text, .tfsClosed 0])
          { b with fs := fs' } := by
  rcases close_busy h with ⟨fs', hclose, hidle, hsame⟩
  refine ⟨fs', hidle, hsame, ?_⟩
  rw [answerCreate, sendRequest, answered, hclose]
  split <;> rfl

theorem answerRemove_chain (hchain : Chain b.boxes b.head cells) (past : List Event)
    (returnCode : Int) (text : List UInt8) :
    answerRemove env fd past returnCode text b =
      answered env (.opened fd :: past ++ [answerEvent env fd returnCode text, .closed fd])
        b := by
  rw [answerRemove, sendRequest, answered, iterateBox_chain hchain]
  split <;> rfl

/-!
## Creating a box
-/

theorem Good.name_mem (h : Good b (pre ++ (a, box) :: post)) {name : CStr}
    (hname : box.boxName.str = name) :
    name ∈ boxNames (pre ++ (a, box) :: post) ∧ name ∉ boxNames pre := by
  have hnames := boxNames_append pre a box post
  have hnodup := h.nodup
  rw [hnames, List.nodup_append] at hnodup
  rw [hnames, ← hname]
  refine ⟨by simp, fun hmem => ?_⟩
  exact hnodup.right.right _ hmem _ List.mem_cons_self rfl

/-- Creating a box that exists: its node is freed and stays in the list. -/
theorem createBox_existing (h : Good b (pre ++ (a, box) :: post))
    (hname : box.boxName.str = clientInput.boxName.str) (hfd : env.fd = some fd) :
    exists b', createBox clientInput env b =
        answered env [.opened fd, .tfsOpened 0, .tfsClosed 0,
          answerEvent env fd (-1) (ascii "Can't create box, already exists"), .tfsClosed 0] b' ∧
      b'.head = b.head ∧ Segment b'.boxes b.head pre (some a) ∧ b'.boxes.cell a = none ∧
      a < b'.boxes.top := by
  rcases h.name_mem hname with ⟨hmem, hnotPre⟩
  have hvalid := h.valid hmem
  have hfind := findBox_found (.array clientInput.boxName.str) env.node h.chain rfl hname hnotPre
  rcases open_listed h.idle hvalid ((h.named hvalid).mpr hmem) with ⟨fs1, hopen, hbusy, _⟩
  rcases close_busy hbusy with ⟨fs2, hclose, hidle, _⟩
  have hchain : Chain (b.boxes.alloc env.node).2 b.head (pre ++ (a, box) :: post) :=
    Segment.alloc env.node h.chain
  rcases hchain.suffix with ⟨hseg, n, hcell, _⟩
  have hlive := Heap.live_of_cell hcell
  refine ⟨⟨fs2, (b.boxes.alloc env.node).2.update a hlive none, b.head⟩, ?_, rfl, ?_,
    Heap.update_self hlive none, hlive.lt_top⟩
  · simp only [createBox, hfd, hfind, ofHeap_ok, ok_bind, hopen, ofFs_ok, boxExists,
      Heap.free_eq hlive, hclose]
    exact answerCreate_idle hidle _ _ _ _
  · exact hseg.update hlive none hchain.notMem.left

/-- Creating a box that does not exist fails without an answer, or adds the box. -/
theorem createBox_absent (h : Good b cells) (hnot : clientInput.boxName.str ∉ boxNames cells)
    (hfd : env.fd = some fd) :
    (exists b', createBox clientInput env b = .ok ([.opened fd], b') ∧ Good b' cells ∧
      b'.boxes.Live b.boxes.top ∧ ¬ Creatable b.fs (some clientInput.boxName.str)) ∨
      exists b', createBox clientInput env b =
          answered env [.opened fd, .tfsOpened 0, answerEvent env fd 0 [], .tfsClosed 0] b' ∧
        Good b' (cells ++ [(b.boxes.top, ⟨clientInput.boxName, 0, 0⟩)]) ∧
        (forall c, b'.boxes.Live c -> c ≠ b.boxes.top -> b.boxes.Live c) ∧
        Creatable b.fs (some clientInput.boxName.str) := by
  have hfind := findBox_missing (.array clientInput.boxName.str) env.node h.chain rfl hnot
  have habsent := fun hvalid => h.absent hnot hvalid
  have hopen := open_absent h.idle.steady habsent
  have hfresh := b.boxes.alloc_self ⟨⟨unexistent, -1, -1⟩, env.node.next⟩
  have hchain : Chain (b.boxes.alloc ⟨⟨unexistent, -1, -1⟩, env.node.next⟩).2 b.head cells :=
    Segment.alloc _ h.chain
  generalize hboxes : (b.boxes.alloc ⟨⟨unexistent, -1, -1⟩, env.node.next⟩).2 = boxes
    at hfind hfresh hchain
  have hexists : boxExists (-1) b.boxes.top boxes = .ok false := by
    simp [boxExists, Heap.load_eq hfresh]
  rcases open_create h.idle habsent with ⟨fs1, hcreate, hidle, hsame, hnot'⟩ |
    ⟨fs1, hcreate, hbusy, hcreatable, hnamed⟩
  · left
    refine ⟨⟨fs1, boxes, b.head⟩, ?_, h.keep hidle hsame hchain, Heap.live_of_cell hfresh,
      hnot'⟩
    simp [createBox, hfd, hfind, hopen, hexists, hcreate]
  · right
    have hmodify := modifyBox_eq hfresh fun cell =>
      { cell with value := ⟨clientInput.boxName, 0, 0⟩ }
    have hnotMem : b.boxes.top ∉ addresses cells := h.top_notMem
    have hchain2 := Segment.update (Heap.live_of_cell hfresh)
      (some ⟨⟨clientInput.boxName, 0, 0⟩, env.node.next⟩) hnotMem hchain
    have hself := Heap.update_self (Heap.live_of_cell hfresh)
      (some (⟨⟨clientInput.boxName, 0, 0⟩, env.node.next⟩ : Cell Box))
    rcases insertBox_chain hchain2 hself hnotMem with ⟨head', boxes', hinsert, hinserted⟩
    rcases answerCreate_busy (b := ⟨fs1, boxes', head'⟩) hbusy [.tfsOpened 0] 0 [] with
      ⟨fs2, hidle, hsame, hanswer⟩
    refine ⟨⟨fs2, boxes', head'⟩, ?_, ?_, ?_, hcreatable⟩
    · simp only [createBox, hfd, hfind, ofHeap_ok, ok_bind, hopen, ofFs_ok, hexists, hcreate,
        hmodify, hinsert]
      exact hanswer
    · refine h.insert hidle hinserted.chain hcreatable.valid hnot fun held => ?_
      rw [sameNames_of_storage hsame held]
      exact hnamed held
    · intro c hlive hc
      by_cases hmem : c ∈ addresses cells
      · exact Segment.live h.chain hmem
      · rw [Heap.Live, hinserted.others c hmem hc, Heap.update_other _ _ hc, ← hboxes,
          Heap.alloc_cell _ _ hc] at hlive
        exact hlive

/-!
## Removing a box
-/

/-- The node that stands for a missing box is freed again. -/
theorem freed_sentinel (h : Good b cells) (fresh : Cell Box) :
    exists boxes', (b.boxes.alloc ⟨⟨unexistent, -1, -1⟩, fresh.next⟩).2.free b.boxes.top =
      .ok boxes' ∧ Chain boxes' b.head cells ∧
        forall c, boxes'.Live c -> b.boxes.Live c := by
  have hlive := b.boxes.alloc_live ⟨⟨unexistent, -1, -1⟩, fresh.next⟩
  refine ⟨_, Heap.free_eq hlive, Segment.update hlive none ?_ (Segment.alloc _ h.chain),
    fun c hc => ?_⟩
  · exact h.top_notMem
  · by_cases htop : c = b.boxes.top
    · rw [htop, Heap.Live, Heap.update_self] at hc
      cases hc
    · rw [Heap.Live, Heap.update_other _ _ htop, Heap.alloc_cell _ _ htop] at hc
      exact hc

theorem removeBox_existing (h : Good b (pre ++ (a, box) :: post))
    (hname : box.boxName.str = clientInput.boxName.str) (hfd : env.fd = some fd) :
    exists b', removeBox clientInput env b =
        answered env [.opened fd, .tfsOpened 0, .tfsClosed 0, answerEvent env fd 0 [],
          .closed fd] b' ∧
      Good b' (pre ++ post) ∧ b'.boxes.Live b.boxes.top := by
  rcases h.name_mem hname with ⟨hmem, hnotPre⟩
  have hvalid := h.valid hmem
  have hfind := findBox_found (.array clientInput.boxName.str) env.node h.chain rfl hname hnotPre
  rcases open_listed h.idle hvalid ((h.named hvalid).mpr hmem) with ⟨fs1, hopen, hbusy, hsame1⟩
  rcases close_busy hbusy with ⟨fs2, hclose, hidle, hsame2⟩
  have hsame : SameNames b.fs fs2 := fun held =>
    (sameNames_of_storage hsame2 held).trans (sameNames_of_storage hsame1 held)
  rcases unlink_listed hidle hvalid ((hsame _).mpr ((h.named hvalid).mpr hmem)) with
    ⟨fs3, hunlink, hidle3, hnamed⟩
  have hchain : Chain (b.boxes.alloc env.node).2 b.head (pre ++ (a, box) :: post) :=
    Segment.alloc env.node h.chain
  rcases hchain.suffix with ⟨_, n, hcell, _⟩
  have hquiet := (h.quiet (List.mem_append_right pre List.mem_cons_self)).right
  have hmissing : boxMissing 0 a (b.boxes.alloc env.node).2 = .ok false := by
    simp only at hquiet
    simp [boxMissing, Heap.load_eq hcell, hquiet]
  have hload : (NamePtr.node a).load (b.boxes.alloc env.node).2 =
      .ok clientInput.boxName.str := by
    rw [NamePtr.load, Heap.load_eq hcell, ← hname]
    rfl
  rcases deleteBox_chain hchain hload hname hnotPre with ⟨head', boxes', hdelete, hdeleted⟩
  refine ⟨⟨fs3, boxes', head'⟩, ?_, h.delete hidle3 hdeleted.chain fun held => ?_, ?_⟩
  · simp only [removeBox, iterateBox_chain h.chain, hfd, hfind, ofHeap_ok, ok_bind, hopen,
      ofFs_ok, hmissing, hdelete, hclose, hunlink]
    exact answerRemove_chain hdeleted.chain _ 0 []
  · rw [hname, hnamed, hsame]
  · have hnot : b.boxes.top ∉ addresses (pre ++ (a, box) :: post) := h.top_notMem
    simp only [addresses, List.map_append, List.map_cons, List.mem_append, List.mem_cons,
      not_or] at hnot
    rw [Heap.Live, hdeleted.others _ hnot.left hnot.right.left]
    exact b.boxes.alloc_live env.node

theorem removeBox_missing (h : Good b cells) (hnot : clientInput.boxName.str ∉ boxNames cells)
    (hfd : env.fd = some fd) :
    exists b', removeBox clientInput env b =
        answered env [.opened fd, answerEvent env fd (-1) (ascii "Box doesn't exist\n"),
          .closed fd] b' ∧
      Good b' cells ∧ b'.fs = b.fs ∧ forall c, b'.boxes.Live c -> b.boxes.Live c := by
  have hfind := findBox_missing (.array clientInput.boxName.str) env.node h.chain rfl hnot
  have hopen := open_absent h.idle.steady fun hvalid => h.absent hnot hvalid
  rcases freed_sentinel h env.node with ⟨boxes', hfree, hchain, hlive⟩
  refine ⟨⟨b.fs, boxes', b.head⟩, ?_, h.keep h.idle (fun _ => Iff.rfl) hchain, rfl, hlive⟩
  simp only [removeBox, iterateBox_chain h.chain, hfd, hfind, ofHeap_ok, ok_bind, hopen, ofFs_ok,
    boxMissing, hfree]
  exact answerRemove_chain hchain [] (-1) _

/-!
## Publishing
-/

theorem regPublisher_missing (h : Good b cells)
    (hnot : clientInput.boxName.str ∉ boxNames cells) (hfd : env.fd = some fd) :
    exists b', regPublisher clientInput env b =
        .ok ([.opened fd, .unlinked clientInput.clientPipe.str, .closed fd], b') ∧
      Good b' cells ∧ forall c, b'.boxes.Live c -> b.boxes.Live c := by
  have hfind := findBox_missing (.array clientInput.boxName.str) env.node h.chain rfl hnot
  have hload := Heap.load_eq (b.boxes.alloc_self ⟨⟨unexistent, -1, -1⟩, env.node.next⟩)
  rcases freed_sentinel h env.node with ⟨boxes', hfree, hchain, hlive⟩
  refine ⟨⟨b.fs, boxes', b.head⟩, ?_, h.keep h.idle (fun _ => Iff.rfl) hchain, hlive⟩
  simp [regPublisher, hfd, hfind, hload, hfree]

theorem ofFs_ensures {alpha : Type} {x : Res alpha} {P : alpha -> Prop}
    (h : forall r, x = .ok r -> P r) : Ensures NotSession (ofFs x) P := by
  cases x with
  | error e => simp [Ensures, NotSession, HeapMisuse]
  | ok r => exact h r rfl

theorem bufferText_ensures (buffer : List UInt8) :
    Ensures NotSession (bufferText buffer) fun _ => True := by
  rw [bufferText]
  split
  · trivial
  · simp [Ensures, NotSession, HeapMisuse]

theorem fitsMessage_ensures (message : CStr) :
    Ensures NotSession (fitsMessage message) fun _ => True := by
  rw [fitsMessage]
  split
  · trivial
  · simp [Ensures, NotSession, HeapMisuse]

theorem sendRequest_ensures (env : Env) (n fd : Nat) (text : List UInt8) :
    Ensures NotExit (sendRequest env n fd text)
      fun event => exists bytes, event = .wrote fd bytes := by
  rw [sendRequest]
  split
  · exact ⟨_, rfl⟩
  · simp [Ensures, NotExit]

/-- A write keeps one file open, and the names. -/
theorem publishLoop_busy {fs : Fs} (h : Busy fs) (fh : Int) (reads : List Chunk)
    (buffer : List UInt8) (message : CStr) :
    Ensures NotSession (publishLoop fh reads buffer message fs)
      fun fs' => Busy fs' ∧ SameNames fs fs' := by
  induction reads generalizing fs buffer message with
  | nil => exact ⟨h, fun _ => Iff.rfl⟩
  | cons read reads ih =>
      rw [publishLoop]
      refine Ensures.bind (bufferText_ensures _) fun text _ => ?_
      refine Ensures.bind (fitsMessage_ensures _) fun message1 _ => ?_
      split
      · exact ⟨h, fun _ => Iff.rfl⟩
      · refine Ensures.bind (fitsMessage_ensures _) fun message2 _ => ?_
        refine Ensures.bind (ofFs_ensures fun r hwrite => write_busy h hwrite) fun r hbusy => ?_
        rcases r with ⟨r, fs1⟩
        rcases hbusy with ⟨hbusy, hsame⟩
        by_cases hbreak : r + 1 < 0
        · simp only [if_pos hbreak]
          exact ⟨hbusy, hsame⟩
        · simp only [if_neg hbreak]
          exact (ih hbusy _ message2).weaken fun fs' hfs' =>
            ⟨hfs'.left, fun held => (hfs'.right held).trans (hsame held)⟩

/-- A session on a box of the list runs the loop on its open file, and leaves the list as
it was. -/
theorem regPublisher_eq (h : Good b (pre ++ (a, box) :: post))
    (hname : box.boxName.str = clientInput.boxName.str) (hfd : env.fd = some fd) :
    exists boxes, Chain boxes b.head (pre ++ (a, box) :: post) ∧ boxes.Live b.boxes.top ∧
      forall fs1, tfsOpen (some clientInput.boxName.str) tfsOAppend b.fs = .ok (0, fs1) ->
        regPublisher clientInput env b = (do
          let fs2 <- publishLoop 0 env.reads ((List.range bufferSize).map env.buffer) emptyStr fs1
          let (_, fs3) <- ofFs (tfsClose 0 fs2)
          pure ([.opened fd, .tfsOpened 0, .tfsClosed 0, .closed fd],
            ⟨fs3, boxes, b.head⟩)) := by
  rcases h.name_mem hname with ⟨hmem, hnotPre⟩
  have hfind := findBox_found (.array clientInput.boxName.str) env.node h.chain rfl hname hnotPre
  have hchain : Chain (b.boxes.alloc env.node).2 b.head (pre ++ (a, box) :: post) :=
    Segment.alloc env.node h.chain
  rcases hchain.suffix with ⟨_, n, hcell, _⟩
  have hquiet := (h.quiet (List.mem_append_right pre List.mem_cons_self)).left
  simp only at hquiet
  have hload := Heap.load_eq hcell
  have hlive := Heap.live_of_cell hcell
  have hfirst := modifyBox_eq hcell fun cell =>
    { cell with value := { cell.value with hasWriter := 1 } }
  have hchain1 := Chain.setValue (w := { box with hasWriter := 1 }) hlive hcell hchain
  have htop : a ≠ b.boxes.top := by
    intro htop
    exact h.top_notMem (by simp [addresses, htop])
  have hlive0 : ((b.boxes.alloc env.node).2.update a hlive
      (some ⟨{ box with hasWriter := 1 }, n⟩)).Live b.boxes.top := by
    rw [Heap.Live, Heap.update_other _ _ htop.symm]
    exact b.boxes.alloc_live env.node
  generalize (b.boxes.alloc env.node).2.update a hlive
    (some ⟨{ box with hasWriter := 1 }, n⟩) = boxes1 at hfirst hchain1 hlive0
  rcases hchain1.suffix with ⟨_, n1, hcell1, _⟩
  have hlive1 := Heap.live_of_cell hcell1
  have hlast := modifyBox_eq hcell1 fun cell =>
    { cell with value := { cell.value with hasWriter := 0 } }
  have hchain2 := Chain.setValue (w := box) hlive1 hcell1 hchain1
  have hbox : ({ box with hasWriter := 0 } : Box) = box := by rw [← hquiet]
  refine ⟨_, hchain2, ?_, fun fs1 hopen => ?_⟩
  · rw [Heap.Live, Heap.update_other _ _ htop.symm]
    exact hlive0
  · rw [← hname] at hopen
    simp only [hbox] at hlast
    simp [regPublisher, hfd, hfind, hload, hquiet, hopen, publish, hfirst, hlast]

/-- A session on a box of the list. -/
theorem regPublisher_existing (h : Good b (pre ++ (a, box) :: post))
    (hname : box.boxName.str = clientInput.boxName.str) (hfd : env.fd = some fd) :
    Ensures NotSession (regPublisher clientInput env b)
      fun r => r.1 = [.opened fd, .tfsOpened 0, .tfsClosed 0, .closed fd] ∧
        Good r.2 (pre ++ (a, box) :: post) ∧ r.2.boxes.Live b.boxes.top := by
  rcases h.name_mem hname with ⟨hmem, _⟩
  have hvalid := h.valid hmem
  rcases open_listed h.idle hvalid ((h.named hvalid).mpr hmem) with ⟨fs1, hopen, hbusy, hsame1⟩
  rcases regPublisher_eq h hname hfd with ⟨boxes, hchain, hlive, heq⟩
  rw [heq fs1 hopen]
  refine Ensures.bind (publishLoop_busy hbusy 0 env.reads _ emptyStr) fun fs2 hfs2 => ?_
  rcases hfs2 with ⟨hbusy2, hsame2⟩
  rcases close_busy hbusy2 with ⟨fs3, hclose, hidle, hsame3⟩
  simp only [hclose, ofFs_ok, ok_bind]
  refine ⟨rfl, h.keep hidle (fun held => ?_) hchain, hlive⟩
  rw [sameNames_of_storage hsame3 held, hsame2 held, sameNames_of_storage hsame1 held]

/-!
## Listing
-/

theorem heapMisuse_notExit (stop : Stop) (h : HeapMisuse stop) : NotExit stop := by
  rcases h with ⟨fault, hfault⟩
  rw [hfault]
  exact Stop.noConfusion

theorem listLoop_chain {boxes : Heap (Cell Box)} {fuel n : Nat} {p : Option Nat}
    (hchain : Chain boxes p cells) (hfuel : cells.length <= fuel) :
    Ensures NotExit (listLoop env fd boxes fuel n p)
      fun listings => forall event, event ∈ listings -> exists bytes, event = .wrote fd bytes := by
  induction cells generalizing p fuel n with
  | nil =>
      rw [show p = none from hchain]
      cases fuel <;> exact fun _ hmem => absurd hmem List.not_mem_nil
  | cons cell cells ih =>
      rcases cell with ⟨a, box⟩
      rcases hchain with ⟨hp, next, hcell, hrest⟩
      cases fuel with
      | zero => cases hfuel
      | succ fuel =>
          rw [hp, listLoop, Heap.load_eq hcell, ofHeap_ok, ok_bind]
          refine Ensures.bind (sendRequest_ensures _ _ _ _) fun listing hlisting => ?_
          refine Ensures.bind (ih hrest (Nat.le_of_succ_le_succ hfuel)) fun listings hlistings => ?_
          intro event hmem
          rcases List.mem_cons.mp hmem with heq | htail
          · rw [heq]
            exact hlisting
          · exact hlistings event htail

/-- The listing writes frames, and closes the pipe. -/
theorem listBox_chain (h : Good b cells) (clientInput : Args) (env : Env) :
    Ensures NotExit (listBox clientInput env b) fun r => r.2 = b ∧ (env.fd = none ∧ r.1 = [] ∨
      exists fd listings, env.fd = some fd ∧ r.1 = .opened fd :: listings ++ [.closed fd] ∧
        forall event, event ∈ listings -> exists bytes, event = .wrote fd bytes) := by
  rw [listBox]
  cases env.fd with
  | none => exact ⟨rfl, Or.inl ⟨rfl, rfl⟩⟩
  | some fd =>
      cases hhead : b.head with
      | none =>
          refine Ensures.bind (sendRequest_ensures _ _ _ _) fun listing hlisting => ?_
          refine ⟨rfl, Or.inr ⟨fd, [listing], rfl, rfl, fun event hmem => ?_⟩⟩
          rw [List.mem_singleton.mp hmem]
          exact hlisting
      | some p =>
          have hchain := h.chain
          rw [hhead] at hchain
          refine Ensures.bind (listLoop_chain hchain hchain.length_le) fun listings hwrote => ?_
          exact ⟨rfl, Or.inr ⟨fd, listings, rfl, rfl, hwrote⟩⟩

end Requests

end Broker
end TecnicoFs
