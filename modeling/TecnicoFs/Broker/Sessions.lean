import TecnicoFs.Library.Scanning
import TecnicoFs.Broker.Appends
import TecnicoFs.Broker.Publishing

/-!
# Sessions on a box

When every read of a session holds one message, the session appends the texts of its
messages to the box, each with a space behind it, as far as the box has room.  So do any
number of sessions one after another.
-/

namespace TecnicoFs
namespace Broker

open Library

def sendCode : Int := 9

def serverSend : Int := 10

def serializeMessage (code : Int) (msg : List UInt8) : List UInt8 :=
  formatInt code ++ [32] ++ msg

/-- The bytes that a box gets for these texts. -/
def published (texts : List CStr) : List UInt8 :=
  texts.flatMap fun text => (text.strcat space).bytes

/-- The bytes of a box that had `content` when they are appended. -/
def boxAfter (content : List UInt8) (texts : List CStr) : List UInt8 :=
  (content ++ published texts).take boxSize

/-- The read ends a string of its own, with this text as its message. -/
structure Delivers (read : Chunk) (text : CStr) : Prop where
  ended : 0 ∈ read.bytes
  message : messageIn (ownText read) = some text
  fits : text.strlen + 1 < msize

section Sessions

variable {fs : Fs} {held : CStr} {content : List UInt8} {b b' : State}
  {pre post : List (Nat × Box)} {a fd : Nat} {box : Box} {clientInput : Args} {env : Env}

theorem take_take_append (n : Nat) (xs ys : List UInt8) :
    (xs.take n ++ ys).take n = (xs ++ ys).take n := by
  by_cases hle : n <= xs.length
  · rw [List.take_append_of_le_length (by simp; omega), List.take_append_of_le_length hle,
      List.take_take, Nat.min_self]
  · rw [List.take_of_length_le (Nat.le_of_not_le hle)]

theorem boxAfter_cons (content : List UInt8) (text : CStr) (texts : List CStr) :
    boxAfter ((content ++ (text.strcat space).bytes).take boxSize) texts =
      boxAfter content (text :: texts) := by
  rw [boxAfter, take_take_append, boxAfter, published, published, List.flatMap_cons,
    List.append_assoc]

theorem boxAfter_nil (h : content.length <= boxSize) : boxAfter content [] = content := by
  rw [boxAfter, published, List.flatMap_nil, List.append_nil, List.take_of_length_le h]

/-- A turn writes the message that its read delivers. -/
theorem publishLoop_turn {fh r : Int} {fs1 : Fs} {read : Chunk} {reads : List Chunk} {text : CStr}
    (hdelivers : Delivers read text)
    (hwrite : tfsWrite fh (text.strcat space).bytes (text.strcat space).strlen fs = .ok (r, fs1))
    (hr : -1 <= r) (buffer : List UInt8) (message : CStr) :
    publishLoop fh (read :: reads) buffer message fs =
      publishLoop fh reads (List.replicate bufferSize 0) (text.strcat space) fs1 := by
  have hne := messageIn_ne hdelivers.message
  have hlength : (text.strcat space).strlen = text.strlen + 1 := List.length_append
  have hfits : (text.strcat space).strlen < msize := hlength ▸ hdelivers.fits
  have hfits' : text.strlen < msize := Nat.lt_of_succ_lt hdelivers.fits
  rcases undisturbed_of_mem hdelivers.ended buffer with ⟨hmem, hundisturbed⟩
  rw [afterRead] at hmem hundisturbed
  have hscan : scanMessage (CStr.ofBuffer (read.bytes ++ buffer.drop read.bytes.length)) message =
      text := by
    rw [scanMessage_eq, hundisturbed, hdelivers.message]
    rfl
  have hbreak : ¬ r + 1 < 0 := by omega
  rw [publishLoop, bufferText_mem hmem, ok_bind, hscan, fitsMessage, if_pos hfits', ok_bind,
    if_neg hne, fitsMessage, if_pos hfits, ok_bind, hwrite, ofFs_ok, ok_bind]
  simp only [if_neg hbreak]

/-- A turn appends the message that its read delivers. -/
theorem publishLoop_cons {read : Chunk} {reads : List Chunk} {text : CStr}
    (h : AtEnd fs held content) (hroom : HasRoom fs content) (hdelivers : Delivers read text)
    (buffer : List UInt8) (message : CStr) :
    exists fs1, publishLoop 0 (read :: reads) buffer message fs =
        publishLoop 0 reads (List.replicate bufferSize 0) (text.strcat space) fs1 ∧
      AtEnd fs1 held ((content ++ (text.strcat space).bytes).take boxSize) ∧
      HasRoom fs1 ((content ++ (text.strcat space).bytes).take boxSize) ∧
      SameOthers held fs fs1 := by
  have hlength : (text.strcat space).strlen = text.strlen + 1 := List.length_append
  have hfits : (text.strcat space).strlen < msize := hlength ▸ hdelivers.fits
  rcases AtEnd.write h hfits hroom with
    ⟨r, fs1, hwrite, hr, hatEnd, hothers⟩
  refine ⟨fs1, publishLoop_turn hdelivers hwrite (by omega) buffer message, hatEnd, Or.inl ?_,
    hothers⟩
  intro hnil
  have hzero := congrArg List.length hnil
  simp [CStr.strcat, space, boxSize, tfsDefaultParams] at hzero

/-- A session whose reads deliver messages appends their texts. -/
theorem publishLoop_delivers {reads : List Chunk} {texts : List CStr}
    (hdelivers : List.Forall₂ Delivers reads texts) (h : AtEnd fs held content)
    (hroom : HasRoom fs content) (buffer : List UInt8) (message : CStr) :
    exists fs', publishLoop 0 reads buffer message fs = .ok fs' ∧
      AtEnd fs' held (boxAfter content texts) ∧ HasRoom fs' (boxAfter content texts) ∧
      SameOthers held fs fs' := by
  induction hdelivers generalizing fs content buffer message with
  | nil =>
      rw [boxAfter_nil h.length_le]
      exact ⟨fs, rfl, h, hroom, SameOthers.refl held fs⟩
  | cons hfirst _ ih =>
      rcases publishLoop_cons h hroom hfirst buffer message with
        ⟨fs1, hloop, hatEnd, hroom1, hothers⟩
      rcases ih hatEnd hroom1 (List.replicate bufferSize 0) _ with
        ⟨fs', hrest, hatEnd', hroom', hothers'⟩
      rw [boxAfter_cons] at hatEnd' hroom'
      exact ⟨fs', hloop.trans hrest, hatEnd', hroom', hothers.trans hothers'⟩

/-- The box, its file and the other files after a session. -/
structure Appended (b b' : State) (cells : List (Nat × Box)) (held : CStr)
    (content : List UInt8) : Prop where
  good : Good b' cells
  full : FullData b'.fs
  holds : fileContent b'.fs held = some content
  room : HasRoom b'.fs content
  others : SameOthers held b.fs b'.fs

theorem hasRoom_of_storage {fs fs' : Fs} (h : SameStorage fs fs') (hroom : HasRoom fs content) :
    HasRoom fs' content := by
  rw [HasRoom, HasFreeBlock, h.freeBlocks]
  exact hroom

/-- A session on a box of the list opens its file at the end, and closes it behind the
loop. -/
theorem regPublisher_loop (h : Good b (pre ++ (a, box) :: post)) (hfull : FullData b.fs)
    (hname : box.boxName.str = clientInput.boxName.str) (hfd : env.fd = some fd)
    (hcontent : fileContent b.fs (skipSlash (some clientInput.boxName.str)) = some content) :
    exists fs1, SameStorage b.fs fs1 ∧
      AtEnd fs1 (skipSlash (some clientInput.boxName.str)) content ∧
      forall fs2 content', publishLoop 0 env.reads ((List.range bufferSize).map env.buffer)
          emptyStr fs1 = .ok fs2 ->
        AtEnd fs2 (skipSlash (some clientInput.boxName.str)) content' ->
        exists b', regPublisher clientInput env b =
            .ok ([.opened fd, .tfsOpened 0, .tfsClosed 0, .closed fd], b') ∧
          Good b' (pre ++ (a, box) :: post) ∧ FullData b'.fs ∧ SameStorage fs2 b'.fs := by
  have hvalid := h.valid (h.name_mem hname).left
  rcases h.idle.steady.inv with ⟨made, hinv⟩
  rcases hinv.content_cases (skipSlash (some clientInput.boxName.str)) with
    ⟨_, hnone⟩ | ⟨i, k, inode, hlisted, _, _, hinode, _, hsome⟩
  · rw [hcontent] at hnone
    cases hnone
  · rw [hcontent] at hsome
    have hbytes := (Option.some.inj hsome).symm
    rcases AtEnd.of_open h.idle hfull hvalid hlisted hinode with ⟨fs1, hopen, hsame1, hend⟩
    rw [hbytes] at hend
    refine ⟨fs1, hsame1, hend, fun fs2 content' hloop hatEnd => ?_⟩
    rcases close_busy hatEnd.busy with ⟨fs3, hclose, _, hsame3⟩
    have hexec3 : exec (.close 0) fs2 = .ok (⟨0, []⟩, fs3) := by
      simp [exec, hclose]
    rcases regPublisher_eq h hname hfd with ⟨boxes, _, _, heq⟩
    have hserve := heq fs1 hopen
    simp only [hloop, hclose, ofFs_ok, ok_bind, pure_ok] at hserve
    exact ⟨_, hserve, ((regPublisher_existing h hname hfd).value hserve).right.left,
      fullData_preserved hatEnd.full hexec3 trivial, hsame3⟩

/-- A session on a box of the list whose reads deliver messages. -/
theorem regPublisher_delivers (h : Good b (pre ++ (a, box) :: post)) (hfull : FullData b.fs)
    (hname : box.boxName.str = clientInput.boxName.str) (hfd : env.fd = some fd)
    (hcontent : fileContent b.fs (skipSlash (some clientInput.boxName.str)) = some content)
    (hroom : HasRoom b.fs content) {texts : List CStr}
    (hdelivers : List.Forall₂ Delivers env.reads texts) :
    exists b', regPublisher clientInput env b =
        .ok ([.opened fd, .tfsOpened 0, .tfsClosed 0, .closed fd], b') ∧
      Appended b b' (pre ++ (a, box) :: post) (skipSlash (some clientInput.boxName.str))
        (boxAfter content texts) := by
  rcases regPublisher_loop h hfull hname hfd hcontent with ⟨fs1, hsame1, hatEnd, hsession⟩
  rcases publishLoop_delivers hdelivers hatEnd (hasRoom_of_storage hsame1 hroom)
    ((List.range bufferSize).map env.buffer) emptyStr with
    ⟨fs2, hloop, hatEnd2, hroom2, hothers⟩
  rcases hsession fs2 _ hloop hatEnd2 with ⟨b', hserve, hgood, hfull', hsame3⟩
  refine ⟨b', hserve, hgood, hfull', ?_, hasRoom_of_storage hsame3 hroom2, ?_⟩
  · exact (hsame3.content _).trans hatEnd2.content_eq
  · exact ((sameOthers_of_storage _ hsame1).trans hothers).trans (sameOthers_of_storage _ hsame3)

/-!
## Messages of lines
-/

theorem ofBuffer_eq {xs : List UInt8} (h : 0 ∉ xs) (rest : List UInt8) :
    (CStr.ofBuffer (xs ++ 0 :: rest)).bytes = xs := by
  refine takeWhile_stops (fun c hc => ?_) (stops_cons (by decide) rest)
  rw [bne_iff_ne]
  exact fun heq => h (heq ▸ hc)

/-- A text that fits a frame with its terminator is the string of the frame. -/
theorem frame_text {text : List UInt8} (hnoNul : 0 ∉ text) (hlength : text.length < frameSize)
    (behind : Nat -> UInt8) :
    (frame text behind).length = frameSize ∧ 0 ∈ frame text behind ∧
      (CStr.ofBuffer (frame text behind)).bytes = text := by
  have hsplit : frame text behind =
      text ++ 0 :: ((List.range frameSize).map behind).take (frameSize - text.length - 1) := by
    have hcons : frameSize - text.length = frameSize - text.length - 1 + 1 := by omega
    rw [frame, List.append_assoc, List.take_append, List.take_of_length_le (Nat.le_of_lt hlength),
      hcons]
    rfl
  refine ⟨?_, ?_, ?_⟩
  · rw [frame, List.length_take]
    simp only [List.length_append, List.length_map, List.length_range]
    omega
  · rw [hsplit]
    simp
  · rw [hsplit]
    exact ofBuffer_eq hnoNul _

/-- The message in a serialised text that white space may precede. -/
theorem messageIn_serialize {s text : CStr} {ws tail : List UInt8} {code : Int}
    (hs : s.bytes = ws ++ serializeMessage code (text.bytes ++ tail))
    (hws : forall c, c ∈ ws -> isSpace c = true) (hlow : -2147483648 <= code)
    (hhigh : code < 2147483648) (hne : text.strlen ≠ 0) (hstarts : Stops isSpace text.bytes)
    (hline : 10 ∉ text.bytes) (hstop : Stops (· != 10) tail) : messageIn s = some text := by
  have hrest : 0 ∉ (32 : UInt8) :: (text.bytes ++ tail) := by
    intro hmem
    apply s.noNul
    rw [hs, serializeMessage]
    simp only [List.mem_append]
    rcases List.mem_cons.mp hmem with hzero | hmem
    · cases hzero
    · exact Or.inr (Or.inr (List.mem_append.mp hmem))
  have htail : 0 ∉ tail := fun hmem =>
    hrest (List.mem_cons_of_mem _ (List.mem_append_right _ hmem))
  have hscan : scanInt s = some (code, ⟨32 :: (text.bytes ++ tail), hrest⟩) := by
    have hbytes : s.bytes = ws ++ (formatInt code ++ 32 :: (text.bytes ++ tail)) := by
      rw [hs, serializeMessage, List.append_assoc]
      rfl
    exact scanInt_format hbytes hws hlow hhigh (stops_cons (by decide) _)
  have hskip : CStr.dropWhile ⟨32 :: (text.bytes ++ tail), hrest⟩ isSpace =
      ⟨text.bytes ++ tail, fun hmem => hrest (List.mem_cons_of_mem _ hmem)⟩ := by
    have hspace : (32 : UInt8) :: (text.bytes ++ tail) = [32] ++ (text.bytes ++ tail) := rfl
    refine CStr.dropWhile_eq hspace ?_ ?_
    · intro c hc
      rw [List.mem_singleton.mp hc]
      decide
    · exact hstarts.append (fun hnil => hne (congrArg List.length hnil)) tail
  rw [messageIn, hscan]
  simp only [hskip]
  have hsplit : scanLine ⟨text.bytes ++ tail, fun hmem =>
      hrest (List.mem_cons_of_mem _ hmem)⟩ = some (text, ⟨tail, htail⟩) :=
    scanLine_line rfl hne hline hstop
  rw [hsplit]
  rfl

/-- A read of a serialised text with its terminator, which white space may precede,
delivers the text. -/
theorem delivers_serialized {read : Chunk} {text : CStr} {ws tail : List UInt8}
    (hread : read.bytes = ws ++ (serializeMessage sendCode (text.bytes ++ tail) ++ [0]))
    (hws : forall c, c ∈ ws -> isSpace c = true) (htail : 0 ∉ tail) (hne : text.strlen ≠ 0)
    (hstarts : Stops isSpace text.bytes) (hline : 10 ∉ text.bytes)
    (hstop : Stops (· != 10) tail) : Delivers read text := by
  have hnoNul : 0 ∉ ws ++ serializeMessage sendCode (text.bytes ++ tail) := by
    have hcode : (0 : UInt8) ∉ formatInt sendCode ++ [32] := by decide
    rw [serializeMessage]
    simp only [List.mem_append, not_or] at hcode ⊢
    exact ⟨fun hmem => absurd (hws 0 hmem) (by decide), hcode, text.noNul, htail⟩
  rw [← List.append_assoc] at hread
  have hown : (ownText read).bytes = ws ++ serializeMessage sendCode (text.bytes ++ tail) := by
    rw [ownText, hread, List.append_assoc]
    exact ofBuffer_eq hnoNul [0]
  constructor
  · rw [hread]
    exact List.mem_append_right _ List.mem_cons_self
  · exact messageIn_serialize hown hws (by decide) (by decide) hne hstarts hline hstop
  · have hfits := read.fits
    have hcode : (formatInt sendCode).length = 1 := by decide
    rw [hread, serializeMessage] at hfits
    simp only [List.length_append, List.length_cons, List.length_nil, hcode] at hfits
    rw [CStr.strlen]
    omega

end Sessions

/-- A text that a publisher can send in one message of at most {lit}`MSIZE` bytes. -/
structure Line where
  text : CStr
  nonempty : text.strlen ≠ 0
  starts : Stops isSpace text.bytes
  oneLine : 10 ∉ text.bytes
  fits : text.strlen + 4 <= msize

namespace Line

/-- The message of the line: its code, the line with its newline, and the terminator. -/
def message (line : Line) : List UInt8 :=
  serializeMessage sendCode (line.text.bytes ++ [10]) ++ [0]

theorem message_length (line : Line) : line.message.length = line.text.strlen + 4 := by
  have hcode : (formatInt sendCode).length = 1 := by decide
  rw [message, serializeMessage]
  simp only [List.length_append, List.length_cons, List.length_nil, hcode, CStr.strlen]
  omega

/-- The read that holds exactly the message. -/
def chunk (line : Line) : Chunk where
  bytes := line.message
  nonempty := by
    rw [message_length]
    omega
  fits := by
    rw [message_length]
    exact line.fits

/-- A read of the message, which white space may precede, delivers the text. -/
theorem delivers (line : Line) {read : Chunk} {ws : List UInt8}
    (hread : read.bytes = ws ++ line.message) (hws : forall c, c ∈ ws -> isSpace c = true) :
    Delivers read line.text :=
  delivers_serialized hread hws (by decide) line.nonempty line.starts line.oneLine
    (stops_cons (by decide) [])

end Line

/-!
## Runs of sessions
-/

/-- A session on the box of this name, with one message in each read. -/
def Publishes (name : CStr) (request : Request) (lines : List Line) : Prop :=
  exists clientInput env fd, request = .regPublisher clientInput env ∧
    clientInput.boxName.str = name ∧ env.fd = some fd ∧ env.reads = lines.map Line.chunk

theorem delivers_lines (lines : List Line) :
    List.Forall₂ Delivers (lines.map Line.chunk) (lines.map Line.text) := by
  induction lines with
  | nil => exact List.Forall₂.nil
  | cons line lines ih =>
      have hchunk : line.chunk.bytes = [] ++ line.message := rfl
      exact List.Forall₂.cons (line.delivers hchunk fun c hc => absurd hc List.not_mem_nil) ih

theorem boxAfter_append (content : List UInt8) (texts texts' : List CStr) :
    boxAfter (boxAfter content texts) texts' = boxAfter content (texts ++ texts') := by
  rw [boxAfter, boxAfter, take_take_append, boxAfter, published, published, published,
    List.flatMap_append, List.append_assoc]

section Runs

variable {b b' : State} {cells : List (Nat × Box)} {content : List UInt8} {a : Nat} {box : Box}
  {name : CStr}

theorem content_length_le {fs : Fs} (h : Steady fs) {held : CStr}
    (hcontent : fileContent fs held = some content) : content.length <= boxSize := by
  rcases h.inv with ⟨made, hinv⟩
  rcases hinv.content_cases held with ⟨_, hnone⟩ | ⟨_, _, inode, _, _, _, _, hfile, hsome⟩
  · rw [hcontent] at hnone
    cases hnone
  · rw [hcontent] at hsome
    rw [Option.some.inj hsome, inodeBytes_length, ← h.blockSize]
    exact hfile.size

/-- Sessions on one box append their texts one after another. -/
theorem runRequests_publish {requests : List Request} {sessions : List (List Line)}
    (hsessions : List.Forall₂ (Publishes name) requests sessions) (h : Good b cells)
    (hfull : FullData b.fs) (hmem : (a, box) ∈ cells) (hname : box.boxName.str = name)
    (hcontent : fileContent b.fs (skipSlash (some name)) = some content)
    (hroom : HasRoom b.fs content) :
    exists events b', runRequests requests b = .ok (events, b') ∧
      Appended b b' cells (skipSlash (some name))
        (boxAfter content (sessions.flatten.map Line.text)) := by
  induction hsessions generalizing b content with
  | nil =>
      have hsame := boxAfter_nil (content_length_le h.idle.steady hcontent)
      refine ⟨[], b, rfl, h, hfull, ?_, ?_, SameOthers.refl _ _⟩
      · exact hcontent.trans (congrArg some hsame.symm)
      · exact hsame.symm ▸ hroom
  | @cons request lines _ _ hfirst _ ih =>
      rcases hfirst with ⟨clientInput, env, fd, hrequest, hinput, hfd, hreads⟩
      rcases List.append_of_mem hmem with ⟨pre, post, hsplit⟩
      have hdelivers := delivers_lines lines
      rw [← hreads] at hdelivers
      rw [hsplit] at h
      rw [← hinput] at hname hcontent
      rcases regPublisher_delivers h hfull hname hfd hcontent hroom hdelivers with
        ⟨b1, hserve, happended⟩
      rw [hinput] at hname happended
      rw [← hsplit] at happended
      rcases ih happended.good happended.full happended.holds happended.room with
        ⟨events, b', hrun, hrest⟩
      rw [boxAfter_append, ← List.map_append] at hrest
      have hfirst : serve (.regPublisher clientInput env) b =
          .ok ([.opened fd, .tfsOpened 0, .tfsClosed 0, .closed fd], b1) := hserve
      refine ⟨_, b', run_cons_ok.mpr ⟨_, b1, events, hrequest ▸ hfirst, hrun, rfl⟩, ?_⟩
      exact ⟨hrest.good, hrest.full, hrest.holds, hrest.room, happended.others.trans hrest.others⟩

/-- From a state that the broker reaches before it frees a linked node, sessions on a box
append the texts of their messages in order, as far as the box has room, and leave the
boxes, the handles and the other boxes' files as they were. -/
theorem sessions_append (hreach : Reachable b) (hlive : AllLive b) (hbox : HoldsBox b a box)
    (hcontent : fileContent b.fs (skipSlash (some box.boxName.str)) = some content)
    (hroom : HasRoom b.fs content) {requests : List Request} {sessions : List (List Line)}
    (hsessions : List.Forall₂ (Publishes box.boxName.str) requests sessions) :
    exists events b', runRequests requests b = .ok (events, b') ∧
      fileContent b'.fs (skipSlash (some box.boxName.str)) =
        some (boxAfter content (sessions.flatten.map Line.text)) ∧
      HoldsBox b' a box ∧ box.hasWriter = 0 ∧
      (forall i, i < b'.fs.maxOpenFiles -> b'.fs.freeOpenFileEntries[i]? = some .free) ∧
      forall a' other, HoldsBox b a' other -> a' ≠ a ->
        fileContent b'.fs (skipSlash (some other.boxName.str)) =
          fileContent b.fs (skipSlash (some other.boxName.str)) := by
  rcases hreach.good hlive with ⟨cells, h⟩
  have hmem := h.holdsBox_iff.mp hbox
  rcases runRequests_publish hsessions h hreach.fullData hmem rfl hcontent hroom with
    ⟨events, b', hrun, happended⟩
  refine ⟨events, b', hrun, happended.holds, happended.good.holdsBox_iff.mpr hmem,
    (h.quiet hmem).left, fun i hi => happended.good.idle.handle_free hi, ?_⟩
  intro a' other hother hne
  have hmem' := h.holdsBox_iff.mp hother
  refine happended.others _ fun hsame => hne ?_
  have hname : other.boxName.str = box.boxName.str :=
    skipSlash_injective (h.valid (List.mem_map_of_mem hmem'))
      (h.valid (List.mem_map_of_mem hmem)) hsame
  exact congrArg Prod.fst (List.inj_on_of_nodup_map h.nodup hmem' hmem hname)

end Runs

/-!
## Sessions on two new boxes
-/

theorem stateAfter_reachable {requests : List Request} (h : (served requests).isOk = true) :
    Reachable (stateAfter requests) := by
  rcases served_ok h with ⟨events, hrun⟩
  exact ⟨smallMallocs, Fs.unset, defaultFs, requests, events, defaultInit, hrun⟩

def boxA : Box := ⟨argsA.boxName, 0, 0⟩

theorem chainA : Chain (stateAfter [createA]).boxes (stateAfter [createA]).head [(0, boxA)] :=
  ⟨by decide +kernel, none, by decide +kernel, rfl⟩

theorem boxA_held : HoldsBox (stateAfter [createA]) 0 boxA :=
  (holdsBox_chain chainA).mpr List.mem_cons_self

theorem createdA_reachable :
    Reachable (stateAfter [createA]) ∧ AllLive (stateAfter [createA]) :=
  ⟨stateAfter_reachable (by decide +kernel), allLive_chain chainA⟩

/-- The arguments of a request for the box {lit}`/b`. -/
def argsB : Args := { argsA with boxName := ⟨⟨ascii "/b", by decide⟩, by decide⟩ }

def createB : Request := .createBox argsB (openEnv [])

def boxB : Box := ⟨argsB.boxName, 0, 0⟩

theorem chainAB : Chain (stateAfter [createA, createB]).boxes
    (stateAfter [createA, createB]).head [(0, boxA), (1, boxB)] :=
  ⟨by decide +kernel, some 1, by decide +kernel, rfl, none, by decide +kernel, rfl⟩

def hiLine : Line where
  text := ⟨ascii "hi", by decide⟩
  nonempty := by decide
  starts := stops_cons (by decide) _
  oneLine := by decide
  fits := by decide

def yoLine : Line where
  text := ⟨ascii "yo", by decide⟩
  nonempty := by decide
  starts := stops_cons (by decide) _
  oneLine := by decide
  fits := by decide

/-- A session on {lit}`/a` with the message {lit}`hi`. -/
def publishHi : Request := .regPublisher argsA (openEnv ([hiLine].map Line.chunk))

def publishHiYo : Request := .regPublisher argsA (openEnv ([hiLine, yoLine].map Line.chunk))

/-- A session with two messages and one with a third; the other box stays empty. -/
theorem sessions_append_hi : exists events b',
    runRequests [publishHiYo, publishHi] (stateAfter [createA, createB]) = .ok (events, b') ∧
      fileContent b'.fs (skipSlash (some argsA.boxName.str)) = some (ascii "hi yo hi ") ∧
      fileContent b'.fs (skipSlash (some argsB.boxName.str)) = some [] := by
  have hreach : Reachable (stateAfter [createA, createB]) :=
    stateAfter_reachable (by decide +kernel)
  have hboxA : HoldsBox (stateAfter [createA, createB]) 0 boxA :=
    (holdsBox_chain chainAB).mpr List.mem_cons_self
  have hboxB : HoldsBox (stateAfter [createA, createB]) 1 boxB :=
    (holdsBox_chain chainAB).mpr (List.mem_cons_of_mem _ List.mem_cons_self)
  have hcontent : fileContent (stateAfter [createA, createB]).fs
      (skipSlash (some argsA.boxName.str)) = some [] := by decide +kernel
  have hcontentB : fileContent (stateAfter [createA, createB]).fs
      (skipSlash (some argsB.boxName.str)) = some [] := by decide +kernel
  have hroom : HasRoom (stateAfter [createA, createB]).fs [] := Or.inr ⟨1, by decide +kernel⟩
  have hfirst : Publishes argsA.boxName.str publishHiYo [hiLine, yoLine] :=
    ⟨argsA, _, 3, rfl, rfl, rfl, rfl⟩
  have hsecond : Publishes argsA.boxName.str publishHi [hiLine] :=
    ⟨argsA, _, 3, rfl, rfl, rfl, rfl⟩
  rcases sessions_append hreach (allLive_chain chainAB) hboxA hcontent hroom
    (List.Forall₂.cons hfirst (List.Forall₂.cons hsecond List.Forall₂.nil)) with
    ⟨events, b', hrun, hafter, _, _, _, hothers⟩
  exact ⟨events, b', hrun, hafter, (hothers 1 boxB hboxB (by decide)).trans hcontentB⟩

end Broker
end TecnicoFs
