import TecnicoFs.Broker.Forwarding
import TecnicoFs.Broker.Splits
import TecnicoFs.Clients.Subscriber
import TecnicoFs.System.Refinement

/-!
# Subscribers of the abstract boxes

The broker has one thread, so nothing else happens to the files while a subscriber has its
session.  The first poll reads all the bytes of the box and sends them as one message.
Every later one reads nothing, and none of them ends the session.
-/

namespace TecnicoFs

open Library

/-!
## A file that is read
-/

namespace AbstractFs

variable {params : TfsParams} {a : AbstractFs} {path : Option CStr} {name : CStr}
  {offset : Nat}

/-- Opening a file that exists, to read from its start. -/
theorem openFile_start (hpos : 0 < params.maxOpenFilesCount)
    (hclosed : forall h, a.handles h = none) (hvalid : validPathname path = true)
    (hthere : skipSlash path ∈ a.names) :
    a.openFile params path tfsOCreat = (0, a.setHandle 0 (some (skipSlash path, 0))) := by
  have hkeep : a.truncated tfsOCreat (skipSlash path) = a := rfl
  have hoffset : hasFlag tfsOCreat tfsOAppend = false := by decide
  rw [openFile, if_neg (by simp [hvalid]), if_pos hthere]
  simp only [hkeep, hoffset, newHandle, freeHandle_first hpos hclosed]
  rfl

theorem readFile_first (h : a.handles 0 = some (name, offset)) (len : Nat) :
    a.readFile 0 len =
      (⟨(((a.content name).drop offset).take len).length,
          ((a.content name).drop offset).take len⟩,
        a.setHandle 0
          (some (name, offset + (((a.content name).drop offset).take len).length))) := by
  have hentry : a.entry ((0 : Nat) : Int) = some (name, offset) := entry_eq h
  rw [Int.ofNat_zero] at hentry
  rw [readFile, hentry]
  rfl

theorem handles_setHandle (entry : Option (CStr × Nat)) :
    (a.setHandle 0 entry).handles 0 = entry := by
  simp [setHandle]

/-- A read at the end of the file yields nothing and changes nothing. -/
theorem readFile_end (h : a.handles 0 = some (name, offset))
    (hend : (a.content name).length <= offset) (len : Nat) :
    a.readFile 0 len = (⟨0, []⟩, a) := by
  rw [readFile_first h, List.drop_eq_nil_of_le hend, List.take_nil]
  exact congrArg (Prod.mk _) (setHandle_self h)

end AbstractFs

theorem Refines.tfsRead {params : TfsParams} {fs : Fs} {files files' : AbstractFs} {fhandle r : Int}
    {len : Nat} {data : List UInt8} (h : Refines params fs files)
    (hread : files.readFile fhandle len = (⟨r, data⟩, files')) :
    exists fs', tfsRead fhandle len fs = .ok (r, data, fs') ∧ Refines params fs' files' := by
  rcases h.inv with ⟨made, hinv⟩
  rcases h.readStep fhandle len with ⟨fs', hstep, h'⟩
  rw [hread] at hstep h'
  exact ⟨fs', hstep.sound hinv, h'⟩

namespace System

open Broker

/-!
## Contents
-/

/-- A subscriber's scan takes the whole of these bytes. -/
structure Readable (content : List UInt8) : Prop where
  noNul : 0 ∉ content
  oneLine : 10 ∉ content
  starts : Stops isSpace content

theorem Readable.nil : Readable [] := ⟨List.not_mem_nil, List.not_mem_nil, stops_nil⟩

/-- The texts that a publisher's lines leave in a box. -/
structure Publishable (text : CStr) : Prop where
  nonempty : text.strlen ≠ 0
  starts : Stops isSpace text.bytes
  oneLine : 10 ∉ text.bytes

theorem publishable_lines {lines : List InputLine}
    (h : forall line, line ∈ lines -> line.text.strlen ≠ 0 ∧ Stops isSpace line.text.bytes) :
    forall text, text ∈ lines.map InputLine.text -> Publishable text := by
  intro text htext
  rcases List.mem_map.mp htext with ⟨line, hline, heq⟩
  rcases h line hline with ⟨hne, hstarts⟩
  rw [← heq]
  refine ⟨hne, hstarts, fun hmem => ?_⟩
  have hnot := List.mem_takeWhile_imp hmem
  simp at hnot

theorem published_plain {texts : List CStr} (htexts : forall text, text ∈ texts -> Publishable text)
    {c : UInt8} (hc : c ∈ published texts) : c ≠ 0 ∧ c ≠ 10 := by
  rcases List.mem_flatMap.mp hc with ⟨text, htext, hc⟩
  rcases List.mem_append.mp hc with hc | hc
  · exact ⟨fun heq => text.noNul (heq ▸ hc), fun heq => (htexts text htext).oneLine (heq ▸ hc)⟩
  · rw [List.mem_singleton.mp hc]
    decide

theorem Readable.starts_published {content : List UInt8} {texts : List CStr} (h : Readable content)
    (htexts : forall text, text ∈ texts -> Publishable text) :
    Stops isSpace (content ++ published texts) := by
  cases content with
  | cons c content => exact h.starts.append (List.cons_ne_nil c content) _
  | nil =>
      cases texts with
      | nil => exact stops_nil
      | cons text texts =>
          have htext := htexts text List.mem_cons_self
          have hne : text.bytes ≠ [] :=
            fun hnil => htext.nonempty (List.length_eq_zero_iff.mpr hnil)
          have hbytes : (text.strcat space).bytes = text.bytes ++ [32] := rfl
          rw [published, List.flatMap_cons, hbytes, List.nil_append, List.append_assoc]
          exact htext.starts.append hne _

theorem Readable.boxAfter {content : List UInt8} {texts : List CStr} (h : Readable content)
    (htexts : forall text, text ∈ texts -> Publishable text) :
    Readable (boxAfter content texts) := by
  have hcut := List.take_append_drop boxSize (content ++ published texts)
  have hmem : forall c, c ∈ Broker.boxAfter content texts -> c ∈ content ∨ c ∈ published texts :=
    fun c hc => List.mem_append.mp (List.mem_of_mem_take hc)
  refine ⟨fun hzero => ?_, fun hline => ?_, ?_⟩
  · rcases hmem 0 hzero with hold | hnew
    · exact h.noNul hold
    · exact (published_plain htexts hnew).left rfl
  · rcases hmem 10 hline with hold | hnew
    · exact h.oneLine hold
    · exact (published_plain htexts hnew).right rfl
  · have hall := h.starts_published htexts
    rw [← hcut] at hall
    exact hall.of_append

/-!
## Polls
-/

/-- The bytes that have been sent to the client. -/
def sentBytes (actions : List Action) : List (List UInt8) :=
  actions.filterMap fun action =>
    match action with
    | .sent bytes true => some bytes
    | _ => none

/-- Nothing happens to the files before the poll. -/
def Quiet (poll : Poll) : Prop := forall fs, poll.others fs = fs

/-- The write that a poll makes of the bytes it has read. -/
def firstWrite (poll : Poll) (content : List UInt8) : List Action :=
  if content = [] then [] else [.sent (serializeMessage serverSend content) (poll.writes 0)]

/-- What reaches the subscriber of a box with these bytes. -/
def received : List Poll -> List UInt8 -> List (List UInt8)
  | [], _ => []
  | poll :: _, content =>
      if content ≠ [] ∧ poll.writes 0 = true then [serializeMessage serverSend content] else []

section Polls

variable {files : AbstractFs} {held : CStr} {offset : Nat} {content : List UInt8} {poll : Poll}
  {polls : List Poll} {s : Subscription}

/-- At the end of the box a poll reads nothing, and the session goes on. -/
theorem pollTurn_end (hquiet : Quiet poll) (h : Refines tfsDefaultParams s.fs files)
    (hhandle : files.handles 0 = some (held, offset))
    (hend : (files.content held).length <= offset) :
    exists s', pollTurn 0 poll s = .ok ([.polled 0 []], s') ∧
      Refines tfsDefaultParams s'.fs files := by
  rcases h.tfsRead (AbstractFs.readFile_end hhandle hend msize) with ⟨fs', hread, h'⟩
  rw [← hquiet s.fs] at hread
  by_cases hprev : (0 : Int) = s.prev
  · exact ⟨_, pollTurn_skip hread (by decide) hprev, h'⟩
  · have hloop : sendLoop poll.writes (0 : Int).toNat 0 0 ([] ++ s.buffer.drop 0) =
        .ok ([], 0, [] ++ s.buffer.drop 0) := sendLoop_done (Int.le_refl 0)
    have hturn := pollTurn_eq hread (by decide) hprev
    rw [List.length_nil, hloop] at hturn
    exact ⟨_, hturn, h'⟩

theorem subscribeLoop_end (hquiet : forall poll, poll ∈ polls -> Quiet poll)
    (h : Refines tfsDefaultParams s.fs files) (hhandle : files.handles 0 = some (held, offset))
    (hend : (files.content held).length <= offset) :
    exists s', subscribeLoop 0 polls s =
      (List.replicate polls.length (.polled 0 []), .waiting s') := by
  induction polls generalizing s with
  | nil => exact ⟨s, rfl⟩
  | cons poll polls ih =>
      rcases pollTurn_end (hquiet poll List.mem_cons_self) h hhandle hend with ⟨s1, hturn, h1⟩
      rcases ih (fun later hlater => hquiet later (List.mem_cons_of_mem _ hlater)) h1 with
        ⟨s', hloop⟩
      refine ⟨s', ?_⟩
      rw [subscribeLoop, hturn]
      simp only [hloop]
      rfl

/-- The loop behind a poll writes what has been read as one message. -/
theorem sendLoop_content {buffer : List UInt8} {text : CStr} (writes : Nat -> Bool)
    (hne : text.bytes ≠ []) (hfits : text.strlen <= msize)
    (htext : bufferText buffer = .ok text) :
    exists left buffer', sendLoop writes text.strlen 0 text.strlen buffer =
      .ok ([.sent (serializeMessage serverSend text.bytes) (writes 0)], left, buffer') := by
  have hpos : 0 < text.strlen := List.length_pos_iff.mpr hne
  have hb : (0 : Int) < text.strlen := by omega
  have hfuel : text.strlen = text.strlen - 1 + 1 := by omega
  have hmsg := serializeSend_eq hfits
  cases hwrite : writes 0 with
  | true =>
      have hleft : (text.strlen : Int) - (text.strlen + 1) <= 0 := by omega
      have hsent : sendLoop writes (text.strlen - 1 + 1) 0 text.strlen buffer = _ :=
        sendLoop_sent hb htext hmsg hwrite (sendLoop_done hleft)
      rw [← hfuel] at hsent
      exact ⟨_, _, hsent⟩
  | false =>
      have hfailed : sendLoop writes (text.strlen - 1 + 1) 0 text.strlen buffer = _ :=
        sendLoop_failed hb htext hmsg hwrite
      rw [← hfuel] at hfailed
      exact ⟨_, _, hfailed⟩

/-- The first poll reads the whole box, and writes it as one message. -/
theorem pollTurn_start (hquiet : Quiet poll) (h : Refines tfsDefaultParams s.fs files)
    (hhandle : files.handles 0 = some (held, 0)) (hfits : (files.content held).length <= msize)
    (hnoNul : 0 ∉ files.content held) (hfresh : s.buffer[(files.content held).length]? = some 0)
    (hprev : s.prev = 0) :
    exists s', pollTurn 0 poll s = .ok (.polled (files.content held).length (files.content held) ::
        firstWrite poll (files.content held), s') ∧
      Refines tfsDefaultParams s'.fs
        (files.setHandle 0 (some (held, (files.content held).length))) := by
  have hall := AbstractFs.readFile_first hhandle msize
  rw [List.drop_zero, List.take_of_length_le hfits, Nat.zero_add] at hall
  rcases h.tfsRead hall with ⟨fs', hread, h'⟩
  rw [← hquiet s.fs] at hread
  generalize files.content held = content at hread hfits hnoNul hfresh h' ⊢
  by_cases hempty : content = []
  · rw [hempty] at hread h' ⊢
    exact ⟨_, pollTurn_skip hread (by decide) hprev.symm, h'⟩
  · have hpos : 0 < content.length := List.length_pos_iff.mpr hempty
    have hturn := pollTurn_eq hread (by omega) (by omega)
    rcases bufferText_read hnoNul hfresh with ⟨text, htext, hbytes⟩
    have hlength : content.length = text.strlen := (congrArg List.length hbytes).symm
    rcases sendLoop_content poll.writes (hbytes ▸ hempty)
      (hlength ▸ hfits) htext with ⟨left, buffer', hloop⟩
    rw [hbytes, ← hlength] at hloop
    rw [Int.toNat_natCast, hloop] at hturn
    refine ⟨⟨buffer', left, fs'⟩, hturn.trans ?_, h'⟩
    rw [firstWrite, if_neg hempty]
    rfl

/-- The loop sends the box with its first poll, and goes on for as long as it polls. -/
theorem subscribeLoop_box (hquiet : forall poll, poll ∈ polls -> Quiet poll)
    (h : Refines tfsDefaultParams s.fs files) (hhandle : files.handles 0 = some (held, 0))
    (hfits : (files.content held).length <= msize) (hnoNul : 0 ∉ files.content held)
    (hfresh : s.buffer[(files.content held).length]? = some 0) (hprev : s.prev = 0) :
    exists actions s', subscribeLoop 0 polls s = (actions, .waiting s') ∧
      sentBytes actions = received polls (files.content held) := by
  cases polls with
  | nil => exact ⟨[], s, rfl, rfl⟩
  | cons poll polls =>
      rcases pollTurn_start (hquiet poll List.mem_cons_self) h hhandle hfits hnoNul hfresh hprev
        with ⟨s1, hturn, h1⟩
      rcases subscribeLoop_end (fun later hlater => hquiet later (List.mem_cons_of_mem _ hlater)) h1
        (AbstractFs.handles_setHandle _) (Nat.le_refl _) with ⟨s', hloop⟩
      have hall : subscribeLoop 0 (poll :: polls) s =
          (.polled (files.content held).length (files.content held) ::
            firstWrite poll (files.content held) ++ List.replicate polls.length (.polled 0 []),
            .waiting s') := by
        rw [subscribeLoop, hturn]
        simp only [hloop]
      refine ⟨_, s', hall, ?_⟩
      rw [received, sentBytes, List.filterMap_append]
      by_cases hempty : files.content held = []
      · simp [firstWrite, hempty]
      · cases hwrite : poll.writes 0 <;> simp [firstWrite, hempty, hwrite]

end Polls

/-!
## Sessions
-/

section Sessions

variable {b : State} {a : AbstractBroker} {clientInput : Args} {env : SubscriberEnv} {fd : Nat}

/-- The file of a box has its bytes. -/
theorem Represents.fileContent {box : AbstractBox} (h : Represents b a) (hbox : box ∈ a.boxes) :
    fileContent b.fs (skipSlash (some box.name)) = some box.content := by
  rcases h.files with ⟨files, hrefines, hfiles⟩
  rcases hrefines.inv with ⟨made, hinv⟩
  rcases (hrefines.names _).mp ((hfiles.names _).mpr ⟨box, hbox, rfl⟩) with ⟨i, k, hlisted⟩
  rcases hinv.inode_of_listed hlisted with ⟨_, _, _, inode, hinode, _⟩
  rw [fileContent_listed hinv hlisted hinode, ← hrefines.content hlisted hinode,
    hfiles.content box hbox]

/-- A subscriber to a box that does not exist is sent away. -/
theorem subscribe_missing (h : Represents b a) (hfd : env.fd = some fd)
    (hnot : clientInput.boxName.str ∉ a.names) :
    exists actions b', regSubscriber clientInput env b = (actions, .done b') ∧
      sentBytes actions = [] ∧ .handled (.unlinked clientInput.clientPipe.str) ∈ actions ∧
      Represents b' a := by
  rcases h.good with ⟨cells, hgood, hnames⟩
  have hmissing : clientInput.boxName.str ∉ boxNames cells := hnames ▸ hnot
  have hfind := findBox_missing (.array clientInput.boxName.str) env.node hgood.chain rfl hmissing
  have hload := Heap.load_eq (b.boxes.alloc_self ⟨⟨unexistent, -1, -1⟩, env.node.next⟩)
  rcases freed_sentinel hgood env.node with ⟨boxes, hfree, hchain, _⟩
  have hopening : openSubscription clientInput env fd b =
      .ok (.refused [.unlinked clientInput.clientPipe.str, .closed fd]
        { b with boxes := boxes }) := by
    simp [openSubscription, hfind, hload, hfree]
  refine ⟨[.handled (.opened fd), .handled (.unlinked clientInput.clientPipe.str),
    .handled (.closed fd)], { b with boxes := boxes }, ?_, ?_, ?_, ?_⟩
  · simp only [regSubscriber, hfd, hopening]
    rfl
  · rfl
  · exact List.mem_cons_of_mem _ List.mem_cons_self
  · exact ⟨⟨cells, hgood.keep hgood.idle (fun _ => Iff.rfl) hchain, hnames⟩, h.files⟩

/-- The session of a subscriber to a box does not end. -/
theorem subscribe_session {box : AbstractBox} (h : Represents b a) (hfd : env.fd = some fd)
    (hbox : box ∈ a.boxes) (hname : clientInput.boxName.str = box.name)
    (hquiet : forall poll, poll ∈ env.polls -> Quiet poll) (hnoNul : 0 ∉ box.content)
    (hfresh : env.buffer box.content.length = 0) :
    exists actions b', regSubscriber clientInput env b = (actions, .waiting b') ∧
      sentBytes actions = received env.polls box.content := by
  rcases h.good with ⟨cells, hgood, hnames⟩
  rcases h.files with ⟨files, hrefines, hfiles⟩
  have hmem : clientInput.boxName.str ∈ a.names :=
    AbstractBroker.mem_names.mpr ⟨box, hbox, hname.symm⟩
  rcases first_box clientInput.boxName.str cells with
    hnot | ⟨pre, c, node, post, hsplit, hnode, hpre⟩
  · exact absurd (hnames ▸ hmem) hnot
  · rw [hsplit] at hgood
    have hvalid := hgood.valid (hgood.name_mem hnode).left
    have hheld := (hfiles.named_iff hvalid).mpr hmem
    have hcontent : files.content (skipSlash (some clientInput.boxName.str)) = box.content := by
      rw [hname]
      exact hfiles.content box hbox
    have hfind := findBox_found (.array clientInput.boxName.str) env.node hgood.chain rfl hnode hpre
    have hchain : Chain (b.boxes.alloc env.node).2 b.head (pre ++ (c, node) :: post) :=
      Segment.alloc env.node hgood.chain
    rcases hchain.suffix with ⟨_, n, hcell, _⟩
    have hload := Heap.load_eq hcell
    have hidle := (hgood.quiet (List.mem_append_right pre List.mem_cons_self)).left
    have hexists : ¬ node.hasWriter = -1 := by
      rw [hidle]
      decide
    rcases hrefines.tfsOpen fitsMachine_default (by decide)
      (AbstractFs.openFile_start (by decide) hfiles.closed hvalid hheld) with ⟨fs1, hopen, h1⟩
    have hopened : ¬ (0 : Int) = -1 := by decide
    have hmodify := modifyBox_eq hcell fun cell =>
      { cell with value := { cell.value with nReaders := cell.value.nReaders + 1 } }
    generalize (b.boxes.alloc env.node).2.update c _ _ = boxes at hmodify
    have hopening : openSubscription clientInput env fd b =
        .ok (.granted 0 c ⟨fs1, boxes, b.head⟩) := by
      rw [← hnode] at hopen
      simp only [openSubscription, hfind, hload, hexists, hopen, hopened, hmodify, ofHeap_ok,
        ofFs_ok, ok_bind, pure_ok, if_false]
    have hbuffer : (env.start fs1).buffer[box.content.length]? = some 0 := by
      have hlong : box.content.length < bufferSize := by
        have hfits := box.fits
        have hsize : boxSize = 1024 := rfl
        have hbuffer : bufferSize = 1124 := rfl
        omega
      simp only [SubscriberEnv.start, List.getElem?_map, List.getElem?_range hlong,
        Option.map_some, hfresh]
    have hhandle := files.handles_setHandle (some (skipSlash (some clientInput.boxName.str), 0))
    rw [← hcontent] at hnoNul hbuffer ⊢
    have hfits : (files.content (skipSlash (some clientInput.boxName.str))).length <= msize := by
      rw [hcontent]
      exact box.fits
    rcases subscribeLoop_box (s := env.start fs1) hquiet h1 hhandle hfits hnoNul hbuffer rfl with
      ⟨actions, s', hloop, hsent⟩
    have hsession : regSubscriber clientInput env b =
        (.handled (.opened fd) :: .handled (.tfsOpened 0) :: actions,
          .waiting ⟨s'.fs, boxes, b.head⟩) := by
      simp only [regSubscriber, hfd, hopening, hloop]
    exact ⟨_, _, hsession, hsent⟩

end Sessions

end System
end TecnicoFs
