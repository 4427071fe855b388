import TecnicoFs.Clients.Answers
import TecnicoFs.System.Refinement

/-!
# What the manager prints

A manager that reads every frame by itself prints what the abstract broker did: one line
that tells success from failure, or one line for each box.
-/

namespace TecnicoFs
namespace System

open Library
open Broker

/-- The frames that a handler writes to its client. -/
def framesOf (events : List Event) : List (List UInt8) :=
  (events.filterMap written).map Prod.snd

/-- A frame that holds a string. -/
structure Framed (frame : List UInt8) : Prop where
  length_eq : frame.length = frameSize
  ended : 0 ∈ frame

/-- The manager prints these lines, whatever was in its memory. -/
def Prints (frames lines : List (List UInt8)) : Prop :=
  forall reads buffer l, Clients.WholeListing buffer frames reads ->
    Clients.answer reads buffer l = .ok lines

/-- The lines for the boxes. -/
def AbstractBroker.listed (a : AbstractBroker) : List (List UInt8) :=
  if a.boxes.isEmpty then [ascii " 0 0 0\n"]
  else a.boxes.map fun box => Clients.printBox box.name sizeofPointer 0 0

/-!
## Frames
-/

section Frames

variable {bytes : List UInt8} {frames : List (List UInt8)} {events past : List Event}
  {b b' : State} {clientInput : Args} {env : Env} {fd : Nat}

theorem Framed.endsText {frame : List UInt8} (h : Framed frame) {read : Chunk}
    (hread : read.bytes = frame) (held : List UInt8) : Clients.EndsText frame read held := by
  rw [Clients.EndsText, hread]
  exact ⟨(List.takeWhile_sublist _).length_le, Or.inl h.ended⟩

/-- The read of a whole frame. -/
def Framed.chunk {frame : List UInt8} (h : Framed frame) : Chunk :=
  ⟨frame, by rw [h.length_eq]; decide, by rw [h.length_eq]; decide⟩

theorem exists_frames (hne : frames ≠ [])
    (hframed : forall frame, frame ∈ frames -> Framed frame) (held : List UInt8) :
    exists reads, Clients.WholeFrames held frames reads := by
  induction frames generalizing held with
  | nil => exact absurd rfl hne
  | cons first frames ih =>
      have hfirst := hframed first List.mem_cons_self
      cases frames with
      | nil =>
          exact ⟨[hfirst.chunk],
            Clients.WholeFrames.last (List.append_nil first) (hfirst.endsText rfl held)⟩
      | cons second later =>
          rcases ih (List.cons_ne_nil _ _)
            (fun other hother => hframed other (List.mem_cons_of_mem _ hother))
            (Clients.cleared (afterRead hfirst.chunk held)) with ⟨reads, hreads⟩
          exact ⟨hfirst.chunk :: reads, Clients.WholeFrames.next rfl hreads⟩

/-- Frames can be read one by one. -/
theorem exists_whole (hne : frames ≠ [])
    (hframed : forall frame, frame ∈ frames -> Framed frame) (buffer : List UInt8) :
    exists reads, Clients.WholeListing buffer frames reads := by
  cases frames with
  | nil => exact absurd rfl hne
  | cons first frames =>
      have hfirst := hframed first List.mem_cons_self
      cases frames with
      | nil =>
          rcases exists_frames hne hframed buffer with ⟨reads, hreads⟩
          exact ⟨reads, Clients.WholeListing.single hreads⟩
      | cons second later =>
          rcases exists_frames (List.cons_ne_nil _ _)
            (fun other hother => hframed other (List.mem_cons_of_mem _ hother))
            (Clients.cleared (Clients.copied (afterRead hfirst.chunk buffer))) with
            ⟨reads, hreads⟩
          exact ⟨hfirst.chunk :: reads, Clients.WholeListing.first rfl hreads⟩

/-- A string that is shorter than its frame has its terminator there. -/
theorem framed_of_text (hlength : bytes.length = frameSize)
    (hshort : (CStr.ofBuffer bytes).bytes.length < frameSize) : Framed bytes := by
  refine ⟨hlength, ?_⟩
  by_contra hnot
  have hall : bytes.takeWhile (· != 0) = bytes := by
    refine List.takeWhile_eq_self_iff.mpr fun c hc => ?_
    rw [bne_iff_ne]
    exact fun hzero => hnot (hzero ▸ hc)
  have htext : (CStr.ofBuffer bytes).bytes = bytes := hall
  rw [htext, hlength] at hshort
  exact absurd hshort (Nat.lt_irrefl _)

theorem frame_length (text : List UInt8) (behind : Nat -> UInt8) :
    (frame text behind).length = frameSize := by
  rw [frame, List.length_take, List.length_append, List.length_append, List.length_map,
    List.length_range]
  omega

/-- A write has the size of a frame, and the client's pipe stays where it is. -/
def Plain : Event -> Prop
  | .wrote _ bytes => bytes.length = frameSize
  | .unlinked _ => False
  | _ => True

def WritesFrames (events : List Event) : Prop := forall event, event ∈ events -> Plain event

theorem WritesFrames.framesOf (h : WritesFrames events) :
    forall bytes, bytes ∈ framesOf events -> bytes.length = frameSize := by
  intro bytes hbytes
  rcases List.mem_map.mp hbytes with ⟨⟨fd, found⟩, hfound, heq⟩
  rcases List.mem_filterMap.mp hfound with ⟨event, hevent, hwritten⟩
  cases event with
  | wrote fd' found' =>
      cases hwritten
      exact heq ▸ h _ hevent
  | opened _ => cases hwritten
  | unlinked _ => cases hwritten
  | closed _ => cases hwritten
  | tfsOpened _ => cases hwritten
  | tfsClosed _ => cases hwritten

theorem WritesFrames.keeps (h : WritesFrames events) (path : CStr) :
    Event.unlinked path ∉ events := fun hmem => h _ hmem

theorem WritesFrames.append {events' : List Event} (h : WritesFrames events)
    (h' : WritesFrames events') : WritesFrames (events ++ events') :=
  fun event hmem => (List.mem_append.mp hmem).elim (h event) (h' event)

theorem WritesFrames.cons {event : Event} (hevent : Plain event) (h : WritesFrames events) :
    WritesFrames (event :: events) :=
  List.forall_mem_cons.mpr ⟨hevent, h⟩

theorem writesFrames_nil : WritesFrames [] := fun _ hmem => absurd hmem List.not_mem_nil

/-- A condition on the values alone. -/
theorem ensures_any {alpha : Type} (x : Out alpha) : Ensures (fun _ => False) x fun _ => True := by
  cases x with
  | ok _ => trivial
  | error _ => exact id

theorem sendRequest_framed (env : Env) (n fd : Nat) (text : List UInt8) :
    Ensures (fun _ => False) (sendRequest env n fd text) Plain := by
  rw [sendRequest]
  split
  · exact frame_length _ _
  · exact id

/-- The outcome of a handler: its events write frames. -/
abbrev Frames (result : Out (List Event × State)) : Prop :=
  Ensures (fun _ => False) result fun r => WritesFrames r.1

theorem answerCreate_framed (hpast : WritesFrames past) (returnCode fh : Int)
    (text : List UInt8) (b : State) : Frames (answerCreate env fd past returnCode text fh b) := by
  refine Ensures.bind (sendRequest_framed _ _ _ _) fun answer hanswer => ?_
  refine Ensures.bind (ensures_any _) fun r _ => ?_
  have hend : WritesFrames [answer, .tfsClosed fh] :=
    WritesFrames.cons hanswer (WritesFrames.cons trivial writesFrames_nil)
  have hstart : WritesFrames (.opened fd :: past) := WritesFrames.cons trivial hpast
  exact hstart.append hend

theorem answerRemove_framed (hpast : WritesFrames past) (returnCode : Int) (text : List UInt8)
    (b : State) : Frames (answerRemove env fd past returnCode text b) := by
  refine Ensures.bind (sendRequest_framed _ _ _ _) fun answer hanswer => ?_
  refine Ensures.bind (ensures_any _) fun r _ => ?_
  have hend : WritesFrames [answer, .closed fd] :=
    WritesFrames.cons hanswer (WritesFrames.cons trivial writesFrames_nil)
  have hstart : WritesFrames (.opened fd :: past) := WritesFrames.cons trivial hpast
  exact hstart.append hend

theorem writesFrames_openEvents (fh : Int) : WritesFrames (openEvents fh) := by
  rw [openEvents]
  split
  · exact writesFrames_nil
  · exact WritesFrames.cons trivial writesFrames_nil

theorem writesFrames_closing (fh : Int) : WritesFrames (openEvents fh ++ [.tfsClosed fh]) :=
  (writesFrames_openEvents fh).append (WritesFrames.cons trivial writesFrames_nil)

theorem createBox_framed (clientInput : Args) (env : Env) (b : State) :
    Frames (createBox clientInput env b) := by
  rw [createBox]
  split
  · exact writesFrames_nil
  · refine Ensures.bind (ensures_any _) fun found _ => ?_
    refine Ensures.bind (ensures_any _) fun opened _ => ?_
    refine Ensures.bind (ensures_any _) fun known _ => ?_
    split
    · refine Ensures.bind (ensures_any _) fun boxes _ => ?_
      refine Ensures.bind (ensures_any _) fun closed _ => ?_
      exact answerCreate_framed (writesFrames_closing _) _ _ _ _
    · refine Ensures.bind (ensures_any _) fun created _ => ?_
      rcases created with ⟨fh, fs⟩
      dsimp only
      split
      · exact WritesFrames.cons trivial writesFrames_nil
      · refine Ensures.bind (ensures_any _) fun boxes _ => ?_
        refine Ensures.bind (ensures_any _) fun inserted _ => ?_
        exact answerCreate_framed (writesFrames_openEvents _) _ _ _ _

theorem removeBox_framed (clientInput : Args) (env : Env) (b : State) :
    Frames (removeBox clientInput env b) := by
  rw [removeBox]
  refine Ensures.bind (ensures_any _) fun _ _ => ?_
  split
  · exact writesFrames_nil
  · refine Ensures.bind (ensures_any _) fun found _ => ?_
    refine Ensures.bind (ensures_any _) fun opened _ => ?_
    refine Ensures.bind (ensures_any _) fun missing _ => ?_
    split
    · refine Ensures.bind (ensures_any _) fun boxes _ => ?_
      exact answerRemove_framed (writesFrames_openEvents _) _ _ _
    · refine Ensures.bind (ensures_any _) fun deleted _ => ?_
      refine Ensures.bind (ensures_any _) fun closed _ => ?_
      refine Ensures.bind (ensures_any _) fun unlinked _ => ?_
      exact answerRemove_framed (writesFrames_closing _) _ _ _

theorem listLoop_framed (boxes : Heap (Cell Box)) (fuel n : Nat) (p : Option Nat) :
    Ensures (fun _ => False) (listLoop env fd boxes fuel n p) WritesFrames := by
  induction fuel generalizing n p with
  | zero =>
      cases p with
      | none => exact writesFrames_nil
      | some _ => exact id
  | succ fuel ih =>
      cases p with
      | none => exact writesFrames_nil
      | some current =>
          refine Ensures.bind (ensures_any _) fun box _ => ?_
          refine Ensures.bind (sendRequest_framed _ _ _ _) fun listing hlisting => ?_
          refine Ensures.bind (ih (n + 1) box.next) fun listings hlistings => ?_
          exact WritesFrames.cons hlisting hlistings

theorem listBox_framed (clientInput : Args) (env : Env) (b : State) :
    Frames (listBox clientInput env b) := by
  have hclosed : forall fd, WritesFrames [.closed fd] :=
    fun fd => WritesFrames.cons trivial writesFrames_nil
  rw [listBox]
  split
  · exact writesFrames_nil
  · rename_i fd _
    split
    · refine Ensures.bind (sendRequest_framed _ _ _ _) fun listing hlisting => ?_
      exact WritesFrames.cons trivial (WritesFrames.cons hlisting (hclosed fd))
    · refine Ensures.bind (listLoop_framed _ _ _ _) fun listings hlistings => ?_
      have hstart : WritesFrames (.opened fd :: listings) := WritesFrames.cons trivial hlistings
      exact hstart.append (hclosed fd)

end Frames

/-!
## Answers
-/

section Answers

variable {bytes rest line : List UInt8} {events : List Event}

/-- The first read has the text of a frame that comes alone. -/
theorem reads_single {buffer : List UInt8} {reads : List Chunk}
    (h : Clients.WholeListing buffer [bytes] reads) : exists read later, reads = read :: later ∧
      0 ∈ afterRead read buffer ∧ CStr.ofBuffer (afterRead read buffer) = CStr.ofBuffer bytes := by
  cases h with
  | single hwhole =>
      cases hwhole with
      | @last _ _ read later hframe hends =>
          rcases hends.text hframe with ⟨hended, hsame⟩
          exact ⟨read, later, rfl, hended, hsame⟩
      | next _ hrest => cases hrest
  | first _ hrest => cases hrest

/-- An answer whose line is scanned to what is printed. -/
theorem prints_scanned (input : CStr)
    (htext : (CStr.ofBuffer bytes).bytes = formatInt answerCreateBox ++ ([32] ++ rest))
    (hne : rest ≠ []) (hstop : Stops isSpace rest) (hlength : rest.length < msize)
    (hinput : input.bytes = rest.takeWhile (· != 10))
    (hscan : forall l, exists l', Clients.scanReturn input l = .ok l' ∧
      Clients.printAnswer l' = line) : Prints [bytes] [line] := by
  intro reads buffer l hreads
  rcases reads_single hreads with ⟨read, later, hreads, hended, hsame⟩
  rw [hreads]
  rw [← hsame] at htext
  rcases Clients.scanAnswer_line (l := l) htext (by decide) (by decide) hne hstop hlength with
    ⟨found, hanswer, hfound⟩
  have hfound : found = input := CStr.ext (hfound.trans hinput.symm)
  rcases hscan { l with code := answerCreateBox, input := found } with ⟨l', hreturn, hline⟩
  have hcode : answerCreateBox ≠ listAnswer := by decide
  rw [Clients.answer, Clients.printed, bufferText_mem hended, ok_bind, hanswer, ok_bind]
  simp only [ne_eq, hcode, not_false_eq_true, if_true]
  rw [hfound] at hreturn ⊢
  rw [hreturn, ok_bind, hline]
  rfl

/-- The manager that reads a success. -/
theorem prints_success (htext : (CStr.ofBuffer bytes).bytes = AbstractBroker.answer 0 "") :
    Prints [bytes] [ascii "OK\n"] := by
  have hint : scanInt ⟨ascii "0 ", by decide⟩ = some (0, ⟨ascii " ", by decide⟩) := by
    decide +kernel
  have hword : scanWord ⟨ascii " ", by decide⟩ = none := by decide +kernel
  have hanswer : AbstractBroker.answer 0 "" =
      formatInt answerCreateBox ++ ([32] ++ ascii "0 ") := by
    decide +kernel
  refine prints_scanned ⟨ascii "0 ", by decide⟩ (htext.trans hanswer) (by decide)
    (stops_cons (by decide) _) (by decide) (by decide) fun l => ?_
  refine ⟨{ l with returnCode := 0 }, ?_, rfl⟩
  simp only [Clients.scanReturn, hint, hword]

/-- Of the message for a box that does not exist only the first word is left. -/
theorem prints_missing (htext : (CStr.ofBuffer bytes).bytes =
    AbstractBroker.answer (-1) "Box doesn't exist\n") :
    Prints [bytes] [ascii "ERROR Box\n"] := by
  have hint : scanInt ⟨ascii "-1 Box doesn't exist", by decide⟩ =
      some (-1, ⟨ascii " Box doesn't exist", by decide⟩) := by
    decide +kernel
  have hword : scanWord ⟨ascii " Box doesn't exist", by decide⟩ =
      some (⟨ascii "Box", by decide⟩, ⟨ascii " doesn't exist", by decide⟩) := by
    decide +kernel
  have hfits : Clients.fitsArray errorMsg ⟨ascii "Box", by decide⟩ =
      .ok ⟨ascii "Box", by decide⟩ := rfl
  have hanswer : AbstractBroker.answer (-1) "Box doesn't exist\n" =
      formatInt answerCreateBox ++ ([32] ++ ascii "-1 Box doesn't exist\n") := by
    decide +kernel
  refine prints_scanned ⟨ascii "-1 Box doesn't exist", by decide⟩ (htext.trans hanswer)
    (by decide) (stops_cons (by decide) _) (by decide) (by decide) fun l => ?_
  refine ⟨{ l with returnCode := -1, errorMsg := ⟨ascii "Box", by decide⟩ }, ?_, rfl⟩
  simp only [Clients.scanReturn, hint, hword, hfits, ok_bind, pure_ok]

/-- The manager that reads that there are no boxes. -/
theorem prints_noBoxes (behind : Nat -> UInt8) :
    Prints [frame Clients.emptyText behind] [ascii " 0 0 0\n"] := by
  intro reads buffer l hreads
  have hnoNul : 0 ∉ Clients.emptyText := by decide +kernel
  rcases frame_text hnoNul (by decide +kernel) behind with ⟨_, _, htext⟩
  rcases reads_single hreads with ⟨read, later, hreads, hended, hsame⟩
  rw [hreads]
  rw [← hsame] at htext
  rcases Clients.scanAnswer_line (l := l) (htext.trans Clients.emptyText_eq) (by decide)
    (by decide) (by decide) (stops_cons (by decide) _) (by decide) with
    ⟨input, hanswer, hinput⟩
  have hrecord : input = Clients.emptyRecord := by
    apply CStr.ext
    rw [hinput]
    decide
  have hcopied : forall more : List UInt8, bufferText (input.bytes ++ [0] ++ more) =
      .ok input := by
    intro more
    rw [bufferText_mem (by simp)]
    congr 1
    apply CStr.ext
    rw [List.append_assoc]
    exact ofBuffer_eq input.noNul more
  rcases Clients.scanBox_empty { l with code := listAnswer, input := input } with
    ⟨l', hbox, _, hlast, hname⟩
  rw [← hrecord] at hbox
  rw [Clients.answer, Clients.printed, bufferText_mem hended, ok_bind, hanswer, ok_bind]
  simp only [ne_eq, not_true_eq_false, if_false, hcopied, ok_bind, hbox]
  rw [Clients.listingLoop_last _ _ hlast, Clients.printFirst, if_pos hname]
  rfl

end Answers

/-!
## Requests
-/

/-- The manager gets frames that it can read one by one, and prints these lines then. -/
structure Shown (events : List Event) (lines : List (List UInt8)) : Prop where
  answered : framesOf events ≠ []
  framed : forall bytes, bytes ∈ framesOf events -> Framed bytes
  prints : Prints (framesOf events) lines

section Requests

variable {events : List Event} {b b' : State} {a : AbstractBroker} {clientInput : Args} {env : Env}
  {fd : Nat}

/-- A single text decides what is printed. -/
theorem shown_text {text line : List UInt8} (hwrites : WritesFrames events)
    (htexts : sentTexts events = [text]) (hshort : text.length < frameSize)
    (hprints : forall bytes, (CStr.ofBuffer bytes).bytes = text -> Prints [bytes] [line]) :
    Shown events [line] := by
  have hmap : (framesOf events).map (fun bytes => (CStr.ofBuffer bytes).bytes) = [text] := by
    rw [framesOf, List.map_map]
    exact htexts
  cases hframes : framesOf events with
  | nil =>
      rw [hframes] at hmap
      cases hmap
  | cons bytes later =>
      rw [hframes, List.map_cons] at hmap
      rcases List.cons.inj hmap with ⟨htext, hnone⟩
      have hlater : later = [] := List.map_eq_nil_iff.mp hnone
      rw [hlater] at hframes
      have hlength := hwrites.framesOf bytes (by rw [hframes]; exact List.mem_singleton_self _)
      refine ⟨?_, fun other hother => ?_, ?_⟩
      · rw [hframes]
        exact List.cons_ne_nil _ _
      · rw [hframes] at hother
        rw [List.mem_singleton.mp hother]
        exact framed_of_text hlength (by rw [htext]; exact hshort)
      · rw [hframes]
        exact hprints bytes htext

theorem shown_success (hwrites : WritesFrames events)
    (htexts : sentTexts events = [AbstractBroker.answer 0 ""]) :
    Shown events [ascii "OK\n"] :=
  shown_text hwrites htexts (by decide +kernel) fun _ => prints_success

theorem shown_missing (hwrites : WritesFrames events)
    (htexts : sentTexts events = [AbstractBroker.answer (-1) "Box doesn't exist\n"]) :
    Shown events [ascii "ERROR Box\n"] :=
  shown_text hwrites htexts (by decide +kernel) fun _ => prints_missing

/-- Without texts there are no frames. -/
theorem framesOf_silent (htexts : sentTexts events = []) : framesOf events = [] := by
  have hnone : events.filterMap written = [] := List.map_eq_nil_iff.mp htexts
  rw [framesOf, hnone]
  rfl

/-- The frames of a listing that was written. -/
theorem framesOf_listing (fd : Nat) (frames : List (List UInt8)) :
    framesOf (.opened fd :: frames.map (Event.wrote fd) ++ [.closed fd]) = frames := by
  have hmap : written ∘ Event.wrote fd = some ∘ fun frame => (fd, frame) := rfl
  rw [framesOf, List.cons_append, List.filterMap_cons_none rfl, List.filterMap_append,
    List.filterMap_map, hmap, List.filterMap_eq_map, List.filterMap_cons_none rfl,
    List.filterMap_nil, List.append_nil, List.map_map]
  exact List.map_id frames

theorem framed_of_framesOf {boxes : List Box} {frames : List (List UInt8)}
    (h : Clients.FramesOf boxes frames) : forall bytes, bytes ∈ frames -> Framed bytes := by
  induction h with
  | last hlength hended _ =>
      intro bytes hbytes
      rw [List.mem_singleton.mp hbytes]
      exact ⟨hlength, hended⟩
  | next hlength hended _ _ ih =>
      intro bytes hbytes
      rcases List.mem_cons.mp hbytes with heq | hlater
      · rw [heq]
        exact ⟨hlength, hended⟩
      · exact ih bytes hlater

theorem boxLine_idle {box : Box} (h : box.hasWriter = 0 ∧ box.nReaders = 0) :
    Clients.boxLine box = Clients.printBox box.boxName.str sizeofPointer 0 0 := by
  rw [Clients.boxLine, h.left, h.right]
  rfl

/-- Boxes whose names are words are all printed. -/
theorem list_shown (h : Represents b a) (hwords : forall name, name ∈ a.names -> NoSpace name)
    (hfd : env.fd = some fd) (hwrites : forall n, env.writes n = true)
    (hserve : serve (.listBox clientInput env) b = .ok (events, b')) :
    Shown events a.listed := by
  rcases h.good with ⟨cells, hgood, hnames⟩
  by_cases hnil : cells = []
  · have hhead : b.head = none := by
      have hchain := hgood.chain
      rw [hnil] at hchain
      exact hchain
    have hboxes : a.boxes = [] := by
      rw [hnil] at hnames
      exact List.map_eq_nil_iff.mp hnames.symm
    have hlist := Clients.listBox_empty hhead hfd hwrites clientInput
    cases hserve.symm.trans hlist
    have hnoNul : 0 ∉ Clients.emptyText := by decide +kernel
    rcases frame_text hnoNul (by decide +kernel) (env.behind 0) with ⟨hlength, hended, _⟩
    rw [AbstractBroker.listed, hboxes, List.isEmpty_nil, if_pos rfl]
    refine ⟨?_, ?_, ?_⟩
    · rw [framesOf_listing]
      exact List.cons_ne_nil _ _
    · rw [framesOf_listing]
      intro bytes hbytes
      rw [List.mem_singleton.mp hbytes]
      exact ⟨hlength, hended⟩
    · rw [framesOf_listing]
      exact prints_noBoxes (env.behind 0)
  · rcases Clients.listBox_boxes hgood.chain hnil hfd hwrites clientInput with
      ⟨frames, hlist, hframes⟩
    cases hserve.symm.trans hlist
    have hplain : forall box, box ∈ cells.map Prod.snd -> Clients.PlainName box.boxName.str := by
      intro box hbox
      rcases List.mem_map.mp hbox with ⟨cell, hcell, hsame⟩
      rw [← hsame]
      refine (Clients.idleBox_of_good hgood hcell).plain (hwords _ ?_)
      rw [← hnames]
      exact List.mem_map_of_mem hcell
    have hzero : forall box, box ∈ (cells.map Prod.snd).head? ->
        box.boxName.str.bytes ≠ ascii "0" := by
      intro box hbox
      rcases List.mem_map.mp (List.mem_of_mem_head? hbox) with ⟨cell, hcell, hsame⟩
      rw [← hsame]
      exact (Clients.idleBox_of_good hgood hcell).notZero
    have hlines : (cells.map Prod.snd).map Clients.boxLine = a.listed := by
      have hboxes : a.boxes.isEmpty = false := by
        cases hnone : a.boxes with
        | nil =>
            rw [AbstractBroker.names, hnone, List.map_nil] at hnames
            exact absurd (List.map_eq_nil_iff.mp hnames) hnil
        | cons first later => rfl
      have hidle : (cells.map Prod.snd).map Clients.boxLine =
          (boxNames cells).map fun name => Clients.printBox name sizeofPointer 0 0 := by
        rw [boxNames, List.map_map, List.map_map]
        exact List.map_congr_left fun cell hcell => boxLine_idle (hgood.quiet hcell)
      rw [hidle, hnames, AbstractBroker.names, List.map_map, AbstractBroker.listed, hboxes]
      rfl
    rw [← hlines]
    refine ⟨?_, ?_, ?_⟩
    · rw [framesOf_listing]
      intro hnone
      have hlength := hframes.length_eq
      rw [hnone, List.length_map] at hlength
      exact hnil (List.length_eq_zero_iff.mp hlength.symm)
    · rw [framesOf_listing]
      exact framed_of_framesOf hframes
    · rw [framesOf_listing]
      exact fun reads buffer l hreads => Clients.answer_frames hframes hreads hplain hzero l

end Requests

end System
end TecnicoFs
