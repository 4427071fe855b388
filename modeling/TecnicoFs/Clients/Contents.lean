import TecnicoFs.Clients.Listings

/-!
# What a listing says

A listing has one frame for each box of the registry.  Each frame gives the size of a
pointer where the size of the file of the box belongs.
-/

namespace TecnicoFs
namespace Clients

open Library
open Broker

/-!
## Decoding
-/

/-- The first frame is scanned twice. -/
def decodeFirst (frame : List UInt8) (l : Locals) : Out Locals := do
  let text <- bufferText frame
  let l <- scanAnswer text l
  scanBox l.input l

/-- The other frames are scanned once. -/
def decodeNext (frame : List UInt8) (l : Locals) : Out Locals := do
  let text <- bufferText frame
  scanListing text l

/-- The variables after each of the frames, of which the first is decoded as given. -/
def decodeFrames (decode : List UInt8 -> Locals -> Out Locals) :
    List (List UInt8) -> Locals -> Out (List Locals)
  | [], _ => pure []
  | frame :: frames, l => do
      let l <- decode frame l
      let rest <- decodeFrames decodeNext frames l
      pure (l :: rest)

/-- The number of bytes in the file of the box. -/
def fileSize (fs : Fs) (box : Box) : Option Nat :=
  (fileContent fs (skipSlash (some box.boxName.str))).map List.length

/-- The variables say what is true of the box. -/
structure Shows (fs : Fs) (last : Int) (box : Box) (l : Locals) : Prop where
  code : l.code = listAnswer
  last : l.last = last
  name : l.name = box.boxName.str
  size : fileSize fs box = some l.size
  writer : (l.p : Int) = box.hasWriter
  readers : (l.s : Int) = box.nReaders

/-- The variables show the boxes in order, and the last one is marked. -/
inductive ShowsBoxes (fs : Fs) : List Box -> List Locals -> Prop where
  | last {box : Box} {l : Locals} : Shows fs 1 box l -> ShowsBoxes fs [box] [l]
  | next {box : Box} {boxes : List Box} {l : Locals} {rest : List Locals} :
      Shows fs 0 box l -> ShowsBoxes fs boxes rest -> ShowsBoxes fs (box :: boxes) (l :: rest)

/-- The registry lists these frames for some client. -/
def Lists (b : State) (frames : List (List UInt8)) : Prop :=
  exists clientInput env fd, env.fd = some fd ∧
    listBox clientInput env b = .ok (.opened fd :: frames.map (Event.wrote fd) ++ [.closed fd], b)

/-- The single frame is decoded as the end of a listing without boxes, and no registry with
boxes lists a frame with the same text. -/
def ShowsNone (frames : List (List UInt8)) (l : Locals) : Prop :=
  exists frame l', frames = [frame] ∧ decodeFirst frame l = .ok l' ∧ l'.code = listAnswer ∧
    l'.last = 1 ∧ printFirst l' = ascii " 0 0 0\n" ∧
    forall b frames', Broker.Reachable b -> b.head ≠ none -> Lists b frames' ->
      forall frame', frame' ∈ frames' -> CStr.ofBuffer frame' ≠ CStr.ofBuffer frame

/-- Whatever client asks for the list, if its pipe takes the frames they are decoded to the
registry. -/
def ListsRegistry (b : State) : Prop :=
  exists cells, Chain b.boxes b.head cells ∧
    forall clientInput env fd l, env.fd = some fd -> (forall n, env.writes n = true) ->
      exists frames, listBox clientInput env b =
          .ok (.opened fd :: frames.map (Event.wrote fd) ++ [.closed fd], b) ∧
        (cells ≠ [] -> exists records, decodeFrames decodeFirst frames l = .ok records ∧
          ShowsBoxes b.fs (cells.map Prod.snd) records) ∧
        (cells = [] -> ShowsNone frames l)

/-- The name can be scanned, and the file has as many bytes as a pointer. -/
structure Faithful (fs : Fs) (box : Box) : Prop where
  noSpace : NoSpace box.boxName.str
  size : fileSize fs box = some sizeofPointer

/-- A box as the registry holds it between requests. -/
structure IdleBox (box : Box) : Prop where
  path : exists name, box.boxName.str.bytes = 47 :: name
  writer : box.hasWriter = 0
  readers : box.nReaders = 0

/-!
## Decoding a frame
-/

section Frames

variable {fs : Fs} {box : Box} {l l' : Locals} {last : Nat} {text : CStr} {frame : List UInt8}

theorem IdleBox.plain (h : IdleBox box) (hword : NoSpace box.boxName.str) :
    PlainName box.boxName.str := by
  rcases h.path with ⟨name, hname⟩
  refine ⟨?_, hword⟩
  rw [hname]
  exact List.cons_ne_nil _ _

/-- The name is not taken for an empty listing. -/
theorem IdleBox.notZero (h : IdleBox box) : box.boxName.str.bytes ≠ ascii "0" := by
  rcases h.path with ⟨name, hname⟩
  rw [hname]
  rintro ⟨⟩

theorem scanCounts_keeps (text : CStr) (l : Locals) :
    (scanCounts text l).code = l.code ∧ (scanCounts text l).last = l.last ∧
      (scanCounts text l).name = l.name := by
  unfold scanCounts
  cases scanULong text with
  | none => exact ⟨rfl, rfl, rfl⟩
  | some r =>
      simp only
      cases scanULong r.2 with
      | none => exact ⟨rfl, rfl, rfl⟩
      | some r' =>
          simp only
          cases scanULong r'.2 <;> exact ⟨rfl, rfl, rfl⟩

/-- The name that is scanned behind a number is a word, if anything visible is there. -/
theorem scanBox_noSpace {ws rest : List UInt8} {c : UInt8}
    (hs : text.bytes = ws ++ (formatInt last ++ ([32] ++ c :: rest)))
    (hws : forall d, d ∈ ws -> isSpace d = true) (hlast : last <= 1) (hc : isSpace c = false)
    (h : scanBox text l = .ok l') : NoSpace l'.name := by
  rcases scanInt_field hs hws (by omega) (by omega) with ⟨text1, hint, h1⟩
  have hskip : (text1.dropWhile isSpace).bytes = c :: rest := by
    rw [CStr.bytes_dropWhile, h1]
    exact dropWhile_stops space_isSpace (stops_cons hc rest)
  cases hword : scanWord text1 with
  | none =>
      rw [scanWord] at hword
      have hvisible : ¬ ((text1.dropWhile isSpace).takeWhile fun d => !isSpace d).strlen = 0 := by
        rw [CStr.strlen, CStr.bytes_takeWhile, hskip]
        simp [hc]
      simp only [if_neg hvisible] at hword
      cases hword
  | some r =>
      simp only [scanBox, hint, hword] at h
      rcases bind_eq_ok.mp h with ⟨name, hname, h⟩
      cases h
      rw [fitsArray] at hname
      split at hname
      · cases hname
        rw [(scanCounts_keeps _ _).right.right]
        exact (scanWord_noSpace hword).right
      · cases hname

/-- The frame holds the text of the box. -/
structure FrameOf (last : Nat) (box : Box) (frame : List UInt8) : Prop where
  ended : 0 ∈ frame
  text : (CStr.ofBuffer frame).bytes = boxText last box
  mark : last <= 1

/-- How the frame of a box is decoded: to a word as the name, and to the box if its name is
one. -/
structure BoxDecoder (decode : List UInt8 -> Locals -> Out Locals) : Prop where
  word : forall {last box frame l l'}, FrameOf last box frame -> IdleBox box ->
    decode frame l = .ok l' -> NoSpace l'.name
  box : forall {last box frame} (l : Locals), FrameOf last box frame ->
    PlainName box.boxName.str ->
      exists l' : Locals, l'.code = listAnswer ∧ decode frame l = .ok (l'.setBox last box)

theorem recordText_idle (last : Nat) (h : IdleBox box) :
    exists rest, recordText last box = formatInt last ++ ([32] ++ 47 :: rest) := by
  rcases h.path with ⟨name, hname⟩
  refine ⟨name ++ countsText sizeofPointer (uint64OfInt box.hasWriter)
    (uint64OfInt box.nReaders), ?_⟩
  rw [recordText, hname]
  rfl

theorem decodeNext_box : BoxDecoder decodeNext where
  word := by
    intro last box frame l l' hframe hidle hdecode
    rcases recordText_idle last hidle with ⟨rest, hrecord⟩
    rcases scanInt_frame hframe.text with ⟨text1, hint, h1⟩
    rw [hrecord] at h1
    rw [decodeNext, bufferText_mem hframe.ended, ok_bind] at hdecode
    simp only [scanListing, hint] at hdecode
    exact scanBox_noSpace h1 space_isSpace hframe.mark (by decide) hdecode
  box := by
    intro last box frame l hframe hplain
    refine ⟨{ l with code := listAnswer }, rfl, ?_⟩
    rw [decodeNext, bufferText_mem hframe.ended, ok_bind]
    exact scanListing_frame hframe.text hframe.mark hplain

/-- What a frame says behind its code fits the array {lit}`input`. -/
theorem recordText_length (hlast : last <= 1) (box : Box) :
    (recordText last box).length < msize := by
  have hlength := boxText_length hlast box
  rw [boxText_eq] at hlength
  simp only [List.length_append, frameSize, msize] at hlength ⊢
  omega

theorem decodeFirst_box : BoxDecoder decodeFirst where
  word := by
    intro last box frame l l' hframe hidle hdecode
    rcases recordText_idle last hidle with ⟨rest, hrecord⟩
    have htext := hframe.text
    have hlength := recordText_length hframe.mark box
    rw [boxText_eq, hrecord] at htext
    rw [hrecord] at hlength
    have hne : formatInt (last : Int) ++ ([32] ++ 47 :: rest) ≠ [] := fun hnil => by simp at hnil
    rcases scanAnswer_line (l := l) htext (by decide) (by decide) hne (formatInt_stops _ _)
      hlength with ⟨input, hscan, hinput⟩
    rw [decodeFirst, bufferText_mem hframe.ended, ok_bind, hscan, ok_bind] at hdecode
    -- The line ends behind the slash at the earliest.
    have hline : (formatInt (last : Int) ++ ([32] ++ 47 :: rest)).takeWhile (· != 10) =
        formatInt last ++ ([32] ++ 47 :: rest.takeWhile (· != 10)) := by
      rw [List.takeWhile_append_of_pos]
      · rfl
      · intro c hc
        rw [bne_iff_ne]
        intro heq
        rw [heq] at hc
        exact absurd (formatInt_notSpace _ 10 hc) (by decide)
    rw [hline] at hinput
    exact scanBox_noSpace (hinput.trans (List.nil_append _).symm)
      (fun c hc => absurd hc List.not_mem_nil) hframe.mark (by decide) hdecode
  box := by
    intro last box frame l hframe hplain
    have hlength : (CStr.ofBuffer frame).strlen < msize := by
      have htext := boxText_length hframe.mark box
      rw [← hframe.text] at htext
      exact Nat.lt_trans htext (by decide)
    rcases scanAnswer_frame (l := l) hframe.text hlength hplain with ⟨input, hscan, hinput⟩
    refine ⟨{ l with code := listAnswer, input := input }, rfl, ?_⟩
    rw [decodeFirst, bufferText_mem hframe.ended, ok_bind, hscan, ok_bind]
    exact scanBox_record (hinput.trans (List.nil_append _).symm)
      (fun c hc => absurd hc List.not_mem_nil) hframe.mark hplain

/-!
## Decoding the frames
-/

variable {decode : List UInt8 -> Locals -> Out Locals}

/-- A frame is decoded to what is true of its box exactly when the box is faithful. -/
theorem BoxDecoder.shows_iff (h : BoxDecoder decode) (hframe : FrameOf last box frame)
    (hidle : IdleBox box) (l : Locals) :
    (exists l', decode frame l = .ok l' ∧ Shows fs last box l') <-> Faithful fs box := by
  constructor
  · rintro ⟨l', hdecode, hshows⟩
    have hword := h.word hframe hidle hdecode
    rw [hshows.name] at hword
    rcases h.box l hframe (hidle.plain hword) with ⟨l1, _, hbox⟩
    rw [hbox] at hdecode
    cases hdecode
    exact ⟨hword, hshows.size⟩
  · rintro ⟨hword, hsize⟩
    rcases h.box l hframe (hidle.plain hword) with ⟨l1, hcode, hbox⟩
    refine ⟨l1.setBox last box, hbox, hcode, rfl, rfl, hsize, ?_, ?_⟩
    · simp only [Locals.setBox, hidle.writer]
      rfl
    · simp only [Locals.setBox, hidle.readers]
      rfl

theorem decodeFrames_cons {frames : List (List UInt8)} {records : List Locals} :
    decodeFrames decode (frame :: frames) l = .ok records <->
      exists l' rest, decode frame l = .ok l' ∧
        decodeFrames decodeNext frames l' = .ok rest ∧ records = l' :: rest := by
  rw [decodeFrames, bind_eq_ok]
  constructor
  · rintro ⟨l', hdecode, hrest⟩
    rcases bind_eq_ok.mp hrest with ⟨rest, hframes, heq⟩
    cases heq
    exact ⟨l', rest, hdecode, hframes, rfl⟩
  · rintro ⟨l', rest, hdecode, hframes, heq⟩
    refine ⟨l', hdecode, bind_eq_ok.mpr ⟨rest, hframes, ?_⟩⟩
    rw [heq]
    rfl

/-- The frames are decoded to their boxes exactly when every box is faithful. -/
theorem decodeFrames_iff {boxes : List Box} {frames : List (List UInt8)}
    (hframes : FramesOf boxes frames) (hidle : forall box, box ∈ boxes -> IdleBox box)
    (h : BoxDecoder decode) (l : Locals) :
    (exists records, decodeFrames decode frames l = .ok records ∧ ShowsBoxes fs boxes records) <->
      forall box, box ∈ boxes -> Faithful fs box := by
  induction hframes generalizing decode l with
  | @last box frame _ hended htext =>
      have hframe : FrameOf 1 box frame := ⟨hended, htext, Nat.le_refl 1⟩
      have hshows : (exists l', decode frame l = .ok l' ∧ Shows fs 1 box l') <->
          Faithful fs box := h.shows_iff hframe (hidle box List.mem_cons_self) l
      constructor
      · rintro ⟨records, hdecode, hrecords⟩ other hmem
        rw [List.mem_singleton.mp hmem]
        rcases decodeFrames_cons.mp hdecode with ⟨l', rest, hfirst, _, heq⟩
        rw [heq] at hrecords
        cases hrecords with
        | last hlast => exact hshows.mp ⟨l', hfirst, hlast⟩
        | next _ hnone => cases hnone
      · intro hall
        rcases hshows.mpr (hall box List.mem_cons_self) with ⟨l', hfirst, hlast⟩
        exact ⟨[l'], decodeFrames_cons.mpr ⟨l', [], hfirst, rfl, rfl⟩, ShowsBoxes.last hlast⟩
  | @next box boxes frame frames _ hended htext hrest ih =>
      have hframe : FrameOf 0 box frame := ⟨hended, htext, Nat.zero_le 1⟩
      have hshows : (exists l', decode frame l = .ok l' ∧ Shows fs 0 box l') <->
          Faithful fs box := h.shows_iff hframe (hidle box List.mem_cons_self) l
      have hidle' : forall other, other ∈ boxes -> IdleBox other :=
        fun other hmem => hidle other (List.mem_cons_of_mem _ hmem)
      constructor
      · rintro ⟨records, hdecode, hrecords⟩
        rcases decodeFrames_cons.mp hdecode with ⟨l', rest, hfirst, hlater, heq⟩
        rw [heq] at hrecords
        cases hrecords with
        | last _ => cases hrest
        | next hnext hboxes =>
            have hfaithful := hshows.mp ⟨l', hfirst, hnext⟩
            have hothers := (ih hidle' decodeNext_box l').mp ⟨rest, hlater, hboxes⟩
            intro other hmem
            rcases List.mem_cons.mp hmem with heq | hmem
            · rw [heq]
              exact hfaithful
            · exact hothers other hmem
      · intro hall
        rcases hshows.mpr (hall box List.mem_cons_self) with ⟨l', hfirst, hnext⟩
        have hothers := fun other hmem => hall other (List.mem_cons_of_mem _ hmem)
        rcases (ih hidle' decodeNext_box l').mpr hothers with ⟨rest, hlater, hboxes⟩
        exact ⟨l' :: rest, decodeFrames_cons.mpr ⟨l', rest, hfirst, hlater, rfl⟩,
          ShowsBoxes.next hnext hboxes⟩

end Frames

/-- Every frame holds the text of one of the boxes. -/
theorem text_of_mem {boxes : List Box} {frames : List (List UInt8)}
    (hframes : FramesOf boxes frames) {frame : List UInt8} (hmem : frame ∈ frames) :
    exists last box, box ∈ boxes ∧ last <= 1 ∧ (CStr.ofBuffer frame).bytes = boxText last box := by
  induction hframes with
  | @last box other _ _ htext =>
      rw [List.mem_singleton.mp hmem]
      exact ⟨1, box, List.mem_cons_self, Nat.le_refl 1, htext⟩
  | @next box boxes other frames _ _ htext _ ih =>
      rcases List.mem_cons.mp hmem with heq | hmem
      · rw [heq]
        exact ⟨0, box, List.mem_cons_self, Nat.zero_le 1, htext⟩
      · rcases ih hmem with ⟨last, box', hbox, hlast, htext'⟩
        exact ⟨last, box', List.mem_cons_of_mem _ hbox, hlast, htext'⟩

/-!
## Listings that end
-/

section Listings

variable {b : State} {cells : List (Nat × Box)} {env : Env} {fd : Nat} {clientInput : Args}

theorem sendRequest_ok (hwrites : forall n, env.writes n = true) (n fd : Nat)
    (text : List UInt8) :
    sendRequest env n fd text = .ok (.wrote fd (frame text (env.behind n))) := by
  rw [sendRequest, if_pos (hwrites n)]

theorem listLoop_ok {heap : Heap (Cell Box)} {p : Option Nat} {fuel n : Nat}
    (hwrites : forall n, env.writes n = true) (hchain : Chain heap p cells)
    (hfuel : cells.length <= fuel) :
    exists listings, listLoop env fd heap fuel n p = .ok listings := by
  induction cells generalizing p fuel n with
  | nil =>
      rw [show p = none from hchain]
      cases fuel <;> exact ⟨[], rfl⟩
  | cons cell cells ih =>
      rcases cell with ⟨a, box⟩
      rcases hchain with ⟨hp, next, hcell, hrest⟩
      cases fuel with
      | zero => cases hfuel
      | succ fuel =>
          rcases ih (n := n + 1) hrest (Nat.le_of_succ_le_succ hfuel) with ⟨listings, hloop⟩
          rw [hp, listLoop, Heap.load_eq hcell, ofHeap_ok, ok_bind]
          simp only [sendRequest_ok hwrites, hloop, ok_bind]
          exact ⟨_, rfl⟩

/-- A registry with boxes lists their frames, if the client's pipe takes them. -/
theorem listBox_boxes (hchain : Chain b.boxes b.head cells) (hne : cells ≠ [])
    (hfd : env.fd = some fd) (hwrites : forall n, env.writes n = true)
    (clientInput : Args) :
    exists frames, listBox clientInput env b =
        .ok (.opened fd :: frames.map (Event.wrote fd) ++ [.closed fd], b) ∧
      FramesOf (cells.map Prod.snd) frames := by
  have hok : exists events, listBox clientInput env b = .ok (events, b) := by
    rw [listBox, hfd]
    cases hhead : b.head with
    | none =>
        simp only [sendRequest_ok hwrites, ok_bind]
        exact ⟨_, rfl⟩
    | some p =>
        rw [hhead] at hchain
        have hloop : exists listings,
            listLoop env fd b.boxes b.boxes.top 0 (some p) = .ok listings :=
          listLoop_ok hwrites hchain hchain.length_le
        rcases hloop with ⟨listings, hloop⟩
        simp only [hloop, ok_bind]
        exact ⟨_, rfl⟩
  rcases hok with ⟨events, hlist⟩
  rcases listBox_frames hchain hne hfd hlist with ⟨frames, hevents, hframes⟩
  rw [hevents] at hlist
  exact ⟨frames, hlist, hframes⟩

/-!
## The empty registry
-/

/-- The text of the only frame when there are no boxes. -/
def emptyText : List UInt8 := serializeListing listAnswer 1 [] 0 0 0

theorem emptyText_eq : emptyText = formatInt listAnswer ++ ([32] ++ ascii "1  0 0 0") := by
  decide +kernel

/-- The frame of a box has a slash where that of the empty listing has a space. -/
theorem boxText_ne_empty {last : Nat} {box : Box} (hlast : last <= 1) (h : IdleBox box) :
    boxText last box ≠ emptyText := by
  rcases recordText_idle last h with ⟨rest, hrecord⟩
  intro heq
  rw [boxText_eq, hrecord, emptyText_eq] at heq
  have hsame := List.append_cancel_left (List.append_cancel_left heq)
  have hcases : last = 0 ∨ last = 1 := by omega
  have hzero : formatInt ((0 : Nat) : Int) = [48] := by decide
  have hone : formatInt ((1 : Nat) : Int) = [49] := by decide
  rcases hcases with hcase | hcase
  · rw [hcase, hzero] at hsame
    have hfirst : some (48 : UInt8) = some 49 := congrArg List.head? hsame
    exact absurd hfirst (by decide)
  · rw [hcase, hone] at hsame
    have hthird : some (47 : UInt8) = some 32 := congrArg (fun bytes => bytes[2]?) hsame
    exact absurd hthird (by decide)

theorem idleBox_of_good {cell : Nat × Box} (h : Good b cells) (hmem : cell ∈ cells) :
    IdleBox cell.2 := by
  have hname : cell.2.boxName.str ∈ boxNames cells := List.mem_map.mpr ⟨cell, hmem, rfl⟩
  exact ⟨⟨_, bytes_of_valid (h.valid hname)⟩, (h.quiet hmem).left, (h.quiet hmem).right⟩

/-- The record of the empty listing, and what is left of it behind its first number. -/
def emptyRecord : CStr := ⟨ascii "1  0 0 0", by decide⟩

theorem scanBox_empty (l : Locals) : exists l', scanBox emptyRecord l = .ok l' ∧
    l'.code = l.code ∧ l'.last = 1 ∧ l'.name.bytes = ascii "0" := by
  have hint : scanInt emptyRecord = some (1, ⟨ascii "  0 0 0", by decide⟩) := by
    decide +kernel
  have hword : scanWord ⟨ascii "  0 0 0", by decide⟩ =
      some (⟨ascii "0", by decide⟩, ⟨ascii " 0 0", by decide⟩) := by
    decide +kernel
  have hfits : fitsArray boxNameSize ⟨ascii "0", by decide⟩ = .ok ⟨ascii "0", by decide⟩ := by
    decide +kernel
  refine ⟨scanCounts ⟨ascii " 0 0", by decide⟩
    { l with last := 1, name := ⟨ascii "0", by decide⟩ }, ?_, ?_⟩
  · simp only [scanBox, hint, hword, hfits, ok_bind, pure_ok]
  · rcases scanCounts_keeps ⟨ascii " 0 0", by decide⟩
      { l with last := 1, name := ⟨ascii "0", by decide⟩ } with ⟨hcode, hlast, hname⟩
    exact ⟨hcode, hlast, congrArg CStr.bytes hname⟩

/-- The only frame of a registry without boxes, as the manager decodes it. -/
theorem decodeFirst_empty (behind : Nat -> UInt8) (l : Locals) : exists l',
    decodeFirst (frame emptyText behind) l = .ok l' ∧ l'.code = listAnswer ∧ l'.last = 1 ∧
      printFirst l' = ascii " 0 0 0\n" := by
  have hnoNul : 0 ∉ emptyText := by decide +kernel
  rcases frame_text hnoNul (by decide +kernel) behind with ⟨_, hended, htext⟩
  rcases scanAnswer_line (l := l) (htext.trans emptyText_eq) (by decide) (by decide) (by decide)
    (stops_cons (by decide) _) (by decide) with ⟨input, hscan, hinput⟩
  have hrecord : input = emptyRecord := by
    apply CStr.ext
    rw [hinput]
    decide
  rcases scanBox_empty { l with code := listAnswer, input := input } with
    ⟨l', hbox, hcode, hlast, hname⟩
  refine ⟨l', ?_, hcode, hlast, ?_⟩
  · rw [decodeFirst, bufferText_mem hended, ok_bind, hscan, ok_bind]
    rw [← hrecord] at hbox
    exact hbox
  · rw [printFirst, if_pos hname]

/-- No registry with boxes lists a frame with the text of the empty listing. -/
theorem lists_ne_empty {b' : State} {frames : List (List UInt8)} (hreach : Broker.Reachable b')
    (hhead : b'.head ≠ none) (hlists : Lists b' frames) :
    forall frame, frame ∈ frames -> (CStr.ofBuffer frame).bytes ≠ emptyText := by
  rcases hlists with ⟨clientInput, env, fd, hfd, hlist⟩
  rcases hreach.cases with ⟨cells, hgood⟩ | ⟨pre, a, hdangling⟩
  · have hne : cells ≠ [] := by
      intro hnil
      have hchain := hgood.chain
      rw [hnil] at hchain
      exact hhead hchain
    rcases listBox_frames hgood.chain hne hfd hlist with ⟨frames', hevents, hframes⟩
    have hsame := frames_of_events hevents
    have hidle : forall box, box ∈ cells.map Prod.snd -> IdleBox box := by
      intro box hmem
      rcases List.mem_map.mp hmem with ⟨cell, hcell, heq⟩
      exact heq ▸ idleBox_of_good hgood hcell
    rw [hsame]
    intro frame hmem
    rcases text_of_mem hframes hmem with ⟨last, box, hbox, hlast, htext⟩
    rw [htext]
    exact boxText_ne_empty hlast (hidle box hbox)
  · exact absurd hlist (hdangling.not_listBox hfd)

theorem showsNone_empty (behind : Nat -> UInt8) (l : Locals) :
    ShowsNone [frame emptyText behind] l := by
  rcases decodeFirst_empty behind l with ⟨l', hdecode, hcode, hlast, hprint⟩
  refine ⟨frame emptyText behind, l', rfl, hdecode, hcode, hlast, hprint, ?_⟩
  intro b frames hreach hhead hlists frame' hmem heq
  have hnoNul : 0 ∉ emptyText := by decide +kernel
  have htext := (frame_text hnoNul (by decide +kernel) behind).right.right
  refine lists_ne_empty hreach hhead hlists frame' hmem ?_
  rw [heq, htext]

theorem listBox_empty (hhead : b.head = none) (hfd : env.fd = some fd)
    (hwrites : forall n, env.writes n = true) (clientInput : Args) :
    listBox clientInput env b =
      .ok (.opened fd :: [frame emptyText (env.behind 0)].map (Event.wrote fd) ++ [.closed fd],
        b) := by
  rw [listBox, hfd]
  simp only [hhead, sendRequest_ok hwrites, ok_bind]
  rfl

/-- What is decoded to the registry comes from live nodes and faithful boxes. -/
theorem ListsRegistry.faithful (hreach : Broker.Reachable b) (h : ListsRegistry b) :
    AllLive b ∧ forall a box, HoldsBox b a box -> Faithful b.fs box := by
  rcases h with ⟨cells, hchain, hlists⟩
  have hlive := allLive_chain hchain
  rcases hreach.good hlive with ⟨cells', hgood⟩
  have hidle : forall box, box ∈ cells.map Prod.snd -> IdleBox box := by
    intro box hmem
    rcases List.mem_map.mp hmem with ⟨⟨a, box'⟩, hcell, heq⟩
    have hholds := hgood.holdsBox_iff.mp ((holdsBox_chain hchain).mpr hcell)
    exact heq ▸ idleBox_of_good hgood hholds
  refine ⟨hlive, fun a box hholds => ?_⟩
  have hcell := (holdsBox_chain hchain).mp hholds
  have hne : cells ≠ [] := List.ne_nil_of_mem hcell
  rcases listBox_boxes hchain hne (rfl : (openEnv []).fd = some 3) (fun _ => rfl) argsA with
    ⟨frames, hlist, hframes⟩
  rcases hlists argsA (openEnv []) 3 unsetLocals rfl (fun _ => rfl) with
    ⟨frames', hlist', hboxes, _⟩
  rw [hlist] at hlist'
  have hsame := frames_of_events (Prod.mk.inj (Except.ok.inj hlist')).left
  rw [← hsame] at hboxes
  exact (decodeFrames_iff hframes hidle decodeFirst_box unsetLocals).mp (hboxes hne) box
    (List.mem_map.mpr ⟨(a, box), hcell, rfl⟩)

end Listings

/-- In a reachable state a listing is decoded to the registry exactly when no freed node is
linked, the names of the boxes hold no white space and each box has eight bytes. -/
theorem listsRegistry_iff {b : State} (hreach : Broker.Reachable b) :
    ListsRegistry b <-> AllLive b ∧ forall a box, HoldsBox b a box -> Faithful b.fs box := by
  constructor
  · intro h
    exact h.faithful hreach
  · rintro ⟨hlive, hfaithful⟩
    rcases hreach.good hlive with ⟨cells, hgood⟩
    refine ⟨cells, hgood.chain, fun clientInput env fd l hfd hwrites => ?_⟩
    by_cases hnil : cells = []
    · have hhead : b.head = none := by
        have hchain := hgood.chain
        rw [hnil] at hchain
        exact hchain
      exact ⟨_, listBox_empty hhead hfd hwrites clientInput, fun hne => absurd hnil hne,
        fun _ => showsNone_empty _ l⟩
    · rcases listBox_boxes hgood.chain hnil hfd hwrites clientInput with ⟨frames, hlist, hframes⟩
      refine ⟨frames, hlist, fun _ => ?_, fun heq => absurd heq hnil⟩
      refine (decodeFrames_iff hframes ?_ decodeFirst_box l).mpr ?_
      · intro box hmem
        rcases List.mem_map.mp hmem with ⟨cell, hcell, heq⟩
        exact heq ▸ idleBox_of_good hgood hcell
      · intro box hmem
        rcases List.mem_map.mp hmem with ⟨⟨a, box'⟩, hcell, heq⟩
        exact heq ▸ hfaithful a box' (hgood.holdsBox_iff.mpr hcell)

/-- A session on {lit}`/a` that leaves eight bytes in it. -/
def publishSeven : Request :=
  .regPublisher argsA (openEnv [⟨ascii "9 1234567\n" ++ [0], by decide, by decide⟩])

theorem listsRegistry_seven : ListsRegistry (stateAfter [createA, publishSeven]) := by
  rcases served_ok (by decide +kernel : (served [createA, publishSeven]).isOk = true) with
    ⟨events, hrun⟩
  have hreach : Broker.Reachable (stateAfter [createA, publishSeven]) :=
    ⟨smallMallocs, Fs.unset, defaultFs, [createA, publishSeven], events, defaultInit, hrun⟩
  have hchain : Chain (stateAfter [createA, publishSeven]).boxes
      (stateAfter [createA, publishSeven]).head [(0, boxA)] :=
    ⟨by decide +kernel, none, by decide +kernel, rfl⟩
  refine (listsRegistry_iff hreach).mpr ⟨allLive_chain hchain, fun a box hholds => ?_⟩
  have hcell := (holdsBox_chain hchain).mp hholds
  cases List.mem_singleton.mp hcell
  exact ⟨plainName_boxA.word, by decide +kernel⟩

/-- A box without a byte is listed with eight. -/
theorem emptyBox_misstated :
    fileSize (stateAfter [createA]).fs boxA = some 0 ∧ ¬ ListsRegistry (stateAfter [createA]) := by
  have hsize : fileSize (stateAfter [createA]).fs boxA = some 0 := by decide +kernel
  have hchain : Chain (stateAfter [createA]).boxes (stateAfter [createA]).head [(0, boxA)] :=
    ⟨by decide +kernel, none, by decide +kernel, rfl⟩
  refine ⟨hsize, fun h => ?_⟩
  have hholds := (holdsBox_chain hchain).mpr List.mem_cons_self
  have hfaithful := (h.faithful createdA_reachable.left).right 0 boxA hholds
  rw [hfaithful.size] at hsize
  cases hsize

end Clients
end TecnicoFs
