import TecnicoFs.Broker.Sessions
import TecnicoFs.Clients.Manager

/-!
# Listings over a pipe

The broker writes one frame of 400 bytes for each box.  The manager takes each read for
one frame, and may read more than one at a time.  It prints every box when each read
before the last frame holds exactly one frame.  Of the last frame it needs the text, and a
terminator that may be in the buffer from before.
-/

namespace TecnicoFs
namespace Clients

open Library
open Broker

/-- A name that `%s` reads back as it is. -/
structure PlainName (name : CStr) : Prop where
  nonempty : name.bytes ≠ []
  word : forall c, c ∈ name.bytes -> isSpace c = false

/-- The text of the frame of a box. -/
def boxText (last : Nat) (box : Box) : List UInt8 :=
  serializeListing listAnswer last box.boxName.str.bytes sizeofPointer
    (uint64OfInt box.hasWriter) (uint64OfInt box.nReaders)

/-- The line of a box. -/
def boxLine (box : Box) : List UInt8 :=
  printBox box.boxName.str sizeofPointer (uint64OfInt box.hasWriter) (uint64OfInt box.nReaders)

/-- The frames of the boxes, of which the last is marked. -/
inductive FramesOf : List Box -> List (List UInt8) -> Prop where
  | last {box : Box} {frame : List UInt8} : frame.length = frameSize -> 0 ∈ frame ->
      (CStr.ofBuffer frame).bytes = boxText 1 box -> FramesOf [box] [frame]
  | next {box : Box} {boxes : List Box} {frame : List UInt8} {frames : List (List UInt8)} :
      frame.length = frameSize -> 0 ∈ frame -> (CStr.ofBuffer frame).bytes = boxText 0 box ->
      FramesOf boxes frames -> FramesOf (box :: boxes) (frame :: frames)

/-- The buffer after its string has been set to zeros. -/
def cleared (buffer : List UInt8) : List UInt8 :=
  List.replicate (CStr.ofBuffer buffer).strlen 0 ++ buffer.drop (CStr.ofBuffer buffer).strlen

/-- The buffer after what stands behind the code of its string has been copied to its
start. -/
def copied (buffer : List UInt8) : List UInt8 :=
  let record := (CStr.ofBuffer buffer).bytes.drop 2
  record ++ [0] ++ buffer.drop (record.length + 1)

/-- The read has the whole text of the frame, and a terminator stands behind it, in the
read or in what the buffer held before. -/
def EndsText (frame : List UInt8) (read : Chunk) (held : List UInt8) : Prop :=
  (CStr.ofBuffer frame).strlen <= read.bytes.length ∧
    (0 ∈ read.bytes ∨ held[read.bytes.length]? = some 0)

/-- Each read before the last frame holds exactly one frame, and the read where the last
frame starts ends its text.  The first read goes to a buffer that holds `held`, and each
later one to the buffer after the string before has been cleared. -/
inductive WholeFrames : (held : List UInt8) -> List (List UInt8) -> List Chunk -> Prop where
  | last {held frame : List UInt8} {read : Chunk} {reads : List Chunk} :
      read.bytes ++ (reads.map Chunk.bytes).flatten = frame -> EndsText frame read held ->
      WholeFrames held [frame] (read :: reads)
  | next {held frame : List UInt8} {frames : List (List UInt8)} {read : Chunk}
      {reads : List Chunk} :
      read.bytes = frame -> WholeFrames (cleared (afterRead read held)) frames reads ->
      WholeFrames held (frame :: frames) (read :: reads)

/-- The same for all the frames of a listing.  The string of the first frame is cleared
after its record has been copied to the start of the buffer. -/
inductive WholeListing : (buffer : List UInt8) -> List (List UInt8) -> List Chunk -> Prop where
  | single {buffer frame : List UInt8} {reads : List Chunk} :
      WholeFrames buffer [frame] reads -> WholeListing buffer [frame] reads
  | first {buffer frame : List UInt8} {frames : List (List UInt8)} {read : Chunk}
      {reads : List Chunk} :
      read.bytes = frame ->
      WholeFrames (cleared (copied (afterRead read buffer))) frames reads ->
      WholeListing buffer (frame :: frames) (read :: reads)

/-- The reads divide what was written. -/
def DividesFrames (frames : List (List UInt8)) (reads : List Chunk) : Prop :=
  (reads.map Chunk.bytes).flatten = frames.flatten

theorem divides_cons {frame : List UInt8} {frames : List (List UInt8)} {read : Chunk}
    {reads : List Chunk} (hread : read.bytes = frame) (h : DividesFrames frames reads) :
    DividesFrames (frame :: frames) (read :: reads) := by
  rw [DividesFrames, List.map_cons, List.flatten_cons, List.flatten_cons, hread]
  exact congrArg _ h

theorem WholeFrames.divides {held : List UInt8} {frames : List (List UInt8)}
    {reads : List Chunk} (h : WholeFrames held frames reads) : DividesFrames frames reads := by
  induction h with
  | last hframe _ => simpa [DividesFrames] using hframe
  | next hread _ ih => exact divides_cons hread ih

theorem WholeListing.divides {buffer : List UInt8} {frames : List (List UInt8)}
    {reads : List Chunk} (h : WholeListing buffer frames reads) :
    DividesFrames frames reads := by
  cases h with
  | single hlast => exact hlast.divides
  | first hread hwhole => exact divides_cons hread hwhole.divides

/-!
## Scanning a frame
-/

section Scanning

variable {l : Locals} {box : Box} {last : Nat} {text : CStr}

/-- The counts of a box, each behind a space. -/
def countsText (size pub sub : Nat) : List UInt8 :=
  [32] ++ (formatInt (wrapLong size) ++ ([32] ++ (formatInt (wrapLong pub) ++
    ([32] ++ formatInt (wrapLong sub)))))

/-- What a frame says behind its code. -/
def recordText (last : Nat) (box : Box) : List UInt8 :=
  formatInt last ++ ([32] ++ (box.boxName.str.bytes ++
    countsText sizeofPointer (uint64OfInt box.hasWriter) (uint64OfInt box.nReaders)))

theorem boxText_eq (last : Nat) (box : Box) :
    boxText last box = formatInt listAnswer ++ ([32] ++ recordText last box) := by
  simp only [boxText, serializeListing, recordText, countsText, List.append_assoc]

theorem boxText_length (hlast : last <= 1) (box : Box) :
    (boxText last box).length < frameSize := by
  have hcode := formatInt_length_le (v := listAnswer) (k := 1) (by decide) (by decide)
  have hmark := formatInt_length_le (v := last) (k := 1) (by omega) (by decide)
  have hlong : forall n : Nat, (formatInt (wrapLong n)).length <= 20 := fun n =>
    formatInt_length_le (k := 19) (Nat.lt_of_le_of_lt (wrapLong_natAbs n) (by omega)) (by decide)
  have hsize := hlong sizeofPointer
  have hpub := hlong (uint64OfInt box.hasWriter)
  have hsub := hlong (uint64OfInt box.nReaders)
  have hname := box.boxName.fits
  simp only [CStr.strlen, boxNameSize] at hname
  rw [boxText_eq, recordText, countsText]
  simp only [List.length_append, List.length_cons, List.length_nil, frameSize]
  omega

theorem wrapLong_range (n : Nat) : (wrapLong n).natAbs <= 18446744073709551615 :=
  Nat.le_trans (wrapLong_natAbs n) (by omega)

theorem scanCounts_format {size pub sub : Nat} (hs : text.bytes = countsText size pub sub)
    (hsize : size < 18446744073709551616) (hpub : pub < 18446744073709551616)
    (hsub : sub < 18446744073709551616) :
    scanCounts text l = { l with size := size, p := pub, s := sub } := by
  rw [countsText, ← List.append_assoc] at hs
  rcases CStr.exists_suffix hs with ⟨text1, h1⟩
  rw [← h1, List.append_assoc] at hs
  have hfirst := scanULong_format hs space_isSpace (wrapLong_range size) (by
    rw [h1]
    exact stops_space (by decide) _)
  rw [← List.append_assoc] at h1
  rcases CStr.exists_suffix h1 with ⟨text2, h2⟩
  rw [← h2, List.append_assoc] at h1
  have hsecond := scanULong_format h1 space_isSpace (wrapLong_range pub) (by
    rw [h2]
    exact stops_space (by decide) _)
  have hthird := scanULong_format (t := emptyStr) (v := wrapLong sub) (by
    rw [h2, emptyStr, List.append_nil]) space_isSpace (wrapLong_range sub) stops_nil
  rw [uint64OfInt_wrapLong hsize] at hfirst
  rw [uint64OfInt_wrapLong hpub] at hsecond
  rw [uint64OfInt_wrapLong hsub] at hthird
  simp only [scanCounts, hfirst, hsecond, hthird]

/-- The variables after the record of a box has been scanned. -/
def Locals.setBox (l : Locals) (last : Nat) (box : Box) : Locals :=
  { l with
    last := last
    name := box.boxName.str
    size := sizeofPointer
    p := uint64OfInt box.hasWriter
    s := uint64OfInt box.nReaders }

theorem Locals.setBox_notLast (l : Locals) (box : Box) : (l.setBox 0 box).last ≠ 1 := by
  intro hlast
  cases hlast

theorem scanBox_record {ws : List UInt8} (hs : text.bytes = ws ++ recordText last box)
    (hws : forall c, c ∈ ws -> isSpace c = true) (hlast : last <= 1)
    (hplain : PlainName box.boxName.str) : scanBox text l = .ok (l.setBox last box) := by
  rw [recordText] at hs
  rcases scanInt_field hs hws (by omega) (by omega) with ⟨text1, hint, h1⟩
  rcases scanWord_field h1 space_isSpace hplain.nonempty hplain.word with ⟨text2, hword, h2⟩
  have hpointer : sizeofPointer < 18446744073709551616 := by
    rw [sizeofPointer]
    omega
  have hcounts := scanCounts_format (l := { l with last := last, name := box.boxName.str }) h2
    hpointer (uint64OfInt_lt _) (uint64OfInt_lt _)
  have hfits : fitsArray boxNameSize box.boxName.str = .ok box.boxName.str :=
    if_pos box.boxName.fits
  simp only [scanBox, hint, hword, hfits, ok_bind, hcounts, pure_ok, Locals.setBox]

/-- The code of a frame, and what it says behind it. -/
theorem scanInt_frame (hs : text.bytes = boxText last box) :
    exists text1, scanInt text = some (listAnswer, text1) ∧
      text1.bytes = [32] ++ recordText last box := by
  rw [boxText_eq, ← List.nil_append (_ ++ _)] at hs
  exact scanInt_field hs (fun c hc => absurd hc List.not_mem_nil) (by decide) (by decide)

theorem scanListing_frame (hs : text.bytes = boxText last box) (hlast : last <= 1)
    (hplain : PlainName box.boxName.str) :
    scanListing text l = .ok ({ l with code := listAnswer }.setBox last box) := by
  rcases scanInt_frame hs with ⟨text1, hint, h1⟩
  simp only [scanListing, hint]
  exact scanBox_record h1 space_isSpace hlast hplain

theorem recordText_oneLine (last : Nat) (hplain : PlainName box.boxName.str) :
    10 ∉ recordText last box := by
  have hint : forall v : Int, 10 ∉ formatInt v := by
    intro v hmem
    exact absurd (formatInt_notSpace v 10 hmem) (by decide)
  have hname : 10 ∉ box.boxName.str.bytes := by
    intro hmem
    exact absurd (hplain.word 10 hmem) (by decide)
  have hspace : (10 : UInt8) ∉ [(32 : UInt8)] := by decide
  simp only [recordText, countsText, List.mem_append, not_or]
  exact ⟨hint _, hspace, hname, hspace, hint _, hspace, hint _, hspace, hint _⟩

/-- The manager's first scan keeps the record of the first frame. -/
theorem scanAnswer_frame (hs : text.bytes = boxText last box) (hlength : text.strlen < msize)
    (hplain : PlainName box.boxName.str) :
    exists input, scanAnswer text l = .ok { l with code := listAnswer, input := input } ∧
      input.bytes = recordText last box := by
  rw [boxText_eq] at hs
  have hne : recordText last box ≠ [] := by
    intro hnil
    have hlength := congrArg List.length hnil
    rw [recordText] at hlength
    simp at hlength
  have hrecord : (recordText last box).length < msize := by
    have htext := congrArg List.length hs
    simp only [CStr.strlen, List.length_append] at hlength htext
    omega
  rcases scanAnswer_line hs (by decide) (by decide) hne (formatInt_stops _ _) hrecord with
    ⟨input, hscan, hinput⟩
  rw [takeWhile_line (recordText_oneLine last hplain)] at hinput
  exact ⟨input, hscan, hinput⟩

end Scanning

/-!
## Reading the frames
-/

section Reading

variable {l : Locals} {box : Box} {boxes : List Box} {frames : List (List UInt8)}
  {read : Chunk} {reads : List Chunk} {buffer : List UInt8}

theorem clearText_ok (h : 0 ∈ buffer) : clearText buffer = .ok (cleared buffer) := by
  rw [clearText, bufferText_mem h]
  rfl

theorem listingLoop_last (reads : List Chunk) (buffer : List UInt8) (h : l.last = 1) :
    listingLoop reads buffer l = .ok [] := by
  cases reads with
  | nil => rw [listingLoop, if_pos h, pure_ok]
  | cons read reads => rw [listingLoop, if_pos h, pure_ok]

/-- A turn of the loop prints the box of the text in its buffer. -/
theorem listingLoop_frame {last : Nat} (reads : List Chunk) (hlast : l.last ≠ 1)
    (hbuffer : 0 ∈ buffer) (hended : 0 ∈ afterRead read (cleared buffer))
    (htext : (CStr.ofBuffer (afterRead read (cleared buffer))).bytes = boxText last box)
    (hmark : last <= 1) (hplain : PlainName box.boxName.str) :
    listingLoop (read :: reads) buffer l = (do
      let lines <- listingLoop reads (afterRead read (cleared buffer))
        ({ l with code := listAnswer }.setBox last box)
      pure (boxLine box :: lines)) := by
  rw [listingLoop, if_neg hlast, clearText_ok hbuffer, ok_bind]
  simp only [bufferText_mem hended, ok_bind, scanListing_frame htext hmark hplain]
  rfl

/-- A read of a whole frame has its text. -/
theorem afterRead_frame {frame : List UInt8} (hread : read.bytes = frame) (hended : 0 ∈ frame)
    (held : List UInt8) :
    0 ∈ afterRead read held ∧ CStr.ofBuffer (afterRead read held) = CStr.ofBuffer frame := by
  rw [afterRead, hread]
  have hsame := ofBuffer_of_mem hended (held.drop frame.length) []
  rw [List.append_nil] at hsame
  exact ⟨List.mem_append_left _ hended, hsame⟩

/-- So has a read that ends the text of its frame. -/
theorem EndsText.text {frame rest held : List UInt8} (h : EndsText frame read held)
    (hframe : read.bytes ++ rest = frame) :
    0 ∈ afterRead read held ∧ CStr.ofBuffer (afterRead read held) = CStr.ofBuffer frame := by
  by_cases hended : 0 ∈ read.bytes
  · refine ⟨List.mem_append_left _ hended, ?_⟩
    rw [← hframe]
    exact ofBuffer_of_mem hended _ _
  · rcases h with ⟨hlength, hread | hheld⟩
    · exact absurd hread hended
    · have hdrop : held.drop read.bytes.length = 0 :: held.drop (read.bytes.length + 1) := by
        rcases List.getElem?_eq_some_iff.mp hheld with ⟨hlt, hcell⟩
        rw [List.drop_eq_getElem_cons hlt, hcell]
      -- The text has no more bytes than the read, which has no terminator.
      have htext : (CStr.ofBuffer frame).bytes = read.bytes := by
        have hbegins : read.bytes <+: (CStr.ofBuffer frame).bytes := by
          rw [← hframe]
          refine ⟨(CStr.ofBuffer rest).bytes, ?_⟩
          refine (List.takeWhile_append_of_pos fun c hc => ?_).symm
          rw [bne_iff_ne]
          exact fun heq => hended (heq ▸ hc)
        exact (hbegins.eq_of_length_le hlength).symm
      rw [afterRead, hdrop]
      refine ⟨List.mem_append_right _ List.mem_cons_self, CStr.ext ?_⟩
      rw [ofBuffer_eq hended, htext]

/-- The loop prints the boxes of the frames that the reads hold. -/
theorem listingLoop_frames (hframes : FramesOf boxes frames)
    (hreads : WholeFrames (cleared buffer) frames reads)
    (hplain : forall box, box ∈ boxes -> PlainName box.boxName.str) (hlast : l.last ≠ 1)
    (hbuffer : 0 ∈ buffer) : listingLoop reads buffer l = .ok (boxes.map boxLine) := by
  induction hframes generalizing reads buffer l with
  | @last box frame _ _ htext =>
      cases hreads with
      | @last _ _ read rest hframe hends =>
          rcases hends.text hframe with ⟨hended, hsame⟩
          rw [← hsame] at htext
          rw [listingLoop_frame rest hlast hbuffer hended htext (Nat.le_refl 1)
            (hplain box List.mem_cons_self), listingLoop_last rest _ rfl]
          rfl
      | next _ hrest => cases hrest
  | @next box boxes frame frames _ hended htext hrest ih =>
      cases hreads with
      | last _ _ => cases hrest
      | @next _ _ _ read rest hread hwhole =>
          rcases afterRead_frame hread hended (cleared buffer) with ⟨hended', hsame⟩
          rw [← hsame] at htext
          rw [listingLoop_frame rest hlast hbuffer hended' htext (Nat.zero_le 1)
            (hplain box List.mem_cons_self), ih hwhole
            (fun other hother => hplain other (List.mem_cons_of_mem _ hother))
            (Locals.setBox_notLast { l with code := listAnswer } box) hended']
          rfl

theorem printFirst_setBox (l : Locals) (last : Nat) (hzero : box.boxName.str.bytes ≠ ascii "0") :
    printFirst (l.setBox last box) = boxLine box := if_neg hzero

/-- The first frame is scanned twice. -/
theorem answer_frame {last : Nat} (hended : 0 ∈ afterRead read buffer)
    (htext : (CStr.ofBuffer (afterRead read buffer)).bytes = boxText last box) (hmark : last <= 1)
    (hplain : PlainName box.boxName.str) (hzero : box.boxName.str.bytes ≠ ascii "0")
    (reads : List Chunk) (l : Locals) :
    exists input, answer (read :: reads) buffer l = (do
      let lines <- listingLoop reads (copied (afterRead read buffer))
        ({ l with code := listAnswer, input := input }.setBox last box)
      pure (boxLine box :: lines)) := by
  have hlength : (CStr.ofBuffer (afterRead read buffer)).strlen < msize := by
    have hshort := boxText_length hmark box
    rw [← htext] at hshort
    exact Nat.lt_trans hshort (by decide)
  rcases scanAnswer_frame (l := l) htext hlength hplain with ⟨input, hscan, hinput⟩
  have hcopied : copied (afterRead read buffer) =
      input.bytes ++ [0] ++ (afterRead read buffer).drop (input.strlen + 1) := by
    have hdrop : (boxText last box).drop 2 = recordText last box := by
      rw [boxText_eq]
      rfl
    rw [copied, htext, hdrop, ← hinput]
    rfl
  have hstring : bufferText (input.bytes ++ [0] ++
      (afterRead read buffer).drop (input.strlen + 1)) = .ok input := by
    rw [bufferText_mem (by simp)]
    congr 1
    apply CStr.ext
    rw [List.append_assoc]
    exact ofBuffer_eq input.noNul _
  have hrecord : scanBox input { l with code := listAnswer, input := input } =
      .ok ({ l with code := listAnswer, input := input }.setBox last box) :=
    scanBox_record (hinput.trans (List.nil_append _).symm)
      (fun c hc => absurd hc List.not_mem_nil) hmark hplain
  refine ⟨input, ?_⟩
  rw [answer, printed, bufferText_mem hended, ok_bind, hscan, ok_bind, hcopied]
  simp only [ne_eq, not_true_eq_false, if_false, hstring, ok_bind, hrecord]
  rw [printFirst_setBox _ last hzero]

/-- The manager prints the boxes of the frames that its reads hold. -/
theorem answer_frames (hframes : FramesOf boxes frames) (hreads : WholeListing buffer frames reads)
    (hplain : forall box, box ∈ boxes -> PlainName box.boxName.str)
    (hzero : forall box, box ∈ boxes.head? -> box.boxName.str.bytes ≠ ascii "0") (l : Locals) :
    answer reads buffer l = .ok (boxes.map boxLine) := by
  cases hframes with
  | @last box frame _ _ htext =>
      cases hreads with
      | single hwhole =>
          cases hwhole with
          | @last _ _ read rest hframe hends =>
              rcases hends.text hframe with ⟨hended, hsame⟩
              rw [← hsame] at htext
              rcases answer_frame hended htext (Nat.le_refl 1) (hplain box List.mem_cons_self)
                (hzero box rfl) rest l with ⟨input, hanswer⟩
              rw [hanswer, listingLoop_last rest _ rfl]
              rfl
          | next _ hrest => cases hrest
      | first _ hrest => cases hrest
  | @next box boxes frame frames _ hended htext hrest =>
      cases hreads with
      | single _ => cases hrest
      | @first _ _ read rest hread hwhole =>
          rcases afterRead_frame hread hended buffer with ⟨hended', hsame⟩
          rw [← hsame] at htext
          rcases answer_frame hended' htext (Nat.zero_le 1) (hplain box List.mem_cons_self)
            (hzero box rfl) rest l with ⟨input, hanswer⟩
          have hcopied : 0 ∈ copied (afterRead read buffer) := by simp [copied]
          rw [hanswer, listingLoop_frames hrest hwhole
            (fun other hother => hplain other (List.mem_cons_of_mem _ hother))
            (Locals.setBox_notLast { l with code := listAnswer, input := input } box) hcopied]
          rfl

end Reading

/-!
## Writing the frames
-/

section Writing

variable {env : Env} {fd : Nat} {box : Box} {boxes : List Box} {frames : List (List UInt8)}

theorem boxText_noNul (last : Nat) (box : Box) : 0 ∉ boxText last box := by
  have hspace : (0 : UInt8) ∉ [(32 : UInt8)] := by decide
  simp only [boxText_eq, recordText, countsText, List.mem_append, not_or]
  exact ⟨formatInt_noNul _, hspace, formatInt_noNul _, hspace, box.boxName.str.noNul, hspace,
    formatInt_noNul _, hspace, formatInt_noNul _, hspace, formatInt_noNul _⟩

theorem FramesOf.length_eq (h : FramesOf boxes frames) : frames.length = boxes.length := by
  induction h with
  | last _ _ _ => rfl
  | next _ _ _ _ ih => rw [List.length_cons, List.length_cons, ih]

theorem FramesOf.frameSize_eq (h : FramesOf boxes frames) :
    forall frame, frame ∈ frames -> frame.length = frameSize := by
  induction h with
  | last hlength _ _ =>
      intro frame hmem
      rw [List.mem_singleton.mp hmem]
      exact hlength
  | next hlength _ _ _ ih =>
      intro frame hmem
      rcases List.mem_cons.mp hmem with heq | hmem
      · rw [heq]
        exact hlength
      · exact ih frame hmem

/-- The loop of {lit}`list_box` writes the frames of its boxes. -/
theorem listLoop_frames {heap : Heap (Cell Box)} {cells : List (Nat × Box)} {p : Option Nat}
    {fuel n : Nat} {events : List Event} (hchain : Chain heap p cells) (hne : cells ≠ [])
    (hloop : listLoop env fd heap fuel n p = .ok events) :
    exists frames, events = frames.map (Event.wrote fd) ∧
      FramesOf (cells.map Prod.snd) frames := by
  induction cells generalizing p fuel n events with
  | nil => exact absurd rfl hne
  | cons cell cells ih =>
      rcases cell with ⟨a, box⟩
      rcases hchain with ⟨hp, next, hcell, hrest⟩
      rw [hp] at hloop
      cases fuel with
      | zero => cases hloop
      | succ fuel =>
          rw [listLoop, Heap.load_eq hcell, ofHeap_ok, ok_bind] at hloop
          rcases bind_eq_ok.mp hloop with ⟨listing, hsend, hloop⟩
          rcases bind_eq_ok.mp hloop with ⟨listings, hlistings, hresult⟩
          cases hresult
          have hlisting : forall last : Nat,
              sendRequest env n fd (boxText last box) = .ok listing ->
              listing = .wrote fd (frame (boxText last box) (env.behind n)) := by
            intro last hsend
            rw [sendRequest] at hsend
            split at hsend
            · exact (Except.ok.inj hsend).symm
            · cases hsend
          cases cells with
          | nil =>
              have hnext : next = none := hrest
              rw [hnext] at hsend hlistings
              have hlistings' : listings = [] := by
                cases fuel <;> exact (Except.ok.inj hlistings).symm
              rw [hlistings']
              rcases frame_text (boxText_noNul 1 box) (boxText_length (Nat.le_refl 1) box)
                (env.behind n) with ⟨hlength, hended, htext⟩
              refine ⟨[frame (boxText 1 box) (env.behind n)], ?_,
                FramesOf.last hlength hended htext⟩
              rw [hlisting 1 hsend]
              rfl
          | cons cell' cells =>
              have hnext : next = some cell'.1 := hrest.left
              rw [hnext] at hsend
              rcases ih hrest (List.cons_ne_nil _ _) hlistings with ⟨frames, hevents, hframes⟩
              rcases frame_text (boxText_noNul 0 box) (boxText_length (Nat.zero_le 1) box)
                (env.behind n) with ⟨hlength, hended, htext⟩
              refine ⟨frame (boxText 0 box) (env.behind n) :: frames, ?_,
                FramesOf.next hlength hended htext hframes⟩
              rw [hlisting 0 hsend, hevents]
              rfl

/-- What the broker writes for a registry with boxes, unless it exits. -/
theorem listBox_frames {b b' : State} {cells : List (Nat × Box)} {clientInput : Args}
    {events : List Event} (hchain : Chain b.boxes b.head cells) (hne : cells ≠ [])
    (hfd : env.fd = some fd) (hlist : listBox clientInput env b = .ok (events, b')) :
    exists frames, events = .opened fd :: frames.map (Event.wrote fd) ++ [.closed fd] ∧
      FramesOf (cells.map Prod.snd) frames := by
  rw [listBox, hfd] at hlist
  cases hhead : b.head with
  | none =>
      cases cells with
      | nil => exact absurd rfl hne
      | cons cell cells =>
          have hp := hchain.left
          rw [hhead] at hp
          cases hp
  | some a =>
      simp only [hhead] at hlist
      rcases bind_eq_ok.mp hlist with ⟨listings, hloop, hresult⟩
      cases hresult
      rw [hhead] at hchain
      rcases listLoop_frames hchain hne hloop with ⟨frames, hevents, hframes⟩
      exact ⟨frames, by rw [hevents], hframes⟩

/-- The events of a listing determine its frames. -/
theorem frames_of_events {frames frames' : List (List UInt8)}
    (h : Event.opened fd :: frames.map (Event.wrote fd) ++ [.closed fd] =
      .opened fd :: frames'.map (Event.wrote fd) ++ [.closed fd]) : frames = frames' := by
  have hmap := List.append_cancel_right (List.cons.inj h).right
  exact List.map_injective_iff.mpr (fun x y heq => (Event.wrote.inj heq).right) hmap

end Writing

/-!
## Complete listings
-/

/-- A registry with boxes is listed in one frame of 400 bytes for each box, and the
manager prints exactly its boxes, in order, when its reads hold whole frames. -/
theorem listing_complete {b b' : State} {cells : List (Nat × Box)} {clientInput : Args}
    {env : Env} {fd : Nat} {events : List Event} (hchain : Chain b.boxes b.head cells)
    (hne : cells ≠ [])
    (hplain : forall cell, cell ∈ cells -> PlainName cell.2.boxName.str)
    (hzero : forall cell, cell ∈ cells.head? -> cell.2.boxName.str.bytes ≠ ascii "0")
    (hfd : env.fd = some fd) (hlist : listBox clientInput env b = .ok (events, b')) :
    exists frames, events = .opened fd :: frames.map (Event.wrote fd) ++ [.closed fd] ∧
      frames.length = cells.length ∧ (forall frame, frame ∈ frames -> frame.length = 400) ∧
      forall reads buffer l, WholeListing buffer frames reads ->
        answer reads buffer l = .ok (cells.map fun cell => boxLine cell.2) := by
  rcases listBox_frames hchain hne hfd hlist with ⟨frames, hevents, hframes⟩
  refine ⟨frames, hevents, ?_, hframes.frameSize_eq, fun reads buffer l hreads => ?_⟩
  · rw [hframes.length_eq, List.length_map]
  · have hanswer := answer_frames hframes hreads (fun box hmem => ?_) (fun box hmem => ?_) l
    · rw [hanswer, List.map_map]
      rfl
    · rcases List.mem_map.mp hmem with ⟨cell, hcell, heq⟩
      exact heq ▸ hplain cell hcell
    · rw [List.head?_map, Option.mem_def, Option.map_eq_some_iff] at hmem
      rcases hmem with ⟨cell, hcell, heq⟩
      exact heq ▸ hzero cell hcell

/-- The frames of the boxes {lit}`/a` and {lit}`/b`, with zeros behind their texts. -/
def framesAB : List (List UInt8) :=
  [frame (boxText 0 boxA) fun _ => 0, frame (boxText 1 boxB) fun _ => 0]

/-- Both frames in one read. -/
def joinedAB : Chunk := ⟨framesAB.flatten, by decide +kernel, by decide +kernel⟩

/-- The second of two frames in one read is lost, and the manager reports a failure. -/
theorem joinedAB_loses :
    (listBox argsA (openEnv []) (stateAfter [createA, createB])).toOption.map Prod.fst =
        some (.opened 3 :: framesAB.map (Event.wrote 3) ++ [.closed 3]) ∧
      DividesFrames framesAB [joinedAB] ∧
      answer [joinedAB] (List.replicate 1300 0) unsetLocals ≠
        .ok ([boxA, boxB].map boxLine) := by
  have hprinted : (answer [joinedAB] (List.replicate 1300 0) unsetLocals).toOption =
      some [boxLine boxA, failedToRead] := by
    decide +kernel
  refine ⟨by decide +kernel, by rw [DividesFrames]; simp [joinedAB], fun hanswer => ?_⟩
  rw [hanswer] at hprinted
  have hlines := Option.some.inj hprinted
  exact absurd hlines (by decide)

theorem plainName_of_all {name : CStr} (hne : name.bytes ≠ [])
    (hall : (name.bytes.all fun c => !isSpace c) = true) : PlainName name :=
  ⟨hne, noSpace_of_all hall⟩

theorem plainName_boxA : PlainName boxA.boxName.str := plainName_of_all (by decide) (by decide)

theorem plainName_boxB : PlainName boxB.boxName.str := plainName_of_all (by decide) (by decide)

def wholeA : Chunk := ⟨frame (boxText 0 boxA) fun _ => 0, by decide +kernel, by decide +kernel⟩

def textB : Chunk := ⟨boxText 1 boxB, by decide +kernel, by decide +kernel⟩

def zerosB : Chunk := ⟨List.replicate 388 0, by decide +kernel, by decide +kernel⟩

/-- The frame of {lit}`/a`, the text of the frame of {lit}`/b`, and the zeros behind it. -/
def splitAB : List Chunk := [wholeA, textB, zerosB]

/-- The terminator of the last text is the one of the text before. -/
theorem listing_complete_AB :
    answer splitAB (List.replicate 1300 1) unsetLocals = .ok [boxLine boxA, boxLine boxB] := by
  have hlisted : (listBox argsA (openEnv []) (stateAfter [createA, createB])).toOption.map
      Prod.fst = some (.opened 3 :: framesAB.map (Event.wrote 3) ++ [.closed 3]) := by
    decide +kernel
  have hplain : forall cell, cell ∈ [(0, boxA), (1, boxB)] -> PlainName cell.2.boxName.str := by
    intro cell hmem
    rcases List.mem_cons.mp hmem with heq | hmem
    · rw [heq]
      exact plainName_boxA
    · rw [List.mem_singleton.mp hmem]
      exact plainName_boxB
  have hzero : forall cell, cell ∈ [(0, boxA), (1, boxB)].head? ->
      cell.2.boxName.str.bytes ≠ ascii "0" := by
    rintro cell ⟨⟩
    decide
  have hwhole : WholeListing (List.replicate 1300 1) framesAB splitAB :=
    WholeListing.first rfl
      (WholeFrames.last (by decide +kernel) ⟨by decide +kernel, Or.inr (by decide +kernel)⟩)
  cases hlist : listBox argsA (openEnv []) (stateAfter [createA, createB]) with
  | error e =>
      rw [hlist] at hlisted
      cases hlisted
  | ok r =>
      rw [hlist] at hlisted
      rcases listing_complete chainAB (List.cons_ne_nil _ _) hplain hzero rfl hlist with
        ⟨frames, hevents, _, _, hanswer⟩
      have hframes : framesAB = frames := frames_of_events (Option.some.inj hlisted ▸ hevents)
      exact hanswer splitAB _ unsetLocals (hframes ▸ hwhole)

end Clients
end TecnicoFs
