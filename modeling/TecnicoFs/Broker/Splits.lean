import TecnicoFs.Broker.Sessions

/-!
# Divisions of a publisher's stream

A publisher writes one space and then a message for each line of its input.  A pipe may
deliver these bytes in any division.  The broker takes each read for one message, so
nothing is lost when each read holds one whole message; the space that arrives alone
already ends the session.
-/

namespace TecnicoFs
namespace Broker

open Library

/-- A line as {lit}`fgets` delivers it. -/
structure InputLine where
  str : CStr
  nonempty : str.strlen ≠ 0
  fits : str.strlen < msize
  oneLine : 10 ∉ str.bytes.dropLast

namespace InputLine

/-- The line without its newline. -/
def text (line : InputLine) : CStr := line.str.takeWhile (· != 10)

/-- What the publisher writes for the line. -/
def message (line : InputLine) : List UInt8 := serializeMessage sendCode line.str.bytes ++ [0]

end InputLine

/-- The bytes that the publisher writes. -/
def stream (lines : List InputLine) : List UInt8 := [32] ++ lines.flatMap InputLine.message

/-- The reads divide the stream. -/
def Divides (lines : List InputLine) (reads : List Chunk) : Prop :=
  (reads.map Chunk.bytes).flatten = stream lines

instance (lines : List InputLine) (reads : List Chunk) : Decidable (Divides lines reads) :=
  inferInstanceAs (Decidable (_ = _))

/-- After the session the box has every line, each once and in order. -/
def Lossless (b : State) (box : Box) (content : List UInt8) (lines : List InputLine)
    (request : Request) : Prop :=
  exists events b', serve request b = .ok (events, b') ∧
    fileContent b'.fs (skipSlash (some box.boxName.str)) =
      some (boxAfter content (lines.map InputLine.text))

/-- Each read holds one whole message, the first behind the space, and each text can be
scanned.  If there are no lines, there is no message behind the space either. -/
inductive WholeReads (buffer : List UInt8) : List InputLine -> List Chunk -> Prop where
  | none {read : Chunk} : read.bytes = [32] -> Undisturbed read buffer ->
      WholeReads buffer [] [read]
  | lines {line : InputLine} {lines : List InputLine} {read : Chunk} {reads : List Chunk} :
      read.bytes = [32] ++ line.message -> reads.map Chunk.bytes = lines.map InputLine.message ->
      (forall other, other ∈ line :: lines ->
        other.text.strlen ≠ 0 ∧ Stops isSpace other.text.bytes) ->
      WholeReads buffer (line :: lines) (read :: reads)

theorem WholeReads.divides {buffer : List UInt8} {lines : List InputLine} {reads : List Chunk}
    (h : WholeReads buffer lines reads) : Divides lines reads := by
  cases h with
  | none hread _ => simp [Divides, stream, hread]
  | lines hread hreads _ => simp [Divides, stream, hread, hreads, List.flatMap]

section Splits

variable {b : State} {a fd : Nat} {box : Box} {content : List UInt8} {clientInput : Args}
  {env : Env} {lines : List InputLine}

/-- A read of a whole message, which a space may precede, delivers its text. -/
theorem InputLine.delivers (line : InputLine) {read : Chunk} {ws : List UInt8}
    (hread : read.bytes = ws ++ line.message) (hws : forall c, c ∈ ws -> isSpace c = true)
    (hne : line.text.strlen ≠ 0) (hstarts : Stops isSpace line.text.bytes) :
    Delivers read line.text := by
  have hsplit : line.text.bytes ++ line.str.bytes.dropWhile (· != 10) = line.str.bytes :=
    List.takeWhile_append_dropWhile
  rw [message, ← hsplit] at hread
  refine delivers_serialized hread hws ?_ hne hstarts ?_ (stops_dropWhile _ _)
  · exact fun hmem => line.str.noNul ((List.dropWhile_sublist _).subset hmem)
  · intro hmem
    have hnot := List.mem_takeWhile_imp hmem
    simp at hnot

theorem delivers_whole {reads : List Chunk}
    (hreads : reads.map Chunk.bytes = lines.map InputLine.message)
    (htexts : forall line, line ∈ lines ->
      line.text.strlen ≠ 0 ∧ Stops isSpace line.text.bytes) :
    List.Forall₂ Delivers reads (lines.map InputLine.text) := by
  induction lines generalizing reads with
  | nil =>
      rw [List.map_nil, List.map_eq_nil_iff] at hreads
      rw [hreads]
      exact List.Forall₂.nil
  | cons line lines ih =>
      cases reads with
      | nil => cases hreads
      | cons read reads =>
          injection hreads with hread hrest
          rcases htexts line List.mem_cons_self with ⟨hne, hstarts⟩
          rw [← List.nil_append line.message] at hread
          exact List.Forall₂.cons
            (line.delivers hread (fun c hc => absurd hc List.not_mem_nil) hne hstarts)
            (ih hrest fun other hother => htexts other (List.mem_cons_of_mem line hother))

/-- The space that arrives alone ends the session. -/
theorem publishLoop_space {read : Chunk} (hread : read.bytes = [32]) {buffer : List UInt8}
    (hbuffer : Undisturbed read buffer) (fh : Int) (reads : List Chunk) (fs : Fs) :
    publishLoop fh (read :: reads) buffer emptyStr fs = .ok fs := by
  have hnone : messageIn (ownText read) = none := by
    have hown : ownText read = ⟨[32], by decide⟩ := by
      apply CStr.ext
      rw [ownText, hread]
      rfl
    rw [hown]
    decide
  rcases hbuffer with ⟨hmem, hmessage⟩
  have hscan : scanned read ⟨buffer, emptyStr, fs⟩ = .ok emptyStr := by
    rw [scanned_eq_ok, hmessage, hnone]
    exact ⟨hmem, rfl⟩
  have hrun := publishLoop_run fh (read :: reads) ⟨buffer, emptyStr, fs⟩
  rw [run, publishTurn_empty hscan] at hrun
  exact hrun

/-- The session of a box has every line, when the reads hold whole messages and the box
has room for any. -/
theorem lossless_of_whole (hreach : Reachable b) (hlive : AllLive b) (hbox : HoldsBox b a box)
    (hcontent : fileContent b.fs (skipSlash (some box.boxName.str)) = some content)
    (hinput : clientInput.boxName.str = box.boxName.str) (hfd : env.fd = some fd)
    (hwhole : WholeReads ((List.range bufferSize).map env.buffer) lines env.reads)
    (hroom : lines = [] ∨ HasRoom b.fs content) :
    Lossless b box content lines (.regPublisher clientInput env) := by
  rcases hreach.good hlive with ⟨cells, h⟩
  rcases List.append_of_mem (h.holdsBox_iff.mp hbox) with ⟨pre, post, hsplit⟩
  rw [hsplit] at h
  rw [← hinput] at hcontent
  rw [Lossless, ← hinput]
  generalize hreads : env.reads = reads at hwhole
  cases hwhole with
  | none hread hbuffer =>
      rcases regPublisher_loop h hreach.fullData hinput.symm hfd hcontent with
        ⟨fs1, _, hatEnd, hsession⟩
      have hloop := publishLoop_space hread hbuffer 0 [] fs1
      rw [← hreads] at hloop
      rcases hsession fs1 content hloop hatEnd with ⟨b', hserve, _, _, hsame⟩
      refine ⟨_, b', hserve, ?_⟩
      rw [hsame.content, hatEnd.content_eq, List.map_nil, boxAfter_nil hatEnd.length_le]
  | @lines line lines read reads hread hrest htexts =>
      have hroom' : HasRoom b.fs content := hroom.resolve_left (List.cons_ne_nil line lines)
      have hspace : forall c, c ∈ [(32 : UInt8)] -> isSpace c = true := by
        intro c hc
        rw [List.mem_singleton.mp hc]
        decide
      rcases htexts line List.mem_cons_self with ⟨hne, hstarts⟩
      have hdelivers := List.Forall₂.cons (line.delivers hread hspace hne hstarts)
        (delivers_whole hrest fun other hother =>
          htexts other (List.mem_cons_of_mem line hother))
      rw [← hreads] at hdelivers
      rcases regPublisher_delivers h hreach.fullData hinput.symm hfd hcontent hroom' hdelivers with
        ⟨b', hserve, happended⟩
      exact ⟨_, b', hserve, happended.holds⟩

end Splits

/-- The line {lit}`hi`. -/
def hiInput : InputLine := ⟨⟨ascii "hi\n", by decide⟩, by decide, by decide, by decide⟩

def spaceChunk : Chunk := ⟨[32], by decide, by decide⟩

/-- The space arrives before the message. -/
def splitHi : Request := .regPublisher argsA (openEnv [spaceChunk, hiChunk])

/-- The message is lost. -/
theorem splitHi_loses : Divides [hiInput] [spaceChunk, hiChunk] ∧
    ¬ Lossless (stateAfter [createA]) boxA [] [hiInput] splitHi := by
  refine ⟨by decide, ?_⟩
  have hafter : (serve splitHi (stateAfter [createA])).toOption.map
      (fun r => fileContent r.2.fs (skipSlash (some boxA.boxName.str))) = some (some []) := by
    decide +kernel
  rintro ⟨events, b', hserve, hcontent⟩
  rw [hserve] at hafter
  have hnil := hcontent.symm.trans (Option.some.inj hafter)
  exact absurd hnil (by decide)

/-- The line {lit}`yo`. -/
def yoInput : InputLine := ⟨⟨ascii "yo\n", by decide⟩, by decide, by decide, by decide⟩

/-- The space and the first message arrive together. -/
def wholeHi : Chunk := ⟨[32] ++ hiInput.message, by decide, by decide⟩

def wholeYo : Chunk := ⟨yoInput.message, by decide, by decide⟩

theorem lossless_of_whole_hi : Lossless (stateAfter [createA]) boxA [] [hiInput, yoInput]
    (.regPublisher argsA (openEnv [wholeHi, wholeYo])) := by
  have htexts : forall other, other ∈ [hiInput, yoInput] ->
      other.text.strlen ≠ 0 ∧ Stops isSpace other.text.bytes := by
    intro other hother
    rcases List.mem_cons.mp hother with heq | hother
    · rw [heq]
      exact ⟨by decide, stops_cons (by decide) _⟩
    · rw [List.mem_singleton.mp hother]
      exact ⟨by decide, stops_cons (by decide) _⟩
  exact lossless_of_whole createdA_reachable.left createdA_reachable.right boxA_held
    (by decide +kernel) rfl rfl (WholeReads.lines rfl rfl htexts)
    (Or.inr (Or.inr ⟨1, by decide +kernel⟩))

end Broker
end TecnicoFs
