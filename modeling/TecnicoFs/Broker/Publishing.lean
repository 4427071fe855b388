import TecnicoFs.Broker.Agreement

/-!
# Turns of a publisher's session

A session is a run of turns.  A turn reads from the pipe, scans a message from the
buffer and appends it to the box.  The scan leaves the message of the last turn when
it finds none, and it looks at the bytes that were in the buffer before the read.
-/

namespace TecnicoFs
namespace Broker

open Library

/-- What the loop of {lit}`reg_publisher` carries from one turn to the next. -/
structure Session where
  buffer : List UInt8
  message : CStr
  fs : Fs

/-- The end of the loop before the pipe ends. -/
inductive TurnEnd where
  | stop (stop : Stop)
  | done (fs : Fs)

/-- The bytes of the buffer after a read. -/
def afterRead (read : Chunk) (buffer : List UInt8) : List UInt8 :=
  read.bytes ++ buffer.drop read.bytes.length

/-- The string {lit}`message` after the scan of a turn. -/
def scanned (read : Chunk) (s : Session) : Out CStr := do
  let text <- bufferText (afterRead read s.buffer)
  pure (scanMessage text s.message)

/-- One turn of the loop, with the message that it appends to the box. -/
def publishTurn (fh : Int) (read : Chunk) (s : Session) : Except TurnEnd (CStr × Session) := do
  let message <- (scanned read s >>= fitsMessage).mapError TurnEnd.stop
  if message.strlen = 0 then
    .error (.done s.fs)
  else do
    let message <- (fitsMessage (message.strcat space)).mapError TurnEnd.stop
    let (b, fs) <-
      (ofFs (tfsWrite fh message.bytes message.strlen s.fs)).mapError TurnEnd.stop
    if b + 1 < 0 then
      .error (.done fs)
    else
      pure (message, ⟨List.replicate bufferSize 0, message, fs⟩)

/-- The outcome of the loop from the outcome of its turns. -/
def sessionResult : Except TurnEnd (List CStr × Session) -> Out Fs
  | .ok (_, s) => .ok s.fs
  | .error (.done fs) => .ok fs
  | .error (.stop stop) => .error stop

/-!
## Messages in a text
-/

/-- The message that a scan of the text finds. -/
def messageIn (text : CStr) : Option CStr :=
  match scanInt text with
  | none => none
  | some (_, rest) => (scanLine (rest.dropWhile isSpace)).map Prod.fst

/-- The string that the bytes of a read hold by themselves. -/
def ownText (read : Chunk) : CStr := CStr.ofBuffer (read.bytes ++ [0])

/-- The message that a read holds by itself, if any. -/
def ownMessage (read : Chunk) : CStr := (messageIn (ownText read)).getD emptyStr

theorem scanMessage_eq (text message : CStr) :
    scanMessage text message = (messageIn text).getD message := by
  rw [scanMessage, messageIn]
  cases scanInt text with
  | none => rfl
  | some r =>
      simp only
      cases scanLine (r.2.dropWhile isSpace) <;> rfl

theorem messageIn_ne {text line : CStr} (h : messageIn text = some line) : line.strlen ≠ 0 := by
  rw [messageIn] at h
  cases hscan : scanInt text with
  | none =>
      rw [hscan] at h
      cases h
  | some r =>
      rw [hscan] at h
      simp only [Option.map_eq_some_iff] at h
      rcases h with ⟨⟨line', rest⟩, hline, heq⟩
      rw [scanLine] at hline
      by_cases hempty : ((r.2.dropWhile isSpace).takeWhile (· != 10)).strlen = 0
      · rw [if_pos hempty] at hline
        cases hline
      · rw [if_neg hempty] at hline
        cases hline
        cases heq
        exact hempty

/-!
## The loop
-/

section Turns

variable {fh : Int} {read : Chunk} {reads : List Chunk} {s s' : Session} {message : CStr}

theorem publishLoop_run (fh : Int) (reads : List Chunk) (s : Session) :
    publishLoop fh reads s.buffer s.message s.fs =
      sessionResult (run (publishTurn fh) reads s) := by
  induction reads generalizing s with
  | nil => rfl
  | cons read reads ih =>
      rw [publishLoop, run, publishTurn, scanned, afterRead]
      cases bufferText (read.bytes ++ s.buffer.drop read.bytes.length) with
      | error e => rfl
      | ok text =>
          simp only [ok_bind, pure_ok]
          cases fitsMessage (scanMessage text s.message) with
          | error e => rfl
          | ok message =>
              simp only [ok_bind, Except.mapError]
              by_cases hempty : message.strlen = 0
              · rw [if_pos hempty, if_pos hempty]
                rfl
              · rw [if_neg hempty, if_neg hempty]
                cases fitsMessage (message.strcat space) with
                | error e => rfl
                | ok message =>
                    simp only [ok_bind]
                    cases ofFs (tfsWrite fh message.bytes message.strlen s.fs) with
                    | error e => rfl
                    | ok r =>
                        simp only [ok_bind]
                        by_cases hbreak : r.1 + 1 < 0
                        · rw [if_pos hbreak, if_pos hbreak]
                          rfl
                        · rw [if_neg hbreak, if_neg hbreak]
                          have hrest := ih (s := ⟨List.replicate bufferSize 0, message, r.2⟩)
                          simp only at hrest
                          simp only [hrest]
                          cases run (publishTurn fh) reads
                            ⟨List.replicate bufferSize 0, message, r.2⟩ with
                          | error e => cases e <;> rfl
                          | ok result => rfl

theorem mapError_eq_ok {alpha err err' : Type} {x : Except err alpha} {f : err -> err'}
    {a : alpha} : x.mapError f = .ok a <-> x = .ok a := by
  cases x <;> simp [Except.mapError]

/-- What a turn does that does not end the loop. -/
theorem publishTurn_ok (h : publishTurn fh read s = .ok (message, s')) :
    exists line r, scanned read s = .ok line ∧ line.strlen ≠ 0 ∧
      message = line.strcat space ∧ message.strlen < msize ∧
      tfsWrite fh message.bytes message.strlen s.fs = .ok (r, s'.fs) ∧
      s'.message = message ∧ s'.buffer = List.replicate bufferSize 0 := by
  rcases bind_eq_ok.mp h with ⟨line, hscan, hrest⟩
  rcases bind_eq_ok.mp (mapError_eq_ok.mp hscan) with ⟨line', hline, hfits⟩
  have heq : line' = line := by
    rw [fitsMessage] at hfits
    split at hfits
    · cases hfits
      rfl
    · cases hfits
  by_cases hempty : line.strlen = 0
  · rw [if_pos hempty] at hrest
    cases hrest
  · rw [if_neg hempty] at hrest
    rcases bind_eq_ok.mp hrest with ⟨message', hmessage, hrest⟩
    rcases bind_eq_ok.mp hrest with ⟨⟨r, fs'⟩, hwrite, hrest⟩
    have hfits := mapError_eq_ok.mp hmessage
    rw [fitsMessage] at hfits
    by_cases hlt : (line.strcat space).strlen < msize
    · rw [if_pos hlt] at hfits
      cases hfits
      by_cases hbreak : r + 1 < 0
      · simp only [if_pos hbreak] at hrest
        cases hrest
      · simp only [if_neg hbreak] at hrest
        cases hrest
        exact ⟨line, r, heq ▸ hline, hempty, rfl, hlt, ofFs_eq_ok.mp (mapError_eq_ok.mp hwrite),
          rfl, rfl⟩
    · rw [if_neg hlt] at hfits
      cases hfits

/-!
## What a scan looks at
-/

/-- The bytes behind the read do not change the message. -/
def Undisturbed (read : Chunk) (buffer : List UInt8) : Prop :=
  0 ∈ afterRead read buffer ∧
    messageIn (CStr.ofBuffer (afterRead read buffer)) = messageIn (ownText read)

theorem ofBuffer_of_mem {xs : List UInt8} (h : 0 ∈ xs) (ys zs : List UInt8) :
    CStr.ofBuffer (xs ++ ys) = CStr.ofBuffer (xs ++ zs) := by
  have htake : forall rest, (xs ++ rest).takeWhile (· != 0) = xs.takeWhile (· != 0) := by
    intro rest
    rw [List.takeWhile_append, if_neg]
    intro hlength
    have hall := List.takeWhile_eq_self_iff.mp (List.takeWhile_sublist _ |>.eq_of_length hlength)
    simpa using hall 0 h
  apply CStr.ext
  exact (htake ys).trans (htake zs).symm

/-- A read with a terminator is not disturbed. -/
theorem undisturbed_of_mem (h : 0 ∈ read.bytes) (buffer : List UInt8) :
    Undisturbed read buffer :=
  ⟨List.mem_append_left _ h, congrArg messageIn (ofBuffer_of_mem h _ _)⟩

/-- Nor is one into a buffer that has been cleared. -/
theorem undisturbed_cleared (read : Chunk) :
    Undisturbed read (List.replicate bufferSize 0) := by
  have hfits := read.fits
  have hrest : afterRead read (List.replicate bufferSize 0) =
      read.bytes ++ [0] ++ List.replicate (bufferSize - read.bytes.length - 1) 0 := by
    have hlength : bufferSize - read.bytes.length =
        1 + (bufferSize - read.bytes.length - 1) := by
      simp only [bufferSize, msize] at hfits ⊢
      omega
    rw [afterRead, List.drop_replicate, hlength, List.replicate_add, List.append_assoc]
    simp
  have hmem : (0 : UInt8) ∈ read.bytes ++ [0] := by simp
  refine ⟨by rw [hrest]; exact List.mem_append_left _ hmem, ?_⟩
  rw [hrest, ownText]
  have hsame := ofBuffer_of_mem hmem (List.replicate (bufferSize - read.bytes.length - 1) 0) []
  rw [List.append_nil] at hsame
  rw [hsame]

theorem bufferText_mem {buffer : List UInt8} (h : 0 ∈ buffer) :
    bufferText buffer = .ok (CStr.ofBuffer buffer) := if_pos h

/-- Bytes with a terminator hide those behind them. -/
theorem bufferText_ended {xs : List UInt8} (h : 0 ∈ xs) (ys : List UInt8) :
    bufferText (xs ++ ys) = .ok (CStr.ofBuffer xs) := by
  have hsame := ofBuffer_of_mem h ys []
  rw [List.append_nil] at hsame
  rw [bufferText_mem (List.mem_append_left _ h), hsame]

theorem scanned_eq_ok : scanned read s = .ok message <->
    0 ∈ afterRead read s.buffer ∧
      (messageIn (CStr.ofBuffer (afterRead read s.buffer))).getD s.message = message := by
  rw [scanned]
  by_cases hmem : 0 ∈ afterRead read s.buffer
  · rw [bufferText_mem hmem, ok_bind, pure_ok, scanMessage_eq]
    simp [hmem]
  · rw [bufferText, if_neg hmem]
    simp [hmem]

/-- What the turn does with the message that it has scanned. -/
theorem publishTurn_empty (hscan : scanned read s = .ok emptyStr) :
    publishTurn fh read s = .error (.done s.fs) := by
  rw [publishTurn, hscan]
  rfl

end Turns

/-- The read of a publisher's message {lit}`hi`. -/
def hiChunk : Chunk := ⟨ascii "9 hi\n" ++ [0], by decide, by decide⟩

/-- The read of an empty line. -/
def blankChunk : Chunk := ⟨ascii "9 \n" ++ [0], by decide, by decide⟩

end Broker
end TecnicoFs
