import TecnicoFs.Broker.Sessions
import TecnicoFs.Clients.Manager

/-!
# Answers to a manager

The broker answers with a return code and an error message.  The manager copies the line
behind the code of the answer and scans it a second time, and the second scan reads the
message as one word.
-/

namespace TecnicoFs
namespace Clients

open Library
open Broker

/-- An error message of one line that starts with a visible byte. -/
structure ErrorText where
  str : CStr
  nonempty : str.bytes ≠ []
  visible : Stops isSpace str.bytes
  oneLine : 10 ∉ str.bytes

/-- Both scans of an answer. -/
def decodeAnswer (text : CStr) (l : Locals) : Out Locals := do
  let l <- scanAnswer text l
  scanReturn l.input l

/-- The manager decodes the frame of the answer to the return code and the message, whatever
was in its memory and behind the text of the frame. -/
def DecodesAnswer (rcode : Int) (message : CStr) : Prop :=
  forall behind (read : Chunk) buffer l,
    read.bytes = frame (serializeAnswer answerCreateBox rcode message.bytes) behind ->
      exists text l', bufferText (afterRead read buffer) = .ok text ∧
        decodeAnswer text l = .ok l' ∧ l'.code = answerCreateBox ∧ l'.returnCode = rcode ∧
        l'.errorMsg = message

/-- The word at the start of a message. -/
def firstWord (message : CStr) : CStr := message.takeWhile fun c => !isSpace c

section Answers

variable {rcode : Int} {message : ErrorText} {text : CStr} {l : Locals}

theorem serializeAnswer_eq (rcode : Int) (message : List UInt8) :
    serializeAnswer answerCreateBox rcode message =
      formatInt answerCreateBox ++ ([32] ++ (formatInt rcode ++ ([32] ++ message))) := by
  simp only [serializeAnswer, List.append_assoc]

theorem serializeAnswer_noNul (rcode : Int) (message : CStr) :
    0 ∉ serializeAnswer answerCreateBox rcode message.bytes := by
  have hspace : (0 : UInt8) ∉ [(32 : UInt8)] := by decide
  simp only [serializeAnswer_eq, List.mem_append, not_or]
  exact ⟨formatInt_noNul _, hspace, formatInt_noNul _, hspace, message.noNul⟩

theorem firstWord_ne (message : ErrorText) : (firstWord message.str).bytes ≠ [] := by
  have hne := message.nonempty
  have hvisible := message.visible
  rw [firstWord, CStr.bytes_takeWhile]
  cases hbytes : message.str.bytes with
  | nil => exact absurd hbytes hne
  | cons c rest => simp [hvisible c rest hbytes]

/-- The second scan reads the first word of the message. -/
theorem scanReturn_firstWord (hs : text.bytes = formatInt rcode ++ ([32] ++ message.str.bytes))
    (hlow : -2147483648 <= rcode) (hhigh : rcode < 2147483648)
    (hlength : message.str.strlen < Broker.errorMsg) :
    scanReturn text l =
      .ok { l with returnCode := rcode, errorMsg := firstWord message.str } := by
  rw [← List.nil_append (_ ++ _)] at hs
  rcases scanInt_field hs (fun c hc => absurd hc List.not_mem_nil) hlow hhigh with
    ⟨text1, hint, h1⟩
  have hsplit : message.str.bytes = (firstWord message.str).bytes ++
      (message.str.dropWhile fun c => !isSpace c).bytes := by
    rw [firstWord, CStr.bytes_takeWhile, CStr.bytes_dropWhile, List.takeWhile_append_dropWhile]
  rw [hsplit] at h1
  have hword := scanWord_word h1 space_isSpace (firstWord_ne message)
    (noSpace_takeWhile message.str) (stops_dropWhile _ _)
  have hfits : fitsArray Broker.errorMsg (firstWord message.str) =
      .ok (firstWord message.str) := by
    refine if_pos (Nat.lt_of_le_of_lt ?_ hlength)
    exact (List.takeWhile_sublist _).length_le
  simp only [scanReturn, hint, hword, hfits, ok_bind, pure_ok]

/-- The first scan keeps all of the answer that the second one needs. -/
theorem decodeAnswer_firstWord
    (hs : text.bytes = serializeAnswer answerCreateBox rcode message.str.bytes)
    (hlow : -2147483648 <= rcode) (hhigh : rcode < 2147483648)
    (hshort : text.strlen < frameSize) :
    exists l', decodeAnswer text l = .ok l' ∧ l'.code = answerCreateBox ∧
      l'.returnCode = rcode ∧ l'.errorMsg = firstWord message.str := by
  rw [serializeAnswer_eq] at hs
  have hlength := congrArg List.length hs
  simp only [List.length_append] at hlength
  rw [CStr.strlen, frameSize] at hshort
  have hrest : (formatInt rcode ++ ([32] ++ message.str.bytes)).length < msize := by
    simp only [List.length_append, msize]
    omega
  have hmessage : message.str.strlen < Broker.errorMsg := by
    rw [CStr.strlen, Broker.errorMsg]
    omega
  have hline : 10 ∉ formatInt rcode ++ ([32] ++ message.str.bytes) := by
    have hspace : (10 : UInt8) ∉ [(32 : UInt8)] := by decide
    simp only [List.mem_append, not_or]
    refine ⟨fun hmem => ?_, hspace, message.oneLine⟩
    exact absurd (formatInt_notSpace rcode 10 hmem) (by decide)
  rcases scanAnswer_line (l := l) hs (by decide) (by decide)
    (fun hnil => by simp at hnil) (formatInt_stops rcode _) hrest with ⟨input, hscan, hinput⟩
  rw [takeWhile_line hline] at hinput
  have hreturn := scanReturn_firstWord (l := { l with code := answerCreateBox, input := input })
    hinput hlow hhigh hmessage
  refine ⟨{ l with
    code := answerCreateBox
    input := input
    returnCode := rcode
    errorMsg := firstWord message.str }, ?_, rfl, rfl, rfl⟩
  rw [decodeAnswer, hscan, ok_bind]
  exact hreturn

theorem firstWord_eq_iff (message : CStr) : firstWord message = message <-> NoSpace message := by
  constructor
  · intro heq
    rw [← heq]
    exact noSpace_takeWhile message
  · intro hword
    refine CStr.ext (List.takeWhile_eq_self_iff.mpr fun c hc => ?_)
    rw [hword c hc]
    rfl

/-- What a read of the frame of an answer is decoded to. -/
theorem decode_read {behind : Nat -> UInt8} {read : Chunk}
    (hread : read.bytes = frame (serializeAnswer answerCreateBox rcode message.str.bytes) behind)
    (hlow : -2147483648 <= rcode) (hhigh : rcode < 2147483648)
    (hshort : (serializeAnswer answerCreateBox rcode message.str.bytes).length < frameSize)
    (buffer : List UInt8) (l : Locals) :
    exists text l', bufferText (afterRead read buffer) = .ok text ∧
      decodeAnswer text l = .ok l' ∧ l'.code = answerCreateBox ∧ l'.returnCode = rcode ∧
      l'.errorMsg = firstWord message.str := by
  rcases frame_text (serializeAnswer_noNul rcode message.str) hshort behind with
    ⟨_, hended, htext⟩
  rw [← hread] at hended htext
  have hlength : (CStr.ofBuffer read.bytes).strlen < frameSize := by
    rw [CStr.strlen, htext]
    exact hshort
  rcases decodeAnswer_firstWord (l := l) htext hlow hhigh hlength with ⟨l', hdecode⟩
  exact ⟨CStr.ofBuffer read.bytes, l', bufferText_ended hended _, hdecode⟩

/-- What is decoded to the message is its first word. -/
theorem DecodesAnswer.firstWord_eq (h : DecodesAnswer rcode message.str)
    (hlow : -2147483648 <= rcode) (hhigh : rcode < 2147483648)
    (hshort : (serializeAnswer answerCreateBox rcode message.str.bytes).length < frameSize) :
    firstWord message.str = message.str := by
  have hlength := (frame_text (serializeAnswer_noNul rcode message.str) hshort
    fun _ => 0).left
  let read : Chunk := ⟨frame (serializeAnswer answerCreateBox rcode message.str.bytes)
    fun _ => 0, by rw [hlength]; decide, by rw [hlength]; decide⟩
  have hread : read.bytes =
      frame (serializeAnswer answerCreateBox rcode message.str.bytes) fun _ => 0 := rfl
  rcases h (fun _ => 0) read [] unsetLocals hread with
    ⟨text, l', htext, hdecode, _, _, hmessage⟩
  rcases decode_read hread hlow hhigh hshort [] unsetLocals with
    ⟨text1, l1, htext1, hdecode1, _, _, hfirst⟩
  rw [htext] at htext1
  cases htext1
  rw [hdecode] at hdecode1
  cases hdecode1
  rw [← hfirst, hmessage]

end Answers

/-- An answer that fits its frame is decoded to its return code and its message exactly when
the message is a single word. -/
theorem answer_decoded_iff {rcode : Int} (message : ErrorText) (hlow : -2147483648 <= rcode)
    (hhigh : rcode < 2147483648)
    (hshort : (serializeAnswer answerCreateBox rcode message.str.bytes).length < frameSize) :
    DecodesAnswer rcode message.str <-> NoSpace message.str := by
  rw [← firstWord_eq_iff]
  constructor
  · intro h
    exact h.firstWord_eq hlow hhigh hshort
  · intro hword behind read buffer l hread
    rcases decode_read hread hlow hhigh hshort buffer l with
      ⟨text, l', htext, hdecode, hcode, hreturn, hmessage⟩
    exact ⟨text, l', htext, hdecode, hcode, hreturn, hmessage.trans hword⟩

/-- A message of a single word. -/
def deniedText : ErrorText where
  str := ⟨ascii "denied", by decide⟩
  nonempty := by decide
  visible := stops_cons (by decide) _
  oneLine := by decide

theorem answer_decoded_denied : DecodesAnswer (-1) deniedText.str :=
  (answer_decoded_iff deniedText (by decide) (by decide) (by decide +kernel)).mpr
    ((firstWord_eq_iff _).mp (by decide))

/-- The message for a box that exists already. -/
def existsText : ErrorText where
  str := ⟨ascii "Can't create box, already exists", by decide⟩
  nonempty := by decide
  visible := stops_cons (by decide) _
  oneLine := by decide

/-- The read of the answer for a box that exists already. -/
def existsRead : Chunk :=
  ⟨frame (serializeAnswer answerCreateBox (-1) existsText.str.bytes) fun _ => 0,
    by decide +kernel, by decide +kernel⟩

/-- Only the first word of that message is printed. -/
theorem existsText_cut :
    (answer [existsRead] [] unsetLocals).toOption = some [ascii "ERROR Can't\n"] ∧
      ¬ DecodesAnswer (-1) existsText.str := by
  refine ⟨by decide +kernel, fun h => ?_⟩
  have hfirst := h.firstWord_eq (by decide) (by decide) (by decide +kernel)
  exact absurd hfirst (by decide)

end Clients
end TecnicoFs
