import TecnicoFs.Broker.Blocks
import TecnicoFs.Broker.Overflows

/-!
# Stale messages

A turn appends to the box the message that it scans, as far as the box has room.  That
message is the one of its own read, unless the read has none and an earlier one had, or
the first scan of the session reads on into what the buffer held before.
-/

namespace TecnicoFs
namespace Broker

open Library

/-- The file system that a turn leaves. -/
def afterTurn : Except TurnEnd (CStr × Session) -> Out Fs
  | .ok (_, s) => .ok s.fs
  | .error (.done fs) => .ok fs
  | .error (.stop stop) => .error stop

/-- The bytes of a message in a box.  The empty string is not appended. -/
def boxBytes (message : CStr) : List UInt8 :=
  if message.strlen = 0 then [] else (message.strcat space).bytes

/-- The turn appends the bytes of its own read to the box, as far as the box has room. -/
def AppendsOwn (fh : Int) (held : CStr) (s : Session) (read : Chunk) : Prop :=
  exists content fs', fileContent s.fs held = some content ∧
    afterTurn (publishTurn fh read s) = .ok fs' ∧
      fileContent fs' held = some ((content ++ boxBytes (ownMessage read)).take boxSize)

/-- The message in the buffer, or the one of the turns before if there is none. -/
def foundMessage (s : Session) (read : Chunk) : CStr :=
  (messageIn (CStr.ofBuffer (afterRead read s.buffer))).getD s.message

/-- The bytes behind the read change none of the message's first `room` bytes. -/
def UndisturbedWithin (room : Nat) (read : Chunk) (buffer : List UInt8) : Prop :=
  (boxBytes ((messageIn (CStr.ofBuffer (afterRead read buffer))).getD emptyStr)).take room =
    (boxBytes (ownMessage read)).take room

/-- The buffer has an end, the message and its space fit their array, and the box is full
or the read has a message of its own, if an earlier one had, that the bytes behind it do
not change as far as the box has room. -/
structure NotStale (held : CStr) (s : Session) (read : Chunk) : Prop where
  terminated : 0 ∈ afterRead read s.buffer
  short : (foundMessage s read).strlen + 2 <= msize
  fresh : forall content, fileContent s.fs held = some content ->
    boxSize <= content.length ∨
      (messageIn (ownText read) ≠ none ∨ s.message = emptyStr) ∧
        UndisturbedWithin (boxSize - content.length) read s.buffer

/-- The buffer has been cleared, or nothing has been scanned before. -/
def Tidy (s : Session) : Prop :=
  s.buffer = List.replicate bufferSize 0 ∨ s.message = emptyStr

section Freshness

variable {fs fs' : Fs} {held : CStr} {content : List UInt8} {s s' : Session} {read : Chunk}
  {line : CStr}

/-!
## What a turn appends
-/

theorem boxBytes_nil {message : CStr} : boxBytes message = [] <-> message = emptyStr := by
  rw [boxBytes]
  constructor
  · intro h
    by_cases hempty : message.strlen = 0
    · exact CStr.ext (List.length_eq_zero_iff.mp hempty)
    · rw [if_neg hempty] at h
      exact absurd (List.append_eq_nil_iff.mp h).right (List.cons_ne_nil _ _)
  · intro h
    rw [h]
    rfl

theorem boxBytes_of_ne (h : line.strlen ≠ 0) : boxBytes line = (line.strcat space).bytes :=
  if_neg h

theorem scanned_found (h : 0 ∈ afterRead read s.buffer) :
    scanned read s = .ok (foundMessage s read) := scanned_eq_ok.mpr ⟨h, rfl⟩

/-- A turn on the open file of a box appends what it has found. -/
theorem AtEnd.appends (h : AtEnd s.fs held content) (hroom : HasRoom s.fs content)
    (hmem : 0 ∈ afterRead read s.buffer) (hshort : (foundMessage s read).strlen + 2 <= msize) :
    exists fs', afterTurn (publishTurn 0 read s) = .ok fs' ∧
      fileContent fs' held =
        some ((content ++ boxBytes (foundMessage s read)).take boxSize) := by
  have hscan := scanned_found hmem
  generalize foundMessage s read = line at hscan hshort
  by_cases hempty : line.strlen = 0
  · have hline : line = emptyStr := CStr.ext (List.length_eq_zero_iff.mp hempty)
    rw [hline] at hscan
    refine ⟨s.fs, by rw [publishTurn_empty hscan]; rfl, ?_⟩
    rw [h.content_eq, hline, boxBytes_nil.mpr rfl, List.append_nil,
      List.take_of_length_le h.length_le]
  · have hlength : (line.strcat space).bytes.length = line.strlen + 1 := List.length_append
    have hlt : (line.strcat space).bytes.length < msize := by omega
    rcases publishTurn_fits h hscan hempty hshort with ⟨fs1, _, _, hturn⟩
    rcases AtEnd.write h hlt hroom with ⟨r, fs', hwrite, _, hend, _⟩
    rcases publishTurn_ok hturn with ⟨_, r', _, _, _, _, hwrite', _, _⟩
    change tfsWrite 0 (line.strcat space).bytes (line.strcat space).strlen s.fs = _ at hwrite
    rw [hwrite] at hwrite'
    cases hwrite'
    refine ⟨fs1, by rw [hturn]; rfl, ?_⟩
    rw [hend.content_eq, boxBytes_of_ne hempty]

/-- The turn has no result when the message does not fit, or when its string has no end. -/
theorem afterTurn_ok (h : AtEnd s.fs held content)
    (hturn : afterTurn (publishTurn 0 read s) = .ok fs') :
    0 ∈ afterRead read s.buffer ∧ (foundMessage s read).strlen + 2 <= msize := by
  have hfits : MessageFits s read := by
    rw [messageFits_iff_turn h]
    rintro e herror ⟨stop, hstop⟩
    rw [herror, hstop] at hturn
    cases hturn
  rcases hfits with ⟨line, hscan, hlt, hspace⟩
  rcases scanned_eq_ok.mp hscan with ⟨hmem, hline⟩
  have hlength : (line.strcat space).strlen = line.strlen + 1 := List.length_append
  refine ⟨hmem, ?_⟩
  rw [foundMessage, hline]
  by_cases hempty : line.strlen = 0
  · rw [hempty]
    decide
  · have hlong := hspace hempty
    omega

theorem take_append_iff (content xs ys : List UInt8) :
    (content ++ xs).take boxSize = (content ++ ys).take boxSize <->
      xs.take (boxSize - content.length) = ys.take (boxSize - content.length) := by
  rw [List.take_append, List.take_append, List.append_cancel_left_eq]

/-- The bytes that are appended are the read's own, as far as there is room. -/
theorem appendsOwn_found (h : AtEnd s.fs held content) (hroom : HasRoom s.fs content) :
    AppendsOwn 0 held s read <-> 0 ∈ afterRead read s.buffer ∧
      (foundMessage s read).strlen + 2 <= msize ∧
        (boxBytes (foundMessage s read)).take (boxSize - content.length) =
          (boxBytes (ownMessage read)).take (boxSize - content.length) := by
  rw [← take_append_iff]
  constructor
  · rintro ⟨content', fs', hcontent, hturn, hafter⟩
    rw [h.content_eq] at hcontent
    cases hcontent
    rcases afterTurn_ok h hturn with ⟨hmem, hshort⟩
    rcases h.appends hroom hmem hshort with ⟨fs1, hturn', hafter'⟩
    rw [hturn] at hturn'
    cases hturn'
    exact ⟨hmem, hshort, Option.some.inj (hafter'.symm.trans hafter)⟩
  · rintro ⟨hmem, hshort, hsame⟩
    rcases h.appends hroom hmem hshort with ⟨fs', hturn, hafter⟩
    exact ⟨content, fs', h.content_eq, hturn, hsame ▸ hafter⟩

/-!
## Whose message it is
-/

theorem take_eq_nil {room : Nat} (hroom : room ≠ 0) (message : CStr) :
    (boxBytes message).take room = [] <-> message = emptyStr := by
  rw [List.take_eq_nil_iff, or_iff_right hroom, boxBytes_nil]

/-- Where the box has room, the message that is found is the read's own exactly when it
is neither left from before nor disturbed. -/
theorem found_own_iff (h : Tidy s) {room : Nat} (hroom : room ≠ 0) :
    (boxBytes (foundMessage s read)).take room = (boxBytes (ownMessage read)).take room <->
      (messageIn (ownText read) ≠ none ∨ s.message = emptyStr) ∧
        UndisturbedWithin room read s.buffer := by
  rcases h with hbuffer | hmessage
  · have hsame : messageIn (CStr.ofBuffer (afterRead read s.buffer)) =
        messageIn (ownText read) := by
      rw [hbuffer]
      exact (undisturbed_cleared read).right
    have hundisturbed : UndisturbedWithin room read s.buffer := by
      rw [UndisturbedWithin, hsame, ownMessage]
    rw [and_iff_left hundisturbed, foundMessage, hsame, ownMessage]
    cases messageIn (ownText read) with
    | none =>
        have hnil : boxBytes emptyStr = [] := boxBytes_nil.mpr rfl
        simp [hnil, take_eq_nil hroom]
    | some text => simp
  · rw [foundMessage, hmessage, UndisturbedWithin]
    exact (and_iff_right (Or.inr rfl)).symm

theorem appendsOwn_iff (h : AtEnd s.fs held content) (hroom : HasRoom s.fs content)
    (htidy : Tidy s) : AppendsOwn 0 held s read <-> NotStale held s read := by
  rw [appendsOwn_found h hroom]
  have hfresh : (boxBytes (foundMessage s read)).take (boxSize - content.length) =
        (boxBytes (ownMessage read)).take (boxSize - content.length) <->
      boxSize <= content.length ∨ (messageIn (ownText read) ≠ none ∨ s.message = emptyStr) ∧
        UndisturbedWithin (boxSize - content.length) read s.buffer := by
    by_cases hfull : boxSize <= content.length
    · simp [hfull, Nat.sub_eq_zero_of_le hfull]
    · rw [found_own_iff htidy (by omega), or_iff_right hfull]
  rw [hfresh]
  constructor
  · rintro ⟨hmem, hshort, hown⟩
    refine ⟨hmem, hshort, fun content' hcontent => ?_⟩
    rw [h.content_eq] at hcontent
    cases hcontent
    exact hown
  · rintro ⟨hmem, hshort, hown⟩
    exact ⟨hmem, hshort, hown content h.content_eq⟩

/-!
## Sessions
-/

/-- A turn that does not end the loop leaves a cleared buffer and a box with bytes. -/
theorem AtEnd.next (h : AtEnd s.fs held content) (hroom : HasRoom s.fs content)
    (hturn : publishTurn 0 read s = .ok (line, s')) :
    exists content', AtEnd s'.fs held content' ∧ HasRoom s'.fs content' ∧ Tidy s' := by
  rcases publishTurn_ok hturn with ⟨text, r, _, _, hline, hlt, hwrite, _, hbuffer⟩
  rcases AtEnd.write h hlt hroom with ⟨r', fs', hwrite', _, hend, _⟩
  change tfsWrite 0 line.bytes line.strlen s.fs = _ at hwrite'
  rw [hwrite] at hwrite'
  cases hwrite'
  refine ⟨_, hend, Or.inl fun hnil => ?_, Or.inl hbuffer⟩
  have hzero := congrArg List.length hnil
  rw [hline] at hzero
  simp [CStr.strcat, space, boxSize, tfsDefaultParams] at hzero

/-- In every session of a broker, each turn appends to its box the bytes of its own read
exactly when no turn has a message that is stale, disturbed or too long, or the box is
full. -/
theorem sessionFresh_iff {b : State} (hreach : Reachable b) {name : CStr} {fh : Int}
    (hopen : tfsOpen (some name) tfsOAppend b.fs = .ok (fh, fs)) (hfh : fh ≠ -1)
    (buffer : List UInt8) (reads : List Chunk) :
    EveryCall (publishTurn fh) (AppendsOwn fh (skipSlash (some name))) reads
        ⟨buffer, emptyStr, fs⟩ <->
      EveryCall (publishTurn fh) (NotStale (skipSlash (some name))) reads
        ⟨buffer, emptyStr, fs⟩ := by
  rcases opened_atEnd hreach hopen hfh with ⟨hzero, content, hend⟩
  have hthrifty : Thrifty fs :=
    (thrifty_preserved.tfsOpen (thrifty_preserved.reachable thrifty_initial hreach) _ _).value
      (congrArg ofFs hopen)
  have hfree := hthrifty.hasFreeBlock hend.busy.steady
  rw [hzero]
  apply everyCall_iff (P := fun s => exists content, AtEnd s.fs (skipSlash (some name)) content ∧
    HasRoom s.fs content ∧ Tidy s)
  · rintro s read ⟨content, hend, hroom, htidy⟩
    exact appendsOwn_iff hend hroom htidy
  · rintro s read message s' ⟨content, hend, hroom, _⟩ _ hturn
    exact hend.next hroom hturn
  · exact ⟨content, hend, Or.inr hfree, Or.inr rfl⟩

/-- A read with a message of its own that fits. -/
theorem notStale_of_own (hbuffer : s.buffer = List.replicate bufferSize 0)
    (hown : messageIn (ownText read) = some line) (hfits : line.strlen + 2 <= msize) :
    NotStale held s read := by
  have hcleared := undisturbed_cleared read
  rw [← hbuffer] at hcleared
  rcases hcleared with ⟨hmem, hsame⟩
  refine ⟨hmem, ?_, fun _ _ => Or.inr ⟨Or.inl (by simp [hown]), ?_⟩⟩
  · rw [foundMessage, hsame, hown]
    exact hfits
  · rw [UndisturbedWithin, hsame, ownMessage]

end Freshness

/-- For the empty line the first message is appended again. -/
theorem stale_hi : ¬ EveryCall (publishTurn 0) (AppendsOwn 0 (skipSlash (some argsA.boxName.str)))
    [hiChunk, blankChunk] ⟨List.replicate bufferSize 0, emptyStr, openedA⟩ := by
  have hcontents : (publishTurn 0 hiChunk ⟨List.replicate bufferSize 0, emptyStr,
      openedA⟩).toOption.map (fun r =>
        (fileContent r.2.fs (skipSlash (some argsA.boxName.str)),
          (afterTurn (publishTurn 0 blankChunk r.2)).toOption.map fun fs =>
            fileContent fs (skipSlash (some argsA.boxName.str)))) =
      some (some (ascii "hi "), some (some (ascii "hi hi  "))) := by
    decide +kernel
  cases hturn : publishTurn 0 hiChunk ⟨List.replicate bufferSize 0, emptyStr, openedA⟩ with
  | error e =>
      rw [hturn] at hcontents
      cases hcontents
  | ok r =>
      rw [hturn] at hcontents
      refine not_everyCall_next hturn (not_everyCall [] ?_)
      rintro ⟨content, fs', hbefore, hblank, hafter⟩
      simp only [Except.toOption, Option.map_some, Option.some.injEq, Prod.mk.injEq, hbefore,
        hblank, hafter] at hcontents
      rw [hcontents.left] at hcontents
      exact absurd hcontents.right (by decide)

/-- Two messages, each in a read of its own. -/
theorem sessionFresh_hi :
    EveryCall (publishTurn 0) (AppendsOwn 0 (skipSlash (some argsA.boxName.str)))
      [hiChunk, hiChunk] ⟨List.replicate bufferSize 0, emptyStr, openedA⟩ := by
  have hown : messageIn (ownText hiChunk) = some ⟨ascii "hi", by decide⟩ := by decide +kernel
  refine (sessionFresh_iff createdA_reachable.left openedA_eq (by decide) _ _).mpr
    ⟨notStale_of_own rfl hown (by decide), fun message s hturn => ⟨?_, fun _ _ _ => trivial⟩⟩
  rcases publishTurn_ok hturn with ⟨_, _, _, _, _, _, _, _, hbuffer⟩
  exact notStale_of_own hbuffer hown (by decide)

end Broker
end TecnicoFs
