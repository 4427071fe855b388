import TecnicoFs.Broker.Subscribing

/-!
# The main loop

The loop of {lit}`func_main` reads a frame, scans the fields of a request from it and
calls a handler.  Its buffer and its variables outlive a turn, so a frame that lacks a
field is answered with what an earlier frame left there.
-/

namespace TecnicoFs
namespace Broker

open Library

/-- What one read of the register pipe yields. -/
structure Frame where
  bytes : List UInt8
  fits : bytes.length <= frameSize

/-- The buffer and the variables of {lit}`func_main`. -/
structure MainState where
  buffer : List UInt8
  size : buffer.length = frameSize
  code : Int
  clientInput : Args

inductive Handler where
  | regPublisher
  | regSubscriber
  | createBox
  | removeBox
  | listBox
deriving DecidableEq

/-- The switch on the code of a request. -/
def handlerOf (code : Int) : Option Handler :=
  if code = 1 then some .regPublisher
  else if code = 2 then some .regSubscriber
  else if code = 3 then some .createBox
  else if code = 5 then some .removeBox
  else if code = 7 then some .listBox
  else none

/-- The fields that a scan obtains. -/
structure Fields where
  code : Option Int
  clientPipe : Option CStr
  boxName : Option CStr

/-- `"%d %s %s"`: a conversion that fails ends the scan. -/
def scanRequest (text : CStr) : Fields :=
  match scanInt text with
  | none => ⟨none, none, none⟩
  | some (code, text) =>
      match scanWord text with
      | none => ⟨some code, none, none⟩
      | some (clientPipe, text) => ⟨some code, some clientPipe, (scanWord text).map Prod.fst⟩

/-- The array after a conversion that may have stored a word in it. -/
def storeWord (word : Option CStr) (array : CharArray n) : Out (CharArray n) :=
  match word with
  | none => .ok array
  | some word => if h : word.strlen < n then .ok ⟨word, h⟩ else .error .overflow

/-- The bytes of the frame replace those at the start of the buffer. -/
def MainState.receive (s : MainState) (frame : Frame) : MainState where
  buffer := frame.bytes ++ s.buffer.drop frame.bytes.length
  size := by
    have hsize := s.size
    have hfits := frame.fits
    rw [List.length_append, List.length_drop]
    omega
  code := s.code
  clientInput := s.clientInput

def scanFields (text : CStr) (s : MainState) : Out MainState := do
  let fields := scanRequest text
  let clientPipe <- storeWord fields.clientPipe s.clientInput.clientPipe
  let boxName <- storeWord fields.boxName s.clientInput.boxName
  pure { s with code := fields.code.getD s.code, clientInput := ⟨clientPipe, boxName⟩ }

/-- The call of a handler, unless the client's pipe has no name.  The name is looked at
twice, and the name of the box is not. -/
def callOf (s : MainState) : Option (Handler × Args) :=
  let clientPipe := s.clientInput.clientPipe.str
  if clientPipe.strlen = 0 ∨ clientPipe.strlen = 0 then none
  else (handlerOf s.code).map fun handler => (handler, s.clientInput)

/-- One turn of the loop. -/
def mainTurn (frame : Frame) (s : MainState) : Out (Option (Handler × Args) × MainState) :=
  if frame.bytes.length = 0 then pure (none, s)
  else do
    let s := s.receive frame
    let text <- bufferText s.buffer
    let s <- scanFields text s
    pure (callOf s, s)

/-- The text of a request. -/
def serialize (code : Int) (clientPipe boxName : List UInt8) : List UInt8 :=
  formatInt code ++ [32] ++ clientPipe ++ [32] ++ boxName

/-- The frame of a request, as the broker reads it. -/
def requestFrame (text : List UInt8) (behind : Nat -> UInt8) : Frame :=
  ⟨frame text behind, by rw [frame]; exact List.length_take_le _ _⟩

/-!
## Reactions
-/

inductive Reaction where
  | served (result : Out (List Event × State))
  | subscribed (result : List Action × SubscriberEnd)

/-- What a call does to the broker. -/
def react (env : Env) (subscriberEnv : SubscriberEnv) (b : State) :
    Handler × Args -> Reaction
  | (.regPublisher, clientInput) => .served (serve (.regPublisher clientInput env) b)
  | (.regSubscriber, clientInput) => .subscribed (regSubscriber clientInput subscriberEnv b)
  | (.createBox, clientInput) => .served (serve (.createBox clientInput env) b)
  | (.removeBox, clientInput) => .served (serve (.removeBox clientInput env) b)
  | (.listBox, clientInput) => .served (serve (.listBox clientInput env) b)

def usesBoxName : Handler -> Bool
  | .listBox => false
  | _ => true

/-- The arguments of a call count as a whole, or as far as the handler uses them. -/
def counts (whole : Bool) (handler : Handler) : Bool := whole || usesBoxName handler

/-- A call as its handler and the arguments that count. -/
def seen (whole : Bool) (call : Handler × Args) : Handler × CStr × Option CStr :=
  (call.1, call.2.clientPipe.str, if counts whole call.1 then some call.2.boxName.str else none)

/-- The scan obtained what the handler uses. -/
def Obtained (handler : Handler) (fields : Fields) : Prop :=
  fields.code.isSome = true ∧ fields.clientPipe.isSome = true ∧
    (usesBoxName handler = true -> fields.boxName.isSome = true)

/-- Some frames have been read since one of the initial states. -/
def AfterFrames (initial : MainState -> Prop) (s : MainState) : Prop :=
  exists start history calls, initial start ∧ run mainTurn history start = .ok (calls, s)

/-- The call that a frame leads to, after whatever frames. -/
structure DecodedAlone (initial : MainState -> Prop) (whole : Bool) (frame : Frame) : Prop where
  alone : exists call, forall s, AfterFrames initial s -> exists found s',
    mainTurn frame s = .ok (found, s') ∧ found.map (seen whole) = call
  obtained : forall s handler clientInput s', AfterFrames initial s ->
    mainTurn frame s = .ok (some (handler, clientInput), s') ->
    exists text, bufferText (s.receive frame).buffer = .ok text ∧
      Obtained handler (scanRequest text)
  same : forall s s' found found' t t', AfterFrames initial s -> AfterFrames initial s' ->
    mainTurn frame s = .ok (found, t) -> mainTurn frame s' = .ok (found', t') ->
    forall env subscriberEnv b,
      found.map (react env subscriberEnv b) = found'.map (react env subscriberEnv b)

/-- The frame ends a string with a code and with what the handler for it is given. -/
structure SelfContained (whole : Bool) (bytes : List UInt8) (fields : Fields) : Prop where
  ended : 0 ∈ bytes
  code : fields.code.isSome = true
  pipeFits : forall word, fields.clientPipe = some word -> word.strlen < pipeNameSize
  boxFits : forall word, fields.boxName = some word -> word.strlen < boxNameSize
  complete : forall handler, fields.code.bind handlerOf = some handler ->
    fields.clientPipe.isSome = true ∧
      (counts whole handler = true -> fields.boxName.isSome = true)

/-!
## Scanning the fields
-/

section Turns

variable {n : Nat} {word : Option CStr} {array array' : CharArray n} {text : CStr}
  {frame : Frame} {s s' : MainState} {whole : Bool}

/-- A word that is stored fits, and a word that is missing leaves the array. -/
theorem storeWord_eq_ok : storeWord word array = .ok array' <->
    (forall found, word = some found -> found.strlen < n) ∧
      array'.str = word.getD array.str := by
  cases word with
  | none =>
      constructor
      · intro h
        cases h
        refine ⟨fun found hfound => ?_, rfl⟩
        cases hfound
      · rintro ⟨_, hstr⟩
        rw [storeWord, CharArray.ext hstr]
  | some found =>
      rw [storeWord]
      constructor
      · intro h
        split at h
        · rename_i hfits
          cases h
          refine ⟨fun other hother => ?_, rfl⟩
          cases hother
          exact hfits
        · cases h
      · rintro ⟨hfits, hstr⟩
        rw [dif_pos (hfits found rfl)]
        exact congrArg Except.ok (CharArray.ext hstr.symm)

theorem scanFields_fits (h : scanFields text s = .ok s') :
    (forall word, (scanRequest text).clientPipe = some word -> word.strlen < pipeNameSize) ∧
      (forall word, (scanRequest text).boxName = some word -> word.strlen < boxNameSize) := by
  rcases bind_eq_ok.mp h with ⟨clientPipe, hpipe, h⟩
  rcases bind_eq_ok.mp h with ⟨boxName, hbox, _⟩
  exact ⟨(storeWord_eq_ok.mp hpipe).left, (storeWord_eq_ok.mp hbox).left⟩

/-- A scan whose words fit ends. -/
theorem scanFields_ok (s : MainState)
    (hpipe : forall word, (scanRequest text).clientPipe = some word -> word.strlen < pipeNameSize)
    (hbox : forall word, (scanRequest text).boxName = some word -> word.strlen < boxNameSize) :
    exists s', scanFields text s = .ok s' := by
  have hstored : forall {n : Nat} {word : Option CStr} (array : CharArray n),
      (forall found, word = some found -> found.strlen < n) ->
      exists array', storeWord word array = .ok array' := by
    intro n word array hfits
    cases word with
    | none => exact ⟨array, rfl⟩
    | some found => exact ⟨⟨found, hfits found rfl⟩, dif_pos (hfits found rfl)⟩
  rcases hstored s.clientInput.clientPipe hpipe with ⟨clientPipe, hclientPipe⟩
  rcases hstored s.clientInput.boxName hbox with ⟨boxName, hboxName⟩
  refine ⟨{ s with
    code := (scanRequest text).code.getD s.code
    clientInput := ⟨clientPipe, boxName⟩ }, ?_⟩
  rw [scanFields]
  simp only [hclientPipe, hboxName, ok_bind, pure_ok]

/-- The call for the values of the variables, as far as it counts. -/
def answerOf (whole : Bool) (code : Int) (clientPipe boxName : CStr) :
    Option (Handler × CStr × Option CStr) :=
  if clientPipe.strlen = 0 then none
  else (handlerOf code).map fun handler =>
    (handler, clientPipe, if counts whole handler then some boxName else none)

theorem callOf_seen (whole : Bool) (s : MainState) : (callOf s).map (seen whole) =
    answerOf whole s.code s.clientInput.clientPipe.str s.clientInput.boxName.str := by
  rw [callOf, answerOf]
  by_cases hempty : s.clientInput.clientPipe.str.strlen = 0
  · simp only [hempty, or_self, if_true, Option.map_none]
  · simp only [hempty, or_self, if_false]
    cases handlerOf s.code <;> rfl

theorem scanFields_buffer (h : scanFields text s = .ok s') : s'.buffer = s.buffer := by
  rcases bind_eq_ok.mp h with ⟨clientPipe, _, h⟩
  rcases bind_eq_ok.mp h with ⟨boxName, _, h⟩
  cases h
  rfl

/-- What the variables hold after a scan. -/
theorem scanFields_vars (h : scanFields text s = .ok s') :
    s'.code = (scanRequest text).code.getD s.code ∧
      s'.clientInput.clientPipe.str =
        (scanRequest text).clientPipe.getD s.clientInput.clientPipe.str ∧
      s'.clientInput.boxName.str =
        (scanRequest text).boxName.getD s.clientInput.boxName.str := by
  rcases bind_eq_ok.mp h with ⟨clientPipe, hpipe, h⟩
  rcases bind_eq_ok.mp h with ⟨boxName, hbox, h⟩
  cases h
  exact ⟨rfl, (storeWord_eq_ok.mp hpipe).right, (storeWord_eq_ok.mp hbox).right⟩

/-!
## Turns
-/

theorem mainTurn_idle (hidle : frame.bytes.length = 0) (s : MainState) :
    mainTurn frame s = .ok (none, s) := by
  unfold mainTurn
  rw [if_pos hidle]
  rfl

/-- A frame with a terminator hides what was in the buffer. -/
theorem receive_text (hended : 0 ∈ frame.bytes) (s : MainState) :
    bufferText (s.receive frame).buffer = .ok (CStr.ofBuffer frame.bytes) :=
  bufferText_ended hended _

/-- A turn on a frame with a terminator scans the frame's own text. -/
theorem mainTurn_own {found : Option (Handler × Args)} (hbytes : frame.bytes.length ≠ 0)
    (hended : 0 ∈ frame.bytes) :
    mainTurn frame s = .ok (found, s') <->
      scanFields (CStr.ofBuffer frame.bytes) (s.receive frame) = .ok s' ∧ found = callOf s' := by
  unfold mainTurn
  rw [if_neg hbytes]
  simp only [receive_text hended, ok_bind]
  rw [bind_eq_ok]
  constructor
  · rintro ⟨s1, hscan, heq⟩
    rcases Prod.mk.inj (Except.ok.inj heq) with ⟨hfound, hs⟩
    rw [← hs]
    exact ⟨hscan, hfound.symm⟩
  · rintro ⟨hscan, hfound⟩
    exact ⟨s', hscan, by rw [hfound]; rfl⟩

/-- The call that a frame with a terminator leads to. -/
theorem mainTurn_answer {found : Option (Handler × Args)} (whole : Bool)
    (hbytes : frame.bytes.length ≠ 0) (hended : 0 ∈ frame.bytes)
    (h : mainTurn frame s = .ok (found, s')) :
    found.map (seen whole) =
      answerOf whole ((scanRequest (CStr.ofBuffer frame.bytes)).code.getD s.code)
        ((scanRequest (CStr.ofBuffer frame.bytes)).clientPipe.getD s.clientInput.clientPipe.str)
        ((scanRequest (CStr.ofBuffer frame.bytes)).boxName.getD s.clientInput.boxName.str) := by
  rcases (mainTurn_own hbytes hended).mp h with ⟨hscan, hfound⟩
  rcases scanFields_vars hscan with ⟨hcode, hpipe, hbox⟩
  rw [hfound, callOf_seen, hcode, hpipe, hbox]
  rfl

/-!
## Requests
-/

/-- The fields of a request whose names hold no white space. -/
theorem scanRequest_serialize {clientPipe box : CStr} {code : Int}
    (hs : text.bytes = serialize code clientPipe.bytes box.bytes) (hlow : -2147483648 <= code)
    (hhigh : code < 2147483648) (hpipe : clientPipe.bytes ≠ []) (hbox : box.bytes ≠ [])
    (hpipeWord : NoSpace clientPipe) (hboxWord : NoSpace box) :
    scanRequest text = ⟨some code, some clientPipe, some box⟩ := by
  rw [serialize, List.append_assoc, List.append_assoc, List.append_assoc] at hs
  rw [← List.nil_append (_ ++ _)] at hs
  rcases scanInt_field hs (fun c hc => absurd hc List.not_mem_nil) hlow hhigh with
    ⟨text1, hint, h1⟩
  rcases scanWord_field h1 space_isSpace hpipe hpipeWord with ⟨text2, hfirst, h2⟩
  rw [← List.append_nil box.bytes] at h2
  have hsecond := scanWord_word (t := emptyStr) h2 space_isSpace hbox hboxWord stops_nil
  simp only [scanRequest, hint, hfirst, hsecond, Option.map_some]

theorem serialize_noNul (code : Int) (clientPipe box : CStr) :
    0 ∉ serialize code clientPipe.bytes box.bytes := by
  have hspace : (0 : UInt8) ∉ [(32 : UInt8)] := by decide
  simp only [serialize, List.mem_append, not_or]
  exact ⟨⟨⟨⟨formatInt_noNul _, hspace⟩, clientPipe.noNul⟩, hspace⟩, box.noNul⟩

/-- The text of a frame that holds a request. -/
theorem requestFrame_own {bytes : List UInt8} (hnoNul : 0 ∉ bytes)
    (hlength : bytes.length < frameSize) (behind : Nat -> UInt8) :
    (requestFrame bytes behind).bytes.length ≠ 0 ∧ 0 ∈ (requestFrame bytes behind).bytes ∧
      (CStr.ofBuffer (requestFrame bytes behind).bytes).bytes = bytes := by
  rcases frame_text hnoNul hlength behind with ⟨hsize, hended, htext⟩
  refine ⟨?_, hended, htext⟩
  rw [requestFrame, hsize]
  decide

/-- A word that fits an array. -/
structure Word (n : Nat) where
  array : CharArray n
  nonempty : array.str.bytes ≠ []
  noSpace : NoSpace array.str

/-- A request leaves its fields in the variables. -/
theorem mainTurn_request (s : MainState) {code : Int} (hlow : -2147483648 <= code)
    (hhigh : code < 2147483648) (pipe : Word pipeNameSize) (box : Word boxNameSize)
    (behind : Nat -> UInt8) : exists s',
      mainTurn (requestFrame (serialize code pipe.array.str.bytes box.array.str.bytes) behind) s =
        .ok (callOf s', s') ∧
      s'.code = code ∧ s'.clientInput.clientPipe.str = pipe.array.str ∧
      s'.clientInput.boxName.str = box.array.str := by
  have hnoNul := serialize_noNul code pipe.array.str box.array.str
  have hlength : (serialize code pipe.array.str.bytes box.array.str.bytes).length < frameSize := by
    have hcode := formatInt_length_le (v := code) (k := 10) (by omega) (by decide)
    have hpipeFits := pipe.array.fits
    have hboxFits := box.array.fits
    simp only [CStr.strlen, pipeNameSize, boxNameSize] at hpipeFits hboxFits
    simp only [serialize, List.length_append, List.length_cons, List.length_nil, frameSize]
    omega
  rcases requestFrame_own hnoNul hlength behind with ⟨hbytes, hended, hown⟩
  have hscan := scanRequest_serialize hown hlow hhigh pipe.nonempty box.nonempty pipe.noSpace
    box.noSpace
  have hfits : exists s', scanFields (CStr.ofBuffer (requestFrame
      (serialize code pipe.array.str.bytes box.array.str.bytes) behind).bytes)
      (s.receive (requestFrame
        (serialize code pipe.array.str.bytes box.array.str.bytes) behind)) = .ok s' := by
    refine scanFields_ok _ (fun word hword => ?_) (fun word hword => ?_)
    · rw [hscan] at hword
      cases hword
      exact pipe.array.fits
    · rw [hscan] at hword
      cases hword
      exact box.array.fits
  rcases hfits with ⟨s', hs'⟩
  rcases scanFields_vars hs' with ⟨hcode, hpipe, hbox⟩
  rw [hscan] at hcode hpipe hbox
  exact ⟨s', (mainTurn_own hbytes hended).mpr ⟨hs', rfl⟩, hcode, hpipe, hbox⟩

/-!
## Histories
-/

variable {initial : MainState -> Prop}

theorem AfterFrames.next (h : AfterFrames initial s) {found : Option (Handler × Args)}
    (hturn : mainTurn frame s = .ok (found, s')) : AfterFrames initial s' := by
  rcases h with ⟨start, history, calls, hstart, hrun⟩
  exact ⟨start, history ++ [frame], calls ++ [found], hstart, run_snoc hrun hturn⟩

/-- Every code and all words can be left over from an earlier frame. -/
theorem AfterFrames.leftover (h : AfterFrames initial s) {code : Int}
    (hlow : -2147483648 <= code) (hhigh : code < 2147483648) (pipe : Word pipeNameSize)
    (box : Word boxNameSize) : exists s', AfterFrames initial s' ∧ s'.code = code ∧
      s'.clientInput.clientPipe.str = pipe.array.str ∧
      s'.clientInput.boxName.str = box.array.str := by
  rcases mainTurn_request s hlow hhigh pipe box (fun _ => 0) with ⟨s', hturn, hvars⟩
  exact ⟨s', h.next hturn, hvars⟩

/-- A frame of 400 bytes that ends at once. -/
def endedFrame : Frame :=
  ⟨0 :: List.replicate 399 1, by rw [List.length_cons, List.length_replicate]; decide⟩

/-- After it the next frame overwrites the only terminator. -/
theorem AfterFrames.unterminated (h : AfterFrames initial s) (hbytes : frame.bytes.length ≠ 0)
    (hended : 0 ∉ frame.bytes) : exists s' stop, AfterFrames initial s' ∧
      mainTurn frame s' = .error stop := by
  have hscan : scanRequest (CStr.ofBuffer endedFrame.bytes) = ⟨none, none, none⟩ := by
    rfl
  have hfits : exists s', scanFields (CStr.ofBuffer endedFrame.bytes) (s.receive endedFrame) =
      .ok s' := by
    refine scanFields_ok _ (fun word hword => ?_) (fun word hword => ?_)
    · rw [hscan] at hword
      cases hword
    · rw [hscan] at hword
      cases hword
  rcases hfits with ⟨s', hs'⟩
  have hterminator : 0 ∈ endedFrame.bytes := List.mem_cons_self
  have hnonempty : endedFrame.bytes.length ≠ 0 := (List.length_pos_of_mem hterminator).ne'
  have hturn := (mainTurn_own hnonempty hterminator).mpr ⟨hs', rfl⟩
  have hbuffer : s'.buffer = endedFrame.bytes := by
    have hlength : endedFrame.bytes.length = s.buffer.length := by
      rw [s.size, endedFrame, List.length_cons, List.length_replicate]
      rfl
    have hkept : s'.buffer = endedFrame.bytes ++ s.buffer.drop endedFrame.bytes.length :=
      scanFields_buffer hs'
    rw [hkept, hlength, List.drop_length, List.append_nil]
  refine ⟨s', .unterminated, h.next hturn, ?_⟩
  unfold mainTurn
  have hnul : 0 ∉ (s'.receive frame).buffer := by
    intro hmem
    rcases List.mem_append.mp hmem with hmem | hmem
    · exact hended hmem
    · rcases Nat.exists_eq_succ_of_ne_zero hbytes with ⟨k, hk⟩
      rw [hbuffer, hk, endedFrame, List.drop_succ_cons] at hmem
      have hone := List.eq_of_mem_replicate (List.mem_of_mem_drop hmem)
      exact absurd hone (by decide)
  rw [if_neg hbytes]
  simp only [bufferText, if_neg hnul]
  rfl

/-!
## Frames with all their fields
-/

theorem scanRequest_noCode (h : (scanRequest text).code = none) :
    scanRequest text = ⟨none, none, none⟩ := by
  unfold scanRequest at h ⊢
  cases hcode : scanInt text with
  | none => rfl
  | some r =>
      simp only [hcode] at h
      split at h <;> cases h

/-- The names that are scanned are words. -/
theorem scanRequest_words (text : CStr) :
    (forall word, (scanRequest text).clientPipe = some word -> word.strlen ≠ 0 ∧ NoSpace word) ∧
      (forall word, (scanRequest text).boxName = some word -> word.strlen ≠ 0 ∧ NoSpace word) := by
  unfold scanRequest
  cases hcode : scanInt text with
  | none => exact ⟨fun word h => (by cases h), fun word h => (by cases h)⟩
  | some r =>
      cases hpipe : scanWord r.2 with
      | none =>
          simp only [hpipe]
          exact ⟨fun word h => (by cases h), fun word h => (by cases h)⟩
      | some found =>
          simp only [hpipe]
          refine ⟨fun word h => ?_, fun word h => ?_⟩
          · cases h
            exact scanWord_noSpace hpipe
          · rcases Option.map_eq_some_iff.mp h with ⟨box, hbox, heq⟩
            rw [← heq]
            exact scanWord_noSpace hbox

/-- Calls that look the same do the same. -/
theorem react_seen {call call' : Handler × Args} (h : seen whole call = seen whole call')
    (env : Env) (subscriberEnv : SubscriberEnv) (b : State) :
    react env subscriberEnv b call = react env subscriberEnv b call' := by
  rcases call with ⟨handler, clientPipe, boxName⟩
  rcases call' with ⟨handler', clientPipe', boxName'⟩
  simp only [seen, Prod.mk.injEq] at h
  rcases h with ⟨hhandler, hpipe, hbox⟩
  cases hhandler
  cases CharArray.ext hpipe
  by_cases huses : usesBoxName handler = true
  · have hcounts : counts whole handler = true := by
      rw [counts, huses, Bool.or_true]
    simp only [hcounts, if_true, Option.some.injEq] at hbox
    cases CharArray.ext hbox
    rfl
  · cases handler with
    | listBox => rfl
    | regPublisher => exact absurd rfl huses
    | regSubscriber => exact absurd rfl huses
    | createBox => exact absurd rfl huses
    | removeBox => exact absurd rfl huses

theorem answerOf_noHandler {code : Int} (h : handlerOf code = none) (clientPipe boxName : CStr) :
    answerOf whole code clientPipe boxName = none := by
  rw [answerOf, h]
  split <;> rfl

theorem answerOf_handler {code : Int} {handler : Handler} {clientPipe : CStr}
    (h : handlerOf code = some handler) (hpipe : clientPipe.strlen ≠ 0) (boxName : CStr) :
    answerOf whole code clientPipe boxName =
      some (handler, clientPipe, if counts whole handler then some boxName else none) := by
  rw [answerOf, h, if_neg hpipe]
  rfl

/-- The call of the fields that a frame has by itself. -/
def ownAnswer (whole : Bool) (fields : Fields) : Option (Handler × CStr × Option CStr) :=
  answerOf whole (fields.code.getD 0) (fields.clientPipe.getD emptyStr)
    (fields.boxName.getD emptyStr)

/-- A frame with all its fields leaves nothing to the earlier ones. -/
theorem SelfContained.answer {bytes : List UInt8} {fields : Fields}
    (h : SelfContained whole bytes fields) (code : Int) (clientPipe boxName : CStr) :
    answerOf whole (fields.code.getD code) (fields.clientPipe.getD clientPipe)
        (fields.boxName.getD boxName) = ownAnswer whole fields := by
  rcases Option.isSome_iff_exists.mp h.code with ⟨found, hcode⟩
  have hcomplete := h.complete
  rw [ownAnswer]
  rw [hcode] at hcomplete ⊢
  simp only [Option.getD_some, Option.bind_some] at hcomplete ⊢
  cases hhandler : handlerOf found with
  | none => rw [answerOf_noHandler hhandler, answerOf_noHandler hhandler]
  | some handler =>
      rcases hcomplete handler hhandler with ⟨hpipe, hbox⟩
      rcases Option.isSome_iff_exists.mp hpipe with ⟨pipe, hpipe⟩
      rw [hpipe]
      by_cases hcounts : counts whole handler = true
      · rcases Option.isSome_iff_exists.mp (hbox hcounts) with ⟨box, hbox⟩
        rw [hbox]
        rfl
      · simp only [answerOf, hhandler, Option.getD_some, Option.map_some, if_neg hcounts]

def letterA : CStr := ⟨[97], by decide⟩

def letterB : CStr := ⟨[98], by decide⟩

theorem letterA_noSpace : NoSpace letterA := noSpace_of_all (by decide)

theorem letterB_noSpace : NoSpace letterB := noSpace_of_all (by decide)

/-- Names for the variables that a scan leaves alone. -/
def pipeA : Word pipeNameSize := ⟨⟨letterA, by decide⟩, by decide, letterA_noSpace⟩

def pipeB : Word pipeNameSize := ⟨⟨letterB, by decide⟩, by decide, letterB_noSpace⟩

def boxNameA : Word boxNameSize := ⟨⟨letterA, by decide⟩, by decide, letterA_noSpace⟩

def boxNameB : Word boxNameSize := ⟨⟨letterB, by decide⟩, by decide, letterB_noSpace⟩

/-- A frame whose answer is always the same has all the fields that count. -/
theorem complete_of_answer {answer : Option (Handler × CStr × Option CStr)}
    (hall : forall code, -2147483648 <= code -> code < 2147483648 ->
      forall (clientPipe : Word pipeNameSize) (boxName : Word boxNameSize),
        answerOf whole ((scanRequest text).code.getD code)
          ((scanRequest text).clientPipe.getD clientPipe.array.str)
          ((scanRequest text).boxName.getD boxName.array.str) = answer) :
    (scanRequest text).code.isSome = true ∧
      forall handler, (scanRequest text).code.bind handlerOf = some handler ->
        (scanRequest text).clientPipe.isSome = true ∧
          (counts whole handler = true -> (scanRequest text).boxName.isSome = true) := by
  have hcode : (scanRequest text).code.isSome = true := by
    cases hcode : (scanRequest text).code with
    | some code => rfl
    | none =>
        -- A list request and an unknown one may be left over.
        rw [scanRequest_noCode hcode] at hall
        have hlist := hall 7 (by decide) (by decide) pipeA boxNameA
        have hother := hall 0 (by decide) (by decide) pipeA boxNameA
        rw [← hother] at hlist
        cases hlist
  have hzero := hall 0 (by decide) (by decide)
  refine ⟨hcode, fun handler hhandler => ?_⟩
  rcases Option.isSome_iff_exists.mp hcode with ⟨code, hcode⟩
  rw [hcode] at hhandler hzero
  simp only [Option.bind_some, Option.getD_some] at hhandler hzero
  cases hpipe : (scanRequest text).clientPipe with
  | none =>
      rw [hpipe] at hzero
      simp only [Option.getD_none] at hzero
      have hfirst := hzero pipeA boxNameA
      have hsecond := hzero pipeB boxNameA
      rw [answerOf_handler hhandler (by decide)] at hfirst hsecond
      rw [← hsecond] at hfirst
      cases hfirst
  | some pipe =>
      refine ⟨rfl, fun hcounts => ?_⟩
      cases hbox : (scanRequest text).boxName with
      | some box => rfl
      | none =>
          rw [hpipe, hbox] at hzero
          simp only [Option.getD_none, Option.getD_some] at hzero
          have hfirst := hzero pipeA boxNameA
          have hsecond := hzero pipeA boxNameB
          have hnamed := ((scanRequest_words text).left pipe hpipe).left
          rw [answerOf_handler hhandler hnamed, if_pos hcounts] at hfirst hsecond
          rw [← hsecond] at hfirst
          cases hfirst

/-- What a frame that is decoded by itself has to hold, whatever the memory was at first. -/
theorem DecodedAlone.selfContained {start : MainState} (hstart : initial start)
    (h : DecodedAlone initial whole frame) (hbytes : frame.bytes.length ≠ 0) :
    SelfContained whole frame.bytes (scanRequest (CStr.ofBuffer frame.bytes)) := by
  rcases h.alone with ⟨answer, halone⟩
  have hafter : AfterFrames initial start := ⟨start, [], [], hstart, rfl⟩
  have hended : 0 ∈ frame.bytes := by
    by_contra hnot
    rcases hafter.unterminated hbytes hnot with ⟨s, stop, hs, hstop⟩
    rcases halone s hs with ⟨found, s', hturn, _⟩
    rw [hstop] at hturn
    cases hturn
  have hfits : exists s', scanFields (CStr.ofBuffer frame.bytes) (start.receive frame) =
      .ok s' := by
    rcases halone start hafter with ⟨found, s', hturn, _⟩
    exact ⟨s', ((mainTurn_own hbytes hended).mp hturn).left⟩
  rcases hfits with ⟨s', hscan⟩
  have hall : forall code, -2147483648 <= code -> code < 2147483648 ->
      forall (clientPipe : Word pipeNameSize) (boxName : Word boxNameSize),
        answerOf whole ((scanRequest (CStr.ofBuffer frame.bytes)).code.getD code)
          ((scanRequest (CStr.ofBuffer frame.bytes)).clientPipe.getD clientPipe.array.str)
          ((scanRequest (CStr.ofBuffer frame.bytes)).boxName.getD boxName.array.str) =
            answer := by
    intro code hlow hhigh clientPipe boxName
    rcases hafter.leftover hlow hhigh clientPipe boxName with ⟨s, hs, hcode, hpipe, hbox⟩
    rcases halone s hs with ⟨found, s', hturn, hseen⟩
    rw [← hseen, mainTurn_answer whole hbytes hended hturn, hcode, hpipe, hbox]
  rcases complete_of_answer hall with ⟨hcode, hcomplete⟩
  exact ⟨hended, hcode, (scanFields_fits hscan).left, (scanFields_fits hscan).right, hcomplete⟩

theorem SelfContained.decodedAlone (hbytes : frame.bytes.length ≠ 0)
    (h : SelfContained whole frame.bytes (scanRequest (CStr.ofBuffer frame.bytes))) :
    DecodedAlone initial whole frame := by
  have hanswer : forall s found s', mainTurn frame s = .ok (found, s') ->
      found.map (seen whole) =
        ownAnswer whole (scanRequest (CStr.ofBuffer frame.bytes)) :=
    fun s found s' hturn => (mainTurn_answer whole hbytes h.ended hturn).trans (h.answer _ _ _)
  refine ⟨⟨ownAnswer whole (scanRequest (CStr.ofBuffer frame.bytes)), fun s _ => ?_⟩,
    fun s handler clientInput s' _ hturn => ?_,
    fun s s' found found' t t' _ _ hturn hturn' env subscriberEnv b => ?_⟩
  · rcases scanFields_ok (s.receive frame) h.pipeFits h.boxFits with ⟨s1, hscan⟩
    have hturn := (mainTurn_own hbytes h.ended).mpr ⟨hscan, rfl⟩
    exact ⟨callOf s1, s1, hturn, hanswer s _ _ hturn⟩
  · refine ⟨CStr.ofBuffer frame.bytes, receive_text h.ended s, h.code, ?_⟩
    have hseen := mainTurn_answer whole hbytes h.ended hturn
    rcases Option.isSome_iff_exists.mp h.code with ⟨code, hcode⟩
    rw [hcode] at hseen
    have hhandler : handlerOf code = some handler := by
      cases hfound : handlerOf code with
      | none =>
          rw [Option.getD_some, answerOf_noHandler hfound] at hseen
          cases hseen
      | some found =>
          rw [Option.getD_some, answerOf, hfound] at hseen
          split at hseen
          · cases hseen
          · simp only [Option.map_some, Option.some.injEq, seen, Prod.mk.injEq] at hseen
            rw [hseen.left]
    rcases h.complete handler (by rw [hcode]; exact hhandler) with ⟨hpipe, hbox⟩
    refine ⟨hpipe, fun huses => hbox ?_⟩
    rw [counts, huses, Bool.or_true]
  · have hsame := (hanswer s _ _ hturn).trans (hanswer s' _ _ hturn').symm
    cases found with
    | none =>
        cases found' with
        | none => rfl
        | some call' => cases hsame
    | some call =>
        cases found' with
        | none => cases hsame
        | some call' =>
            exact congrArg some (react_seen (Option.some.inj hsame) env subscriberEnv b)

end Turns

/-- A frame is decoded by itself exactly when it is empty or has a terminator and all the
fields that count. -/
theorem decodedAlone_iff {initial : MainState -> Prop} {start : MainState}
    (hstart : initial start) (whole : Bool) (frame : Frame) :
    DecodedAlone initial whole frame <-> frame.bytes.length = 0 ∨
      SelfContained whole frame.bytes (scanRequest (CStr.ofBuffer frame.bytes)) := by
  constructor
  · intro h
    by_cases hbytes : frame.bytes.length = 0
    · exact Or.inl hbytes
    · exact Or.inr (h.selfContained hstart hbytes)
  · rintro (hidle | h)
    · refine ⟨⟨none, fun s _ => ⟨none, s, mainTurn_idle hidle s, rfl⟩⟩, ?_, ?_⟩
      · intro s handler clientInput s' _ hturn
        rw [mainTurn_idle hidle] at hturn
        cases hturn
      · intro s s' found found' t t' _ _ hturn hturn' env subscriberEnv b
        rw [mainTurn_idle hidle] at hturn hturn'
        cases hturn
        cases hturn'
        rfl
    · by_cases hbytes : frame.bytes.length = 0
      · have hended := h.ended
        rw [List.length_eq_zero_iff.mp hbytes] at hended
        cases hended
      · exact h.decodedAlone hbytes

/-- The frame of a manager that creates the box {lit}`/a`. -/
def createFrame : Frame := ⟨ascii "3 /p /a" ++ [0], by decide⟩

/-- A frame without any field. -/
def strayFrame : Frame := ⟨ascii "x" ++ [0], by decide⟩

def noPipe : CharArray pipeNameSize := ⟨emptyStr, by decide⟩

def noBox : CharArray boxNameSize := ⟨emptyStr, by decide⟩

def freshState : MainState where
  buffer := List.replicate frameSize 0
  size := List.length_replicate
  code := 0
  clientInput := ⟨noPipe, noBox⟩

/-- A request with all its fields is decoded by itself. -/
theorem createFrame_decodedAlone : DecodedAlone (Eq freshState) true createFrame := by
  refine (decodedAlone_iff rfl true createFrame).mpr (Or.inr ?_)
  have hcode : (scanRequest (CStr.ofBuffer createFrame.bytes)).code = some 3 := by
    decide +kernel
  have hpipe : (scanRequest (CStr.ofBuffer createFrame.bytes)).clientPipe =
      some ⟨ascii "/p", by decide⟩ := by
    decide +kernel
  have hbox : (scanRequest (CStr.ofBuffer createFrame.bytes)).boxName =
      some ⟨ascii "/a", by decide⟩ := by
    decide +kernel
  refine ⟨by decide +kernel, ?_, fun word hword => ?_, fun word hword => ?_, fun handler _ => ?_⟩
  · rw [hcode]
    rfl
  · rw [hpipe] at hword
    cases hword
    decide
  · rw [hbox] at hword
    cases hword
    decide
  · rw [hpipe, hbox]
    exact ⟨rfl, fun _ => rfl⟩

/-- A stray frame repeats the request before it. -/
theorem strayFrame_repeats :
    (run mainTurn [createFrame, strayFrame] freshState).toOption.map
        (fun r => r.1.map (Option.map (seen false))) =
      some [some (.createBox, ⟨ascii "/p", by decide⟩, some ⟨ascii "/a", by decide⟩),
        some (.createBox, ⟨ascii "/p", by decide⟩, some ⟨ascii "/a", by decide⟩)] ∧
      ¬ DecodedAlone (Eq freshState) false strayFrame := by
  refine ⟨by decide +kernel, fun halone => ?_⟩
  have hself := halone.selfContained rfl (by decide)
  have hcode := hself.code
  exact absurd hcode (by decide +kernel)

end Broker
end TecnicoFs
