import TecnicoFs.Broker.Sessions

/-!
# Subscribers' sessions

The handler of a subscriber polls the file of its box in two nested loops.  What a poll
reads goes to the start of a buffer, and the string at its start is sent.  Nothing ends
the string behind the bytes that were read but what was in the buffer before.
-/

namespace TecnicoFs
namespace Broker

open Library

/-- What a turn of the outer loop gets from outside. -/
structure Poll where
  /-- What has happened to the file system since the last turn. -/
  others : Fs -> Fs
  /-- Whether the write of a message succeeds. -/
  writes : Nat -> Bool

/-- What the handler gets from outside. -/
structure SubscriberEnv where
  /-- The descriptor of the client's pipe, unless the pipe cannot be opened. -/
  fd : Option Nat
  /-- The contents of a fresh node. -/
  node : Cell Box
  /-- The contents of the buffer of the session. -/
  buffer : Nat -> UInt8
  polls : List Poll

/-- What a session does, in the order in which it does it. -/
inductive Action where
  | handled (event : Event)
  /-- A call of {lit}`tfs_read` and the bytes it copies. -/
  | polled (b : Int) (data : List UInt8)
  /-- A write to the client's pipe, and whether it succeeds. -/
  | sent (bytes : List UInt8) (success : Bool)
deriving DecidableEq

/-- What the outer loop carries from one turn to the next. -/
structure Subscription where
  buffer : List UInt8
  prev : Int
  fs : Fs

/-!
## The loops
-/

/-- `serializeMessage(SERVER_SEND, buffer)`: the memory for the message is allocated before
its length is known. -/
def serializeSend (text : CStr) : Out (List UInt8) :=
  if (serializeMessage serverSend text.bytes).length < errorMsg + 50 then
    .ok (serializeMessage serverSend text.bytes)
  else .error .overflow

/-- The inner loop from write `n` on, with what is left of {lit}`b`. -/
def sendLoop (writes : Nat -> Bool) : (fuel n : Nat) -> (b : Int) -> (buffer : List UInt8) ->
    Out (List Action × Int × List UInt8)
  | fuel, n, b, buffer =>
      if b <= 0 then pure ([], b, buffer)
      else
        match fuel with
        | 0 => .error (.heap .endless)
        | fuel + 1 => do
            let text <- bufferText buffer
            let msg <- serializeSend text
            if writes n then do
              let (actions, b, buffer) <- sendLoop writes fuel (n + 1) (b - (text.strlen + 1))
                (List.replicate bufferSize 0)
              pure (.sent msg true :: actions, b, buffer)
            else
              pure ([.sent msg false], b, buffer)

/-- The end of the outer loop. -/
inductive PollEnd where
  | stop (stop : Stop)
  | done (fs : Fs)

/-- One turn of the outer loop. -/
def pollTurn (fh : Int) (poll : Poll) (s : Subscription) :
    Except PollEnd (List Action × Subscription) := do
  let (b, data, fs) <- (ofFs (tfsRead fh msize (poll.others s.fs))).mapError PollEnd.stop
  if b = -1 then
    .error (.done fs)
  else do
    let buffer := data ++ s.buffer.drop data.length
    if b = s.prev then
      pure ([.polled b data], ⟨buffer, s.prev, fs⟩)
    else do
      let (actions, left, buffer) <-
        (sendLoop poll.writes b.toNat 0 b buffer).mapError PollEnd.stop
      pure (.polled b data :: actions, ⟨buffer, left, fs⟩)

/-- How far a session gets with its polls. -/
inductive LoopEnd where
  | waiting (s : Subscription)
  | ended (fs : Fs)
  | stopped (stop : Stop)

/-- The outer loop, with all that it does. -/
def subscribeLoop (fh : Int) : List Poll -> Subscription -> List Action × LoopEnd
  | [], s => ([], .waiting s)
  | poll :: polls, s =>
      match pollTurn fh poll s with
      | .ok (actions, s) =>
          (actions ++ (subscribeLoop fh polls s).1, (subscribeLoop fh polls s).2)
      | .error (.done fs) => ([.polled (-1) []], .ended fs)
      | .error (.stop stop) => ([], .stopped stop)

/-!
## The handler
-/

/-- The session before its loop: refused, or with an open file. -/
inductive Opening where
  | refused (events : List Event) (b : State)
  | granted (fh : Int) (boxToRead : Nat) (b : State)

def openSubscription (clientInput : Args) (env : SubscriberEnv) (fd : Nat) (b : State) :
    Out Opening := do
  let (boxToRead, boxes) <-
    ofHeap (findBox (.array clientInput.boxName.str) b.head env.node b.boxes)
  let box <- ofHeap (boxes.load boxToRead)
  if box.value.hasWriter = -1 then do
    let boxes <- ofHeap (boxes.free boxToRead)
    pure (.refused [.unlinked clientInput.clientPipe.str, .closed fd] { b with boxes := boxes })
  else do
    let (fh, fs) <- ofFs (tfsOpen (some box.value.boxName.str) tfsOCreat b.fs)
    if fh = -1 then do
      let boxes <- ofHeap (boxes.free boxToRead)
      pure (.refused [.unlinked clientInput.clientPipe.str, .closed fd]
        { b with fs := fs, boxes := boxes })
    else do
      let boxes <- ofHeap (modifyBox boxToRead (fun box =>
        { box with value := { box.value with nReaders := box.value.nReaders + 1 } }) boxes)
      pure (.granted fh boxToRead { b with fs := fs, boxes := boxes })

/-- The session behind its loop.  It does not close the client's pipe. -/
def closeSubscription (clientInput : Args) (fh : Int) (boxToRead : Nat) (b : State) :
    Out (List Event × State) := do
  let (_, fs) <- ofFs (tfsClose fh b.fs)
  let boxes <- ofHeap (modifyBox boxToRead (fun box =>
    { box with value := { box.value with nReaders := box.value.nReaders - 1 } }) b.boxes)
  pure ([.tfsClosed fh, .unlinked clientInput.clientPipe.str], { b with fs := fs, boxes := boxes })

/-- How far a request gets. -/
inductive SubscriberEnd where
  | waiting (b : State)
  | done (b : State)
  | stopped (stop : Stop)

/-- The buffer of a session before its first poll. -/
def SubscriberEnv.start (env : SubscriberEnv) (fs : Fs) : Subscription :=
  ⟨(List.range bufferSize).map env.buffer, 0, fs⟩

def regSubscriber (clientInput : Args) (env : SubscriberEnv) (b : State) :
    List Action × SubscriberEnd :=
  match env.fd with
  | none => ([], .done b)
  | some fd =>
      match openSubscription clientInput env fd b with
      | .error stop => ([.handled (.opened fd)], .stopped stop)
      | .ok (.refused events b) => (.handled (.opened fd) :: events.map .handled, .done b)
      | .ok (.granted fh boxToRead b) =>
          let (actions, loopEnd) := subscribeLoop fh env.polls (env.start b.fs)
          let past := .handled (.opened fd) :: .handled (.tfsOpened fh) :: actions
          match loopEnd with
          | .waiting s => (past, .waiting { b with fs := s.fs })
          | .stopped stop => (past, .stopped stop)
          | .ended fs =>
              match closeSubscription clientInput fh boxToRead { b with fs := fs } with
              | .error stop => (past, .stopped stop)
              | .ok (events, b) => (past ++ events.map .handled, .done b)

section Loops

variable {fh b : Int} {data buffer : List UInt8} {fs fs' : Fs} {poll : Poll} {polls : List Poll}
  {s s' : Subscription} {text : CStr} {msg : List UInt8} {writes : Nat -> Bool} {fuel n : Nat}

/-!
## Polls
-/

/-- A read fails, or yields at most as many bytes as are asked for. -/
theorem tfsRead_lengths {len : Nat} (h : tfsRead fh len fs = .ok (b, data, fs')) :
    (b = -1 ∧ data = []) ∨ (b = data.length ∧ data.length <= len) := by
  rcases bind_eq_ok.mp h with ⟨file, _, h⟩
  cases file with
  | none =>
      cases h
      exact Or.inl ⟨rfl, rfl⟩
  | some file =>
      right
      rcases bind_eq_ok.mp h with ⟨entry, _, h⟩
      rcases bind_eq_ok.mp h with ⟨inum, _, h⟩
      rcases bind_eq_ok.mp h with ⟨inode, _, h⟩
      by_cases hzero : clippedRead inode.iSize entry.ofOffset len = 0
      · rw [if_pos hzero] at h
        cases h
        exact ⟨rfl, Nat.zero_le len⟩
      · rw [if_neg hzero] at h
        rcases bind_eq_ok.mp h with ⟨block, _, h⟩
        rcases bind_eq_ok.mp h with ⟨bytes, hload, h⟩
        rcases bind_eq_ok.mp h with ⟨entries, _, h⟩
        cases h
        have hbytes := (Region.load_eq_some.mp (inside_eq_ok.mp hload)).right
        have hclip : clippedRead inode.iSize entry.ofOffset len <= len := by
          unfold clippedRead
          split <;> omega
        rw [hbytes, Region.window_length]
        exact ⟨rfl, hclip⟩

/-- What the polls of a session read, as long as none fails. -/
def pollResults (fh : Int) : List Poll -> Fs -> List (List UInt8)
  | [], _ => []
  | poll :: polls, fs =>
      match tfsRead fh msize (poll.others fs) with
      | .ok (b, data, fs) => if b = -1 then [] else data :: pollResults fh polls fs
      | .error _ => []

/-!
## Turns
-/

theorem sendLoop_done (hb : b <= 0) : sendLoop writes fuel n b buffer = .ok ([], b, buffer) := by
  unfold sendLoop
  rw [if_pos hb]
  rfl

/-- A message that is sent, and what the loop sends behind it. -/
theorem sendLoop_sent (hb : 0 < b) (htext : bufferText buffer = .ok text)
    (hmsg : serializeSend text = .ok msg) (hsuccess : writes n = true)
    {actions : List Action} {left : Int} {buffer' : List UInt8}
    (hrest : sendLoop writes fuel (n + 1) (b - (text.strlen + 1))
      (List.replicate bufferSize 0) = .ok (actions, left, buffer')) :
    sendLoop writes (fuel + 1) n b buffer = .ok (.sent msg true :: actions, left, buffer') := by
  have hpos : ¬ b <= 0 := by omega
  rw [sendLoop, if_neg hpos]
  simp only [htext, hmsg, hsuccess, hrest, ok_bind, pure_ok, if_true]

theorem sendLoop_failed (hb : 0 < b) (htext : bufferText buffer = .ok text)
    (hmsg : serializeSend text = .ok msg) (hfailure : writes n = false) :
    sendLoop writes (fuel + 1) n b buffer = .ok ([.sent msg false], b, buffer) := by
  have hpos : ¬ b <= 0 := by omega
  rw [sendLoop, if_neg hpos]
  simp [htext, hmsg, hfailure]

/-- The first message of a loop that ends without a fault. -/
theorem sendLoop_first {actions : List Action} {left : Int} {buffer' : List UInt8} (hb : 0 < b)
    (h : sendLoop writes fuel n b buffer = .ok (actions, left, buffer')) :
    exists text msg rest, bufferText buffer = .ok text ∧ serializeSend text = .ok msg ∧
      actions = .sent msg (writes n) :: rest := by
  have hpos : ¬ b <= 0 := by omega
  unfold sendLoop at h
  rw [if_neg hpos] at h
  cases fuel with
  | zero => cases h
  | succ fuel =>
      rcases bind_eq_ok.mp h with ⟨text, htext, h⟩
      rcases bind_eq_ok.mp h with ⟨msg, hmsg, h⟩
      cases hwrite : writes n with
      | true =>
          simp only [hwrite, if_true] at h
          rcases bind_eq_ok.mp h with ⟨⟨actions1, left1, buffer1⟩, _, h⟩
          cases h
          exact ⟨text, msg, actions1, htext, hmsg, rfl⟩
      | false =>
          rw [hwrite] at h
          cases h
          exact ⟨text, msg, [], htext, hmsg, rfl⟩

/-- The turn behind a poll that reads something. -/
theorem pollTurn_eq (hread : tfsRead fh msize (poll.others s.fs) = .ok (b, data, fs'))
    (hb : b ≠ -1) (hprev : b ≠ s.prev) :
    pollTurn fh poll s =
      ((sendLoop poll.writes b.toNat 0 b (data ++ s.buffer.drop data.length)).mapError
        PollEnd.stop >>= fun r => pure (.polled b data :: r.1, ⟨r.2.2, r.2.1, fs'⟩)) := by
  unfold pollTurn
  rw [hread]
  simp only [ofFs_ok, Except.mapError, ok_bind, if_neg hb, if_neg hprev]

theorem pollTurn_skip (hread : tfsRead fh msize (poll.others s.fs) = .ok (b, data, fs'))
    (hb : b ≠ -1) (hprev : b = s.prev) :
    pollTurn fh poll s =
      .ok ([.polled b data], ⟨data ++ s.buffer.drop data.length, s.prev, fs'⟩) := by
  unfold pollTurn
  rw [hread]
  simp only [ofFs_ok, Except.mapError, ok_bind, if_neg hb, if_pos hprev, pure_ok]

end Loops

end Broker
end TecnicoFs
