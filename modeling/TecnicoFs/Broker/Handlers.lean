import TecnicoFs.Broker.State

/-!
# Request handlers

The handlers of the broker's main loop for requests of managers and publishers.  A
handler maps the state to its events and the next state; the main loop runs one
handler after another.
-/

namespace TecnicoFs
namespace Broker

open Library

/-!
## Frames
-/

def answerCreateBox : Int := 4

def listAnswer : Int := 8

def serializeAnswer (code rcode : Int) (errorMessage : List UInt8) : List UInt8 :=
  formatInt code ++ [32] ++ formatInt rcode ++ [32] ++ errorMessage

def serializeListing (code : Int) (last : Nat) (boxName : List UInt8) (size pub sub : Nat) :
    List UInt8 :=
  formatInt code ++ [32] ++ formatInt last ++ [32] ++ boxName ++ [32] ++
    formatInt (wrapLong size) ++ [32] ++ formatInt (wrapLong pub) ++ [32] ++
    formatInt (wrapLong sub)

/-- The bytes of a frame: the text, its terminator, and what lies behind it. -/
def frame (text : List UInt8) (behind : Nat -> UInt8) : List UInt8 :=
  (text ++ [0] ++ (List.range frameSize).map behind).take frameSize

/-- The write of frame `n` of a request; the process exits when it fails. -/
def sendRequest (env : Env) (n fd : Nat) (text : List UInt8) : Out Event :=
  if env.writes n then .ok (.wrote fd (frame text (env.behind n))) else .error .exit

/-!
## Managers
-/

/-- The box is in the file system or in the list. -/
def boxExists (fh : Int) (box : Nat) (boxes : Heap (Cell Box)) : Out Bool :=
  if fh != -1 then pure true
  else do
    let found <- ofHeap (boxes.load box)
    pure (found.value.hasWriter != -1)

/-- A call of {lit}`tfs_open` that returned a handle. -/
def openEvents (fh : Int) : List Event := if fh = -1 then [] else [.tfsOpened fh]

/-- The answer of {lit}`create_box`, and its last attempt to close the file. -/
def answerCreate (env : Env) (fd : Nat) (past : List Event) (returnCode : Int)
    (text : List UInt8) (fh : Int) (b : State) : Out (List Event × State) := do
  let answer <- sendRequest env 0 fd (serializeAnswer answerCreateBox returnCode text)
  let (_, fs) <- ofFs (tfsClose fh b.fs)
  pure (.opened fd :: past ++ [answer, .tfsClosed fh], { b with fs := fs })

def createBox (clientInput : Args) (env : Env) (b : State) : Out (List Event × State) :=
  match env.fd with
  | none => pure ([], b)
  | some fd => do
      let name := clientInput.boxName.str
      let (boxToCreate, boxes) <- ofHeap (findBox (.array name) b.head env.node b.boxes)
      let (fh, fs) <- ofFs (tfsOpen (some name) tfsOAppend b.fs)
      let found <- boxExists fh boxToCreate boxes
      if found then do
        let boxes <- ofHeap (boxes.free boxToCreate)
        let (_, fs) <- ofFs (tfsClose fh fs)
        answerCreate env fd (openEvents fh ++ [.tfsClosed fh]) (-1)
          (ascii "Can't create box, already exists") fh { b with fs := fs, boxes := boxes }
      else do
        let (fh, fs) <- ofFs (tfsOpen (some name) tfsOCreat fs)
        if fh = -1 then
          pure ([.opened fd], { b with fs := fs, boxes := boxes })
        else do
          let boxes <- ofHeap (modifyBox boxToCreate (fun box =>
            { box with value := ⟨clientInput.boxName, 0, 0⟩ }) boxes)
          let (head, boxes) <- ofHeap (insertBox boxToCreate b.head boxes)
          answerCreate env fd (openEvents fh) 0 [] fh
            { fs := fs, boxes := boxes, head := head }

/-- The size that is sent for each box: {lit}`sizeof(current)`, of a pointer. -/
def sizeofPointer : Nat := 8

/-- The loop of {lit}`list_box`, from frame `n` on. -/
def listLoop (env : Env) (fd : Nat) (boxes : Heap (Cell Box)) :
    (fuel n : Nat) -> Option Nat -> Out (List Event)
  | _, _, none => pure []
  | 0, _, some _ => .error (.heap .endless)
  | fuel + 1, n, some current => do
      let box <- ofHeap (boxes.load current)
      let last := if box.next.isNone then 1 else 0
      let pub := uint64OfInt box.value.hasWriter
      let sub := uint64OfInt box.value.nReaders
      let listing <- sendRequest env n fd
        (serializeListing listAnswer last box.value.boxName.str.bytes sizeofPointer pub sub)
      let listings <- listLoop env fd boxes fuel (n + 1) box.next
      pure (listing :: listings)

def listBox (_clientInput : Args) (env : Env) (b : State) : Out (List Event × State) :=
  match env.fd with
  | none => pure ([], b)
  | some fd =>
      match b.head with
      | none => do
          let listing <- sendRequest env 0 fd (serializeListing listAnswer 1 [] 0 0 0)
          pure ([.opened fd, listing, .closed fd], b)
      | some _ => do
          let listings <- listLoop env fd b.boxes b.boxes.top 0 b.head
          pure (.opened fd :: listings ++ [.closed fd], b)

/-- The box is missing in the file system or in the list. -/
def boxMissing (fh : Int) (box : Nat) (boxes : Heap (Cell Box)) : Out Bool :=
  if fh = -1 then pure true
  else do
    let found <- ofHeap (boxes.load box)
    pure (found.value.nReaders = -1)

/-- The answer of {lit}`remove_box`. -/
def answerRemove (env : Env) (fd : Nat) (past : List Event) (returnCode : Int)
    (text : List UInt8) (b : State) : Out (List Event × State) := do
  let answer <- sendRequest env 0 fd (serializeAnswer answerCreateBox returnCode text)
  ofHeap (iterateBox b.head b.boxes)
  pure (.opened fd :: past ++ [answer, .closed fd], b)

def removeBox (clientInput : Args) (env : Env) (b : State) : Out (List Event × State) := do
  ofHeap (iterateBox b.head b.boxes)
  match env.fd with
  | none => pure ([], b)
  | some fd => do
      let name := clientInput.boxName.str
      let (boxToDelete, boxes) <- ofHeap (findBox (.array name) b.head env.node b.boxes)
      let (fh, fs) <- ofFs (tfsOpen (some name) tfsOAppend b.fs)
      let missing <- boxMissing fh boxToDelete boxes
      if missing then do
        let boxes <- ofHeap (boxes.free boxToDelete)
        answerRemove env fd (openEvents fh) (-1) (ascii "Box doesn't exist\n")
          { b with fs := fs, boxes := boxes }
      else do
        let (head, boxes) <- ofHeap (deleteBox (.node boxToDelete) b.head boxes)
        let (_, fs) <- ofFs (tfsClose fh fs)
        let (unlinked, fs) <- ofFs (tfsUnlink (some name) fs)
        answerRemove env fd (openEvents fh ++ [.tfsClosed fh])
          (if unlinked = -1 then -1 else 0) [] { fs := fs, boxes := boxes, head := head }

/-!
## Publishers
-/

/-- The buffer is longer than what is read into it. -/
def bufferSize : Nat := msize + 100

/-- `sscanf(buffer, "%d %[^\n]%*c", &code, message)`: the message it leaves. -/
def scanMessage (text message : CStr) : CStr :=
  match scanInt text with
  | none => message
  | some (_, rest) =>
      match scanLine (rest.dropWhile isSpace) with
      | none => message
      | some (line, _) => line

/-- The string fits the array {lit}`message`. -/
def fitsMessage (message : CStr) : Out CStr :=
  if message.strlen < msize then .ok message else .error .overflow

/-- The string at the start of the buffer. -/
def bufferText (buffer : List UInt8) : Out CStr :=
  if 0 ∈ buffer then .ok (CStr.ofBuffer buffer) else .error .unterminated

def space : CStr := ⟨[32], by decide⟩

/-- The loop of {lit}`reg_publisher` over the reads that yield bytes. -/
def publishLoop (fh : Int) : List Chunk -> (buffer : List UInt8) -> (message : CStr) ->
    Fs -> Out Fs
  | [], _, _, fs => pure fs
  | read :: reads, buffer, message, fs => do
      let text <- bufferText (read.bytes ++ buffer.drop read.bytes.length)
      let message <- fitsMessage (scanMessage text message)
      if message.strlen = 0 then
        pure fs
      else do
        let message <- fitsMessage (message.strcat space)
        let (b, fs) <- ofFs (tfsWrite fh message.bytes message.strlen fs)
        if b + 1 < 0 then
          pure fs
        else
          publishLoop fh reads (List.replicate bufferSize 0) message fs

theorem nil_noNul : (0 : UInt8) ∉ ([] : List UInt8) := List.not_mem_nil

def emptyStr : CStr := ⟨[], nil_noNul⟩

/-- The session of a publisher whose box has been opened. -/
def publish (fh : Int) (boxToWrite fd : Nat) (env : Env) (b : State) :
    Out (List Event × State) := do
  let boxes <- ofHeap (modifyBox boxToWrite (fun box =>
    { box with value := { box.value with hasWriter := 1 } }) b.boxes)
  let buffer := (List.range bufferSize).map env.buffer
  let fs <- publishLoop fh env.reads buffer emptyStr b.fs
  let (_, fs) <- ofFs (tfsClose fh fs)
  let boxes <- ofHeap (modifyBox boxToWrite (fun box =>
    { box with value := { box.value with hasWriter := 0 } }) boxes)
  pure ([.opened fd, .tfsOpened fh, .tfsClosed fh, .closed fd],
    { b with fs := fs, boxes := boxes })

def regPublisher (clientInput : Args) (env : Env) (b : State) : Out (List Event × State) :=
  match env.fd with
  | none => pure ([], b)
  | some fd => do
      let (boxToWrite, boxes) <-
        ofHeap (findBox (.array clientInput.boxName.str) b.head env.node b.boxes)
      let box <- ofHeap (boxes.load boxToWrite)
      if box.value.hasWriter != 0 then do
        let boxes <- ofHeap (boxes.free boxToWrite)
        pure ([.opened fd, .unlinked clientInput.clientPipe.str, .closed fd],
          { b with boxes := boxes })
      else do
        let (fh, fs) <- ofFs (tfsOpen (some box.value.boxName.str) tfsOAppend b.fs)
        if fh = -1 then do
          let boxes <- ofHeap (boxes.free boxToWrite)
          pure ([.opened fd, .closed fd], { b with fs := fs, boxes := boxes })
        else
          publish fh boxToWrite fd env { b with fs := fs, boxes := boxes }

/-!
## Runs of requests
-/

/-- The requests that the main loop hands to these handlers. -/
inductive Request where
  | regPublisher (clientInput : Args) (env : Env)
  | createBox (clientInput : Args) (env : Env)
  | removeBox (clientInput : Args) (env : Env)
  | listBox (clientInput : Args) (env : Env)

/-- The switch of {lit}`func_main` on the code of the request. -/
def serve : Request -> State -> Out (List Event × State)
  | .regPublisher clientInput env => regPublisher clientInput env
  | .createBox clientInput env => createBox clientInput env
  | .removeBox clientInput env => removeBox clientInput env
  | .listBox clientInput env => listBox clientInput env

def runRequests : List Request -> State -> Out (List (List Event) × State) := run serve

end Broker
end TecnicoFs
