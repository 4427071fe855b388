import TecnicoFs.Clients.Publisher
import TecnicoFs.Clients.Requests
import TecnicoFs.System.Printing

/-!
# Runs of the clients

A run of a client makes a request of its arguments.  All that the broker has of the request
is the bytes of a frame, which it scans.
-/

namespace TecnicoFs
namespace System

open Library
open Broker

/-!
## Jobs
-/

/-- What a client is run for.  A publisher has a standard input. -/
inductive Purpose where
  | create
  | remove
  | list
  | publish (input : CStr)
  | subscribe

/-- A run of a client, with a box name that leaves the broker room for the slash. -/
structure Job where
  purpose : Purpose
  pipe : Word pipeNameSize
  boxName : CStr
  noSpace : NoSpace boxName
  short : boxName.strlen < boxNameSize - 1

namespace Job

def pipeName (job : Job) : CStr := job.pipe.array.str

/-- The name of the box as the broker gets it. -/
def name (job : Job) : CStr := Clients.slash.strcat job.boxName

/-- The request that the client makes of its arguments. -/
def request (job : Job) (registerPipe : CStr) : Except (List UInt8) (List UInt8) :=
  match job.purpose with
  | .create =>
      Clients.managerRequest registerPipe job.pipeName (ascii "create") (some job.boxName)
  | .remove =>
      Clients.managerRequest registerPipe job.pipeName (ascii "remove") (some job.boxName)
  | .list => Clients.managerRequest registerPipe job.pipeName (ascii "list") none
  | .publish _ => Clients.publisherRequest registerPipe job.pipeName job.boxName
  | .subscribe => Clients.subscriberRequest registerPipe job.pipeName job.boxName

def handler (job : Job) : Handler :=
  match job.purpose with
  | .create => .createBox
  | .remove => .removeBox
  | .list => .listBox
  | .publish _ => .regPublisher
  | .subscribe => .regSubscriber

end Job

/-- What becomes of a client's run. -/
inductive Output where
  /-- The client is sent nothing, and waits for good. -/
  | waits
  /-- The client has printed these lines, and ends.  The broker may have removed its pipe. -/
  | prints (lines : List (List UInt8)) (removed : Bool)

namespace Job

/-- A publisher is typed lines that start with a visible byte, and each of its messages fits
one read with the space before it. -/
def Proper (job : Job) : Prop :=
  forall input, job.purpose = .publish input -> forall line, line ∈ Clients.inputLines input ->
    line.text.strlen ≠ 0 ∧ Stops isSpace line.text.bytes ∧ line.message.length < msize

/-- What the client prints, and what becomes of the boxes. -/
def step (job : Job) (a : AbstractBroker) : Output × AbstractBroker :=
  match job.purpose with
  | .create =>
      (if validPathname (some job.name) = true ∧ a.boxes.length < AbstractBroker.capacity then
        .prints [ascii "OK\n"] false
      else .waits, (a.createBox job.name).2)
  | .remove =>
      (.prints [if job.name ∈ a.names then ascii "OK\n" else ascii "ERROR Box\n"] false,
        (a.removeBox job.name).2)
  | .list => (.prints a.listed false, a)
  | .publish input =>
      (.prints [] (decide (job.name ∉ a.names)),
        a.publish job.name ((Clients.inputLines input).map InputLine.text))
  | .subscribe => (.prints [] true, a)

/-- No box is created twice. -/
def Allowed (job : Job) (a : AbstractBroker) : Prop :=
  match job.purpose with
  | .create => job.name ∉ a.names
  | _ => True

/-- The broker is done with the job at some time, unless it is a subscription to a box. -/
def Returns (job : Job) (a : AbstractBroker) : Prop :=
  match job.purpose with
  | .subscribe => job.name ∉ a.names
  | _ => True

end Job

/-!
## Decoding
-/

/-- The read of at most 400 bytes from the register pipe. -/
def readFrame (bytes : List UInt8) : Frame := ⟨bytes.take frameSize, List.length_take_le _ _⟩

section Decoding

variable {job : Job} {registerPipe : CStr} {text : List UInt8}

end Decoding

end System
end TecnicoFs
