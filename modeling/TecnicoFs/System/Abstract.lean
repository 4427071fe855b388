import TecnicoFs.Broker.Answers
import TecnicoFs.Broker.Sessions

/-!
# The abstract broker

What the broker is for: boxes with names, in the order in which they were created, each
with the bytes of the texts that were published to it.  Nothing here has nodes, inodes,
handles or frames; their finite numbers appear only as a limit on the number of boxes and
on the bytes of a box.
-/

namespace TecnicoFs
namespace System

open Library
open Broker

structure AbstractBox where
  name : CStr
  content : List UInt8
  valid : validPathname (some name) = true
  fits : content.length <= boxSize

structure AbstractBroker where
  boxes : List AbstractBox
  distinct : (boxes.map AbstractBox.name).Nodup

/-- The box keeps of the texts what it has room for. -/
def AbstractBox.publish (texts : List CStr) (box : AbstractBox) : AbstractBox where
  name := box.name
  content := boxAfter box.content texts
  valid := box.valid
  fits := by
    rw [boxAfter, List.length_take]
    exact Nat.min_le_left _ _

namespace AbstractBroker

/-- The number of boxes that there can be. -/
def capacity : Nat := tfsDefaultParams.blockSize / sizeofDirEntry

def empty : AbstractBroker := ⟨[], List.nodup_nil⟩

def names (a : AbstractBroker) : List CStr := a.boxes.map AbstractBox.name

def create (name : CStr) (hvalid : validPathname (some name) = true) (a : AbstractBroker)
    (hnew : name ∉ a.names) : AbstractBroker where
  boxes := a.boxes ++ [⟨name, [], hvalid, Nat.zero_le _⟩]
  distinct := by
    rw [List.map_append]
    refine a.distinct.append (List.nodup_singleton _) fun held hold hlast => ?_
    have hsame : held = name := List.mem_singleton.mp hlast
    exact hnew (hsame ▸ hold)

def remove (name : CStr) (a : AbstractBroker) : AbstractBroker where
  boxes := a.boxes.filter fun box => box.name ≠ name
  distinct := a.distinct.sublist (List.filter_sublist.map _)

/-- The texts go to the box of this name. -/
def publishTo (name : CStr) (texts : List CStr) (box : AbstractBox) : AbstractBox :=
  if box.name = name then box.publish texts else box

theorem name_publishTo (name : CStr) (texts : List CStr) (box : AbstractBox) :
    (publishTo name texts box).name = box.name := by
  unfold publishTo
  split <;> rfl

theorem map_publishTo (name : CStr) (texts : List CStr) (boxes : List AbstractBox) :
    (boxes.map (publishTo name texts)).map AbstractBox.name = boxes.map AbstractBox.name := by
  rw [List.map_map]
  exact List.map_congr_left fun box _ => name_publishTo name texts box

def publish (name : CStr) (texts : List CStr) (a : AbstractBroker) : AbstractBroker where
  boxes := a.boxes.map (publishTo name texts)
  distinct := by
    rw [map_publishTo]
    exact a.distinct

/-!
## Requests

A request has an effect and texts for the pipe of its client.
-/

/-- The answer to a request to create or remove a box. -/
def answer (returnCode : Int) (message : String) : List UInt8 :=
  serializeAnswer answerCreateBox returnCode (ascii message)

def createBox (name : CStr) (a : AbstractBroker) : List (List UInt8) × AbstractBroker :=
  if hnew : name ∉ a.names then
    if hvalid : validPathname (some name) = true then
      if a.boxes.length < capacity then ([answer 0 ""], a.create name hvalid hnew) else ([], a)
    else ([], a)
  else ([answer (-1) "Can't create box, already exists"], a)

def removeBox (name : CStr) (a : AbstractBroker) : List (List UInt8) × AbstractBroker :=
  if name ∈ a.names then ([answer 0 ""], a.remove name)
  else ([answer (-1) "Box doesn't exist\n"], a)

/-- One text for each box, of which the last is marked.  Between requests nobody uses a
box. -/
def listing : List AbstractBox -> List (List UInt8)
  | [] => []
  | box :: boxes =>
      serializeListing listAnswer (if boxes.isEmpty then 1 else 0) box.name.bytes sizeofPointer
        0 0 :: listing boxes

def listBox (a : AbstractBroker) : List (List UInt8) :=
  if a.boxes.isEmpty then [serializeListing listAnswer 1 [] 0 0 0] else listing a.boxes

/-- What a request does, if the pipe of the client can be opened. -/
def step : Request -> AbstractBroker -> List (List UInt8) × AbstractBroker
  | .createBox clientInput env, a =>
      if env.fd.isSome then a.createBox clientInput.boxName.str else ([], a)
  | .removeBox clientInput env, a =>
      if env.fd.isSome then a.removeBox clientInput.boxName.str else ([], a)
  | .listBox _ env, a => if env.fd.isSome then (a.listBox, a) else ([], a)
  | .regPublisher clientInput env, a =>
      if env.fd.isSome then ([], a.publish clientInput.boxName.str (env.reads.map ownMessage))
      else ([], a)

/-- The clients do not create a box twice and wait for their answers, and each read of a
publisher's pipe holds one message. -/
def Allowed : Request -> AbstractBroker -> Prop
  | .createBox clientInput env, a =>
      env.fd.isSome = true -> clientInput.boxName.str ∉ a.names ∧ env.writes 0 = true
  | .removeBox _ env, _ => env.fd.isSome = true -> env.writes 0 = true
  | .listBox _ env, _ => env.fd.isSome = true -> forall n, env.writes n = true
  | .regPublisher clientInput env, a =>
      env.fd.isSome = true -> clientInput.boxName.str ∈ a.names ->
        forall read, read ∈ env.reads -> Delivers read (ownMessage read)

/-!
## Names and contents
-/

section Boxes

variable {a : AbstractBroker} {name : CStr} {texts : List CStr}

theorem ext {a' : AbstractBroker} (h : a.boxes = a'.boxes) : a = a' := by
  cases a
  cases a'
  cases h
  rfl

theorem mem_names : name ∈ a.names <-> exists box, box ∈ a.boxes ∧ box.name = name :=
  List.mem_map

theorem names_create (hvalid : validPathname (some name) = true) (hnew : name ∉ a.names) :
    (a.create name hvalid hnew).names = a.names ++ [name] := by
  simp [names, create]

theorem names_remove : (a.remove name).names = a.names.filter fun held => held ≠ name := by
  rw [names, names, List.filter_map]
  rfl

theorem names_publish : (a.publish name texts).names = a.names :=
  map_publishTo name texts a.boxes

theorem mem_removeBox {held : CStr} (h : held ∈ (a.removeBox name).2.names) : held ∈ a.names := by
  unfold removeBox at h
  split at h
  · rw [names_remove] at h
    exact List.mem_of_mem_filter h
  · exact h

/-- The texts for a box that does not exist are lost. -/
theorem publish_unknown (hnot : name ∉ a.names) : a.publish name texts = a := by
  apply ext
  have hkept : forall box, box ∈ a.boxes -> publishTo name texts box = box :=
    fun box hbox => if_neg fun hname => hnot (mem_names.mpr ⟨box, hbox, hname⟩)
  exact (List.map_congr_left hkept).trans (List.map_id a.boxes)

end Boxes

end AbstractBroker

end System
end TecnicoFs
