import TecnicoFs.Library.Format
import TecnicoFs.Library.LinkedList
import TecnicoFs.Fs.Operations

/-!
# Broker state

The broker keeps the list of its message boxes on the heap and their contents in
the file system.  A handler talks to one client through a pipe.  What it gets from
outside, the answers of system calls and the contents of fresh memory, is given
with the request, and what it does to descriptors and handles is listed as events.  Messages on
the standard output are left out, and the small allocations of the handlers
succeed.
-/

namespace TecnicoFs
namespace Broker

open Library

/-!
## Ends of a run

A run ends in the file system, at an access to a node that is not live, at a string
that outgrows its array or is not terminated, or when the process exits.
-/

inductive Stop where
  | fs (fault : Fault)
  | heap (fault : HeapFault)
  | overflow
  | unterminated
  | exit
deriving DecidableEq

abbrev Out (alpha : Type) := Except Stop alpha

def ofFs (x : Res alpha) : Out alpha := x.mapError Stop.fs

def ofHeap (x : Except HeapFault alpha) : Out alpha := x.mapError Stop.heap

@[simp] theorem ofFs_ok (a : alpha) : ofFs (.ok a) = .ok a := rfl

@[simp] theorem ofFs_error (e : Fault) : ofFs (.error e : Res alpha) = .error (.fs e) := rfl

@[simp] theorem ofHeap_ok (a : alpha) : ofHeap (.ok a) = .ok a := rfl

@[simp] theorem ofHeap_error (e : HeapFault) :
    ofHeap (.error e : Except HeapFault alpha) = .error (.heap e) := rfl

theorem ofFs_eq_ok {x : Res alpha} {a : alpha} : ofFs x = .ok a <-> x = .ok a := by
  cases x <;> simp

theorem ofHeap_eq_ok {x : Except HeapFault alpha} {a : alpha} :
    ofHeap x = .ok a <-> x = .ok a := by
  cases x <;> simp

/-!
## Boxes and requests
-/

def errorMsg : Nat := 1024

def pipeNameSize : Nat := 256

def boxNameSize : Nat := 32

def msize : Nat := 1024

/-- The bytes that a frame of a request or an answer occupies in a pipe. -/
def frameSize : Nat := 400

/-- A string that fits an array of `n` bytes with its terminator. -/
structure CharArray (n : Nat) where
  str : CStr
  fits : str.strlen < n
deriving DecidableEq

theorem CharArray.ext {array array' : CharArray n} (h : array.str = array'.str) :
    array = array' := by
  cases array
  cases array'
  cases h
  rfl

/-- A box without the pointer to the next one, which its cell holds. -/
structure Box where
  boxName : CharArray boxNameSize
  hasWriter : Int
  nReaders : Int
deriving DecidableEq

structure Args where
  clientPipe : CharArray pipeNameSize
  boxName : CharArray boxNameSize

/-- What one successful read of a pipe yields. -/
structure Chunk where
  bytes : List UInt8
  nonempty : 0 < bytes.length
  fits : bytes.length <= msize

/-- What a handler gets from outside. -/
structure Env where
  /-- The descriptor of the client's pipe, unless the pipe cannot be opened. -/
  fd : Option Nat
  /-- Whether the write of a frame succeeds. -/
  writes : Nat -> Bool
  /-- The bytes in memory behind the text of a frame. -/
  behind : Nat -> Nat -> UInt8
  /-- The contents of a fresh node. -/
  node : Cell Box
  /-- The contents of the buffer of a publisher's session. -/
  buffer : Nat -> UInt8
  /-- What the publisher's pipe yields until it ends. -/
  reads : List Chunk

/-- What a handler does to the client's pipe and to the handles of the file system. -/
inductive Event where
  | opened (fd : Nat)
  | wrote (fd : Nat) (bytes : List UInt8)
  | unlinked (path : CStr)
  | closed (fd : Nat)
  | tfsOpened (fh : Int)
  | tfsClosed (fh : Int)
deriving DecidableEq

structure State where
  fs : Fs
  boxes : Heap (Cell Box)
  /-- The global variable {lit}`head`. -/
  head : Option Nat

/-- The broker after {lit}`tfs_init(NULL)`. -/
def start (fs : Fs) : State := ⟨fs, Heap.empty, none⟩

/-!
## The list of boxes
-/

/-- A pointer to a name: an array of the handler, or the name of a node. -/
inductive NamePtr where
  | array (name : CStr)
  | node (a : Nat)

/-- The string that the pointer leads to. -/
def NamePtr.load (boxes : Heap (Cell Box)) : NamePtr -> Except HeapFault CStr
  | .array name => .ok name
  | .node a => do
      let box <- boxes.load a
      pure box.value.boxName.str

/-- `!strcmp(box->box_name, box_name)`. -/
def sameName (boxes : Heap (Cell Box)) (boxName : NamePtr) (box : Cell Box) :
    Except HeapFault Bool := do
  let name <- boxName.load boxes
  pure (box.value.boxName.str = name)

def unexistent : CharArray boxNameSize := ⟨⟨ascii "unexistent", by decide⟩, by decide⟩

def modifyBox (a : Nat) (f : Cell Box -> Cell Box) (boxes : Heap (Cell Box)) :
    Except HeapFault (Heap (Cell Box)) := do
  let box <- boxes.load a
  boxes.store a (f box)

/-- The box of this name, or a fresh node that stands for a box that does not exist. -/
def findBox (boxName : NamePtr) (head : Option Nat) (fresh : Cell Box)
    (boxes : Heap (Cell Box)) : Except HeapFault (Nat × Heap (Cell Box)) := do
  let (unexistentBox, boxes) := boxes.alloc fresh
  let (_, current) <- seek (sameName boxes boxName) boxes boxes.top none head
  match current with
  | some current => pure (current, boxes)
  | none => do
      let boxes <- modifyBox unexistentBox (fun box =>
        { box with value := ⟨unexistent, -1, -1⟩ }) boxes
      pure (unexistentBox, boxes)

/-- The new head of the list, with the new box behind the last one. -/
def insertBox (newBox : Nat) (head : Option Nat) (boxes : Heap (Cell Box)) :
    Except HeapFault (Option Nat × Heap (Cell Box)) := do
  let boxes <- modifyBox newBox (fun box => { box with next := none }) boxes
  match head with
  | none => pure (some newBox, boxes)
  | some _ => do
      let (_, temp) <- seek (fun box => .ok box.next.isNone) boxes boxes.top none head
      match temp with
      | none => .error .useAfterFree
      | some temp => do
          let boxes <- modifyBox temp (fun box => { box with next := some newBox }) boxes
          pure (head, boxes)

def iterateBox (head : Option Nat) (boxes : Heap (Cell Box)) : Except HeapFault Unit := do
  let _ <- seek (fun _ => .ok false) boxes boxes.top none head
  pure ()

/-- The search of {lit}`delete_box` behind the first node. -/
def deleteBehind (boxName : NamePtr) (head : Option Nat) (boxes : Heap (Cell Box)) :
    Except HeapFault (Option Nat × Heap (Cell Box)) := do
  let (prev, temp) <- seek (sameName boxes boxName) boxes boxes.top head head
  match prev, temp with
  | some prev, some temp => do
      let box <- boxes.load temp
      let boxes <- modifyBox prev (fun before => { before with next := box.next }) boxes
      let boxes <- boxes.free temp
      pure (head, boxes)
  | _, _ => pure (head, boxes)

/-- The new head of the list, without the first box of this name. -/
def deleteBox (boxName : NamePtr) (head : Option Nat) (boxes : Heap (Cell Box)) :
    Except HeapFault (Option Nat × Heap (Cell Box)) := do
  match head with
  | none => deleteBehind boxName head boxes
  | some first => do
      let box <- boxes.load first
      let same <- sameName boxes boxName box
      if same then do
        let boxes <- boxes.free first
        pure (box.next, boxes)
      else
        deleteBehind boxName head boxes

end Broker
end TecnicoFs
