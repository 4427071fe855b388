import TecnicoFs.Library.Runs
import TecnicoFs.Broker.BoxList

/-!
# The list functions and lists

On a chain of nodes {lit}`find_box`, {lit}`insert_box` and {lit}`delete_box` do what
finding, appending and erasing do on the list of its boxes, and no more.  So any sequence
of them does what the operations on lists do one after another.
-/

namespace TecnicoFs
namespace Broker

open Library

/-!
## The operations on lists
-/

/-- The box of the node has the name. -/
def hasName (name : CStr) (cell : Nat × Box) : Bool := cell.2.boxName.str = name

/-- The first box with the name. -/
def findNamed (name : CStr) (cells : List (Nat × Box)) : Option (Nat × Box) :=
  cells.find? (hasName name)

/-- The list without the first box with the name. -/
def eraseNamed (name : CStr) (cells : List (Nat × Box)) : List (Nat × Box) :=
  cells.eraseP (hasName name)

section Lists

variable {boxes boxes' : Heap (Cell Box)} {head head' : Option Nat}
  {cells pre post : List (Nat × Box)} {a : Nat} {box : Box} {name : CStr} {boxName : NamePtr}

theorem hasName_false (hnot : name ∉ boxNames cells) :
    forall cell, cell ∈ cells -> hasName name cell = false := by
  intro cell hmem
  rw [hasName, decide_eq_false]
  intro hname
  exact hnot (List.mem_map.mpr ⟨cell, hmem, hname⟩)

theorem findNamed_none (hnot : name ∉ boxNames cells) : findNamed name cells = none := by
  rw [findNamed, List.find?_eq_none]
  intro cell hmem
  rw [hasName_false hnot cell hmem]
  decide

theorem eraseNamed_none (hnot : name ∉ boxNames cells) : eraseNamed name cells = cells := by
  apply List.eraseP_of_forall_not
  intro cell hmem
  rw [hasName_false hnot cell hmem]
  decide

theorem findNamed_first (hname : box.boxName.str = name) (hpre : name ∉ boxNames pre) :
    findNamed name (pre ++ (a, box) :: post) = some (a, box) := by
  have hnone := findNamed_none hpre
  rw [findNamed] at hnone ⊢
  rw [List.find?_append, hnone, List.find?_cons_of_pos]
  · rfl
  · exact decide_eq_true hname

theorem eraseNamed_first (hname : box.boxName.str = name) (hpre : name ∉ boxNames pre) :
    eraseNamed name (pre ++ (a, box) :: post) = pre ++ post := by
  rw [eraseNamed, List.eraseP_append_right, List.eraseP_cons_of_pos]
  · exact decide_eq_true hname
  · intro cell hmem
    rw [hasName_false hpre cell hmem]
    decide

/-!
## What the functions do
-/

/-- The result of {lit}`find_box`: the first node with the name, or a new one that stands
for no box.  Every node that was there is as it was. -/
structure Found (boxes boxes' : Heap (Cell Box)) (head : Option Nat)
    (cells : List (Nat × Box)) (name : CStr) (a : Nat) : Prop where
  chain : Chain boxes' head cells
  kept : forall c, boxes.Live c -> boxes'.cell c = boxes.cell c
  present : forall cell, findNamed name cells = some cell -> a = cell.1
  absent : findNamed name cells = none -> a ∉ addresses cells ∧ ¬ boxes.Live a ∧
    exists box n, boxes'.cell a = some ⟨box, n⟩ ∧ box.hasWriter = -1 ∧ box.nReaders = -1

/-- The node is the one before `a`. -/
def Precedes (cells : List (Nat × Box)) (c a : Nat) : Prop :=
  exists pre u v post, cells = pre ++ (c, u) :: (a, v) :: post

/-- The result of {lit}`delete_box` when `a` is the first node with the name: it is freed,
and of the others only the node before it changes, in its pointer to the next. -/
structure Unlinked (boxes boxes' : Heap (Cell Box)) (cells : List (Nat × Box)) (a : Nat) :
    Prop where
  live : boxes.Live a
  freed : forall c, boxes'.Live c <-> boxes.Live c ∧ c ≠ a
  value : forall c, c ≠ a ->
    (boxes'.cell c).map Cell.value = (boxes.cell c).map Cell.value
  kept : forall c, c ≠ a -> ¬ Precedes cells c a -> boxes'.cell c = boxes.cell c

theorem load_alloc (fresh : Cell Box) (hload : boxName.load boxes = .ok name) :
    boxName.load (boxes.alloc fresh).2 = .ok name := by
  cases boxName with
  | array text => exact hload
  | node a =>
      rw [NamePtr.load] at hload ⊢
      rcases bind_eq_ok.mp hload with ⟨cell, hcell, hname⟩
      have hlive : boxes.Live a := by
        rw [Heap.load] at hcell
        split at hcell
        · rename_i hsome
          exact Heap.live_of_cell hsome
        · cases hcell
      rw [Heap.load, Heap.alloc_other fresh hlive]
      rw [Heap.load] at hcell
      rw [hcell]
      exact hname

theorem findBox_finds (hchain : Chain boxes head cells) (fresh : Cell Box)
    (hload : boxName.load boxes = .ok name) :
    exists a boxes', findBox boxName head fresh boxes = .ok (a, boxes') ∧
      Found boxes boxes' head cells name a := by
  have hload' := load_alloc fresh hload
  rcases first_box name cells with hnot | ⟨pre, a, box, post, hcells, hname, hpre⟩
  · refine ⟨_, _, findBox_missing boxName fresh hchain hload' hnot,
      Segment.alloc _ hchain, fun c hc => Heap.alloc_other _ hc, ?_, ?_⟩
    · intro cell hcell
      rw [findNamed_none hnot] at hcell
      cases hcell
    · intro _
      have hfresh : ¬ boxes.Live boxes.top := fun hlive => Nat.lt_irrefl _ hlive.lt_top
      exact ⟨fun hmem => hfresh (hchain.live hmem), hfresh, _, _,
        boxes.alloc_self ⟨⟨unexistent, -1, -1⟩, fresh.next⟩, rfl, rfl⟩
  · rw [hcells] at hchain ⊢
    refine ⟨a, _, findBox_found boxName fresh hchain hload' hname hpre,
      Segment.alloc _ hchain, fun c hc => Heap.alloc_other _ hc, ?_, ?_⟩
    · intro cell hcell
      rw [findNamed_first hname hpre] at hcell
      cases hcell
      rfl
    · intro hnone
      rw [findNamed_first hname hpre] at hnone
      cases hnone

theorem value_of_mem {p q : Option Nat} (hseg : Segment boxes p cells q)
    (hmem : (a, box) ∈ cells) : (boxes.cell a).map Cell.value = some box := by
  rcases hseg.cell hmem with ⟨n, hcell⟩
  rw [hcell]
  rfl

/-- Without the name the list stays as it is. -/
theorem deleteBox_missing (hchain : Chain boxes head cells)
    (hload : boxName.load boxes = .ok name) (hnot : name ∉ boxNames cells) :
    deleteBox boxName head boxes = .ok (head, boxes) := by
  have hbehind : deleteBehind boxName head boxes = .ok (head, boxes) := by
    have hseek := Chain.seek_miss _ head hchain hchain.length_le
      (fun _ _ hb hcell => sameName_miss hload hchain hnot hb hcell)
    unfold deleteBehind
    rw [hseek]
    cases (addresses cells).getLast?.or head <;> rfl
  unfold deleteBox
  cases cells with
  | nil =>
      rw [show head = none from hchain] at hbehind ⊢
      exact hbehind
  | cons cell cells =>
      rcases cell with ⟨first, box⟩
      have hfirst := hchain
      rcases hfirst with ⟨hhead, n, hcell, _⟩
      have hsame := sameName_miss hload hchain hnot List.mem_cons_self hcell
      rw [hhead] at hbehind ⊢
      simp only [Heap.load_eq hcell, hsame, ok_bind]
      exact hbehind

/-- Taking a node out keeps the boxes of the others. -/
theorem Deleted.value (hchain : Chain boxes head (pre ++ (a, box) :: post))
    (hdel : Deleted boxes boxes' head' pre post a) {c : Nat} (hc : c ≠ a) :
    (boxes'.cell c).map Cell.value = (boxes.cell c).map Cell.value := by
  by_cases hmem : c ∈ addresses pre
  · rcases List.mem_map.mp hmem with ⟨⟨d, u⟩, hd, hdc⟩
    rw [← show d = c from hdc, value_of_mem hdel.chain (List.mem_append_left _ hd),
      value_of_mem hchain (List.mem_append_left _ hd)]
  · rw [hdel.others c hmem hc]

/-- Only the pointer of the node before it changes. -/
theorem Deleted.unlinked (hchain : Chain boxes head (pre ++ (a, box) :: post))
    (hdel : Deleted boxes boxes' head' pre post a) :
    Unlinked boxes boxes' (pre ++ (a, box) :: post) a := by
  have hvalue := fun c hc => hdel.value hchain (c := c) hc
  have hlive : forall c, c ≠ a -> (boxes'.Live c <-> boxes.Live c) := by
    intro c hc
    have hsome := congrArg Option.isSome (hvalue c hc)
    rw [Option.isSome_map, Option.isSome_map] at hsome
    rw [Heap.Live, Heap.Live, hsome]
  refine ⟨hchain.live (by simp [addresses]), fun c => ?_, hvalue, fun c hc hprecedes => ?_⟩
  · by_cases hc : c = a
    · rw [hc, Heap.Live, hdel.freed]
      simp
    · rw [hlive c hc]
      exact ⟨fun h => ⟨h, hc⟩, fun h => h.left⟩
  · by_cases hmem : c ∈ addresses pre
    · -- In front of the last node of `pre` both chains agree.
      rcases exists_split hmem with ⟨pre1, u, pre2, hpre⟩
      cases pre2 with
      | nil =>
          refine absurd ⟨pre1, u, box, post, ?_⟩ hprecedes
          rw [hpre, List.append_assoc]
          rfl
      | cons next pre2 =>
          rcases next with ⟨d, w⟩
          have hpre' : pre = (pre1 ++ [(c, u)]) ++ (d, w) :: pre2 := by
            rw [hpre, List.append_assoc]
            rfl
          have hold := hchain
          have hnew := hdel.chain
          rw [hpre', List.append_assoc] at hold hnew
          rcases (Chain.suffix hold).left.same (Chain.suffix hnew).left with ⟨_, hsame⟩
          exact hsame c (by simp [addresses])
    · exact hdel.others c hmem hc

theorem deleteBox_erases (hchain : Chain boxes head cells)
    (hload : boxName.load boxes = .ok name) :
    exists head' boxes', deleteBox boxName head boxes = .ok (head', boxes') ∧
      Chain boxes' head' (eraseNamed name cells) ∧
      (forall cell, findNamed name cells = some cell -> Unlinked boxes boxes' cells cell.1) ∧
      (findNamed name cells = none -> head' = head ∧ boxes' = boxes) := by
  rcases first_box name cells with hnot | ⟨pre, a, box, post, hcells, hname, hpre⟩
  · refine ⟨head, boxes, deleteBox_missing hchain hload hnot, ?_, ?_, fun _ => ⟨rfl, rfl⟩⟩
    · rw [eraseNamed_none hnot]
      exact hchain
    · intro cell hcell
      rw [findNamed_none hnot] at hcell
      cases hcell
  · rw [hcells] at hchain ⊢
    rcases deleteBox_chain hchain hload hname hpre with ⟨head', boxes', hdelete, hdel⟩
    refine ⟨head', boxes', hdelete, ?_, ?_, ?_⟩
    · rw [eraseNamed_first hname hpre]
      exact hdel.chain
    · intro cell hcell
      rw [findNamed_first hname hpre] at hcell
      cases hcell
      exact hdel.unlinked hchain
    · intro hnone
      rw [findNamed_first hname hpre] at hnone
      cases hnone

/-!
## Addresses

Only {lit}`find_box` allocates a node.
-/

theorem store_top {cell : Cell Box} (h : boxes.store a cell = .ok boxes') :
    boxes'.top = boxes.top := by
  unfold Heap.store at h
  split at h
  · cases h
    rfl
  · cases h

theorem free_top (h : boxes.free a = .ok boxes') : boxes'.top = boxes.top := by
  unfold Heap.free at h
  split at h
  · cases h
    rfl
  · cases h

theorem modifyBox_top {f : Cell Box -> Cell Box} (h : modifyBox a f boxes = .ok boxes') :
    boxes'.top = boxes.top := by
  rcases bind_eq_ok.mp h with ⟨cell, _, hstore⟩
  exact store_top hstore

theorem insertBox_top (h : insertBox a head boxes = .ok (head', boxes')) :
    boxes'.top = boxes.top := by
  unfold insertBox at h
  rcases bind_eq_ok.mp h with ⟨boxes1, hnull, h⟩
  cases head with
  | none =>
      cases h
      exact modifyBox_top hnull
  | some first =>
      rcases bind_eq_ok.mp h with ⟨⟨_, temp⟩, _, h⟩
      cases temp with
      | none => cases h
      | some temp =>
          rcases bind_eq_ok.mp h with ⟨boxes2, hlink, h⟩
          cases h
          exact (modifyBox_top hlink).trans (modifyBox_top hnull)

theorem deleteBehind_top (h : deleteBehind boxName head boxes = .ok (head', boxes')) :
    boxes'.top = boxes.top := by
  unfold deleteBehind at h
  rcases bind_eq_ok.mp h with ⟨⟨prev, temp⟩, _, h⟩
  cases prev with
  | none =>
      cases h
      rfl
  | some prev =>
      cases temp with
      | none =>
          cases h
          rfl
      | some temp =>
          rcases bind_eq_ok.mp h with ⟨cell, _, h⟩
          rcases bind_eq_ok.mp h with ⟨boxes1, hlink, h⟩
          rcases bind_eq_ok.mp h with ⟨boxes2, hfree, h⟩
          cases h
          exact (free_top hfree).trans (modifyBox_top hlink)

theorem deleteBox_top (h : deleteBox boxName head boxes = .ok (head', boxes')) :
    boxes'.top = boxes.top := by
  unfold deleteBox at h
  cases head with
  | none => exact deleteBehind_top h
  | some first =>
      rcases bind_eq_ok.mp h with ⟨cell, _, h⟩
      rcases bind_eq_ok.mp h with ⟨same, _, h⟩
      cases same with
      | true =>
          rcases bind_eq_ok.mp h with ⟨boxes1, hfree, h⟩
          cases h
          exact free_top hfree
      | false => exact deleteBehind_top h

end Lists

/-!
## Sequences of operations
-/

/-- A call of one of the functions. -/
inductive ListOp where
  | find (boxName : NamePtr) (fresh : Cell Box)
  | insert (newBox : Nat)
  | delete (boxName : NamePtr)

/-- The head of the list and the nodes, with the node that {lit}`find_box` returns. -/
def listStep : ListOp -> Option Nat × Heap (Cell Box) ->
    Except HeapFault (Option Nat × (Option Nat × Heap (Cell Box)))
  | .find boxName fresh, (head, boxes) => do
      let (found, boxes) <- findBox boxName head fresh boxes
      pure (some found, (head, boxes))
  | .insert newBox, (head, boxes) => do
      let (head, boxes) <- insertBox newBox head boxes
      pure (none, (head, boxes))
  | .delete boxName, (head, boxes) => do
      let (head, boxes) <- deleteBox boxName head boxes
      pure (none, (head, boxes))

/-- A list of boxes without pointers, and the box of every node in or out of it. -/
structure Nodes where
  cells : List (Nat × Box)
  box : Nat -> Option Box
  next : Nat

/-- The name that the pointer leads to. -/
def NamePtr.nameIn (box : Nat -> Option Box) : NamePtr -> Option CStr
  | .array name => some name
  | .node a => (box a).map fun box => box.boxName.str

/-- A node more, outside of the list. -/
def Nodes.add (n : Nodes) (box : Box) : Nodes :=
  { n with box := Function.update n.box n.next (some box), next := n.next + 1 }

def Nodes.find (name : CStr) (fresh : Box) (n : Nodes) : Option Nat × Nodes :=
  match findNamed name n.cells with
  | some cell => (some cell.1, n.add fresh)
  | none => (some n.next, n.add ⟨unexistent, -1, -1⟩)

def Nodes.append (a : Nat) (box : Box) (n : Nodes) : Nodes :=
  { n with cells := n.cells ++ [(a, box)] }

def Nodes.erase (name : CStr) (n : Nodes) : Nodes :=
  match findNamed name n.cells with
  | some cell =>
      { n with
        cells := eraseNamed name n.cells
        box := Function.update n.box cell.1 none }
  | none => n

/-- The operations on lists. -/
def refStep : ListOp -> Nodes -> Option Nat × Nodes
  | .find boxName fresh, n =>
      match boxName.nameIn n.box with
      | some name => n.find name fresh.value
      | none => (none, n)
  | .insert newBox, n =>
      match n.box newBox with
      | some box => (none, n.append newBox box)
      | none => (none, n)
  | .delete boxName, n =>
      match boxName.nameIn n.box with
      | some name => (none, n.erase name)
      | none => (none, n)

/-- Names can be read, and only nodes outside of the list are inserted. -/
def ListOp.Allowed : ListOp -> Nodes -> Prop
  | .find boxName _, n => (boxName.nameIn n.box).isSome
  | .insert newBox, n => newBox ∉ addresses n.cells ∧ (n.box newBox).isSome
  | .delete boxName, n => (boxName.nameIn n.box).isSome

/-- The heap holds the list in a chain from the head on. -/
structure Represents (s : Option Nat × Heap (Cell Box)) (n : Nodes) : Prop where
  chain : Chain s.2 s.1 n.cells
  box : forall a, (s.2.cell a).map Cell.value = n.box a
  next : s.2.top = n.next

section Runs

variable {s : Option Nat × Heap (Cell Box)} {n : Nodes} {a : Nat} {name : CStr}
  {boxName : NamePtr}

theorem Represents.load (h : Represents s n) (hname : boxName.nameIn n.box = some name) :
    boxName.load s.2 = .ok name := by
  cases boxName with
  | array text => exact congrArg Except.ok (Option.some.inj hname)
  | node a =>
      rw [NamePtr.nameIn, ← h.box a] at hname
      cases hcell : s.2.cell a with
      | none =>
          rw [hcell] at hname
          cases hname
      | some cell =>
          rw [hcell] at hname
          rw [NamePtr.load, Heap.load_eq hcell]
          exact congrArg Except.ok (Option.some.inj hname)

theorem Represents.alloc (h : Represents s n) (cell : Cell Box) :
    Represents (s.1, (s.2.alloc cell).2) (n.add cell.value) := by
  refine ⟨h.chain.alloc cell, fun a => ?_, congrArg Nat.succ h.next⟩
  change _ = Function.update n.box n.next (some cell.value) a
  by_cases ha : a = s.2.top
  · rw [ha, h.next, Function.update_self, ← h.next, Heap.alloc_self]
    rfl
  · rw [Heap.alloc_cell s.2 cell ha, Function.update_of_ne (h.next ▸ ha)]
    exact h.box a

theorem Represents.find (h : Represents s n) (fresh : Cell Box)
    (hname : boxName.nameIn n.box = some name) :
    exists s', listStep (.find boxName fresh) s = .ok ((n.find name fresh.value).1, s') ∧
      Represents s' (n.find name fresh.value).2 := by
  have hload := load_alloc fresh (h.load hname)
  rcases s with ⟨head, boxes⟩
  unfold Nodes.find
  rcases first_box name n.cells with hnot | ⟨pre, a, box, post, hcells, hbox, hpre⟩
  · rw [findNamed_none hnot, ← h.next, listStep, findBox_missing boxName fresh h.chain hload hnot]
    exact ⟨_, rfl, h.alloc ⟨⟨unexistent, -1, -1⟩, fresh.next⟩⟩
  · have hchain := h.chain
    rw [hcells] at hchain
    rw [hcells, findNamed_first hbox hpre, listStep,
      findBox_found boxName fresh hchain hload hbox hpre]
    exact ⟨_, rfl, h.alloc fresh⟩

theorem Represents.insert {box : Box} (h : Represents s n) (hbox : n.box a = some box)
    (hnot : a ∉ addresses n.cells) :
    exists s', listStep (.insert a) s = .ok (none, s') ∧ Represents s' (n.append a box) := by
  have hvalue := h.box a
  rw [hbox, Option.map_eq_some_iff] at hvalue
  rcases hvalue with ⟨⟨box', m⟩, hcell, heq⟩
  rw [show box' = box from heq] at hcell
  rcases insertBox_chain h.chain hcell hnot with ⟨head', boxes', hinsert, hinserted⟩
  rcases s with ⟨head, boxes⟩
  refine ⟨(head', boxes'), by rw [listStep, hinsert]; rfl, hinserted.chain, fun c => ?_,
    (insertBox_top hinsert).trans h.next⟩
  by_cases hmem : c ∈ addresses (n.cells ++ [(a, box)])
  · rcases List.mem_map.mp hmem with ⟨⟨d, u⟩, hd, hdc⟩
    rw [← show d = c from hdc, value_of_mem hinserted.chain hd]
    rcases List.mem_append.mp hd with hold | hnew
    · rw [← value_of_mem h.chain hold]
      exact h.box d
    · cases List.mem_singleton.mp hnew
      exact hbox.symm
  · simp only [addresses, List.map_append, List.mem_append, List.map_cons, List.map_nil,
      List.mem_singleton, not_or] at hmem
    rw [hinserted.others c hmem.left hmem.right]
    exact h.box c

theorem Represents.delete (h : Represents s n) (hname : boxName.nameIn n.box = some name) :
    exists s', listStep (.delete boxName) s = .ok (none, s') ∧ Represents s' (n.erase name) := by
  have hload := h.load hname
  rcases s with ⟨head, boxes⟩
  unfold Nodes.erase
  rcases first_box name n.cells with hnot | ⟨pre, a, box, post, hcells, hbox, hpre⟩
  · rw [findNamed_none hnot, listStep, deleteBox_missing h.chain hload hnot]
    exact ⟨_, rfl, h⟩
  · have hchain := h.chain
    rw [hcells] at hchain
    rcases deleteBox_chain hchain hload hbox hpre with ⟨head', boxes', hdelete, hdel⟩
    rw [hcells, findNamed_first hbox hpre, eraseNamed_first hbox hpre, listStep, hdelete]
    refine ⟨_, rfl, hdel.chain, fun c => ?_, (deleteBox_top hdelete).trans h.next⟩
    change _ = Function.update n.box a none c
    by_cases hc : c = a
    · rw [hc, Function.update_self, hdel.freed]
      rfl
    · rw [Function.update_of_ne hc, hdel.value hchain hc]
      exact h.box c

theorem listStep_simulates : Simulates listStep refStep ListOp.Allowed Represents := by
  intro op s n h hallowed
  cases op with
  | find boxName fresh =>
      rcases Option.isSome_iff_exists.mp hallowed with ⟨name, hname⟩
      rw [refStep, hname]
      exact h.find fresh hname
  | insert newBox =>
      rcases Option.isSome_iff_exists.mp hallowed.right with ⟨box, hbox⟩
      rw [refStep, hbox]
      exact h.insert hbox hallowed.left
  | delete boxName =>
      rcases Option.isSome_iff_exists.mp hallowed with ⟨name, hname⟩
      rw [refStep, hname]
      exact h.delete hname

end Runs

/-- The list that a chain of a heap represents. -/
def nodesOf (boxes : Heap (Cell Box)) (cells : List (Nat × Box)) : Nodes :=
  ⟨cells, fun a => (boxes.cell a).map Cell.value, boxes.top⟩

/-- On every chain each function does what the operation on lists does, and so does every
sequence of them. -/
theorem boxList_refines {boxes : Heap (Cell Box)} {head : Option Nat}
    {cells : List (Nat × Box)} (hchain : Chain boxes head cells) :
    (forall (boxName : NamePtr) (fresh : Cell Box) (name : CStr),
      boxName.load boxes = .ok name ->
      exists a boxes', findBox boxName head fresh boxes = .ok (a, boxes') ∧
        Found boxes boxes' head cells name a) ∧
    (forall (a : Nat) (box : Box) (n : Option Nat), boxes.cell a = some ⟨box, n⟩ ->
      a ∉ addresses cells ->
      exists head' boxes', insertBox a head boxes = .ok (head', boxes') ∧
        Inserted boxes boxes' head' cells a box) ∧
    (forall (boxName : NamePtr) (name : CStr), boxName.load boxes = .ok name ->
      exists head' boxes', deleteBox boxName head boxes = .ok (head', boxes') ∧
        Chain boxes' head' (eraseNamed name cells) ∧
        (forall cell, findNamed name cells = some cell -> Unlinked boxes boxes' cells cell.1) ∧
        (findNamed name cells = none -> head' = head ∧ boxes' = boxes)) ∧
    (forall ops : List ListOp, AllowedRun refStep ListOp.Allowed ops (nodesOf boxes cells) ->
      exists s', run listStep ops (head, boxes) =
          .ok ((absRun refStep ops (nodesOf boxes cells)).1, s') ∧
        Chain s'.2 s'.1 (absRun refStep ops (nodesOf boxes cells)).2.cells) := by
  refine ⟨fun boxName fresh name hload => findBox_finds hchain fresh hload,
    fun a box n hcell hnot => insertBox_chain hchain hcell hnot,
    fun boxName name hload => deleteBox_erases hchain hload, fun ops hallowed => ?_⟩
  have hrep : Represents (head, boxes) (nodesOf boxes cells) := ⟨hchain, fun _ => rfl, rfl⟩
  rcases listStep_simulates.run hrep hallowed with ⟨s', hrun, hrep'⟩
  exact ⟨s', hrun, hrep'.chain⟩

/-- Two nodes with the same name. -/
def twinBox : Box := ⟨unexistent, 0, 0⟩

def twins : Heap (Cell Box) :=
  ((Heap.empty.alloc ⟨twinBox, some 1⟩).2.alloc ⟨twinBox, none⟩).2

def twinCells : List (Nat × Box) := [(0, twinBox), (1, twinBox)]

theorem twins_chain : Chain twins (some 0) twinCells :=
  ⟨rfl, some 1, rfl, rfl, none, rfl, rfl⟩

/-- The first is deleted by its own name, and the second is found. -/
theorem boxList_refines_twins :
    exists s', run listStep [.delete (.node 0), .find (.array unexistent.str) ⟨twinBox, none⟩,
        .insert 2] (some 0, twins) = .ok ([none, some 1, none], s') ∧
      Chain s'.2 s'.1 [(1, twinBox), (2, twinBox)] := by
  have hallowed : AllowedRun refStep ListOp.Allowed
      [.delete (.node 0), .find (.array unexistent.str) ⟨twinBox, none⟩, .insert 2]
      (nodesOf twins twinCells) :=
    ⟨rfl, rfl, ⟨by decide, rfl⟩, trivial⟩
  exact (boxList_refines twins_chain).right.right.right _ hallowed

end Broker
end TecnicoFs
