import Mathlib.Data.Finset.Card
import Mathlib.Data.Finset.Range
import Mathlib.Data.List.Nodup

/-!
# Objects on a heap

A heap hands out objects at addresses and takes them back.  An address stands for
one allocation: it is not handed out a second time, so an object that was freed is
told apart from every later one.  Using an object that is not live, and freeing
it, end the run.
-/

namespace TecnicoFs
namespace Library

inductive HeapFault where
  | useAfterFree
  | doubleFree
  | endless
deriving DecidableEq

/-- The live objects, all below the address of the next allocation. -/
structure Heap (alpha : Type) where
  top : Nat
  cell : Nat -> Option alpha
  fresh : forall a, top <= a -> cell a = none

namespace Heap

variable {alpha : Type} {h h' : Heap alpha} {a b : Nat} {x y : alpha}

@[ext] theorem ext (htop : h.top = h'.top) (hcell : forall a, h.cell a = h'.cell a) : h = h' := by
  cases h
  cases h'
  cases htop
  cases funext hcell
  rfl

def empty : Heap alpha := ⟨0, fun _ => none, fun _ _ => rfl⟩

def Live (h : Heap alpha) (a : Nat) : Prop := (h.cell a).isSome

instance (h : Heap alpha) (a : Nat) : Decidable (h.Live a) := inferInstanceAs (Decidable (_ = _))

theorem live_of_cell (hx : h.cell a = some x) : h.Live a := by
  rw [Live, hx]
  rfl

theorem Live.lt_top (ha : h.Live a) : a < h.top := by
  by_contra hge
  rw [Live, h.fresh a (by omega)] at ha
  cases ha

/-- The object at a live address is replaced, or taken away. -/
def update (h : Heap alpha) (a : Nat) (ha : h.Live a) (o : Option alpha) : Heap alpha where
  top := h.top
  cell := fun b => if b = a then o else h.cell b
  fresh := by
    intro b hb
    have hlt := ha.lt_top
    rw [if_neg (by omega)]
    exact h.fresh b hb

/-- `malloc`: the object has its own address. -/
def alloc (h : Heap alpha) (x : alpha) : Nat × Heap alpha :=
  (h.top,
    { top := h.top + 1
      cell := fun b => if b = h.top then some x else h.cell b
      fresh := by
        intro b hb
        rw [if_neg (by omega)]
        exact h.fresh b (by omega) })

def load (h : Heap alpha) (a : Nat) : Except HeapFault alpha :=
  match h.cell a with
  | some x => .ok x
  | none => .error .useAfterFree

def store (h : Heap alpha) (a : Nat) (x : alpha) : Except HeapFault (Heap alpha) :=
  if ha : h.Live a then .ok (h.update a ha (some x)) else .error .useAfterFree

def free (h : Heap alpha) (a : Nat) : Except HeapFault (Heap alpha) :=
  if ha : h.Live a then .ok (h.update a ha none) else .error .doubleFree

theorem load_eq (hx : h.cell a = some x) : h.load a = .ok x := by
  rw [load, hx]

theorem store_eq (ha : h.Live a) (x : alpha) : h.store a x = .ok (h.update a ha (some x)) :=
  dif_pos ha

theorem free_eq (ha : h.Live a) : h.free a = .ok (h.update a ha none) := dif_pos ha

@[simp] theorem update_self (ha : h.Live a) (o : Option alpha) :
    (h.update a ha o).cell a = o := if_pos rfl

theorem update_other (ha : h.Live a) (o : Option alpha) (hb : b ≠ a) :
    (h.update a ha o).cell b = h.cell b := if_neg hb

@[simp] theorem alloc_fst (h : Heap alpha) (x : alpha) : (h.alloc x).1 = h.top := rfl

theorem alloc_self (h : Heap alpha) (x : alpha) : (h.alloc x).2.cell h.top = some x := if_pos rfl

theorem alloc_cell (h : Heap alpha) (x : alpha) (hb : b ≠ h.top) :
    (h.alloc x).2.cell b = h.cell b := if_neg hb

theorem alloc_other (x : alpha) (hb : h.Live b) : (h.alloc x).2.cell b = h.cell b :=
  h.alloc_cell x (Nat.ne_of_lt hb.lt_top)

theorem alloc_live (h : Heap alpha) (x : alpha) : (h.alloc x).2.Live h.top :=
  live_of_cell (h.alloc_self x)

/-- Storing into a fresh object is allocating the stored one. -/
theorem update_alloc (h : Heap alpha) (x y : alpha) :
    (h.alloc x).2.update h.top (h.alloc_live x) (some y) = (h.alloc y).2 := by
  ext1
  · rfl
  · rename_i a
    by_cases ha : a = h.top
    · rw [ha, update_self, alloc_self]
    · rw [update_other _ _ ha]
      exact (if_neg ha).trans (if_neg ha).symm

/-!
## Counting the live objects
-/

def liveNodes (h : Heap alpha) : Finset Nat := (Finset.range h.top).filter h.Live

def liveCount (h : Heap alpha) : Nat := h.liveNodes.card

theorem mem_liveNodes : a ∈ h.liveNodes <-> h.Live a := by
  rw [liveNodes, Finset.mem_filter, Finset.mem_range]
  exact ⟨fun ha => ha.right, fun ha => ⟨ha.lt_top, ha⟩⟩

theorem liveCount_alloc (h : Heap alpha) (x : alpha) :
    (h.alloc x).2.liveCount = h.liveCount + 1 := by
  have hfresh : h.top ∉ h.liveNodes := fun htop => Nat.lt_irrefl _ (mem_liveNodes.mp htop).lt_top
  have hnodes : (h.alloc x).2.liveNodes = insert h.top h.liveNodes := by
    ext b
    rw [Finset.mem_insert, mem_liveNodes, mem_liveNodes]
    by_cases hb : b = h.top
    · rw [hb]
      simp [alloc_live]
    · rw [Live, alloc_cell _ _ hb]
      simp [hb, Live]
  rw [liveCount, hnodes, Finset.card_insert_of_notMem hfresh, liveCount]

/-- Of the live objects one is gone. -/
theorem liveCount_erase (ha : h.Live a) (hlive : forall b, h'.Live b <-> h.Live b ∧ b ≠ a) :
    h'.liveCount + 1 = h.liveCount := by
  have hnodes : h'.liveNodes = h.liveNodes.erase a := by
    ext b
    rw [Finset.mem_erase, mem_liveNodes, mem_liveNodes, hlive, and_comm]
  rw [liveCount, hnodes, Finset.card_erase_add_one (mem_liveNodes.mpr ha), liveCount]

theorem live_free (ha : h.Live a) : (h.update a ha none).Live b <-> h.Live b ∧ b ≠ a := by
  by_cases hb : b = a
  · rw [hb, Live, update_self]
    simp
  · rw [Live, update_other _ _ hb]
    exact ⟨fun hlive => ⟨hlive, hb⟩, fun hlive => hlive.left⟩

theorem liveCount_free (hfree : h.free a = .ok h') : h'.liveCount + 1 = h.liveCount := by
  unfold free at hfree
  split at hfree
  · rename_i ha
    cases hfree
    exact liveCount_erase ha fun _ => live_free ha
  · cases hfree

theorem liveCount_store (hstore : h.store a x = .ok h') : h'.liveCount = h.liveCount := by
  unfold store at hstore
  split at hstore
  · rename_i ha
    cases hstore
    have hnodes : (h.update a ha (some x)).liveNodes = h.liveNodes := by
      ext b
      rw [mem_liveNodes, mem_liveNodes]
      by_cases hb : b = a
      · rw [hb, Live, update_self]
        exact ⟨fun _ => ha, fun _ => rfl⟩
      · rw [Live, update_other _ _ hb, Live]
    rw [liveCount, hnodes, liveCount]
  · cases hstore

end Heap
end Library
end TecnicoFs
