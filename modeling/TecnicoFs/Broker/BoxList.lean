import TecnicoFs.Broker.Handlers

/-!
# The list of boxes

What the list functions do to a chain of nodes: finding a box leaves the chain as it
is, inserting adds a node behind the last, and deleting takes out the first node
with the name.
-/

namespace TecnicoFs
namespace Broker

open Library

def boxNames (cells : List (Nat × Box)) : List CStr := cells.map fun cell => cell.2.boxName.str

theorem first_box (name : CStr) (cells : List (Nat × Box)) :
    name ∉ boxNames cells ∨ exists pre a box post, cells = pre ++ (a, box) :: post ∧
      box.boxName.str = name ∧ name ∉ boxNames pre := by
  induction cells with
  | nil => exact Or.inl List.not_mem_nil
  | cons cell cells ih =>
      rcases cell with ⟨a, box⟩
      by_cases hname : box.boxName.str = name
      · exact Or.inr ⟨[], a, box, cells, rfl, hname, List.not_mem_nil⟩
      · have hhead : forall {rest}, name ∉ boxNames rest -> name ∉ boxNames ((a, box) :: rest) := by
          intro rest hrest hmem
          rcases List.mem_cons.mp hmem with heq | htail
          · exact hname heq.symm
          · exact hrest htail
        rcases ih with hnone | ⟨pre, b, box', post, hsplit, hname', hpre⟩
        · exact Or.inl (hhead hnone)
        · exact Or.inr ⟨(a, box) :: pre, b, box', post, by rw [hsplit]; rfl, hname', hhead hpre⟩

section Lists

variable {boxes : Heap (Cell Box)} {head : Option Nat} {cells pre post : List (Nat × Box)}
  {a : Nat} {box : Box} {name : CStr} {boxName : NamePtr}

theorem sameName_eq (hload : boxName.load boxes = .ok name) (cell : Cell Box) :
    sameName boxes boxName cell = .ok (decide (cell.value.boxName.str = name)) := by
  rw [sameName, hload]
  rfl

/-- No comparison succeeds on the nodes of a chain without the name. -/
theorem sameName_miss {p q : Option Nat} (hload : boxName.load boxes = .ok name)
    (hseg : Segment boxes p cells q) (hnot : name ∉ boxNames cells) {b : Nat} {cell : Cell Box}
    (hb : b ∈ addresses cells) (hcell : boxes.cell b = some cell) :
    sameName boxes boxName cell = .ok false := by
  rcases List.mem_map.mp hb with ⟨⟨c, v⟩, hmem, hcb⟩
  rcases hseg.cell hmem with ⟨n, hcell'⟩
  rw [show c = b from hcb, hcell] at hcell'
  cases hcell'
  rw [sameName_eq hload, decide_eq_false]
  intro hname
  exact hnot (List.mem_map.mpr ⟨(c, v), hmem, hname⟩)

theorem modifyBox_eq {cell : Cell Box} (hcell : boxes.cell a = some cell)
    (f : Cell Box -> Cell Box) :
    modifyBox a f boxes =
      .ok (boxes.update a (Heap.live_of_cell hcell) (some (f cell))) := by
  rw [modifyBox, Heap.load_eq hcell]
  exact Heap.store_eq (Heap.live_of_cell hcell) (f cell)

/-!
## Finding
-/

theorem findBox_found (boxName : NamePtr) (fresh : Cell Box)
    (hchain : Chain boxes head (pre ++ (a, box) :: post))
    (hload : boxName.load (boxes.alloc fresh).2 = .ok name) (hname : box.boxName.str = name)
    (hpre : name ∉ boxNames pre) :
    findBox boxName head fresh boxes = .ok (a, (boxes.alloc fresh).2) := by
  have hchain' : Chain (boxes.alloc fresh).2 head (pre ++ (a, box) :: post) :=
    Segment.alloc fresh hchain
  have hlen := hchain.length_le
  have hfuel : pre.length < (boxes.alloc fresh).2.top := by
    change pre.length < boxes.top + 1
    rw [List.length_append, List.length_cons] at hlen
    omega
  rcases hchain'.suffix with ⟨hseg, n, hcell, _⟩
  have hhit : forall cell, (boxes.alloc fresh).2.cell a = some cell ->
      sameName (boxes.alloc fresh).2 boxName cell = .ok true := by
    intro cell hcell'
    rw [hcell] at hcell'
    cases hcell'
    rw [sameName_eq hload, decide_eq_true hname]
  have hseek := Chain.seek_hit _ none hchain' hfuel
    (fun _ _ hb hcell => sameName_miss hload hseg hpre hb hcell) hhit
  unfold findBox
  simp only [hseek, ok_bind, pure_ok]

theorem findBox_missing (boxName : NamePtr) (fresh : Cell Box) (hchain : Chain boxes head cells)
    (hload : boxName.load (boxes.alloc fresh).2 = .ok name) (hnot : name ∉ boxNames cells) :
    findBox boxName head fresh boxes =
      .ok (boxes.top, (boxes.alloc ⟨⟨unexistent, -1, -1⟩, fresh.next⟩).2) := by
  have hchain' : Chain (boxes.alloc fresh).2 head cells := Segment.alloc fresh hchain
  have hfuel : cells.length <= (boxes.alloc fresh).2.top :=
    Nat.le_succ_of_le hchain.length_le
  have hseek := Chain.seek_miss _ none hchain' hfuel
    (fun _ _ hb hcell => sameName_miss hload hchain' hnot hb hcell)
  have hmodify := modifyBox_eq (boxes.alloc_self fresh)
    fun cell => { cell with value := ⟨unexistent, -1, -1⟩ }
  rw [Heap.update_alloc] at hmodify
  unfold findBox
  simp only [hseek, ok_bind, pure_ok, Heap.alloc_fst, hmodify]

/-!
## Inserting and deleting
-/

/-- What an insertion leaves: the chain with the new node, and every other node. -/
structure Inserted (boxes boxes' : Heap (Cell Box)) (head' : Option Nat)
    (cells : List (Nat × Box)) (a : Nat) (box : Box) : Prop where
  chain : Chain boxes' head' (cells ++ [(a, box)])
  others : forall c, c ∉ addresses cells -> c ≠ a -> boxes'.cell c = boxes.cell c

theorem insertBox_chain {n : Option Nat} (hchain : Chain boxes head cells)
    (hcell : boxes.cell a = some ⟨box, n⟩) (hnot : a ∉ addresses cells) :
    exists head' boxes', insertBox a head boxes = .ok (head', boxes') ∧
      Inserted boxes boxes' head' cells a box := by
  have hmodify := modifyBox_eq hcell fun cell => { cell with next := none }
  generalize hboxes1 : boxes.update a (Heap.live_of_cell hcell) (some ⟨box, none⟩) = boxes1
    at hmodify
  have hself : boxes1.cell a = some ⟨box, none⟩ := by
    rw [← hboxes1]
    exact Heap.update_self _ _
  have hothers : forall c, c ≠ a -> boxes1.cell c = boxes.cell c := by
    intro c hc
    rw [← hboxes1]
    exact Heap.update_other _ _ hc
  have hchain1 : Chain boxes1 head cells := by
    rw [← hboxes1]
    exact Segment.update _ _ hnot hchain
  unfold insertBox
  rw [hmodify]
  rcases List.eq_nil_or_concat cells with hnil | ⟨pre, last, hcells⟩
  · rw [hnil] at hchain1 ⊢
    rw [show head = none from hchain1]
    exact ⟨some a, boxes1, rfl, ⟨rfl, none, hself, rfl⟩, fun c _ hc => hothers c hc⟩
  · rcases last with ⟨t, last⟩
    rw [List.concat_eq_append] at hcells
    rw [hcells] at hchain1 hnot ⊢
    have hfuel : pre.length < boxes1.top := by
      have hlen := hchain1.length_le
      rw [List.length_append, List.length_singleton] at hlen
      omega
    rcases hchain1.suffix with ⟨hpre, m, hlast, hm⟩
    rw [show m = none from hm] at hlast
    -- The walk stops at the only node without a next one.
    have hseek := Chain.seek_hit (fun cell => .ok cell.next.isNone) none hchain1 hfuel
      (fun b cell hb hcell => congrArg Except.ok (hpre.next_some hb hcell))
      (fun cell hcell => by
        rw [hlast] at hcell
        cases hcell
        rfl)
    have hlink := modifyBox_eq hlast fun cell => { cell with next := some a }
    rcases hpre.start with ⟨first, hfirst⟩
    have hlive := Heap.live_of_cell hlast
    refine ⟨head, boxes1.update t hlive (some ⟨last, some a⟩), ?_, ?_, ?_⟩
    · rw [hfirst] at hseek ⊢
      simp only [ok_bind, hseek, hlink, pure_ok]
    · rw [List.append_assoc]
      exact Chain.link hlive hself hchain1 hnot
    · intro c hc hca
      have hct : c ≠ t := by
        intro hct
        exact hc (by simp [addresses, hct])
      rw [Heap.update_other _ _ hct]
      exact hothers c hca

/-- What a deletion leaves: the chain without the node, and every other node. -/
structure Deleted (boxes boxes' : Heap (Cell Box)) (head' : Option Nat)
    (pre post : List (Nat × Box)) (a : Nat) : Prop where
  chain : Chain boxes' head' (pre ++ post)
  freed : boxes'.cell a = none
  others : forall c, c ∉ addresses pre -> c ≠ a -> boxes'.cell c = boxes.cell c

/-- The node is not the first: the node before it is linked to the next. -/
theorem deleteBehind_chain (hchain : Chain boxes head (pre ++ (a, box) :: post))
    (hload : boxName.load boxes = .ok name) (hname : box.boxName.str = name)
    (hpre : name ∉ boxNames pre) (hne : pre ≠ []) :
    exists head' boxes', deleteBehind boxName head boxes = .ok (head', boxes') ∧
      Deleted boxes boxes' head' pre post a := by
  rcases hchain.suffix with ⟨hseg, n, hcell, _⟩
  have hnotMem := hchain.notMem
  have hfuel : pre.length < boxes.top := by
    have hlen := hchain.length_le
    rw [List.length_append, List.length_cons] at hlen
    omega
  have hhit : forall cell, boxes.cell a = some cell -> sameName boxes boxName cell = .ok true := by
    intro cell hcell'
    rw [hcell] at hcell'
    cases hcell'
    rw [sameName_eq hload, decide_eq_true hname]
  have hseek := Chain.seek_hit _ head hchain hfuel
    (fun _ _ hb hcell => sameName_miss hload hseg hpre hb hcell) hhit
  rcases List.eq_nil_or_concat pre with hnil | ⟨pre', last, hpre'⟩
  · exact absurd hnil hne
  · rcases last with ⟨q, u⟩
    rw [List.concat_eq_append] at hpre'
    rw [hpre', List.append_assoc] at hchain
    rw [hpre'] at hseek hnotMem ⊢
    rcases hchain.suffix with ⟨_, m, hprev, _⟩
    have haq : a ≠ q := by
      intro haq
      exact hnotMem.left (by simp [addresses, haq])
    have hmodify := modifyBox_eq hprev fun before => { before with next := n }
    have hprevLive := Heap.live_of_cell hprev
    generalize hboxes1 : boxes.update q hprevLive (some ⟨u, n⟩) = boxes1 at hmodify
    have hothers : forall c, c ≠ q -> boxes1.cell c = boxes.cell c := by
      intro c hc
      rw [← hboxes1]
      exact Heap.update_other _ _ hc
    have hchain1 : Chain boxes1 head (pre' ++ [(q, u)] ++ post) := by
      rw [← hboxes1, List.append_assoc]
      exact Chain.unlink hprevLive hcell hchain
    have hlive : boxes1.Live a := Heap.live_of_cell ((hothers a haq).trans hcell)
    refine ⟨head, boxes1.update a hlive none, ?_, ?_, Heap.update_self _ _, ?_⟩
    · have hlast : (addresses (pre' ++ [(q, u)])).getLast?.or head = some q := by
        simp [addresses]
      rw [hlast] at hseek
      simp only [deleteBehind, hseek, ok_bind, Heap.load_eq hcell, hmodify,
        Heap.free_eq hlive, pure_ok]
    · refine Segment.update hlive none ?_ hchain1
      simp only [addresses, List.map_append, List.mem_append] at hnotMem ⊢
      exact fun hmem => hmem.elim hnotMem.left hnotMem.right
    · intro c hc hca
      have hcq : c ≠ q := by
        intro hcq
        exact hc (by simp [addresses, hcq])
      rw [Heap.update_other _ _ hca]
      exact hothers c hcq

theorem deleteBox_chain (hchain : Chain boxes head (pre ++ (a, box) :: post))
    (hload : boxName.load boxes = .ok name) (hname : box.boxName.str = name)
    (hpre : name ∉ boxNames pre) :
    exists head' boxes', deleteBox boxName head boxes = .ok (head', boxes') ∧
      Deleted boxes boxes' head' pre post a := by
  rcases hchain.suffix with ⟨hseg, n, hcell, hpost⟩
  have hlive := Heap.live_of_cell hcell
  have hnotMem := hchain.notMem
  cases pre with
  | nil =>
      rw [show head = some a from hseg]
      refine ⟨n, boxes.update a hlive none, ?_, ?_, Heap.update_self _ _, ?_⟩
      · simp [deleteBox, Heap.load_eq hcell, sameName_eq hload, hname, Heap.free_eq hlive]
      · exact Segment.update hlive none hnotMem.right hpost
      · exact fun c _ hc => Heap.update_other _ _ hc
  | cons first pre =>
      rcases first with ⟨f, fbox⟩
      rcases hseg with ⟨hf, m, hfirst, _⟩
      have hother : sameName boxes boxName ⟨fbox, m⟩ = .ok false :=
        sameName_miss hload hchain.suffix.left hpre List.mem_cons_self hfirst
      have hbehind : deleteBox boxName head boxes = deleteBehind boxName head boxes := by
        simp [deleteBox, hf, Heap.load_eq hfirst, hother]
      rw [hbehind]
      exact deleteBehind_chain hchain hload hname hpre (by simp)

/-- Walking along the whole list. -/
theorem iterateBox_chain (hchain : Chain boxes head cells) : iterateBox head boxes = .ok () := by
  have hseek := Chain.seek_miss (fun _ => .ok false) none hchain hchain.length_le fun _ _ _ _ => rfl
  rw [iterateBox, hseek]
  rfl

end Lists

end Broker
end TecnicoFs
