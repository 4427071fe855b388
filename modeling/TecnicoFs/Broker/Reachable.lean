import TecnicoFs.Broker.Registry

/-!
# Reachable states

A reachable state is good, or a freed node is still linked: then the nodes before it
are idle boxes, and whatever request is handled next, some freed node stays linked.
A subscriber's session on a box does not end, and its other requests leave the state
as it is, so they lead to no other states.
-/

namespace TecnicoFs
namespace Broker

open Library

/-- The states after the requests of a run from the start. -/
def Reachable (b : State) : Prop :=
  exists mem fs0 fs requests events, tfsInit none mem fs0 = .ok (0, fs) ∧
    runRequests requests (start fs) = .ok (events, b)

/-- The freed node `a` is linked behind the boxes of a list. -/
structure Dangling (b : State) (pre : List (Nat × Box)) (a : Nat) : Prop where
  segment : Segment b.boxes b.head pre (some a)
  freed : b.boxes.cell a = none
  allocated : a < b.boxes.top
  quiet : forall {cell}, cell ∈ pre -> cell.2.hasWriter = 0 ∧ cell.2.nReaders = 0

namespace Dangling

variable {b b' : State} {pre : List (Nat × Box)} {a : Nat}

/-- The list ends in the freed node, in a heap with one more node. -/
theorem alloc (h : Dangling b pre a) (fresh : Cell Box) :
    Dangling ⟨b.fs, (b.boxes.alloc fresh).2, b.head⟩ pre a := by
  refine ⟨Segment.alloc fresh h.segment, ?_, Nat.lt_succ_of_lt h.allocated, h.quiet⟩
  change (b.boxes.alloc fresh).2.cell a = none
  rw [Heap.alloc_cell _ _ (Nat.ne_of_lt h.allocated)]
  exact h.freed

/-- The search for a box finds one before the freed node. -/
theorem findBox_ok (h : Dangling b pre a) {name : CStr} {fresh : Cell Box} {c : Nat}
    {boxes : Heap (Cell Box)}
    (hfind : findBox (.array name) b.head fresh b.boxes = .ok (c, boxes)) :
    boxes = (b.boxes.alloc fresh).2 ∧ exists pre1 box post n, pre = pre1 ++ (c, box) :: post ∧
      box.boxName.str = name ∧ c ∉ addresses pre1 ∧ boxes.cell c = some ⟨box, n⟩ := by
  have h1 := h.alloc fresh
  unfold findBox at hfind
  rcases bind_eq_ok.mp hfind with ⟨⟨prev, current⟩, hseek, hrest⟩
  rcases h1.segment.seek_dangling h1.freed hseek with
    ⟨pre1, c', box, post, cell, hsplit, hcur, hnot, hcell, htest⟩
  simp only [hcur, pure_ok, Except.ok.injEq, Prod.mk.injEq] at hrest
  rcases hrest with ⟨hc, hboxes⟩
  have hmem : (c', box) ∈ pre := by
    rw [hsplit]
    exact List.mem_append_right pre1 List.mem_cons_self
  rcases h1.segment.cell hmem with ⟨n, hcell'⟩
  rw [sameName_eq (rfl : (NamePtr.array name).load _ = .ok name)] at htest
  rw [hcell] at hcell'
  cases hcell'
  have hname : box.boxName.str = name := of_decide_eq_true (Except.ok.inj htest)
  exact ⟨hboxes.symm, pre1, box, post, n, hc ▸ hsplit, hname, hc ▸ hnot, hboxes ▸ hc ▸ hcell⟩

/-- Freeing a box of the list leaves it linked. -/
theorem free {pre1 post : List (Nat × Box)} {c : Nat} {box : Box}
    {boxes : Heap (Cell Box)} (h : Dangling b (pre1 ++ (c, box) :: post) a)
    (hnot : c ∉ addresses pre1) (hfree : b.boxes.free c = .ok boxes) (fs : Fs) :
    Dangling ⟨fs, boxes, b.head⟩ pre1 c := by
  rcases Segment.append.mp h.segment with ⟨r, hpre, hr, n, hcell, _⟩
  rw [hr] at hpre
  have hlive := Heap.live_of_cell hcell
  rw [Heap.free_eq hlive] at hfree
  cases hfree
  exact ⟨hpre.update hlive none hnot, Heap.update_self hlive none, hlive.lt_top,
    fun hmem => h.quiet (List.mem_append_left _ hmem)⟩

/-- No walk gets past the freed node. -/
theorem not_iterate (h : Dangling b pre a) {u : Unit} : iterateBox b.head b.boxes ≠ .ok u := by
  intro hiterate
  rcases bind_eq_ok.mp hiterate with ⟨⟨prev, current⟩, hseek, _⟩
  rcases h.segment.seek_dangling h.freed hseek with ⟨_, _, _, _, _, _, _, _, _, htest⟩
  cases htest

theorem not_listLoop (env : Env) (fd : Nat) {boxes : Heap (Cell Box)} {p : Option Nat}
    (hseg : Segment boxes p pre (some a)) (hfreed : boxes.cell a = none) (fuel n : Nat)
    (listings : List Event) : listLoop env fd boxes fuel n p ≠ .ok listings := by
  intro hlist
  induction pre generalizing p fuel n listings with
  | nil =>
      rw [show p = some a from hseg] at hlist
      cases fuel with
      | zero => cases hlist
      | succ fuel =>
          rw [listLoop, Heap.load, hfreed] at hlist
          cases hlist
  | cons cell pre ih =>
      rcases cell with ⟨c, box⟩
      rcases hseg with ⟨hp, next, hcell, hrest⟩
      rw [hp] at hlist
      cases fuel with
      | zero => cases hlist
      | succ fuel =>
          rw [listLoop, Heap.load_eq hcell, ofHeap_ok, ok_bind] at hlist
          rcases bind_eq_ok.mp hlist with ⟨listing, _, htail⟩
          rcases bind_eq_ok.mp htail with ⟨rest, hloop, _⟩
          exact ih hrest fuel (n + 1) rest hloop

/-- Nor is the listing one that ends. -/
theorem not_listBox (h : Dangling b pre a) {clientInput : Args} {env : Env} {fd : Nat}
    (hfd : env.fd = some fd) {r : List Event × State} :
    Broker.listBox clientInput env b ≠ .ok r := by
  intro hlist
  rw [Broker.listBox, hfd] at hlist
  cases hhead : b.head with
  | none =>
      have hseg := h.segment
      rw [hhead] at hseg
      cases pre with
      | nil => cases hseg
      | cons cell pre => cases hseg.left
  | some p =>
      simp only [hhead] at hlist
      rcases bind_eq_ok.mp hlist with ⟨listings, hloop, _⟩
      rw [← hhead] at hloop
      exact not_listLoop env fd h.segment h.freed _ _ _ hloop

/-!
## Requests
-/

theorem answerCreate_same {env : Env} {fd : Nat} {past : List Event} {returnCode fh : Int}
    {text : List UInt8} {events : List Event}
    (hanswer : answerCreate env fd past returnCode text fh b = .ok (events, b')) :
    b'.boxes = b.boxes ∧ b'.head = b.head := by
  rcases bind_eq_ok.mp hanswer with ⟨answer, _, hclose⟩
  rcases bind_eq_ok.mp hclose with ⟨closed, _, hresult⟩
  cases hresult
  exact ⟨rfl, rfl⟩

/-- A request to create a box ends only if the box is found, and then frees it. -/
theorem createBox_opened (h : Dangling b pre a) {clientInput : Args} {env : Env} {fd : Nat}
    {events : List Event} (hfd : env.fd = some fd)
    (hserve : Broker.createBox clientInput env b = .ok (events, b')) :
    exists pre1 c box post, pre = pre1 ++ (c, box) :: post ∧
      box.boxName.str = clientInput.boxName.str ∧ Dangling b' pre1 c := by
  simp only [Broker.createBox, hfd] at hserve
  rcases bind_eq_ok.mp hserve with ⟨⟨c, boxes⟩, hfind, hserve1⟩
  rcases bind_eq_ok.mp hserve1 with ⟨⟨fh, fs1⟩, _, hserve2⟩
  rcases h.findBox_ok (ofHeap_eq_ok.mp hfind) with
    ⟨hboxes, pre1, box, post, n, hsplit, hname, hnot, hcell⟩
  have hwriter : box.hasWriter = 0 :=
    (h.quiet (by rw [hsplit]; exact List.mem_append_right pre1 List.mem_cons_self)).left
  have hexists : boxExists fh c boxes = .ok true := by
    rw [boxExists]
    split
    · rfl
    · simp [Heap.load_eq hcell, hwriter]
  simp only [hexists, ok_bind, if_true] at hserve2
  rcases bind_eq_ok.mp hserve2 with ⟨boxes1, hfree, hserve3⟩
  rcases bind_eq_ok.mp hserve3 with ⟨⟨closed, fs2⟩, _, hanswer⟩
  rcases answerCreate_same hanswer with ⟨hboxes', hhead'⟩
  have h1 := h.alloc env.node
  rw [hsplit, ← hboxes] at h1
  have h2 := h1.free hnot (ofHeap_eq_ok.mp hfree) b'.fs
  refine ⟨pre1, c, box, post, hsplit, hname, ?_⟩
  cases b'
  cases hboxes'
  cases hhead'
  exact h2

theorem createBox (h : Dangling b pre a) {clientInput : Args} {env : Env}
    {events : List Event} (hserve : Broker.createBox clientInput env b = .ok (events, b')) :
    exists pre' a', Dangling b' pre' a' := by
  cases hfd : env.fd with
  | none =>
      rw [Broker.createBox, hfd] at hserve
      cases hserve
      exact ⟨pre, a, h⟩
  | some fd =>
      rcases h.createBox_opened hfd hserve with ⟨pre1, c, _, _, _, _, hdangling⟩
      exact ⟨pre1, c, hdangling⟩

/-- A session leaves every node as it was. -/
theorem publish {c fd : Nat} {fh : Int} {box : Box} {n : Option Nat} {env : Env}
    {events : List Event} (h : Dangling b pre a) (hcell : b.boxes.cell c = some ⟨box, n⟩)
    (hquiet : box.hasWriter = 0)
    (hpublish : Broker.publish fh c fd env b = .ok (events, b')) : Dangling b' pre a := by
  have hlive := Heap.live_of_cell hcell
  have hfirst := modifyBox_eq hcell fun cell =>
    { cell with value := { cell.value with hasWriter := 1 } }
  have hself := Heap.update_self hlive (some (⟨{ box with hasWriter := 1 }, n⟩ : Cell Box))
  have hsecond := modifyBox_eq hself fun cell =>
    { cell with value := { cell.value with hasWriter := 0 } }
  rw [Broker.publish, hfirst, ofHeap_ok, ok_bind] at hpublish
  rcases bind_eq_ok.mp hpublish with ⟨fs1, _, hclose⟩
  rcases bind_eq_ok.mp hclose with ⟨⟨closed, fs2⟩, _, hreset⟩
  simp only [hsecond, ofHeap_ok, ok_bind] at hreset
  cases hreset
  have hsame : forall d, (Heap.update _ c (Heap.live_of_cell hself)
      (some ⟨{ box with hasWriter := 0 }, n⟩)).cell d = b.boxes.cell d := by
    intro d
    by_cases hd : d = c
    · rw [hd, Heap.update_self, hcell, ← hquiet]
    · rw [Heap.update_other _ _ hd, Heap.update_other _ _ hd]
  exact ⟨h.segment.congr fun d _ => hsame d, (hsame a).trans h.freed, h.allocated, h.quiet⟩

theorem regPublisher (h : Dangling b pre a) {clientInput : Args} {env : Env}
    {events : List Event} (hserve : Broker.regPublisher clientInput env b = .ok (events, b')) :
    exists pre' a', Dangling b' pre' a' := by
  rw [Broker.regPublisher] at hserve
  cases hfd : env.fd with
  | none =>
      rw [hfd] at hserve
      cases hserve
      exact ⟨pre, a, h⟩
  | some fd =>
      simp only [hfd] at hserve
      rcases bind_eq_ok.mp hserve with ⟨⟨c, boxes⟩, hfind, hserve1⟩
      rcases h.findBox_ok (ofHeap_eq_ok.mp hfind) with
        ⟨hboxes, pre1, box, post, n, hsplit, _, hnot, hcell⟩
      have hwriter : box.hasWriter = 0 :=
        (h.quiet (by rw [hsplit]; exact List.mem_append_right pre1 List.mem_cons_self)).left
      simp only [Heap.load_eq hcell, hwriter, ofHeap_ok, ok_bind] at hserve1
      rcases bind_eq_ok.mp hserve1 with ⟨⟨fh, fs1⟩, _, hserve2⟩
      have h1 := h.alloc env.node
      rw [← hboxes] at h1
      by_cases hfh : fh = -1
      · simp only [if_pos hfh] at hserve2
        rcases bind_eq_ok.mp hserve2 with ⟨boxes1, hfree, hresult⟩
        cases hresult
        rw [hsplit] at h1
        exact ⟨pre1, c, h1.free hnot (ofHeap_eq_ok.mp hfree) fs1⟩
      · simp only [if_neg hfh] at hserve2
        have h2 : Dangling ⟨fs1, boxes, b.head⟩ pre a :=
          ⟨h1.segment, h1.freed, h1.allocated, h1.quiet⟩
        exact ⟨pre, a, h2.publish hcell hwriter hserve2⟩

theorem serve (h : Dangling b pre a) {request : Request} {events : List Event}
    (hserve : Broker.serve request b = .ok (events, b')) :
    exists pre' a', Dangling b' pre' a' := by
  cases request with
  | regPublisher clientInput env => exact h.regPublisher hserve
  | createBox clientInput env => exact h.createBox hserve
  | removeBox clientInput env =>
      rcases bind_eq_ok.mp hserve with ⟨u, hiterate, _⟩
      exact absurd (ofHeap_eq_ok.mp hiterate) h.not_iterate
  | listBox clientInput env =>
      cases hfd : env.fd with
      | none =>
          rw [Broker.serve, listBox, hfd] at hserve
          cases hserve
          exact ⟨pre, a, h⟩
      | some fd =>
          rw [Broker.serve] at hserve
          exact absurd hserve (h.not_listBox hfd)

/-- The freed node can be reached. -/
theorem not_allLive (h : Dangling b pre a) : ¬ AllLive b := by
  intro hall
  have hlive := hall a (h.segment.reaches fun _ hc => Reaches.head hc)
  rw [Heap.Live, h.freed] at hlive
  cases hlive

end Dangling

/-!
## Runs
-/

/-- From a good state a request leads to a good state, or leaves a freed node. -/
theorem Good.serve_cases {b b' : State} {cells : List (Nat × Box)} (h : Good b cells)
    {request : Request} {events : List Event} (hserve : serve request b = .ok (events, b')) :
    (exists cells', Good b' cells') ∨ exists pre a, Dangling b' pre a := by
  by_cases hnew : CreatesNew b request
  · exact Or.inl ((serve_good h hnew).value hserve)
  · right
    cases request with
    | createBox clientInput env =>
        simp only [CreatesNew, not_forall, ne_eq, not_not] at hnew
        rcases hnew with ⟨hfd, hwrites, a, box, hholds, hname⟩
        rcases Option.ne_none_iff_exists'.mp hfd with ⟨fd, hsome⟩
        rcases List.append_of_mem (h.holdsBox_iff.mp hholds) with ⟨pre, post, hsplit⟩
        rw [hsplit] at h
        rcases createBox_existing h hname hsome with
          ⟨b1, hserve1, hhead, hseg, hfreed, hallocated⟩
        rw [serve, hserve1, answered, if_pos hwrites] at hserve
        cases hserve
        refine ⟨pre, a, hhead.symm ▸ hseg, hfreed, hallocated, fun hmem => ?_⟩
        exact h.quiet (List.mem_append_left _ hmem)
    | removeBox clientInput env => exact absurd trivial hnew
    | regPublisher clientInput env => exact absurd trivial hnew
    | listBox clientInput env => exact absurd trivial hnew

theorem Reachable.cases {b : State} (h : Reachable b) :
    (exists cells, Good b cells) ∨ exists pre a, Dangling b pre a := by
  rcases h with ⟨mem, fs0, fs, requests, events, hinit, hrun⟩
  refine run_invariant (P := fun b => (exists cells, Good b cells) ∨
    exists pre a, Dangling b pre a) ?_ hrun (Or.inl ⟨[], good_start hinit⟩)
  rintro b request events b' (⟨cells, hgood⟩ | ⟨pre, a, hdangling⟩) hserve
  · exact hgood.serve_cases hserve
  · exact Or.inr (hdangling.serve hserve)

theorem reachable_start {mem : Mallocs} {fs0 fs : Fs} (hinit : tfsInit none mem fs0 = .ok (0, fs)) :
    Reachable (start fs) := ⟨mem, fs0, fs, [], [], hinit, rfl⟩

theorem Reachable.serve {b b' : State} (h : Reachable b) {request : Request}
    {events : List Event} (hserve : Broker.serve request b = .ok (events, b')) : Reachable b' := by
  rcases h with ⟨mem, fs0, fs, requests, replies, hinit, hrun⟩
  exact ⟨mem, fs0, fs, _, _, hinit, run_snoc hrun hserve⟩

/-- As long as no linked node is freed, the state is good. -/
theorem Reachable.good {b : State} (h : Reachable b) (hlive : AllLive b) :
    exists cells, Good b cells := by
  rcases h.cases with hgood | ⟨pre, a, hdangling⟩
  · exact hgood
  · exact absurd hlive hdangling.not_allLive

end Broker
end TecnicoFs
