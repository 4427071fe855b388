import TecnicoFs.Broker.Answers
import TecnicoFs.Broker.ListOps

/-!
# The end of the broker

When the loop over the requests ends, {lit}`main` frees the list of boxes and destroys the
file system.  What the requests of a run left behind by then can be counted: the nodes that
nothing points to, and the pipes that nobody closed.
-/

namespace TecnicoFs
namespace Broker

open Library

/-- The loop reads the pointer of each node before it frees the node. -/
def freeBoxes (head : Option Nat) (boxes : Heap (Cell Box)) :
    Except HeapFault (Heap (Cell Box)) :=
  freeAll (boxes.top + 1) head boxes

/-- What {lit}`main` does after the loop: the result of {lit}`tfs_destroy`, and the state. -/
def shutdown (b : State) : Out (Int × State) := do
  let boxes <- ofHeap (freeBoxes b.head b.boxes)
  let (destroyed, fs) := tfsDestroy b.fs
  pure (destroyed, { b with fs := fs, boxes := boxes })

/-!
## Costs of a request
-/

def Event.isOpened : Event -> Bool
  | .opened _ => true
  | _ => false

def Event.isClosed : Event -> Bool
  | .closed _ => true
  | _ => false

def Event.isTfsOpened : Event -> Bool
  | .tfsOpened _ => true
  | _ => false

/-- The nodes that a request leaves behind, by what it did: one if the pipe was opened and
no box was created, and one if the file of a box was opened to remove it or to publish
to it. -/
def lostNodes : Request -> List Event -> Nat
  | .createBox _ _, events =>
      if events.any Event.isOpened && !events.any Event.isTfsOpened then 1 else 0
  | .removeBox _ _, events => if events.any Event.isTfsOpened then 1 else 0
  | .regPublisher _ _, events => if events.any Event.isTfsOpened then 1 else 0
  | .listBox _ _, _ => 0

def openedPipes (_request : Request) (events : List Event) : Nat := events.countP Event.isOpened

def closedPipes (_request : Request) (events : List Event) : Nat := events.countP Event.isClosed

/-- A request to create a box keeps its pipe. -/
def keptPipes : Request -> List Event -> Nat
  | .createBox _ _, events => events.countP Event.isOpened
  | _, _ => 0

/-!
## Live nodes
-/

section Nodes

variable {b b' : State} {boxes boxes' : Heap (Cell Box)} {head head' : Option Nat}
  {cells pre post : List (Nat × Box)} {a : Nat} {box : Box} {events : List Event}
  {clientInput : Args} {env : Env} {fd : Nat}

theorem modifyBox_count {f : Cell Box -> Cell Box} (h : modifyBox a f boxes = .ok boxes') :
    boxes'.liveCount = boxes.liveCount := by
  rcases bind_eq_ok.mp h with ⟨cell, _, hstore⟩
  exact Heap.liveCount_store hstore

theorem insertBox_count (h : insertBox a head boxes = .ok (head', boxes')) :
    boxes'.liveCount = boxes.liveCount := by
  unfold insertBox at h
  rcases bind_eq_ok.mp h with ⟨boxes1, hnull, h⟩
  cases head with
  | none =>
      cases h
      exact modifyBox_count hnull
  | some first =>
      rcases bind_eq_ok.mp h with ⟨⟨_, temp⟩, _, h⟩
      cases temp with
      | none => cases h
      | some temp =>
          rcases bind_eq_ok.mp h with ⟨boxes2, hlink, h⟩
          cases h
          exact (modifyBox_count hlink).trans (modifyBox_count hnull)

theorem deleteBox_count {name : CStr} {boxName : NamePtr}
    (hchain : Chain boxes head (pre ++ (a, box) :: post))
    (hload : boxName.load boxes = .ok name) (hname : box.boxName.str = name)
    (hpre : name ∉ boxNames pre) (h : deleteBox boxName head boxes = .ok (head', boxes')) :
    boxes'.liveCount + 1 = boxes.liveCount := by
  rcases deleteBox_chain hchain hload hname hpre with ⟨head1, boxes1, hdelete, hdel⟩
  rw [hdelete] at h
  cases h
  have hunlinked := hdel.unlinked hchain
  exact Heap.liveCount_erase hunlinked.live hunlinked.freed

/-- A node is allocated, and one is freed. -/
theorem freed_count {fresh : Cell Box} (h : (boxes.alloc fresh).2.free a = .ok boxes') :
    boxes'.liveCount = boxes.liveCount := by
  have hcount := Heap.liveCount_free h
  rw [Heap.liveCount_alloc] at hcount
  exact Nat.succ_injective hcount

theorem answerRemove_same {past : List Event} {returnCode : Int} {text : List UInt8}
    (hanswer : answerRemove env fd past returnCode text b = .ok (events, b')) :
    b'.boxes = b.boxes := by
  rcases bind_eq_ok.mp hanswer with ⟨answer, _, hiterate⟩
  rcases bind_eq_ok.mp hiterate with ⟨_, _, hresult⟩
  cases hresult
  rfl

/-- Whether or not the new box gets a file, its node stays. -/
theorem createBox_count (h : Good b cells) (hnot : clientInput.boxName.str ∉ boxNames cells)
    (hfd : env.fd = some fd) (hserve : createBox clientInput env b = .ok (events, b')) :
    b'.boxes.liveCount = b.boxes.liveCount + 1 := by
  have hfind := findBox_missing (.array clientInput.boxName.str) env.node h.chain rfl hnot
  have hopen := open_absent h.idle.steady fun hvalid => h.absent hnot hvalid
  have hcount := b.boxes.liveCount_alloc ⟨⟨unexistent, -1, -1⟩, env.node.next⟩
  have hexists : boxExists (-1) b.boxes.top
      (b.boxes.alloc ⟨⟨unexistent, -1, -1⟩, env.node.next⟩).2 = .ok false := by
    simp [boxExists, Heap.load_eq (b.boxes.alloc_self ⟨⟨unexistent, -1, -1⟩, env.node.next⟩)]
  simp only [createBox, hfd, hfind, ofHeap_ok, ok_bind, hopen, ofFs_ok, hexists] at hserve
  rcases bind_eq_ok.mp hserve with ⟨⟨fh, fs1⟩, _, hcreated⟩
  by_cases hfh : fh = -1
  · rw [hfh] at hcreated
    cases hcreated
    exact hcount
  · simp only [if_neg hfh] at hcreated
    rcases bind_eq_ok.mp hcreated with ⟨boxes1, hmodify, hinserted⟩
    rcases bind_eq_ok.mp hinserted with ⟨⟨head2, boxes2⟩, hinsert, hanswer⟩
    rw [(Dangling.answerCreate_same hanswer).left, ← hcount]
    exact (insertBox_count (ofHeap_eq_ok.mp hinsert)).trans
      (modifyBox_count (ofHeap_eq_ok.mp hmodify))

/-- The node that is freed makes up for the one that the search allocated. -/
theorem removeBox_count (h : Good b cells)
    (hserve : removeBox clientInput env b = .ok (events, b')) :
    b'.boxes.liveCount = b.boxes.liveCount := by
  rw [removeBox, iterateBox_chain h.chain, ofHeap_ok, ok_bind] at hserve
  cases hfd : env.fd with
  | none =>
      rw [hfd] at hserve
      cases hserve
      rfl
  | some fd =>
      simp only [hfd] at hserve
      rcases first_box clientInput.boxName.str cells with
        hnot | ⟨pre, a, box, post, hsplit, hname, hpre⟩
      · have hfind := findBox_missing (.array clientInput.boxName.str) env.node h.chain rfl hnot
        have hopen := open_absent h.idle.steady fun hvalid => h.absent hnot hvalid
        have hmissing : boxMissing (-1) b.boxes.top
            (b.boxes.alloc ⟨⟨unexistent, -1, -1⟩, env.node.next⟩).2 = .ok true := rfl
        simp only [hfind, ofHeap_ok, ok_bind, hopen, ofFs_ok, hmissing, if_true] at hserve
        rcases bind_eq_ok.mp hserve with ⟨boxes1, hfree, hanswer⟩
        rw [answerRemove_same hanswer]
        exact freed_count (ofHeap_eq_ok.mp hfree)
      · have hchain := h.chain
        rw [hsplit] at hchain
        have hfind := findBox_found (.array clientInput.boxName.str) env.node hchain rfl hname hpre
        have hfresh : Chain (b.boxes.alloc env.node).2 b.head (pre ++ (a, box) :: post) :=
          Segment.alloc env.node hchain
        rcases hfresh.suffix with ⟨_, n, hcell, _⟩
        have hload : (NamePtr.node a).load (b.boxes.alloc env.node).2 =
            .ok clientInput.boxName.str := by
          rw [NamePtr.load, Heap.load_eq hcell, ← hname]
          rfl
        simp only [hfind, ofHeap_ok, ok_bind] at hserve
        rcases bind_eq_ok.mp hserve with ⟨⟨fh, fs1⟩, _, hchecked⟩
        rcases bind_eq_ok.mp hchecked with ⟨missing, _, hrest⟩
        cases missing with
        | true =>
            rcases bind_eq_ok.mp hrest with ⟨boxes1, hfree, hanswer⟩
            rw [answerRemove_same hanswer]
            exact freed_count (ofHeap_eq_ok.mp hfree)
        | false =>
            rcases bind_eq_ok.mp hrest with ⟨⟨head1, boxes1⟩, hdelete, hclosed⟩
            rcases bind_eq_ok.mp hclosed with ⟨⟨closed, fs2⟩, _, hunlinked⟩
            rcases bind_eq_ok.mp hunlinked with ⟨⟨unlinked, fs3⟩, _, hanswer⟩
            have hcount := deleteBox_count hfresh hload hname hpre (ofHeap_eq_ok.mp hdelete)
            rw [Heap.liveCount_alloc] at hcount
            rw [answerRemove_same hanswer]
            exact Nat.succ_injective hcount

/-- A session on a box keeps the node that the search allocated. -/
theorem regPublisher_count (h : Good b (pre ++ (a, box) :: post))
    (hname : box.boxName.str = clientInput.boxName.str) (hfd : env.fd = some fd)
    (hserve : regPublisher clientInput env b = .ok (events, b')) :
    b'.boxes.liveCount = b.boxes.liveCount + 1 := by
  have hevents := ((regPublisher_existing h hname hfd).value hserve).left
  rcases h.name_mem hname with ⟨_, hpre⟩
  have hfind := findBox_found (.array clientInput.boxName.str) env.node h.chain rfl hname hpre
  have hfresh : Chain (b.boxes.alloc env.node).2 b.head (pre ++ (a, box) :: post) :=
    Segment.alloc env.node h.chain
  rcases hfresh.suffix with ⟨_, n, hcell, _⟩
  have hquiet := (h.quiet (List.mem_append_right pre List.mem_cons_self)).left
  simp only at hquiet
  simp only [regPublisher, hfd, hfind, ofHeap_ok, ok_bind, Heap.load_eq hcell, hquiet,
    bne_self_eq_false, Bool.false_eq_true, if_false] at hserve
  rcases bind_eq_ok.mp hserve with ⟨⟨fh, fs1⟩, _, hopened⟩
  by_cases hfh : fh = -1
  · simp only [if_pos hfh] at hopened
    rcases bind_eq_ok.mp hopened with ⟨boxes1, _, hresult⟩
    cases hresult
    cases hevents
  · simp only [if_neg hfh] at hopened
    rcases bind_eq_ok.mp hopened with ⟨boxes1, hfirst, hsession⟩
    rcases bind_eq_ok.mp hsession with ⟨fs2, _, hclose⟩
    rcases bind_eq_ok.mp hclose with ⟨⟨closed, fs3⟩, _, hreset⟩
    rcases bind_eq_ok.mp hreset with ⟨boxes2, hlast, hresult⟩
    cases hresult
    rw [← Heap.liveCount_alloc b.boxes env.node]
    exact (modifyBox_count (ofHeap_eq_ok.mp hlast)).trans
      (modifyBox_count (ofHeap_eq_ok.mp hfirst))

theorem regPublisher_missing_count (h : Good b cells)
    (hnot : clientInput.boxName.str ∉ boxNames cells)
    (hserve : regPublisher clientInput env b = .ok (events, b')) :
    b'.boxes.liveCount = b.boxes.liveCount := by
  have hfind := findBox_missing (.array clientInput.boxName.str) env.node h.chain rfl hnot
  have hload := Heap.load_eq (b.boxes.alloc_self ⟨⟨unexistent, -1, -1⟩, env.node.next⟩)
  cases hfd : env.fd with
  | none =>
      rw [regPublisher, hfd] at hserve
      cases hserve
      rfl
  | some fd =>
      simp only [regPublisher, hfd, hfind, ofHeap_ok, ok_bind, hload] at hserve
      rcases bind_eq_ok.mp hserve with ⟨boxes1, hfree, hresult⟩
      cases hresult
      exact freed_count (ofHeap_eq_ok.mp hfree)

/-!
## What a request leaves behind
-/

/-- The list is in order, and besides its nodes `n` nodes are live. -/
def Accounted (n : Nat) (b : State) : Prop :=
  exists cells, Good b cells ∧ b.boxes.liveCount = cells.length + n

/-- The request leaves behind what it costs. -/
structure Settles (n : Nat) (request : Request) (events : List Event) (b' : State) : Prop where
  nodes : Accounted (n + lostNodes request events) b'
  pipes : openedPipes request events = closedPipes request events + keptPipes request events

variable {n : Nat} {request : Request}

/-- A request whose pipe cannot be opened. -/
theorem settles_nothing (h : Good b cells) (hlive : b.boxes.liveCount = cells.length + n)
    (request : Request) : Settles n request [] b := by
  cases request <;> exact ⟨⟨cells, h, hlive⟩, rfl⟩

theorem createBox_settles (h : Good b cells) (hlive : b.boxes.liveCount = cells.length + n)
    (hnew : CreatesNew b (.createBox clientInput env))
    (hserve : createBox clientInput env b = .ok (events, b')) :
    Settles n (.createBox clientInput env) events b' := by
  cases hfd : env.fd with
  | none =>
      rw [createBox, hfd] at hserve
      cases hserve
      exact settles_nothing h hlive _
  | some fd =>
      rcases first_box clientInput.boxName.str cells with
        hnot | ⟨pre, a, box, post, hsplit, hname, _⟩
      · have hcount := createBox_count h hnot hfd hserve
        rcases createBox_absent h hnot hfd with ⟨b1, hsame, hgood, _⟩ | ⟨b1, hsame, hgood, _⟩
        · rw [hsame] at hserve
          cases hserve
          refine ⟨⟨cells, hgood, ?_⟩, rfl⟩
          change _ = cells.length + (n + 1)
          omega
        · rcases answered_ok (hsame.symm.trans hserve) with ⟨_, rfl, rfl⟩
          refine ⟨⟨_, hgood, ?_⟩, rfl⟩
          change _ = (cells ++ [_]).length + (n + 0)
          rw [List.length_append, List.length_singleton]
          omega
      · have hholds : HoldsBox b a box := by
          rw [h.holdsBox_iff, hsplit]
          exact List.mem_append_right pre List.mem_cons_self
        rw [hsplit] at h
        rcases createBox_existing h hname hfd with ⟨b1, hsame, _⟩
        have hwrites := (answered_ok (hsame.symm.trans hserve)).left
        exact absurd hname (hnew (by simp [hfd]) hwrites a box hholds)

theorem removeBox_settles (h : Good b cells) (hlive : b.boxes.liveCount = cells.length + n)
    (hserve : removeBox clientInput env b = .ok (events, b')) :
    Settles n (.removeBox clientInput env) events b' := by
  have hcount := removeBox_count h hserve
  cases hfd : env.fd with
  | none =>
      rw [removeBox, iterateBox_chain h.chain, hfd] at hserve
      cases hserve
      exact settles_nothing h hlive _
  | some fd =>
      rcases first_box clientInput.boxName.str cells with
        hnot | ⟨pre, a, box, post, hsplit, hname, _⟩
      · rcases removeBox_missing h hnot hfd with ⟨b1, hsame, hgood, _⟩
        rcases answered_ok (hsame.symm.trans hserve) with ⟨_, rfl, rfl⟩
        exact ⟨⟨cells, hgood, hcount.trans hlive⟩, rfl⟩
      · rw [hsplit] at h hlive
        rcases removeBox_existing h hname hfd with ⟨b1, hsame, hgood, _⟩
        rcases answered_ok (hsame.symm.trans hserve) with ⟨_, rfl, rfl⟩
        refine ⟨⟨pre ++ post, hgood, ?_⟩, rfl⟩
        change _ = (pre ++ post).length + (n + 1)
        rw [List.length_append, List.length_cons] at hlive
        rw [List.length_append]
        omega

theorem regPublisher_settles (h : Good b cells) (hlive : b.boxes.liveCount = cells.length + n)
    (hserve : regPublisher clientInput env b = .ok (events, b')) :
    Settles n (.regPublisher clientInput env) events b' := by
  cases hfd : env.fd with
  | none =>
      rw [regPublisher, hfd] at hserve
      cases hserve
      exact settles_nothing h hlive _
  | some fd =>
      rcases first_box clientInput.boxName.str cells with
        hnot | ⟨pre, a, box, post, hsplit, hname, _⟩
      · have hcount := regPublisher_missing_count h hnot hserve
        rcases regPublisher_missing h hnot hfd with ⟨b1, hsame, hgood, _⟩
        rw [hsame] at hserve
        cases hserve
        exact ⟨⟨cells, hgood, hcount.trans hlive⟩, rfl⟩
      · rw [hsplit] at h hlive
        have hcount := regPublisher_count h hname hfd hserve
        rcases (regPublisher_existing h hname hfd).value hserve with ⟨hevents, hgood, _⟩
        simp only at hevents hgood
        rw [hevents]
        refine ⟨⟨_, hgood, ?_⟩, rfl⟩
        change _ = (pre ++ (a, box) :: post).length + (n + 1)
        omega

theorem listBox_settles (h : Good b cells) (hlive : b.boxes.liveCount = cells.length + n)
    (hserve : listBox clientInput env b = .ok (events, b')) :
    Settles n (.listBox clientInput env) events b' := by
  rcases (listBox_chain h clientInput env).value hserve with
    ⟨hsame, ⟨_, hevents⟩ | ⟨fd, listings, _, hevents, hwrote⟩⟩
  · simp only at hsame hevents
    rw [hsame, hevents]
    exact settles_nothing h hlive _
  · simp only at hsame hevents
    have hnone : forall (p : Event -> Bool), (forall fd bytes, p (.wrote fd bytes) = false) ->
        listings.countP p = 0 := by
      intro p hp
      rw [List.countP_eq_zero]
      intro event hmem
      rcases hwrote event hmem with ⟨bytes, hbytes⟩
      rw [hbytes, hp]
      decide
    have hopened := hnone Event.isOpened fun _ _ => rfl
    have hclosed := hnone Event.isClosed fun _ _ => rfl
    rw [hsame]
    refine ⟨⟨cells, h, hlive⟩, ?_⟩
    simp only [openedPipes, closedPipes, keptPipes, hevents, List.countP_append,
      List.countP_cons, hopened, hclosed]
    rfl

/-- A request that creates no box of the list costs what it costs, whatever came before. -/
theorem serve_settles (h : Accounted n b) (hnew : CreatesNew b request)
    (hserve : serve request b = .ok (events, b')) : Settles n request events b' := by
  rcases h with ⟨cells, hgood, hlive⟩
  cases request with
  | createBox clientInput env => exact createBox_settles hgood hlive hnew hserve
  | removeBox clientInput env => exact removeBox_settles hgood hlive hserve
  | listBox clientInput env => exact listBox_settles hgood hlive hserve
  | regPublisher clientInput env => exact regPublisher_settles hgood hlive hserve

/-!
## The end of a run
-/

/-- A list in order is freed, node by node. -/
theorem Good.shutdown (h : Good b cells) (hlive : b.boxes.liveCount = cells.length + n) :
    exists b', shutdown b = .ok (0, b') ∧ b'.boxes.liveCount = n ∧
      forall a, b'.boxes.Live a -> ¬ Reaches b.boxes b.head a := by
  rcases Chain.freeAll h.chain (Nat.le_succ_of_le h.chain.length_le) with
    ⟨boxes, hfree, hcount, hnodes⟩
  refine ⟨⟨(tfsDestroy b.fs).2, boxes, b.head⟩, ?_, ?_, fun a ha => ?_⟩
  · rw [Broker.shutdown, freeBoxes, hfree]
    rfl
  · simp only
    omega
  · rw [h.chain.reaches_iff]
    exact ((hnodes a).mp ha).right

/-- A list with a freed node cannot be freed. -/
theorem Dangling.shutdown (h : Dangling b pre a) :
    shutdown b = .error (.heap .useAfterFree) := by
  have hfuel : b.boxes.liveCount < b.boxes.top + 1 := by
    have hcard := Finset.card_filter_le (Finset.range b.boxes.top) b.boxes.Live
    rw [Finset.card_range] at hcard
    exact Nat.lt_succ_of_le hcard
  rw [Broker.shutdown, freeBoxes]
  cases hfree : freeAll (b.boxes.top + 1) b.head b.boxes with
  | ok boxes => exact absurd hfree (h.segment.freeAll_dangling h.freed)
  | error fault =>
      rw [freeAll_error hfuel hfree]
      rfl

end Nodes

/-- A list with a freed node is not in order. -/
theorem Dangling.not_good {b : State} {pre cells : List (Nat × Box)} {a : Nat}
    (h : Dangling b pre a) : ¬ Good b cells := fun hgood => h.not_allLive hgood.allLive

theorem createsNew_of_live {b b' : State} {cells : List (Nat × Box)} (h : Good b cells)
    {request : Request} {events : List Event} (hserve : serve request b = .ok (events, b'))
    (hlive : AllLive b') : CreatesNew b request := by
  cases request with
  | createBox clientInput env =>
      intro hfd hwrites a box hbox hname
      rcases createBox_dangling h hfd hwrites hbox hname with ⟨events1, b1, hsame, hnot⟩
      rw [serve, hsame] at hserve
      cases hserve
      exact hnot hlive
  | removeBox clientInput env => trivial
  | regPublisher clientInput env => trivial
  | listBox clientInput env => trivial

section Runs

variable {mem : Mallocs} {fs0 fs : Fs} {requests : List Request} {events : List (List Event)}
  {b : State}

/-- The list is in order after a run exactly when no request of the run created a box that
the list had. -/
theorem run_good_iff (hinit : tfsInit none mem fs0 = .ok (0, fs))
    (hrun : runRequests requests (start fs) = .ok (events, b)) :
    (exists cells, Good b cells) <-> EveryCall serve CreatesNew requests (start fs) := by
  have hstart : exists cells, Good (start fs) cells := ⟨[], good_start hinit⟩
  have hkeeps := run_keeps_iff (fun b => exists cells, Good b cells)
    (P := fun b => (exists cells, Good b cells) ∨ exists pre a, Dangling b pre a)
    (Q := CreatesNew) ?_ ?_ hrun (Or.inl hstart)
  · rw [hkeeps, and_iff_right hstart]
  · rintro b request events b' (⟨cells, hgood⟩ | ⟨pre, a, hdangling⟩) hserve
    · exact hgood.serve_cases hserve
    · exact Or.inr (hdangling.serve hserve)
  · rintro b request events b' (⟨cells, hgood⟩ | ⟨pre, a, hdangling⟩) hserve
    · rw [and_iff_right ⟨cells, hgood⟩]
      constructor
      · rintro ⟨cells', hgood'⟩
        exact createsNew_of_live hgood hserve hgood'.allLive
      · exact fun hnew => (serve_good hgood hnew).value hserve
    · rcases hdangling.serve hserve with ⟨pre', a', hdangling'⟩
      constructor
      · rintro ⟨cells', hgood'⟩
        exact absurd hgood' hdangling'.not_good
      · rintro ⟨⟨cells', hgood'⟩, _⟩
        exact absurd hgood' hdangling.not_good

/-- What is left when the broker ends: the nodes that the requests lost, the pipes that they
kept, and no open file. -/
structure LeftBehind (requests : List Request) (events : List (List Event)) (b b' : State) :
    Prop where
  nodes : b'.boxes.liveCount = runCost lostNodes requests events
  unlinked : forall a, b'.boxes.Live a -> ¬ Reaches b.boxes b.head a
  pipes : runCost openedPipes requests events =
    runCost closedPipes requests events + runCost keptPipes requests events
  files : Idle b.fs

theorem run_settles (hinit : tfsInit none mem fs0 = .ok (0, fs))
    (hrun : runRequests requests (start fs) = .ok (events, b))
    (hnew : EveryCall serve CreatesNew requests (start fs)) :
    Accounted (runCost lostNodes requests events) b ∧
      runCost openedPipes requests events =
        runCost closedPipes requests events + runCost keptPipes requests events := by
  have hstart : Accounted 0 (start fs) := ⟨[], good_start hinit, rfl⟩
  have hnodes : Accounted (0 + runCost lostNodes requests events) b := by
    refine run_cost (P := Accounted) ?_ hrun hnew hstart
    exact fun h hq hserve => (serve_settles h hq hserve).nodes
  rw [Nat.zero_add] at hnodes
  refine ⟨hnodes, runCost_add (run_replies (P := fun b => exists n, Accounted n b) ?_ hrun hnew
    ⟨0, hstart⟩)⟩
  rintro b request events b' ⟨n, h⟩ hq hserve
  have hsettles := serve_settles h hq hserve
  exact ⟨hsettles.pipes, _, hsettles.nodes⟩

/-- After every run, {lit}`main` ends well exactly when no request created a box that the
list had.  Then it frees every node of the list, and what is left is what the requests left
behind; otherwise it reads a node that was freed before. -/
theorem shutdown_accounts (hinit : tfsInit none mem fs0 = .ok (0, fs))
    (hrun : runRequests requests (start fs) = .ok (events, b)) :
    (EveryCall serve CreatesNew requests (start fs) ->
      exists b', shutdown b = .ok (0, b') ∧ LeftBehind requests events b b') ∧
      (¬ EveryCall serve CreatesNew requests (start fs) ->
        shutdown b = .error (.heap .useAfterFree)) := by
  constructor
  · intro hnew
    rcases run_settles hinit hrun hnew with ⟨⟨cells, hgood, hlive⟩, hpipes⟩
    rcases hgood.shutdown hlive with ⟨b', hdown, hnodes, hunlinked⟩
    exact ⟨b', hdown, hnodes, hunlinked, hpipes, hgood.idle⟩
  · intro hnot
    have hreach : Reachable b := ⟨mem, fs0, fs, requests, events, hinit, hrun⟩
    rcases hreach.cases with hgood | ⟨pre, a, hdangling⟩
    · exact absurd ((run_good_iff hinit hrun).mp hgood) hnot
    · exact hdangling.shutdown

end Runs

/-- The box {lit}`/a` is created and removed. -/
def passingBox : List Request := [createA, .removeBox argsA (openEnv [])]

theorem passingBox_new : EveryCall serve CreatesNew passingBox (start defaultFs) := by
  refine ⟨fun _ _ a box hholds => ?_, fun _ _ _ => ⟨trivial, fun _ _ _ => trivial⟩⟩
  have hnone := (good_start defaultInit).holdsBox_iff.mp hholds
  cases hnone

/-- The node that the search of {lit}`remove_box` allocated is left. -/
theorem shutdown_accounts_passing : exists events b b',
    runRequests passingBox (start defaultFs) = .ok (events, b) ∧ shutdown b = .ok (0, b') ∧
      LeftBehind passingBox events b b' := by
  rcases served_ok (show (served passingBox).isOk = true by decide +kernel) with ⟨events, hrun⟩
  rcases (shutdown_accounts defaultInit hrun).left passingBox_new with ⟨b', hdown, hleft⟩
  exact ⟨events, _, b', hrun, hdown, hleft⟩

end Broker
end TecnicoFs
