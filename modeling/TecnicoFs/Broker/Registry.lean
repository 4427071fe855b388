import TecnicoFs.Broker.Requests

/-!
# Ownership of the boxes

As long as no request creates a box that the list already has, every node of the
list is live and no node is freed twice.  A request that does frees the node of the
box and leaves it in the list.
-/

namespace TecnicoFs
namespace Broker

open Library

/-- Every node that can be reached from {lit}`head` is live. -/
def AllLive (b : State) : Prop := forall a, Reaches b.boxes b.head a -> b.boxes.Live a

/-- Node `a` of the list holds this box. -/
def HoldsBox (b : State) (a : Nat) (box : Box) : Prop :=
  Reaches b.boxes b.head a ∧ exists n, b.boxes.cell a = some ⟨box, n⟩

/-- The request keeps to the ownership of the nodes. -/
structure Owned (b : State) (request : Request) : Prop where
  freedOnce : serve request b ≠ .error (.heap .doubleFree)
  live : forall events b', serve request b = .ok (events, b') -> AllLive b'
  kept : forall clientInput env a box, request = .createBox clientInput env ->
    HoldsBox b a box -> box.boxName.str = clientInput.boxName.str ->
      forall events b', serve request b = .ok (events, b') -> HoldsBox b' a box

/-- The request is not one to create a box of the list whose answer is taken. -/
def CreatesNew (b : State) : Request -> Prop
  | .createBox clientInput env => env.fd ≠ none -> env.writes 0 = true ->
      forall a box, HoldsBox b a box -> box.boxName.str ≠ clientInput.boxName.str
  | _ => True

section Ownership

variable {b : State} {cells : List (Nat × Box)}

theorem holdsBox_chain (hchain : Chain b.boxes b.head cells) {a : Nat} {box : Box} :
    HoldsBox b a box <-> (a, box) ∈ cells := by
  constructor
  · rintro ⟨hreach, n, hcell⟩
    rcases exists_split (hchain.reaches_iff.mp hreach) with ⟨pre, box', post, hsplit⟩
    rw [hsplit] at hchain ⊢
    rcases hchain.suffix with ⟨_, n', hcell', _⟩
    rw [hcell] at hcell'
    cases hcell'
    exact List.mem_append_right pre List.mem_cons_self
  · intro hmem
    exact ⟨hchain.reaches_iff.mpr (List.mem_map.mpr ⟨_, hmem, rfl⟩), hchain.cell hmem⟩

theorem Good.holdsBox_iff (h : Good b cells) {a : Nat} {box : Box} :
    HoldsBox b a box <-> (a, box) ∈ cells := holdsBox_chain h.chain

theorem allLive_chain (hchain : Chain b.boxes b.head cells) : AllLive b :=
  fun _ hreach => Segment.live hchain (hchain.reaches_iff.mp hreach)

theorem Good.allLive (h : Good b cells) : AllLive b := allLive_chain h.chain

theorem answered_ensures {env : Env} {events : List Event} {b' : State}
    {P : List Event × State -> Prop} (h : env.writes 0 = true -> P (events, b')) :
    Ensures HeapMisuse (answered env events b') P := by
  rw [answered]
  split
  · exact h (by assumption)
  · rintro ⟨fault, hfault⟩
    cases hfault

theorem createBox_good (h : Good b cells) {clientInput : Args} {env : Env}
    (hnew : CreatesNew b (.createBox clientInput env)) :
    Ensures HeapMisuse (createBox clientInput env b) fun r => exists cells', Good r.2 cells' := by
  cases hfd : env.fd with
  | none =>
      rw [createBox, hfd]
      exact ⟨cells, h⟩
  | some fd =>
      rcases first_box clientInput.boxName.str cells with
        hnot | ⟨pre, a, box, post, hsplit, hname, _⟩
      · rcases createBox_absent h hnot hfd with
          ⟨b', hserve, hgood, _⟩ | ⟨b', hserve, hgood, _⟩
        · rw [hserve]
          exact ⟨cells, hgood⟩
        · rw [hserve]
          exact answered_ensures fun _ => ⟨_, hgood⟩
      · have hholds : HoldsBox b a box := by
          rw [h.holdsBox_iff, hsplit]
          exact List.mem_append_right pre List.mem_cons_self
        rw [hsplit] at h
        rcases createBox_existing h hname hfd with ⟨b', hserve, _⟩
        rw [hserve]
        refine answered_ensures fun hwrites => ?_
        have hsome : env.fd ≠ none := by simp [hfd]
        exact absurd hname (hnew hsome hwrites a box hholds)

theorem removeBox_good (h : Good b cells) (clientInput : Args) (env : Env) :
    Ensures HeapMisuse (removeBox clientInput env b) fun r => exists cells', Good r.2 cells' := by
  cases hfd : env.fd with
  | none =>
      rw [removeBox, iterateBox_chain h.chain, hfd]
      exact ⟨cells, h⟩
  | some fd =>
      rcases first_box clientInput.boxName.str cells with
        hnot | ⟨pre, a, box, post, hsplit, hname, _⟩
      · rcases removeBox_missing h hnot hfd with ⟨b', hserve, hgood, _⟩
        rw [hserve]
        exact answered_ensures fun _ => ⟨cells, hgood⟩
      · rw [hsplit] at h
        rcases removeBox_existing h hname hfd with ⟨b', hserve, hgood, _⟩
        rw [hserve]
        exact answered_ensures fun _ => ⟨_, hgood⟩

theorem regPublisher_good (h : Good b cells) (clientInput : Args) (env : Env) :
    Ensures HeapMisuse (regPublisher clientInput env b)
      fun r => exists cells', Good r.2 cells' := by
  cases hfd : env.fd with
  | none =>
      rw [regPublisher, hfd]
      exact ⟨cells, h⟩
  | some fd =>
      rcases first_box clientInput.boxName.str cells with
        hnot | ⟨pre, a, box, post, hsplit, hname, _⟩
      · rcases regPublisher_missing h hnot hfd with ⟨b', hserve, hgood, _⟩
        rw [hserve]
        exact ⟨cells, hgood⟩
      · rw [hsplit] at h
        have hsession := (regPublisher_existing h hname hfd).mono fun _ hheap => Or.inl hheap
        exact hsession.weaken fun _ hgood => ⟨_, hgood.right.left⟩

/-- A request that creates no box of the list keeps the list in order. -/
theorem serve_good (h : Good b cells) {request : Request} (hnew : CreatesNew b request) :
    Ensures HeapMisuse (serve request b) fun r => exists cells', Good r.2 cells' := by
  cases request with
  | createBox clientInput env => exact createBox_good h hnew
  | removeBox clientInput env => exact removeBox_good h clientInput env
  | regPublisher clientInput env => exact regPublisher_good h clientInput env
  | listBox clientInput env =>
      have hlist := (listBox_chain h clientInput env).mono heapMisuse_notExit
      exact hlist.weaken fun r hr => ⟨cells, hr.left.symm ▸ h⟩

/-- A request to create a box of the list leaves a freed node in it. -/
theorem createBox_dangling (h : Good b cells) {clientInput : Args} {env : Env}
    (hfd : env.fd ≠ none) (hwrites : env.writes 0 = true) {a : Nat} {box : Box}
    (hbox : HoldsBox b a box) (hname : box.boxName.str = clientInput.boxName.str) :
    exists events b', createBox clientInput env b = .ok (events, b') ∧ ¬ AllLive b' := by
  rcases Option.ne_none_iff_exists'.mp hfd with ⟨fd, hsome⟩
  rcases List.append_of_mem (h.holdsBox_iff.mp hbox) with ⟨pre, post, hsplit⟩
  rw [hsplit] at h
  rcases createBox_existing h hname hsome with ⟨b', hserve, hhead, hseg, hfreed, _⟩
  rw [answered, if_pos hwrites] at hserve
  refine ⟨_, b', hserve, fun hlive => ?_⟩
  have hreach : Reaches b'.boxes b'.head a := by
    rw [hhead]
    exact hseg.reaches fun _ hc => Reaches.head hc
  have hcell := hlive a hreach
  rw [Heap.Live, hfreed] at hcell
  cases hcell

theorem owned_iff (h : Good b cells) {request : Request} :
    Owned b request <-> CreatesNew b request := by
  constructor
  · intro howned
    cases request with
    | createBox clientInput env =>
        intro hfd hwrites a box hbox hname
        rcases createBox_dangling h hfd hwrites hbox hname with ⟨events, b', hserve, hnot⟩
        exact hnot (howned.live events b' hserve)
    | removeBox clientInput env => trivial
    | regPublisher clientInput env => trivial
    | listBox clientInput env => trivial
  · intro hnew
    have hgood := serve_good h hnew
    refine ⟨fun herror => hgood.not_bad herror ⟨_, rfl⟩, fun events b' hserve => ?_, ?_⟩
    · rcases hgood.value hserve with ⟨cells', hgood'⟩
      exact hgood'.allLive
    · intro clientInput env a box hrequest hbox hname events b' hserve
      rw [hrequest] at hnew hserve
      cases hfd : env.fd with
      | none =>
          rw [serve, createBox, hfd] at hserve
          cases hserve
          exact hbox
      | some fd =>
          have hsome : env.fd ≠ none := by simp [hfd]
          cases hwrites : env.writes 0 with
          | true => exact absurd hname (hnew hsome hwrites a box hbox)
          | false =>
              rcases List.append_of_mem (h.holdsBox_iff.mp hbox) with ⟨pre, post, hsplit⟩
              rw [hsplit] at h
              rcases createBox_existing h hname hfd with ⟨_, hexit, _⟩
              rw [serve, hexit, answered, hwrites] at hserve
              cases hserve

end Ownership

/-- The broker after the initialisation has no boxes and no files. -/
theorem good_start {mem : Mallocs} {fs0 fs : Fs} (hinit : tfsInit none mem fs0 = .ok (0, fs)) :
    Good (start fs) [] := by
  rcases idle_initial hinit with ⟨hidle, hnone⟩
  refine ⟨hidle, rfl, List.nodup_nil, ?_, ?_, ?_⟩
  · intro name hname
    cases hname
  · intro name _
    constructor
    · exact fun hnamed => absurd hnamed (hnone _)
    · intro hname
      cases hname
  · intro cell hcell
    cases hcell

/-- In a run from the start, the nodes are owned throughout exactly when every request
that the run makes creates no box of the list. -/
theorem runOwned_iff {mem : Mallocs} {fs0 fs : Fs} (hinit : tfsInit none mem fs0 = .ok (0, fs))
    (requests : List Request) :
    EveryCall serve Owned requests (start fs) <->
      EveryCall serve CreatesNew requests (start fs) := by
  apply everyCall_iff (P := fun b => exists cells, Good b cells)
  · rintro b request ⟨cells, hgood⟩
    exact owned_iff hgood
  · rintro b request events b' ⟨cells, hgood⟩ howned hserve
    exact (serve_good hgood ((owned_iff hgood).mp howned)).value hserve
  · exact ⟨[], good_start hinit⟩

/-- A file system with the default parameters. -/
def defaultFs : Fs := initFs tfsDefaultParams smallMallocs

theorem defaultInit : tfsInit none smallMallocs Fs.unset = .ok (0, defaultFs) := by
  have hinit : tfsInit (some tfsDefaultParams) smallMallocs Fs.unset = .ok (0, defaultFs) :=
    initFs_ok (by decide +kernel)
  exact hinit

/-- A client whose pipe opens and takes every answer. -/
def openEnv (reads : List Chunk) : Env where
  fd := some 3
  writes := fun _ => true
  behind := fun _ _ => 0
  node := ⟨⟨unexistent, 0, 0⟩, none⟩
  buffer := fun _ => 0
  reads := reads

/-- The arguments of a request for the box {lit}`/a`. -/
def argsA : Args where
  clientPipe := ⟨⟨ascii "pipe", by decide⟩, by decide⟩
  boxName := ⟨⟨ascii "/a", by decide⟩, by decide⟩

/-- A request to create {lit}`/a`. -/
def createA : Request := .createBox argsA (openEnv [])

/-- The outcome of the requests, from the start. -/
def served (requests : List Request) : Out (List (List Event) × State) :=
  runRequests requests (start defaultFs)

/-- The state after the requests. -/
def stateAfter (requests : List Request) : State :=
  match served requests with
  | .ok (_, b) => b
  | .error _ => start defaultFs

theorem served_ok {requests : List Request} (h : (served requests).isOk = true) :
    exists events, runRequests requests (start defaultFs) = .ok (events, stateAfter requests) := by
  cases hrun : served requests with
  | error e =>
      rw [hrun] at h
      cases h
  | ok result =>
      have hb : stateAfter requests = result.2 := by rw [stateAfter, hrun]
      exact ⟨result.1, by rw [hb]; exact hrun⟩

theorem served_next (requests : List Request) (request : Request) {events : List Event}
    {b : State} (h : (served requests).isOk = true)
    (hserve : serve request (stateAfter requests) = .ok (events, b)) :
    b = stateAfter (requests ++ [request]) := by
  rcases served_ok h with ⟨past, hrun⟩
  have hsnoc := run_snoc hrun hserve
  rw [stateAfter, served, runRequests, hsnoc]

theorem serve_after (requests : List Request) (request : Request)
    (h : (served requests).isOk = true)
    (hrequest : (serve request (stateAfter requests)).isOk = true) :
    exists events, serve request (stateAfter requests) =
      .ok (events, stateAfter (requests ++ [request])) := by
  cases hserve : serve request (stateAfter requests) with
  | error e =>
      rw [hserve] at hrequest
      cases hrequest
  | ok result => exact ⟨result.1, by rw [← served_next requests request h hserve]⟩

/-- Creating the box again frees its node. -/
theorem recreated_unowned : ¬ EveryCall serve Owned [createA, createA] (start defaultFs) := by
  rintro ⟨_, howned⟩
  rcases serve_after [] createA (by decide +kernel) (by decide +kernel) with ⟨past, hfirst⟩
  rcases serve_after [createA] createA (by decide +kernel) (by decide +kernel) with
    ⟨events, hsecond⟩
  have hlive := (howned past _ hfirst).left.live events _ hsecond
  have hfreed := hlive 0 (Reaches.head (by decide +kernel))
  have hdead : ¬ (stateAfter [createA, createA]).boxes.Live 0 := by decide +kernel
  exact hdead hfreed

/-- The box is created, and a publisher writes to it. -/
theorem runOwned_iff_published :
    EveryCall serve Owned [createA, .regPublisher argsA (openEnv [])] (start defaultFs) <->
      EveryCall serve CreatesNew [createA, .regPublisher argsA (openEnv [])]
        (start defaultFs) :=
  runOwned_iff defaultInit _

end Broker
end TecnicoFs
