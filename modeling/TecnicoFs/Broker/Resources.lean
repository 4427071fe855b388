import TecnicoFs.Broker.Answers

/-!
# Resources of the handlers

A handler opens the client's pipe, may open a file, and allocates a node when it
looks for a box.  Only some paths of the handlers give all of them back.
-/

namespace TecnicoFs
namespace Broker

open Library

/-- Every live node is linked. -/
def NoStray (b : State) : Prop := forall a, b.boxes.Live a -> Reaches b.boxes b.head a

/-- The handler gave back what it took: pipes and handles are closed once each time they
were opened, and every live node is linked. -/
structure GivenBack (events : List Event) (b : State) : Prop where
  pipes : forall fd, events.count (.closed fd) = events.count (.opened fd)
  handles : forall fh, .tfsOpened fh ∈ events ->
    events.count (.tfsClosed fh) = events.count (.tfsOpened fh)
  nodes : NoStray b

/-- The request is handled without a leak, or the process exits. -/
def Balanced (b : State) (request : Request) : Prop :=
  match serve request b with
  | .ok (events, b') => GivenBack events b'
  | .error stop => stop = .exit

/-- The pipe does not open, or the path of the handler that is taken has no leak: it
lists the boxes, looks for a box that does not exist, or fails to answer. -/
def LeakFree (b : State) : Request -> Prop
  | .createBox clientInput env => env.fd = none ∨ env.writes 0 = false ∧
      (InList b clientInput.boxName.str ∨ Creatable b.fs (some clientInput.boxName.str))
  | .removeBox clientInput env => env.fd = none ∨ env.writes 0 = false ∨
      ¬ InList b clientInput.boxName.str
  | .regPublisher clientInput env => env.fd = none ∨ ¬ InList b clientInput.boxName.str
  | .listBox _ _ => True

section Resources

variable {b b' : State} {cells pre post : List (Nat × Box)} {clientInput : Args} {env : Env}
  {fd : Nat} {events : List Event}

theorem balanced_ok (request : Request) (hserve : serve request b = .ok (events, b')) :
    Balanced b request <-> GivenBack events b' := by
  rw [Balanced, hserve]

theorem balanced_answered (request : Request)
    (hserve : serve request b = answered env events b') :
    Balanced b request <-> env.writes 0 = false ∨ GivenBack events b' := by
  rw [Balanced, hserve, answered]
  cases env.writes 0 <;> simp

/-- A pipe that is opened and closed a different number of times. -/
theorem not_balanced (fd : Nat) {request : Request} {closed opened : Nat}
    (hserve : (serve request b).toOption.map (fun r =>
      (r.1.count (.closed fd), r.1.count (.opened fd))) = some (closed, opened))
    (hne : closed ≠ opened) : ¬ Balanced b request := by
  intro hbalanced
  cases hr : serve request b with
  | error stop =>
      rw [hr] at hserve
      cases hserve
  | ok r =>
      rw [hr] at hserve
      have hpipes := ((balanced_ok request hr).mp hbalanced).pipes fd
      simp only [Except.toOption, Option.map_some, Option.some.injEq, Prod.mk.injEq] at hserve
      exact hne (by rw [← hserve.left, ← hserve.right, hpipes])

/-- The pipe does not open. -/
theorem NoStray.balanced (hstray : NoStray b) {request : Request}
    (hserve : serve request b = .ok ([], b)) : Balanced b request := by
  rw [balanced_ok request hserve]
  exact ⟨fun _ => rfl, fun _ hmem => absurd hmem List.not_mem_nil, hstray⟩

/-- No node is live that was not before. -/
theorem Good.noStray (h : Good b cells) (hstray : NoStray b) (h' : Good b' cells)
    (hlive : forall c, b'.boxes.Live c -> b.boxes.Live c) : NoStray b' := by
  intro a ha
  rw [h'.chain.reaches_iff]
  exact h.chain.reaches_iff.mp (hstray a (hlive a ha))

/-- A node that stays behind. -/
theorem Good.not_noStray (h' : Good b' cells) {a : Nat} (hlive : b'.boxes.Live a)
    (hnot : a ∉ addresses cells) : ¬ NoStray b' :=
  fun hstray => hnot (h'.chain.reaches_iff.mp (hstray a hlive))

theorem Good.inList_cases (h : Good b cells) (name : CStr) :
    ¬ InList b name ∧ name ∉ boxNames cells ∨ InList b name ∧
      exists pre a box post, cells = pre ++ (a, box) :: post ∧ box.boxName.str = name := by
  rcases first_box name cells with hnot | ⟨pre, a, box, post, hsplit, hname, _⟩
  · exact Or.inl ⟨fun hin => hnot (h.inList_iff.mp hin), hnot⟩
  · right
    refine ⟨h.inList_iff.mpr ?_, pre, a, box, post, hsplit, hname⟩
    rw [hsplit, boxNames_append, hname]
    simp

theorem createBox_balanced_iff (h : Good b cells) (hstray : NoStray b) :
    Balanced b (.createBox clientInput env) <-> LeakFree b (.createBox clientInput env) := by
  cases hfd : env.fd with
  | none =>
      have hserve : serve (.createBox clientInput env) b = .ok ([], b) := by
        rw [serve, createBox, hfd]
        rfl
      simp [LeakFree, hfd, hstray.balanced hserve]
  | some fd =>
      have hnotClosed : forall {events : List Event} {b' : State},
          events.count (.closed fd) ≠ events.count (.opened fd) -> ¬ GivenBack events b' :=
        fun hcount hback => hcount (hback.pipes fd)
      simp only [LeakFree, hfd, reduceCtorEq, false_or]
      rcases h.inList_cases clientInput.boxName.str with
        ⟨hnot, habsent⟩ | ⟨hin, pre, a, box, post, hsplit, hname⟩
      · rcases createBox_absent h habsent hfd with
          ⟨b', hserve, _, _, hfailed⟩ | ⟨b', hserve, _, _, hcreatable⟩
        · rw [balanced_ok (.createBox clientInput env) hserve]
          simp [hnot, hfailed, hnotClosed]
        · rw [balanced_answered (.createBox clientInput env) hserve]
          simp [hcreatable, hnotClosed, answerEvent]
      · rw [hsplit] at h
        rcases createBox_existing h hname hfd with ⟨b', hserve, _⟩
        rw [balanced_answered (.createBox clientInput env) hserve]
        simp [hin, hnotClosed, answerEvent]

theorem removeBox_balanced_iff (h : Good b cells) (hstray : NoStray b) :
    Balanced b (.removeBox clientInput env) <-> LeakFree b (.removeBox clientInput env) := by
  cases hfd : env.fd with
  | none =>
      have hserve : serve (.removeBox clientInput env) b = .ok ([], b) := by
        rw [serve, removeBox, iterateBox_chain h.chain, hfd]
        rfl
      simp [LeakFree, hfd, hstray.balanced hserve]
  | some fd =>
      simp only [LeakFree, hfd, reduceCtorEq, false_or]
      rcases h.inList_cases clientInput.boxName.str with
        ⟨hnot, habsent⟩ | ⟨hin, pre, a, box, post, hsplit, hname⟩
      · rcases removeBox_missing h habsent hfd with ⟨b', hserve, hgood, _, hlive⟩
        rw [balanced_answered (.removeBox clientInput env) hserve]
        have hback : GivenBack [.opened fd, answerEvent env fd (-1) (ascii "Box doesn't exist\n"),
            .closed fd] b' := by
          refine ⟨fun fd' => ?_, fun fh hmem => ?_, h.noStray hstray hgood hlive⟩
          · simp [answerEvent, List.count_cons]
          · simp [answerEvent] at hmem
        simp [hback, hnot]
      · rw [hsplit] at h
        rcases removeBox_existing h hname hfd with ⟨b', hserve, hgood, hlive⟩
        rw [balanced_answered (.removeBox clientInput env) hserve]
        have htop : b.boxes.top ∉ addresses (pre ++ post) := by
          intro hmem
          refine h.top_notMem ?_
          rw [addresses, List.map_append, List.mem_append] at hmem ⊢
          exact hmem.imp_right (List.mem_cons_of_mem a)
        have hleak : forall {events}, ¬ GivenBack events b' :=
          fun hback => hgood.not_noStray hlive htop hback.nodes
        simp [hin, hleak]

theorem regPublisher_balanced_iff (h : Good b cells) (hstray : NoStray b) :
    Balanced b (.regPublisher clientInput env) <->
      LeakFree b (.regPublisher clientInput env) := by
  cases hfd : env.fd with
  | none =>
      have hserve : serve (.regPublisher clientInput env) b = .ok ([], b) := by
        rw [serve, regPublisher, hfd]
        rfl
      simp [LeakFree, hfd, hstray.balanced hserve]
  | some fd =>
      simp only [LeakFree, hfd, reduceCtorEq, false_or]
      rcases h.inList_cases clientInput.boxName.str with
        ⟨hnot, habsent⟩ | ⟨hin, pre, a, box, post, hsplit, hname⟩
      · rcases regPublisher_missing h habsent hfd with ⟨b', hserve, hgood, hlive⟩
        rw [balanced_ok (.regPublisher clientInput env) hserve]
        refine ⟨fun _ => hnot, fun _ => ⟨fun fd' => ?_, fun fh hmem => ?_,
          h.noStray hstray hgood hlive⟩⟩
        · simp [List.count_cons]
        · simp at hmem
      · rw [hsplit] at h
        have hsession := regPublisher_existing h hname hfd
        refine ⟨fun hbalanced => ?_, fun hnot => absurd hin hnot⟩
        -- A session that ends has left the node that was allocated to look for the box.
        rw [Balanced, serve] at hbalanced
        cases hserve : regPublisher clientInput env b with
        | error stop =>
            rw [hserve] at hbalanced
            exact absurd (Or.inr hbalanced) (hsession.not_bad hserve)
        | ok r =>
            rw [hserve] at hbalanced
            rcases hsession.value hserve with ⟨_, hgood, hlive⟩
            exact absurd hbalanced.nodes (hgood.not_noStray hlive h.top_notMem)

theorem listBox_balanced (h : Good b cells) (hstray : NoStray b) :
    Balanced b (.listBox clientInput env) := by
  have hlist := listBox_chain h clientInput env
  rw [Balanced, serve]
  cases hserve : listBox clientInput env b with
  | error stop => exact not_not.mp (hlist.not_bad hserve)
  | ok r =>
      change GivenBack r.1 r.2
      rcases hlist.value hserve with ⟨hsame, ⟨_, hevents⟩ | ⟨fd, listings, _, hevents, hwrote⟩⟩
      · rw [hsame, hevents]
        exact ⟨fun _ => rfl, fun _ hmem => absurd hmem List.not_mem_nil, hstray⟩
      · have hother : forall event, (forall fd bytes, event ≠ .wrote fd bytes) ->
            event ∉ listings := by
          intro event hne hmem
          rcases hwrote event hmem with ⟨bytes, hbytes⟩
          exact hne fd bytes hbytes
        rw [hsame, hevents]
        refine ⟨fun fd' => ?_, fun fh hmem => ?_, hstray⟩
        · simp only [List.cons_append, List.count_cons, List.count_append, List.count_nil,
            List.count_eq_zero_of_not_mem (hother (.closed fd') (by simp)),
            List.count_eq_zero_of_not_mem (hother (.opened fd') (by simp))]
          by_cases hfd : fd = fd' <;> simp [hfd]
        · have hnot := hother (.tfsOpened fh) (by simp)
          simp [hnot] at hmem

/-- A request is handled without a leak exactly on the paths that have none. -/
theorem balanced_iff (h : Good b cells) (hstray : NoStray b) {request : Request} :
    Balanced b request <-> LeakFree b request := by
  cases request with
  | createBox clientInput env => exact createBox_balanced_iff h hstray
  | removeBox clientInput env => exact removeBox_balanced_iff h hstray
  | regPublisher clientInput env => exact regPublisher_balanced_iff h hstray
  | listBox clientInput env => exact ⟨fun _ => trivial, fun _ => listBox_balanced h hstray⟩

/-- Without a leak no linked node is freed. -/
theorem LeakFree.createsNew {request : Request} (h : LeakFree b request) :
    CreatesNew b request := by
  cases request with
  | createBox clientInput env =>
      intro hfd hwrites
      rcases h with hnone | ⟨hexit, _⟩
      · exact absurd hnone hfd
      · rw [hwrites] at hexit
        cases hexit
  | removeBox clientInput env => trivial
  | regPublisher clientInput env => trivial
  | listBox clientInput env => trivial

end Resources

/-- In a run from the start, every request is handled without a leak exactly when every
request that the run makes takes a path that has none. -/
theorem runBalanced_iff {mem : Mallocs} {fs0 fs : Fs}
    (hinit : tfsInit none mem fs0 = .ok (0, fs)) (requests : List Request) :
    EveryCall serve Balanced requests (start fs) <->
      EveryCall serve LeakFree requests (start fs) := by
  apply everyCall_iff (P := fun b => (exists cells, Good b cells) ∧ NoStray b)
  · rintro b request ⟨⟨cells, hgood⟩, hstray⟩
    exact balanced_iff hgood hstray
  · rintro b request events b' ⟨⟨cells, hgood⟩, hstray⟩ hbalanced hserve
    have hnew := ((balanced_iff hgood hstray).mp hbalanced).createsNew
    refine ⟨(serve_good hgood hnew).value hserve, ?_⟩
    exact ((balanced_ok request hserve).mp hbalanced).nodes
  · refine ⟨⟨[], good_start hinit⟩, fun a ha => ?_⟩
    cases ha

/-- The pipe of the client that created a box stays open. -/
theorem created_unbalanced : ¬ EveryCall serve Balanced [createA] (start defaultFs) :=
  not_everyCall [] (not_balanced 3 (by decide +kernel) Nat.zero_ne_one)

/-- A box is listed, and one that does not exist is removed. -/
theorem runBalanced_iff_missing :
    EveryCall serve Balanced [.listBox argsA (openEnv []), .removeBox argsA (openEnv [])]
        (start defaultFs) <->
      EveryCall serve LeakFree [.listBox argsA (openEnv []), .removeBox argsA (openEnv [])]
        (start defaultFs) :=
  runBalanced_iff defaultInit _

end Broker
end TecnicoFs
