import TecnicoFs.Broker.Overflows

/-!
# Agreement in every run

A request that is served leaves the list of boxes and the directory in agreement, until
one frees a node of the list.  The requests that are not served are the sessions whose
messages outgrow their array or whose buffer has no end; what they leave is undefined.
-/

namespace TecnicoFs
namespace Broker

open Library

/-- The request is served, unless the process exits, and the two stores agree after it. -/
def KeepsAgreement (b : State) (request : Request) : Prop :=
  AllLive b -> Ensures NotExit (serve request b) fun r =>
    AllLive r.2 -> exists cells, Agrees r.2 cells

/-- The messages of a session on a box of the list fit their array. -/
def ShortSession (b : State) : Request -> Prop
  | .regPublisher clientInput env => AllLive b -> env.fd ≠ none ->
      forall a box, HoldsBox b a box -> box.boxName.str = clientInput.boxName.str ->
        StaysShort ((List.range bufferSize).map env.buffer) env.reads
  | _ => True

section Upkeep

variable {b b' : State} {cells pre post : List (Nat × Box)} {a fd : Nat} {box : Box}
  {clientInput : Args} {env : Env} {request : Request} {events : List Event}

theorem answered_exits (env : Env) (events : List Event) (b : State) :
    Ensures NotExit (answered env events b) fun _ => True := by
  rw [answered]
  split
  · trivial
  · exact fun hnot => hnot rfl

theorem createBox_serves (h : Good b cells) :
    Ensures NotExit (createBox clientInput env b) fun _ => True := by
  cases hfd : env.fd with
  | none =>
      rw [createBox, hfd]
      trivial
  | some fd =>
      rcases first_box clientInput.boxName.str cells with
        hnot | ⟨pre, a, box, post, hsplit, hname, _⟩
      · rcases createBox_absent h hnot hfd with ⟨b', hserve, _⟩ | ⟨b', hserve, _⟩
        · rw [hserve]
          trivial
        · rw [hserve]
          exact answered_exits _ _ _
      · rw [hsplit] at h
        rcases createBox_existing h hname hfd with ⟨b', hserve, _⟩
        rw [hserve]
        exact answered_exits _ _ _

theorem removeBox_serves (h : Good b cells) :
    Ensures NotExit (removeBox clientInput env b) fun _ => True := by
  cases hfd : env.fd with
  | none =>
      rw [removeBox, iterateBox_chain h.chain, hfd]
      trivial
  | some fd =>
      rcases first_box clientInput.boxName.str cells with
        hnot | ⟨pre, a, box, post, hsplit, hname, _⟩
      · rcases removeBox_missing h hnot hfd with ⟨b', hserve, _⟩
        rw [hserve]
        exact answered_exits _ _ _
      · rw [hsplit] at h
        rcases removeBox_existing h hname hfd with ⟨b', hserve, _⟩
        rw [hserve]
        exact answered_exits _ _ _

/-- A session on a box of the list is served exactly when its messages fit. -/
theorem session_serves_iff (h : Good b (pre ++ (a, box) :: post)) (hfull : FullData b.fs)
    (hname : box.boxName.str = clientInput.boxName.str) (hfd : env.fd = some fd) :
    (Ensures NotExit (regPublisher clientInput env b) fun _ => True) <->
      StaysShort ((List.range bufferSize).map env.buffer) env.reads := by
  rcases h.name_mem hname with ⟨hmem, _⟩
  have hvalid := h.valid hmem
  rcases (h.named hvalid).mpr hmem with ⟨i, k, hlisted⟩
  rcases h.idle.steady.inv with ⟨made, hinv⟩
  rcases hinv.inode_of_listed hlisted with ⟨_, _, _, inode, hinode, _⟩
  rcases AtEnd.of_open h.idle hfull hvalid hlisted hinode with ⟨fs1, hopen, _, hend⟩
  rcases regPublisher_eq h hname hfd with ⟨boxes, _, _, heq⟩
  have hsession := publishLoop_busy hend.busy 0 env.reads
    ((List.range bufferSize).map env.buffer) emptyStr
  rw [heq fs1 hopen, ← publishLoop_ok_iff hend]
  cases hloop : publishLoop 0 env.reads ((List.range bufferSize).map env.buffer) emptyStr fs1 with
  | error stop =>
      constructor
      · intro hserves
        have hexit : stop = .exit := not_not.mp hserves
        exact absurd (Or.inr hexit) (hsession.not_bad hloop)
      · rintro ⟨_, ⟨⟩⟩
  | ok fs2 =>
      rcases close_busy (hsession.value hloop).left with ⟨fs3, hclose, _⟩
      refine ⟨fun _ => ⟨fs2, rfl⟩, fun _ => ?_⟩
      simp only [ok_bind, hclose, ofFs_ok]
      trivial

theorem regPublisher_serves_iff (h : Good b cells) (hfull : FullData b.fs) :
    (Ensures NotExit (regPublisher clientInput env b) fun _ => True) <->
      ShortSession b (.regPublisher clientInput env) := by
  cases hfd : env.fd with
  | none =>
      constructor
      · intro _ _ hsome
        exact absurd hfd hsome
      · intro _
        rw [regPublisher, hfd]
        trivial
  | some fd =>
      rcases first_box clientInput.boxName.str cells with
        hnot | ⟨pre, a, box, post, hsplit, hname, _⟩
      · rcases regPublisher_missing h hnot hfd with ⟨b', hserve, _⟩
        rw [hserve]
        refine ⟨fun _ _ _ a box hbox hname => ?_, fun _ => trivial⟩
        have hmem : box.boxName.str ∈ boxNames cells :=
          List.mem_map_of_mem (h.holdsBox_iff.mp hbox)
        exact absurd (hname ▸ hmem) hnot
      · have hbox : HoldsBox b a box := by
          rw [h.holdsBox_iff, hsplit]
          exact List.mem_append_right pre List.mem_cons_self
        have hlive := h.allLive
        rw [hsplit] at h
        rw [session_serves_iff h hfull hname hfd]
        constructor
        · intro hshort _ _ _ _ _ _
          exact hshort
        · intro hshort
          exact hshort hlive (by simp [hfd]) a box hbox hname

/-- A request is served exactly when it is not a session with a message that does not
fit. -/
theorem serves_iff (h : Good b cells) (hfull : FullData b.fs) :
    (Ensures NotExit (serve request b) fun _ => True) <-> ShortSession b request := by
  cases request with
  | regPublisher clientInput env => exact regPublisher_serves_iff h hfull
  | createBox clientInput env => exact ⟨fun _ => trivial, fun _ => createBox_serves h⟩
  | removeBox clientInput env => exact ⟨fun _ => trivial, fun _ => removeBox_serves h⟩
  | listBox clientInput env =>
      exact ⟨fun _ => trivial, fun _ => (listBox_chain h clientInput env).weaken fun _ _ => trivial⟩

/-- A request that is served leaves the two stores in agreement. -/
theorem Good.serve_agrees (h : Good b cells) (hserve : serve request b = .ok (events, b'))
    (hlive : AllLive b') : exists cells', Agrees b' cells' := by
  rcases h.serve_cases hserve with ⟨cells', hgood⟩ | ⟨pre, a, hdangling⟩
  · exact ⟨cells', hgood.agrees⟩
  · exact absurd hlive hdangling.not_allLive

theorem keepsAgreement_iff (hreach : Reachable b) :
    KeepsAgreement b request <-> ShortSession b request := by
  rcases hreach.cases with ⟨cells, h⟩ | ⟨pre, a, hdangling⟩
  · rw [← serves_iff h hreach.fullData]
    constructor
    · intro hkeeps
      exact (hkeeps h.allLive).weaken fun _ _ => trivial
    · intro hserves _
      cases hserve : serve request b with
      | error stop =>
          rw [hserve] at hserves
          exact hserves
      | ok r => exact h.serve_agrees hserve
  · have hnot := hdangling.not_allLive
    refine ⟨fun _ => ?_, fun _ hlive => absurd hlive hnot⟩
    cases request with
    | regPublisher clientInput env => exact fun hlive => absurd hlive hnot
    | createBox clientInput env => trivial
    | removeBox clientInput env => trivial
    | listBox clientInput env => trivial

/-- In every run, up to the first free of a node of the list, every request is served and
leaves the list of boxes and the directory in agreement exactly when the messages of all
its sessions fit. -/
theorem runAgrees_iff {mem : Mallocs} {fs0 fs : Fs} (hinit : tfsInit none mem fs0 = .ok (0, fs))
    (requests : List Request) :
    EveryCall serve KeepsAgreement requests (start fs) <->
      EveryCall serve ShortSession requests (start fs) := by
  apply everyCall_iff (P := Reachable)
  · exact fun hreach => keepsAgreement_iff hreach
  · exact fun hreach _ hserve => hreach.serve hserve
  · exact reachable_start hinit

end Upkeep

/-- The buffer of an open session on {lit}`/a` has been cleared. -/
theorem openEnv_buffer (reads : List Chunk) :
    (List.range bufferSize).map (openEnv reads).buffer = List.replicate bufferSize 0 := by
  simp [openEnv, List.map_const']

theorem createA_served : exists events,
    serve createA (start defaultFs) = .ok (events, stateAfter [createA]) :=
  serve_after [] createA (by decide +kernel) (by decide +kernel)

/-- A session with a publisher's line of 1023 bytes, whose last one comes by itself. -/
def publishLong : Request := .regPublisher argsA (openEnv [longChunk, restChunk])

/-- The second message of the session does not fit. -/
theorem runAgrees_long :
    ¬ EveryCall serve KeepsAgreement [createA, publishLong] (start defaultFs) := by
  rcases createA_served with ⟨events, hserve⟩
  refine not_everyCall_next hserve (not_everyCall [] ?_)
  rw [keepsAgreement_iff createdA_reachable.left]
  intro hshort
  simp only [publishLong, ShortSession, openEnv_buffer] at hshort
  exact not_staysShort_long
    (hshort createdA_reachable.right (by simp [openEnv]) 0 boxA boxA_held rfl)

/-- A session with a short message and an empty line. -/
def publishA : Request := .regPublisher argsA (openEnv [hiChunk, blankChunk])

/-- A box is created and published to. -/
theorem runAgrees_published :
    EveryCall serve KeepsAgreement [createA, publishA] (start defaultFs) := by
  refine (runAgrees_iff defaultInit _).mpr ⟨trivial, fun events b _ => ⟨?_, fun _ _ _ => trivial⟩⟩
  intro _ _ a box _ _
  rw [openEnv_buffer]
  exact staysShort_hi

end Broker
end TecnicoFs
