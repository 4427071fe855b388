import TecnicoFs.Broker.Agreement

/-!
# Answers to managers

A manager waits for the answer to its request.  A request to create or remove a box
is answered truthfully unless it is one to create a box that exists, whose node is
freed, or one to create a box whose file cannot be created, which is not answered.
-/

namespace TecnicoFs
namespace Broker

open Library

/-- A linked node holds the box of this name. -/
def InList (b : State) (name : CStr) : Prop :=
  exists a box, HoldsBox b a box ∧ box.boxName.str = name

/-- The root directory has the file of this path. -/
def InDirectory (fs : Fs) (name : CStr) : Prop :=
  validPathname (some name) = true ∧ Named fs (skipSlash (some name))

/-- The first node and every linked node are the same. -/
structure SameRegistry (b b' : State) : Prop where
  head : b'.head = b.head
  nodes : forall a, Reaches b.boxes b.head a -> b'.boxes.cell a = b.boxes.cell a

def SameDirectory (fs fs' : Fs) : Prop :=
  forall i name k, Listed fs' i name k <-> Listed fs i name k

/-- What the handlers write to the pipes of clients. -/
def written : Event -> Option (Nat × List UInt8)
  | .wrote fd bytes => some (fd, bytes)
  | _ => none

/-- One frame is written, an answer with this return code. -/
def Answers (fd : Nat) (returnCode : Int) (events : List Event) : Prop :=
  exists text behind, events.filterMap written =
    [(fd, frame (serializeAnswer answerCreateBox returnCode text) behind)]

/-- The request did what it is for, in both stores. -/
def TookEffect (b b' : State) : Request -> Prop
  | .createBox clientInput _ =>
      (¬ InList b clientInput.boxName.str ∧ ¬ InDirectory b.fs clientInput.boxName.str) ∧
        InList b' clientInput.boxName.str ∧ InDirectory b'.fs clientInput.boxName.str
  | .removeBox clientInput _ =>
      (InList b clientInput.boxName.str ∧ InDirectory b.fs clientInput.boxName.str) ∧
        ¬ InList b' clientInput.boxName.str ∧ ¬ InDirectory b'.fs clientInput.boxName.str
  | _ => False

/-- The request is handled, and its one answer says what it did. -/
def Truthful (b : State) (request : Request) (fd : Nat) : Prop :=
  exists events b' returnCode, serve request b = .ok (events, b') ∧
    Answers fd returnCode events ∧ (returnCode = 0 ∨ returnCode = -1) ∧
    (returnCode = 0 <-> TookEffect b b' request) ∧
    (returnCode = -1 -> SameRegistry b b' ∧ SameDirectory b.fs b'.fs)

/-- The pipe takes the answer, and the request is not one to create a box that exists
or that cannot be created. -/
def Answerable (b : State) : Request -> Prop
  | .createBox clientInput env => env.writes 0 = true ∧
      ¬ InList b clientInput.boxName.str ∧ Creatable b.fs (some clientInput.boxName.str)
  | .removeBox _ env => env.writes 0 = true
  | _ => False

section Answers

variable {b b' : State} {cells pre post : List (Nat × Box)} {clientInput : Args} {env : Env}
  {fd : Nat} {name : CStr}

theorem Good.inList_iff (h : Good b cells) : InList b name <-> name ∈ boxNames cells := by
  constructor
  · rintro ⟨a, box, hholds, hname⟩
    exact List.mem_map.mpr ⟨(a, box), h.holdsBox_iff.mp hholds, hname⟩
  · intro hmem
    rcases List.mem_map.mp hmem with ⟨⟨a, box⟩, hcell, hname⟩
    exact ⟨a, box, h.holdsBox_iff.mpr hcell, hname⟩

theorem Good.inDirectory_iff (h : Good b cells) :
    InDirectory b.fs name <-> name ∈ boxNames cells :=
  ⟨fun hin => (h.named hin.left).mp hin.right,
    fun hmem => ⟨h.valid hmem, (h.named (h.valid hmem)).mpr hmem⟩⟩

theorem Good.sameRegistry (h : Good b cells) (h' : Good b' cells) : SameRegistry b b' := by
  rcases Chain.same h.chain h'.chain with ⟨hhead, hnodes⟩
  exact ⟨hhead, fun a ha => hnodes a (h.chain.reaches_iff.mp ha)⟩

theorem Good.not_inList_delete {a : Nat} {box : Box} (h : Good b (pre ++ (a, box) :: post))
    (hname : box.boxName.str = name) : name ∉ boxNames (pre ++ post) := by
  have hnodup := h.nodup
  rw [boxNames_append, hname, List.nodup_middle, List.nodup_cons] at hnodup
  rw [boxNames, List.map_append]
  exact hnodup.left

/-- A freed node was not freed before. -/
theorem SameRegistry.live (h : SameRegistry b b') {a : Nat} (hreach : Reaches b.boxes b.head a)
    (hlive : b.boxes.Live a) : b'.boxes.Live a := by
  rw [Heap.Live, h.nodes a hreach]
  exact hlive

/-- A request to create a box of the list is not answered truthfully if it frees the
node of a box. -/
theorem not_truthful_of_freed (hin : InList b clientInput.boxName.str)
    (hfreed : forall events b', createBox clientInput env b = .ok (events, b') ->
      exists a, Reaches b.boxes b.head a ∧ b.boxes.Live a ∧ ¬ b'.boxes.Live a) :
    ¬ Truthful b (.createBox clientInput env) fd := by
  rintro ⟨events, b', returnCode, hserve, _, hcode, heffect, hsame⟩
  rcases hcode with hzero | hminus
  · exact (heffect.mp hzero).left.left hin
  · rcases hfreed events b' hserve with ⟨a, hreach, hlive, hnot⟩
    exact hnot ((hsame hminus).left.live hreach hlive)

theorem Dangling.holdsBox {a c : Nat} {box : Box}
    (h : Dangling b (pre ++ (c, box) :: post) a) : HoldsBox b c box := by
  rcases Segment.append.mp h.segment with ⟨r, hpre, hr, n, hcell, _⟩
  rw [hr] at hpre
  exact ⟨hpre.reaches fun _ hc => Reaches.head hc, n, hcell⟩

theorem Dangling.not_truthful {a : Nat} (h : Dangling b pre a) (hfd : env.fd = some fd) :
    ¬ Truthful b (.createBox clientInput env) fd := by
  have hfreed : forall events b', Broker.createBox clientInput env b = .ok (events, b') ->
      InList b clientInput.boxName.str ∧
        exists c, Reaches b.boxes b.head c ∧ b.boxes.Live c ∧ ¬ b'.boxes.Live c := by
    intro events b' hserve
    rcases h.createBox_opened hfd hserve with ⟨pre1, c, box, post, hsplit, hname, hdangling⟩
    rw [hsplit] at h
    have hholds := h.holdsBox
    rcases hholds with ⟨hreach, n, hcell⟩
    refine ⟨⟨c, box, h.holdsBox, hname⟩, c, hreach, Heap.live_of_cell hcell, ?_⟩
    rw [Heap.Live, hdangling.freed]
    exact Bool.false_ne_true
  intro htruthful
  have hserve := htruthful
  rcases hserve with ⟨events, b', _, hserve, _⟩
  exact not_truthful_of_freed (hfreed events b' hserve).left
    (fun events b' hserve => (hfreed events b' hserve).right) htruthful

theorem Good.not_truthful (h : Good b cells) (hfd : env.fd = some fd)
    (hin : InList b clientInput.boxName.str) :
    ¬ Truthful b (.createBox clientInput env) fd := by
  refine not_truthful_of_freed hin fun events b' hserve => ?_
  rcases hin with ⟨a, box, hholds, hname⟩
  rcases List.append_of_mem (h.holdsBox_iff.mp hholds) with ⟨pre, post, hsplit⟩
  rw [hsplit] at h
  rcases createBox_existing h hname hfd with ⟨b1, hserve1, _, _, hfreed, _⟩
  rcases hholds with ⟨hreach, n, hcell⟩
  refine ⟨a, hreach, Heap.live_of_cell hcell, ?_⟩
  rw [hserve1, answered] at hserve
  split at hserve
  · cases hserve
    rw [Heap.Live, hfreed]
    exact Bool.false_ne_true
  · cases hserve

/-- What the outcome of a handler with a single frame is. -/
theorem answered_ok {events events' : List Event} {b1 : State}
    (h : answered env events b1 = .ok (events', b')) :
    env.writes 0 = true ∧ events' = events ∧ b' = b1 := by
  rw [answered] at h
  split at h
  · cases h
    exact ⟨by assumption, rfl, rfl⟩
  · cases h

theorem createBox_truthful_iff (h : Good b cells) (hfd : env.fd = some fd) :
    Truthful b (.createBox clientInput env) fd <-> Answerable b (.createBox clientInput env) := by
  by_cases hin : InList b clientInput.boxName.str
  · exact ⟨fun htruthful => absurd htruthful (h.not_truthful hfd hin),
      fun hdue => absurd hin hdue.right.left⟩
  · have hnot : clientInput.boxName.str ∉ boxNames cells := fun hmem => hin (h.inList_iff.mpr hmem)
    rcases createBox_absent h hnot hfd with
      ⟨b1, hserve, _, _, hfailed⟩ | ⟨b1, hserve, hgood, _, hcreatable⟩
    · refine ⟨fun htruthful => ?_, fun hdue => absurd hdue.right.right hfailed⟩
      -- No frame is written when the file cannot be created.
      rcases htruthful with ⟨events, b', returnCode, hserve', ⟨text, behind, hwritten⟩, _⟩
      rw [serve, hserve] at hserve'
      cases hserve'
      cases hwritten
    · constructor
      · rintro ⟨events, b', returnCode, hserve', _⟩
        rw [serve, hserve] at hserve'
        exact ⟨(answered_ok hserve').left, hin, hcreatable⟩
      · rintro ⟨hwrites, _, _⟩
        rw [answered, if_pos hwrites] at hserve
        have hmem : clientInput.boxName.str ∈
            boxNames (cells ++ [(b.boxes.top, ⟨clientInput.boxName, 0, 0⟩)]) := by
          rw [boxNames_append]
          simp
        refine ⟨_, b1, 0, hserve, ⟨[], env.behind 0, rfl⟩, Or.inl rfl, ?_, fun hcode => ?_⟩
        · refine ⟨fun _ => ⟨⟨hin, ?_⟩, hgood.inList_iff.mpr hmem, hgood.inDirectory_iff.mpr hmem⟩,
            fun _ => rfl⟩
          exact fun hdir => hnot (h.inDirectory_iff.mp hdir)
        · cases hcode

theorem removeBox_truthful_iff (h : Good b cells) (hfd : env.fd = some fd) :
    Truthful b (.removeBox clientInput env) fd <-> Answerable b (.removeBox clientInput env) := by
  rcases first_box clientInput.boxName.str cells with
    hnot | ⟨pre, a, box, post, hsplit, hname, _⟩
  · rcases removeBox_missing h hnot hfd with ⟨b1, hserve, hgood, hfs, _⟩
    constructor
    · rintro ⟨events, b', returnCode, hserve', _⟩
      rw [serve, hserve] at hserve'
      exact (answered_ok hserve').left
    · intro hwrites
      rw [answered, if_pos (show env.writes 0 = true from hwrites)] at hserve
      refine ⟨_, b1, -1, hserve, ⟨_, env.behind 0, rfl⟩, Or.inr rfl, ⟨fun hcode => ?_, ?_⟩, ?_⟩
      · cases hcode
      · exact fun heffect => absurd (h.inList_iff.mp heffect.left.left) hnot
      · refine fun _ => ⟨h.sameRegistry hgood, fun i name k => ?_⟩
        rw [hfs]
  · rw [hsplit] at h
    rcases removeBox_existing h hname hfd with ⟨b1, hserve, hgood, _⟩
    constructor
    · rintro ⟨events, b', returnCode, hserve', _⟩
      rw [serve, hserve] at hserve'
      exact (answered_ok hserve').left
    · intro hwrites
      rw [answered, if_pos (show env.writes 0 = true from hwrites)] at hserve
      have hmem := (h.name_mem hname).left
      have hgone := h.not_inList_delete hname
      refine ⟨_, b1, 0, hserve, ⟨[], env.behind 0, rfl⟩, Or.inl rfl, ?_, fun hcode => ?_⟩
      · refine ⟨fun _ => ⟨⟨h.inList_iff.mpr hmem, h.inDirectory_iff.mpr hmem⟩, ?_, ?_⟩,
          fun _ => rfl⟩
        · exact fun hin => hgone (hgood.inList_iff.mp hin)
        · exact fun hin => hgone (hgood.inDirectory_iff.mp hin)
      · cases hcode

end Answers

/-- In a reachable state, a request of a manager whose pipe opens is answered
truthfully exactly when no linked node is freed and the request is answerable. -/
theorem truthful_iff {b : State} (hreachable : Reachable b) {request : Request}
    {clientInput : Args} {env : Env} {fd : Nat}
    (hmanager : request = .createBox clientInput env ∨ request = .removeBox clientInput env)
    (hfd : env.fd = some fd) :
    Truthful b request fd <-> AllLive b ∧ Answerable b request := by
  rcases hreachable.cases with ⟨cells, hgood⟩ | ⟨pre, a, hdangling⟩
  · have hlive := hgood.allLive
    rcases hmanager with hrequest | hrequest
    · rw [hrequest, createBox_truthful_iff hgood hfd]
      exact ⟨fun hdue => ⟨hlive, hdue⟩, And.right⟩
    · rw [hrequest, removeBox_truthful_iff hgood hfd]
      exact ⟨fun hdue => ⟨hlive, hdue⟩, And.right⟩
  · have hlive := hdangling.not_allLive
    refine ⟨fun htruthful => ?_, fun hdue => absurd hdue.left hlive⟩
    rcases hmanager with hrequest | hrequest
    · rw [hrequest] at htruthful
      exact absurd htruthful (hdangling.not_truthful hfd)
    · rw [hrequest] at htruthful
      rcases htruthful with ⟨events, b', _, hserve, _⟩
      rcases bind_eq_ok.mp hserve with ⟨u, hiterate, _⟩
      exact absurd (ofHeap_eq_ok.mp hiterate) hdangling.not_iterate

/-- The name {lit}`/`, of no file. -/
def slash : CharArray boxNameSize := ⟨⟨ascii "/", by decide⟩, by decide⟩

/-- A request to create the box {lit}`/`. -/
def createSlash : Request := .createBox { argsA with boxName := slash } (openEnv [])

/-- A manager whose box cannot be created gets no answer. -/
theorem createSlash_unanswered : ¬ Truthful (start defaultFs) createSlash 3 := by
  have hevents : (serve createSlash (start defaultFs)).toOption.map Prod.fst =
      some [.opened 3] := by decide +kernel
  rintro ⟨events, b', returnCode, hserve, ⟨text, behind, hwritten⟩, _⟩
  rw [hserve] at hevents
  cases hevents
  cases hwritten

/-- The first request creates {lit}`/a`. -/
theorem truthful_iff_createA : Truthful (start defaultFs) createA 3 <->
    AllLive (start defaultFs) ∧ Answerable (start defaultFs) createA :=
  truthful_iff (reachable_start defaultInit) (Or.inl rfl) rfl

end Broker
end TecnicoFs
