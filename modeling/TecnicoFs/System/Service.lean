import TecnicoFs.Library.Service
import TecnicoFs.System.Jobs
import TecnicoFs.System.Subscription

/-!
# The broker and its clients

Clients write their requests to the register pipe in any order while the broker serves
them.  All that the broker has of a request is the bytes of a frame: it scans them, opens the
pipe that they name, and talks to whoever waits there.  The clients print what the abstract
broker lets them print, and go on to their next runs.
-/

namespace TecnicoFs
namespace System

open Library
open Broker

/-!
## Clients
-/

inductive Program where
  | manager
  | publisher
  | subscriber

/-- What a program prints when it is sent these bytes.  A manager that is sent nothing waits:
the broker keeps the pipe open.  It reads every frame by itself. -/
inductive Program.Shows : Program -> List (List UInt8) -> Option (List (List UInt8)) -> Prop where
  | waits : Program.Shows .manager [] none
  | prints {frames lines : List (List UInt8)} {reads : List Chunk} {buffer : List UInt8}
      {l : Clients.Locals} : frames ≠ [] -> Clients.WholeListing buffer frames reads ->
      Clients.answer reads buffer l = .ok lines -> Program.Shows .manager frames (some lines)
  | publishes {frames : List (List UInt8)} : Program.Shows .publisher frames (some [])
  | receives {messages : List (List UInt8)} {reads : List Chunk} {lines : List CStr} :
      (reads.map Chunk.bytes).flatten = messages.flatten ->
      Clients.subscriberLoop reads = .ok lines ->
      Program.Shows .subscriber messages (some (lines.map fun line => line.bytes ++ [10]))

/-- Who is at the other end of a client's pipe, and what the broker gets from there. -/
structure Peer where
  program : Program
  env : Env
  subscriberEnv : SubscriberEnv

/-- The client of this job is there.  It opens its pipe.  A manager takes its answers, and
the broker reads a publisher's messages one by one.  A subscriber takes its messages, nobody
uses the files in its session, and the byte behind the box in the session's buffer is zero. -/
def Job.Meets (job : Job) (peer : Peer) (b : State) : Prop :=
  match job.purpose with
  | .publish input => peer.program = .publisher ∧ peer.env.fd.isSome = true ∧
      WholeReads ((List.range bufferSize).map peer.env.buffer) (Clients.inputLines input)
        peer.env.reads
  | .subscribe => peer.program = .subscriber ∧ peer.subscriberEnv.fd.isSome = true ∧
      (forall poll, poll ∈ peer.subscriberEnv.polls ->
        Quiet poll ∧ forall n, poll.writes n = true) ∧
      forall content, fileContent b.fs (skipSlash (some job.name)) = some content ->
        peer.subscriberEnv.buffer content.length = 0
  | _ => peer.program = .manager ∧ peer.env.fd.isSome = true ∧
      forall n, peer.env.writes n = true

/-!
## The broker
-/

/-- What a call sends to its client, and the state that it leaves.  A session that goes on
has no outcome. -/
def outcome : Reaction -> Option (Out (List (List UInt8) × State))
  | .served (.ok (events, b)) => some (.ok (framesOf events, b))
  | .served (.error stop) => some (.error stop)
  | .subscribed (actions, .done b) => some (.ok (sentBytes actions, b))
  | .subscribed (_, .stopped stop) => some (.error stop)
  | .subscribed (_, .waiting _) => none

/-- A call removes the client's pipe. -/
def unlinks (pipe : CStr) : Reaction -> Bool
  | .served (.ok (events, _)) => decide (.unlinked pipe ∈ events)
  | .served (.error _) => false
  | .subscribed (actions, _) => decide (.handled (.unlinked pipe) ∈ actions)

/-- What becomes of a client with these lines, if it has any. -/
def Output.of (lines : Option (List (List UInt8))) (removed : Bool) : Output :=
  match lines with
  | none => .waits
  | some lines => .prints lines removed

/-- A turn of the main loop on the bytes of the register pipe.  The client that waits at the
pipe of the request gets an output.  If nobody does, the pipe cannot be opened. -/
inductive Handles (waits : CStr -> Job -> Prop) (bytes : List UInt8) (s : MainState × State) :
    Out (Option (CStr × Output) × (MainState × State)) -> Prop where
  | stopped {stop : Stop} : mainTurn (readFrame bytes) s.1 = .error stop ->
      Handles waits bytes s (.error stop)
  | ignored {main : MainState} : mainTurn (readFrame bytes) s.1 = .ok (none, main) ->
      Handles waits bytes s (.ok (none, (main, s.2)))
  | absent {call : Handler × Args} {main : MainState} {peer : Peer}
      {sent : List (List UInt8)} {b : State} :
      mainTurn (readFrame bytes) s.1 = .ok (some call, main) ->
      (forall job, ¬ waits call.2.clientPipe.str job) -> peer.env.fd = none ->
      peer.subscriberEnv.fd = none ->
      outcome (react peer.env peer.subscriberEnv s.2 call) = some (.ok (sent, b)) ->
      Handles waits bytes s (.ok (none, (main, b)))
  | failed {call : Handler × Args} {main : MainState} {job : Job} {peer : Peer} {stop : Stop} :
      mainTurn (readFrame bytes) s.1 = .ok (some call, main) ->
      waits call.2.clientPipe.str job -> job.Meets peer s.2 ->
      outcome (react peer.env peer.subscriberEnv s.2 call) = some (.error stop) ->
      Handles waits bytes s (.error stop)
  | served {call : Handler × Args} {main : MainState} {job : Job} {peer : Peer}
      {reaction : Reaction} {sent : List (List UInt8)} {b : State}
      {lines : Option (List (List UInt8))} :
      mainTurn (readFrame bytes) s.1 = .ok (some call, main) ->
      waits call.2.clientPipe.str job -> job.Meets peer s.2 ->
      react peer.env peer.subscriberEnv s.2 call = reaction ->
      outcome reaction = some (.ok (sent, b)) -> peer.program.Shows sent lines ->
      Handles waits bytes s
        (.ok (some (call.2.clientPipe.str,
          Output.of lines (unlinks call.2.clientPipe.str reaction)), (main, b)))

/-- The register pipe, between the clients' writes of 400 bytes and the main loop.  The name
of a personal pipe is free when {lit}`mkfifo` makes it: nobody can use the register pipe. -/
def register (registerPipe : CharArray pipeNameSize) :
    Protocol Job CStr Output (MainState × State) Stop where
  frameSize := Broker.frameSize
  pos := by decide
  nameOf := Job.pipeName
  reserved := fun pipe => pipe = registerPipe.str
  encodes job bytes :=
    exists text behind, job.request registerPipe.str = .ok text ∧ bytes = frame text behind
  length_eq := by
    rintro job bytes ⟨text, behind, _, heq⟩
    rw [heq]
    exact frame_length text behind
  handles := Handles
  ends output := exists lines removed, output = .prints lines removed
  keeps output := forall lines, output ≠ .prints lines true
  ends_of_gone := by
    intro output hgone
    cases output with
    | waits => exact absurd (fun lines => Output.noConfusion) hgone
    | prints lines removed => exact ⟨lines, removed, rfl⟩

/-!
## Printing
-/

section Printing

variable {events : List Event} {frames lines : List (List UInt8)}
  {output : Option (List (List UInt8))}

theorem shows_manager (h : Shown events lines) :
    Program.manager.Shows (framesOf events) output <-> output = some lines := by
  constructor
  · intro hshows
    generalize hframes : framesOf events = frames at hshows
    cases hshows with
    | waits => exact absurd hframes h.answered
    | prints _ hreads hanswer =>
        rw [← hframes] at hreads
        rw [h.prints _ _ _ hreads] at hanswer
        cases hanswer
        rfl
  · intro houtput
    rcases exists_whole h.answered h.framed [] with ⟨reads, hreads⟩
    rw [houtput]
    exact Program.Shows.prints h.answered hreads (h.prints reads [] Clients.unsetLocals hreads)

theorem shows_waiting : Program.manager.Shows [] output <-> output = none := by
  constructor
  · intro hshows
    cases hshows with
    | waits => rfl
    | prints hne _ _ => exact absurd rfl hne
  · intro houtput
    rw [houtput]
    exact Program.Shows.waits

theorem shows_publisher : Program.publisher.Shows frames output <-> output = some [] := by
  constructor
  · intro hshows
    cases hshows
    rfl
  · intro houtput
    rw [houtput]
    exact Program.Shows.publishes

/-- A subscriber whose pipe ends at once prints nothing. -/
theorem shows_refused : Program.subscriber.Shows [] output <-> output = some [] := by
  constructor
  · intro hshows
    cases hshows with
    | receives hreads hloop =>
        rw [Clients.reads_nil hreads] at hloop
        cases hloop
        rfl
  · intro houtput
    rw [houtput]
    exact @Program.Shows.receives [] [] [] rfl rfl

end Printing

/-!
## Serving
-/

section Serving

variable {job : Job} {peer : Peer} {b b' : State} {a : AbstractBroker} {clientInput : Args}
  {env : Env} {subscriberEnv : SubscriberEnv} {fd : Nat} {events : List Event}
  {lines : List InputLine} {request : Request} {output : Option (List (List UInt8))}

/-- The manager that creates a box hears of a success only. -/
theorem shows_created {name : CStr} (hnot : name ∉ a.names) (hframes : WritesFrames events)
    (htexts : sentTexts events = (a.createBox name).1) :
    Program.manager.Shows (framesOf events) output <-> output =
      if validPathname (some name) = true ∧ a.boxes.length < AbstractBroker.capacity then
        some [ascii "OK\n"]
      else none := by
  rw [AbstractBroker.createBox, dif_pos hnot] at htexts
  split at htexts
  · rename_i hvalid
    split at htexts
    · rename_i hroom
      rw [if_pos ⟨hvalid, hroom⟩]
      exact shows_manager (shown_success hframes htexts)
    · rename_i hfull
      rw [if_neg fun hboth => hfull hboth.right, framesOf_silent htexts]
      exact shows_waiting
  · rename_i hinvalid
    rw [if_neg fun hboth => hinvalid hboth.left, framesOf_silent htexts]
    exact shows_waiting

/-- The pipe stays, so a manager hears whether there was a success. -/
theorem created_output {a : AbstractBroker} {name : CStr} : Output.of
    (if validPathname (some name) = true ∧ a.boxes.length < AbstractBroker.capacity then
      some [ascii "OK\n"]
    else none) false =
    if validPathname (some name) = true ∧ a.boxes.length < AbstractBroker.capacity then
      .prints [ascii "OK\n"] false
    else .waits := by
  split <;> rfl

/-- Texts that are delivered are the messages of the reads. -/
theorem delivered_own {reads : List Chunk} {texts : List CStr}
    (h : List.Forall₂ Delivers reads texts) :
    reads.map ownMessage = texts ∧
      forall read, read ∈ reads -> Delivers read (ownMessage read) := by
  induction h with
  | nil => exact ⟨rfl, fun read hmem => absurd hmem List.not_mem_nil⟩
  | @cons read text reads texts hread _ ih =>
      refine ⟨by rw [List.map_cons, ih.left, ownMessage_eq hread], fun other hother => ?_⟩
      rcases List.mem_cons.mp hother with hfirst | hlater
      · rw [hfirst, ownMessage_eq hread]
        exact hread
      · exact ih.right other hlater

theorem appends_delivered {texts : List CStr} (h : List.Forall₂ Delivers env.reads texts) :
    AppendsTexts env texts := by
  rcases delivered_own h with ⟨hown, hdelivers⟩
  intro fs files held content hfits hopened
  rw [← hown]
  exact publishLoop_refines hdelivers hfits hopened _ emptyStr

/-- Reads of whole messages append the lines of the publisher. -/
theorem appends_whole
    (h : WholeReads ((List.range bufferSize).map env.buffer) lines env.reads) :
    AppendsTexts env (lines.map InputLine.text) := by
  generalize hreads : env.reads = reads at h
  cases h with
  | none hread hbuffer =>
      intro fs files held content hfits hopened
      rw [hreads, List.map_nil, boxAfter_nil hfits]
      exact ⟨fs, publishLoop_space hread hbuffer 0 [] fs, hopened⟩
  | @lines line lines read reads hread hrest htexts =>
      have hspace : forall c, c ∈ [(32 : UInt8)] -> isSpace c = true := by
        intro c hc
        rw [List.mem_singleton.mp hc]
        decide
      rcases htexts line List.mem_cons_self with ⟨hne, hstarts⟩
      apply appends_delivered
      rw [hreads]
      exact List.Forall₂.cons (line.delivers hread hspace hne hstarts)
        (delivers_whole hrest fun other hother => htexts other (List.mem_cons_of_mem line hother))

/-- The handler of a job returns, its client shows what it should, and the boxes are those
of the abstract broker. -/
def Job.Served (job : Job) (peer : Peer) (b : State) (clientInput : Args)
    (a : AbstractBroker) : Prop :=
  exists sent b' lines,
    outcome (react peer.env peer.subscriberEnv b (job.handler, clientInput)) =
      some (.ok (sent, b')) ∧
    (forall shown, peer.program.Shows sent shown <-> shown = lines) ∧
    Output.of lines (unlinks clientInput.clientPipe.str
      (react peer.env peer.subscriberEnv b (job.handler, clientInput))) = (job.step a).1 ∧
    Represents b' (job.step a).2

theorem outcome_served (h : serve request b = .ok (events, b')) :
    outcome (.served (serve request b)) = some (.ok (framesOf events, b')) := by
  rw [h]
  rfl

theorem unlinks_served {pipe : CStr} (h : serve request b = .ok (events, b')) :
    unlinks pipe (.served (serve request b)) = decide (.unlinked pipe ∈ events) := by
  rw [h]
  rfl

/-- A handler that writes frames leaves the pipe where it is. -/
theorem unlinks_framed {pipe : CStr} (h : serve request b = .ok (events, b'))
    (hframes : WritesFrames events) : unlinks pipe (.served (serve request b)) = false := by
  rw [unlinks_served h]
  exact decide_eq_false (hframes.keeps pipe)

/-- The broker removes the pipe of a publisher whose box does not exist. -/
theorem unlinks_publish (h : Represents b a) (hfd : env.fd = some fd)
    (hserve : serve (.regPublisher clientInput env) b = .ok (events, b')) :
    unlinks clientInput.clientPipe.str (.served (serve (.regPublisher clientInput env) b)) =
      decide (clientInput.boxName.str ∉ a.names) := by
  rw [unlinks_served hserve]
  refine decide_eq_decide.mpr ?_
  rcases h.good with ⟨cells, hgood, hnames⟩
  rw [← hnames]
  rcases first_box clientInput.boxName.str cells with
    hnot | ⟨pre, c, box, post, hsplit, hname, _⟩
  · rcases regPublisher_missing hgood hnot hfd with ⟨b1, hmissing, _⟩
    cases hserve.symm.trans hmissing
    exact iff_of_true (List.mem_cons_of_mem _ List.mem_cons_self) hnot
  · rw [hsplit] at hgood ⊢
    have hevents : events = [.opened fd, .tfsOpened 0, .tfsClosed 0, .closed fd] :=
      ((regPublisher_existing hgood hname hfd).value hserve).left
    refine iff_of_false ?_ (not_not.mpr (hgood.name_mem hname).left)
    rw [hevents]
    simp

theorem Job.served (h : Represents b a) (hwords : forall name, name ∈ a.names -> NoSpace name)
    (hallowed : job.Allowed a) (hreturns : job.Returns a) (hmeets : job.Meets peer b)
    (hname : job.purpose ≠ .list -> clientInput.boxName.str = job.name) :
    job.Served peer b clientInput a := by
  rcases job with ⟨purpose, pipe, boxName, hword, hshort⟩
  cases purpose with
  | create =>
      rcases hmeets with ⟨hprogram, hfd, hwrites⟩
      rcases Option.isSome_iff_exists.mp hfd with ⟨fd, hfd⟩
      have hbox := hname (by simp)
      simp only [Allowed, ← hbox] at hallowed
      simp only [Served, Job.step, ← hbox, hprogram]
      rcases create_serves h hfd hallowed (hwrites 0) with ⟨events, b', hserve, htexts, h'⟩
      have hframes : WritesFrames events := (createBox_framed _ _ _).value hserve
      refine ⟨_, b', _, outcome_served hserve,
        fun shown => shows_created hallowed hframes htexts, ?_, h'⟩
      exact (congrArg _ (unlinks_framed hserve hframes)).trans created_output
  | remove =>
      rcases hmeets with ⟨hprogram, hfd, hwrites⟩
      rcases Option.isSome_iff_exists.mp hfd with ⟨fd, hfd⟩
      have hbox := hname (by simp)
      simp only [Served, Job.step, ← hbox, hprogram]
      rcases remove_serves h hfd (hwrites 0) with ⟨events, b', hserve, htexts, h'⟩
      have hframes : WritesFrames events := (removeBox_framed _ _ _).value hserve
      refine ⟨_, b', some _, outcome_served hserve, fun shown => ?_,
        congrArg _ (unlinks_framed hserve hframes), h'⟩
      rw [AbstractBroker.removeBox] at htexts
      split at htexts
      · rename_i hmem
        rw [if_pos hmem]
        exact shows_manager (shown_success hframes htexts)
      · rename_i hnot
        rw [if_neg hnot]
        exact shows_manager (shown_missing hframes htexts)
  | list =>
      rcases hmeets with ⟨hprogram, hfd, hwrites⟩
      rcases Option.isSome_iff_exists.mp hfd with ⟨fd, hfd⟩
      simp only [Served, Job.step, hprogram]
      have hserves : Serves (.listBox clientInput peer.env) b a.listBox a :=
        list_serves h hfd hwrites
      rcases hserves with ⟨events, b', hserve, _, h'⟩
      have hframes : WritesFrames events := (listBox_framed clientInput peer.env b).value hserve
      exact ⟨_, b', some _, outcome_served hserve,
        fun shown => shows_manager (list_shown h hwords hfd hwrites hserve),
        congrArg _ (unlinks_framed hserve hframes), h'⟩
  | publish input =>
      rcases hmeets with ⟨hprogram, hfd, hreads⟩
      rcases Option.isSome_iff_exists.mp hfd with ⟨fd, hfd⟩
      have hbox := hname (by simp)
      simp only [Served, Job.step, ← hbox, hprogram]
      rcases publish_session h hfd fun _ => appends_whole hreads with
        ⟨events, b', hserve, _, h'⟩
      exact ⟨_, b', some [], outcome_served hserve, fun shown => shows_publisher,
        congrArg _ (unlinks_publish h hfd hserve), h'⟩
  | subscribe =>
      rcases hmeets with ⟨hprogram, hfd, _, _⟩
      rcases Option.isSome_iff_exists.mp hfd with ⟨fd, hfd⟩
      have hbox := hname (by simp)
      simp only [Returns, ← hbox] at hreturns
      simp only [Served, Job.step, hprogram]
      rcases subscribe_missing h hfd hreturns with ⟨actions, b', hsession, hsent, hremoved, h'⟩
      refine ⟨[], b', some [], ?_, fun shown => shows_refused, ?_, h'⟩
      · simp only [Job.handler, react, hsession, outcome, hsent]
      · simp only [Job.handler, react, hsession, unlinks, hremoved, decide_true]
        rfl

/-- A subscriber to a box waits for more, for as long as the broker polls. -/
theorem Job.waits (h : Represents b a)
    (hreadable : forall box, box ∈ a.boxes -> Readable box.content) (hblocked : ¬ job.Returns a)
    (hmeets : job.Meets peer b)
    (hname : job.purpose ≠ .list -> clientInput.boxName.str = job.name) :
    exists box actions b', box ∈ a.boxes ∧ box.name = job.name ∧
      react peer.env peer.subscriberEnv b (job.handler, clientInput) =
        .subscribed (actions, .waiting b') ∧
      sentBytes actions = received peer.subscriberEnv.polls box.content := by
  rcases job with ⟨purpose, pipe, boxName, hword, hshort⟩
  cases purpose with
  | subscribe =>
      rcases hmeets with ⟨_, hfd, hpolls, hfresh⟩
      rcases Option.isSome_iff_exists.mp hfd with ⟨fd, hfd⟩
      have hbox := hname (by simp)
      rcases AbstractBroker.mem_names.mp (not_not.mp hblocked) with ⟨box, hmem, hsame⟩
      have hcontent := h.fileContent hmem
      rw [hsame] at hcontent
      rcases subscribe_session h hfd hmem (hbox.trans hsame.symm)
        (fun poll hpoll => (hpolls poll hpoll).left) (hreadable box hmem).noNul
        (hfresh _ hcontent) with ⟨actions, b', hsession, hsent⟩
      exact ⟨box, actions, b', hmem, hsame, congrArg Reaction.subscribed hsession, hsent⟩
  | create => exact absurd trivial hblocked
  | remove => exact absurd trivial hblocked
  | list => exact absurd trivial hblocked
  | publish input => exact absurd trivial hblocked

/-- The names of the boxes are words, and the contents can be read. -/
structure Tidy (a : AbstractBroker) : Prop where
  words : forall name, name ∈ a.names -> NoSpace name
  readable : forall box, box ∈ a.boxes -> Readable box.content

namespace Tidy

variable {name : CStr} {texts : List CStr}

theorem empty : Tidy AbstractBroker.empty :=
  ⟨fun _ hname => absurd hname List.not_mem_nil, fun _ hbox => absurd hbox List.not_mem_nil⟩

theorem create (h : Tidy a) (hword : NoSpace name) : Tidy (a.createBox name).2 := by
  rw [AbstractBroker.createBox]
  split
  · split
    · split
      · rename_i hnew hvalid _
        refine ⟨fun held hheld => ?_, fun box hbox => ?_⟩
        · rw [AbstractBroker.names_create] at hheld
          rcases List.mem_append.mp hheld with hold | hlast
          · exact h.words held hold
          · rw [List.mem_singleton.mp hlast]
            exact hword
        · rcases List.mem_append.mp hbox with hold | hlast
          · exact h.readable box hold
          · rw [List.mem_singleton.mp hlast]
            exact Readable.nil
      · exact h
    · exact h
  · exact h

theorem remove (h : Tidy a) : Tidy (a.removeBox name).2 := by
  refine ⟨fun held hheld => h.words held (AbstractBroker.mem_removeBox hheld), fun box hbox => ?_⟩
  rw [AbstractBroker.removeBox] at hbox
  split at hbox
  · exact h.readable box (List.mem_of_mem_filter hbox)
  · exact h.readable box hbox

theorem publish (h : Tidy a) (htexts : forall text, text ∈ texts -> Publishable text) :
    Tidy (a.publish name texts) := by
  refine ⟨fun held hheld => ?_, fun box hbox => ?_⟩
  · rw [AbstractBroker.names_publish] at hheld
    exact h.words held hheld
  · rcases List.mem_map.mp hbox with ⟨old, hold, heq⟩
    rw [← heq, AbstractBroker.publishTo]
    split
    · exact (h.readable old hold).boxAfter htexts
    · exact h.readable old hold

theorem step (h : Tidy a) (hproper : job.Proper) : Tidy (job.step a).2 := by
  rcases job with ⟨purpose, pipe, boxName, hword, hshort⟩
  cases purpose with
  | create => exact h.create (Clients.noSpace_slash hword)
  | remove => exact h.remove
  | list => exact h
  | publish input =>
      refine h.publish (publishable_lines fun line hline => ?_)
      rcases hproper input rfl line hline with ⟨hne, hstarts, _⟩
      exact ⟨hne, hstarts⟩
  | subscribe => exact h

end Tidy

/-- The broker holds the abstract boxes, whatever its loop has left in its variables. -/
def Holds (s : MainState × State) (a : AbstractBroker) : Prop :=
  Represents s.2 a ∧ Tidy a

section Frames

variable {registerPipe : CharArray pipeNameSize} {waits : CStr -> Job -> Prop}
  {main : MainState} {text : List UInt8}
  {result : Out (Option (CStr × Output) × (MainState × State))}

end Frames

end Serving

section Runs

variable {client : Type} [DecidableEq client] {program : client -> List Job}
  {registerPipe : CharArray pipeNameSize}

end Runs

/-- The register pipe of the clients below. -/
def registerR : CharArray pipeNameSize := ⟨⟨[114], by decide⟩, by decide⟩

theorem letterA_short : letterA.strlen < boxNameSize - 1 := by decide

/-- A job for the box {lit}`/a` at a pipe. -/
def jobAt (pipe : Word pipeNameSize) (purpose : Purpose) : Job :=
  ⟨purpose, pipe, letterA, letterA_noSpace, letterA_short⟩

end System
end TecnicoFs
