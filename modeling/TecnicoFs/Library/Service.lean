import Mathlib.Data.List.Forall2
import Mathlib.Logic.Function.Basic
import Mathlib.Logic.Relation
import TecnicoFs.Library.Mutex
import TecnicoFs.Library.Runs

/-!
# A server behind a pipe

Clients write messages to one pipe, each at once but in any order, and a server takes them
from it.  A client waits at a name of its own for the reply, and goes on to its next message
when the reply has ended the run.  A message is a frame of a fixed size, and the pipe knows
only bytes.  Every message reaches the server whole, once, and in the order of the writes,
and the reply reaches the client that has asked, so what the clients see is a run of an
abstract server.
-/

namespace TecnicoFs
namespace Library

/-- How a message is written, what the server may do with what it reads, and what a client
does with a reply. -/
structure Protocol (message name reply server err : Type) where
  frameSize : Nat
  pos : 0 < frameSize
  /-- Where the client waits for the reply. -/
  nameOf : message -> name
  /-- No client can wait there. -/
  reserved : name -> Prop
  encodes : message -> List UInt8 -> Prop
  length_eq : forall {m : message} {frame : List UInt8},
    encodes m frame -> frame.length = frameSize
  /-- The server reads a frame, and may give a reply to the client that waits at a name. -/
  handles : (waits : name -> message -> Prop) -> List UInt8 -> server ->
    Except err (Option (name × reply) × server) -> Prop
  /-- The client ends its run with this reply. -/
  ends : reply -> Prop
  /-- The server leaves the client's name where it is. -/
  keeps : reply -> Prop
  ends_of_gone : forall {r : reply}, ¬ keeps r -> ends r

/-- A message of a client, and the reply that it has got. -/
structure Exchange (message reply : Type) where
  message : message
  reply : Option reply

/-- The clients, the pipe and the server, with what has happened so far. -/
structure Service (client message reply server : Type) where
  /-- The messages of the runs that each client has still to begin. -/
  toSend : client -> List message
  /-- The run that each client has begun. -/
  current : client -> Option (Exchange message reply)
  /-- The runs that have ended.  One that could not begin has no reply. -/
  past : client -> List (Exchange message reply)
  /-- The bytes of the frames that the server is not done with. -/
  pipe : List UInt8
  server : server
  /-- All messages in the order in which they were written. -/
  sent : List (client × message)
  /-- All replies in the order in which they were given. -/
  replies : List reply

namespace Service

variable {client message reply server : Type}

def start (program : client -> List message) (s : server) :
    Service client message reply server where
  toSend := program
  current := fun _ => none
  past := fun _ => []
  pipe := []
  server := s
  sent := []
  replies := []

/-- The messages that have their replies. -/
def handled (sys : Service client message reply server) : List (client × message) :=
  sys.sent.take sys.replies.length

/-- The messages whose frames are in the pipe. -/
def queued (sys : Service client message reply server) : List (client × message) :=
  sys.sent.drop sys.replies.length

/-- The messages with their replies. -/
def exchanges (sys : Service client message reply server) :
    List (client × Exchange message reply) :=
  (sys.handled.zip sys.replies).map fun entry => (entry.1.1, ⟨entry.1.2, some entry.2⟩)

/-- The runs that a client has begun, or could not begin. -/
def begun (sys : Service client message reply server) (c : client) :
    List (Exchange message reply) :=
  sys.past c ++ (sys.current c).toList

theorem handled_queued (sys : Service client message reply server) :
    sys.handled ++ sys.queued = sys.sent :=
  List.take_append_drop _ _

/-- A message in the queue may be handled when its turn comes. -/
theorem allowed_next {abs : Type} {astep : message -> abs -> reply × abs}
    {allowed : message -> abs -> Prop} {a0 : abs} {sys : Service client message reply server}
    (hallowed : AllowedRun astep allowed (sys.sent.map Prod.snd) a0) {c : client} {m : message}
    {later : List (client × message)} (hqueue : sys.queued = (c, m) :: later) :
    allowed m (absRun astep (sys.handled.map Prod.snd) a0).2 := by
  rw [← sys.handled_queued, List.map_append, allowedRun_append, hqueue] at hallowed
  exact hallowed.right.left

/-- A client that waits at the name gets the reply. -/
def answered {name : Type} [DecidableEq name] (nameOf : message -> name) (n : name) (r : reply)
    (e : Exchange message reply) : Exchange message reply :=
  if e.reply.isNone = true ∧ nameOf e.message = n then { e with reply := some r } else e

/-- The server has read `n` bytes, and may have given a reply. -/
def served {name : Type} [DecidableEq name] (nameOf : message -> name)
    (sys : Service client message reply server) (n : Nat) (answer : Option (name × reply))
    (s : server) : Service client message reply server :=
  match answer with
  | none => { sys with pipe := sys.pipe.drop n, server := s }
  | some (address, r) =>
      { sys with
        current := fun c => (sys.current c).map (answered nameOf address r)
        pipe := sys.pipe.drop n
        server := s
        replies := sys.replies ++ [r] }

variable [DecidableEq client]

/-- Client `c` begins a run: it writes the frame of its message, before the others. -/
def wrote (sys : Service client message reply server) (c : client) (m : message)
    (later : List message) (frame : List UInt8) : Service client message reply server :=
  { sys with
    toSend := Function.update sys.toSend c later
    current := Function.update sys.current c (some ⟨m, none⟩)
    pipe := sys.pipe ++ frame
    sent := sys.sent ++ [(c, m)] }

/-- Client `c` cannot begin a run, which ends without a message. -/
def refused (sys : Service client message reply server) (c : client) (m : message)
    (later : List message) : Service client message reply server :=
  { sys with
    toSend := Function.update sys.toSend c later
    past := Function.update sys.past c (sys.past c ++ [⟨m, none⟩]) }

/-- The run of client `c` has ended. -/
def ended (sys : Service client message reply server) (c : client)
    (e : Exchange message reply) : Service client message reply server :=
  { sys with
    current := Function.update sys.current c none
    past := Function.update sys.past c (sys.past c ++ [e]) }

end Service

/-!
## The order of the messages
-/

section Turns

variable {client message name reply server err abs : Type} [DecidableEq client]
  {p : Protocol message name reply server err}

/-- A client waits at the name for the reply to the message. -/
def Waits (p : Protocol message name reply server err)
    (sys : Service client message reply server) (n : name) (m : message) : Prop :=
  exists c, sys.current c = some ⟨m, none⟩ ∧ p.nameOf m = n

/-- The name is reserved, or belongs to a run that has not ended. -/
def Taken (p : Protocol message name reply server err)
    (sys : Service client message reply server) (n : name) : Prop :=
  p.reserved n ∨ exists c e, sys.current c = some e ∧ p.nameOf e.message = n

/-- The name is there: it is taken, and the server has not removed it. -/
def Present (p : Protocol message name reply server err)
    (sys : Service client message reply server) (n : name) : Prop :=
  p.reserved n ∨ exists c e, sys.current c = some e ∧ p.nameOf e.message = n ∧
    forall r, e.reply = some r -> p.keeps r

/-- Under `R` the server does with a frame what the abstract server does with its message,
and gives the reply to the client that waits for it.  It is done with the frame if and only
if the message returns. -/
structure Realizes (p : Protocol message name reply server err) (proper : message -> Prop)
    (astep : message -> abs -> reply × abs) (allowed returns : message -> abs -> Prop)
    (R : server -> abs -> Prop) : Prop where
  encodes : forall {m}, proper m -> exists frame, p.encodes m frame
  returns_iff : forall {m frame s a waits}, proper m -> allowed m a -> R s a ->
    p.encodes m frame -> (forall m', waits (p.nameOf m) m' <-> m' = m) ->
    ((exists result, p.handles waits frame s result) <-> returns m a)
  agrees : forall {m frame s a waits result}, proper m -> allowed m a -> R s a ->
    p.encodes m frame -> (forall m', waits (p.nameOf m) m' <-> m' = m) ->
    p.handles waits frame s result ->
    exists s', result = .ok (some (p.nameOf m, (astep m a).1), s') ∧ R s' (astep m a).2

/-- The abstract server has handled some messages, and the frames of the others are in the
pipe.  Each client has the replies to its own messages, and waits for one at most. -/
structure InOrder (p : Protocol message name reply server err)
    (astep : message -> abs -> reply × abs) (R : server -> abs -> Prop)
    (program : client -> List message) (a0 : abs)
    (sys : Service client message reply server) : Prop where
  order : forall c, (sys.begun c).map Exchange.message ++ sys.toSend c = program c
  answered : forall c,
    callsOf c sys.exchanges = (sys.begun c).filter fun e => e.reply.isSome
  waiting : forall c, callsOf c sys.queued =
    ((sys.current c).toList.filter fun e => e.reply.isNone).map Exchange.message
  distinct : forall {c d e e'}, sys.current c = some e -> sys.current d = some e' ->
    p.nameOf e.message = p.nameOf e'.message -> c = d
  replies : sys.replies = (absRun astep (sys.handled.map Prod.snd) a0).1
  server : R sys.server (absRun astep (sys.handled.map Prod.snd) a0).2
  pipe : exists frames,
    List.Forall₂ (fun entry frame => p.encodes entry.2 frame) sys.queued frames ∧
      sys.pipe = frames.flatten

/-- The server has not come back to the pipe: nobody has had a reply, and who waits for one
still does. -/
structure Blocked (sys sys' : Service client message reply server) : Prop where
  replies : sys'.replies = sys.replies
  waits : forall {c m}, sys.current c = some ⟨m, none⟩ -> sys'.current c = some ⟨m, none⟩
  pipe : sys.pipe <+: sys'.pipe

section Order

variable {proper : message -> Prop} {astep : message -> abs -> reply × abs}
  {allowed returns : message -> abs -> Prop} {R : server -> abs -> Prop}
  {program : client -> List message} {s0 : server} {a0 : abs}
  {sys sys' : Service client message reply server} {c d : client} {m : message}
  {later : List (client × message)} {rest : List message} {frame : List UInt8} {r : reply}
  {e : Exchange message reply}

/-- The first of the elements that are not taken. -/
theorem take_drop_next {alpha : Type} {xs rest : List alpha} {x : alpha} {n : Nat}
    (h : xs.drop n = x :: rest) :
    xs.take (n + 1) = xs.take n ++ [x] ∧ xs.drop (n + 1) = rest := by
  rw [List.take_add, ← List.drop_drop, h]
  exact ⟨rfl, rfl⟩

theorem callsOf_append {call : Type} (c : client) (xs ys : List (client × call)) :
    callsOf c (xs ++ ys) = callsOf c xs ++ callsOf c ys := by
  simp [callsOf]

theorem callsOf_cons_own {call : Type} (c : client) (x : call) (xs : List (client × call)) :
    callsOf c ((c, x) :: xs) = x :: callsOf c xs := by
  simp [callsOf]

theorem callsOf_cons_other {call : Type} (hne : d ≠ c) (x : call) (xs : List (client × call)) :
    callsOf d ((c, x) :: xs) = callsOf d xs := by
  simp [callsOf, hne.symm]

namespace InOrder

theorem start (hs : R s0 a0) :
    InOrder p astep R program a0 (Service.start program s0 : Service client message reply server)
    where
  order := fun _ => rfl
  answered := fun _ => rfl
  waiting := fun _ => rfl
  distinct := fun hc => by cases hc
  replies := rfl
  server := hs
  pipe := ⟨[], List.Forall₂.nil, rfl⟩

/-- There are no more replies than messages. -/
theorem length_le (h : InOrder p astep R program a0 sys) :
    sys.replies.length <= sys.sent.length := by
  have hlength := congrArg List.length h.replies
  rw [absRun_length, List.length_map, Service.handled, List.length_take] at hlength
  omega

theorem handled_length (h : InOrder p astep R program a0 sys) :
    sys.handled.length = sys.replies.length := by
  rw [Service.handled, List.length_take, Nat.min_eq_left h.length_le]

/-- The messages that have been answered are those of the exchanges. -/
theorem handled_eq (h : InOrder p astep R program a0 sys) (c : client) :
    callsOf c sys.handled = (callsOf c sys.exchanges).map Exchange.message := by
  have hall : sys.exchanges.map (fun entry => (entry.1, entry.2.message)) = sys.handled := by
    rw [Service.exchanges, List.map_map]
    exact List.map_fst_zip (Nat.le_of_eq h.handled_length)
  rw [← hall, callsOf, callsOf, List.filter_map, List.map_map, List.map_map]
  rfl

/-- Who is the first in the queue waits for its reply, and has no other message there. -/
theorem waits (h : InOrder p astep R program a0 sys) (hqueue : sys.queued = (c, m) :: later) :
    sys.current c = some ⟨m, none⟩ ∧ callsOf c later = [] := by
  have hwaiting := h.waiting c
  rw [hqueue, callsOf_cons_own] at hwaiting
  cases hcurrent : sys.current c with
  | none =>
      rw [hcurrent] at hwaiting
      cases hwaiting
  | some e =>
      rcases e with ⟨found, reply⟩
      rw [hcurrent] at hwaiting
      cases reply with
      | none =>
          rcases List.cons.inj hwaiting with ⟨hsame, hnone⟩
          exact ⟨by rw [hsame], hnone⟩
      | some r => cases hwaiting

/-- Nobody else waits at the same name. -/
theorem waits_only (h : InOrder p astep R program a0 sys)
    (hcurrent : sys.current c = some ⟨m, none⟩) (m' : message) :
    Waits p sys (p.nameOf m) m' <-> m' = m := by
  constructor
  · rintro ⟨d, hd, hname⟩
    have hsame : d = c := h.distinct hd hcurrent hname
    rw [hsame, hcurrent] at hd
    cases hd
    rfl
  · intro hsame
    rw [hsame]
    exact ⟨c, hcurrent, rfl⟩

/-- Each client's messages are written in the order of its program. -/
theorem written (h : InOrder p astep R program a0 sys) (c : client) :
    (callsOf c sys.sent).Sublist (program c) := by
  rw [← sys.handled_queued, callsOf_append, h.handled_eq, h.answered, h.waiting, ← h.order c,
    Service.begun, List.filter_append, List.map_append, List.map_append, List.append_assoc,
    List.append_assoc]
  refine (List.filter_sublist.map _).append ?_
  refine List.Sublist.trans ?_ (List.sublist_append_left _ _)
  cases sys.current c with
  | none => exact List.Sublist.refl _
  | some e =>
      rcases e with ⟨m, reply⟩
      cases reply <;> exact List.Sublist.refl _

theorem mem_program (h : InOrder p astep R program a0 sys) (hmem : (c, m) ∈ sys.sent) :
    m ∈ program c :=
  (h.written c).subset (mem_callsOf hmem)

theorem mem_queued (h : InOrder p astep R program a0 sys)
    (hqueue : sys.queued = (c, m) :: later) : m ∈ program c := by
  refine h.mem_program ?_
  rw [← sys.handled_queued, hqueue]
  exact List.mem_append_right _ List.mem_cons_self

theorem wrote (h : InOrder p astep R program a0 sys) (hidle : sys.current c = none)
    (hsend : sys.toSend c = m :: rest) (hfree : ¬ Taken p sys (p.nameOf m))
    (hframe : p.encodes m frame) :
    InOrder p astep R program a0 (sys.wrote c m rest frame) := by
  rcases h.pipe with ⟨frames, hframes, hpipe⟩
  have hhandled : (sys.wrote c m rest frame).handled = sys.handled :=
    List.take_append_of_le_length h.length_le
  have hqueued : (sys.wrote c m rest frame).queued = sys.queued ++ [(c, m)] :=
    List.drop_append_of_le_length h.length_le
  have hexchanges : (sys.wrote c m rest frame).exchanges = sys.exchanges := by
    rw [Service.exchanges, hhandled]
    rfl
  have horder := h.order c
  have hanswered := h.answered c
  have hwaiting := h.waiting c
  rw [Service.begun, hidle] at horder hanswered
  rw [hidle] at hwaiting
  refine ⟨fun d => ?_, fun d => ?_, fun d => ?_, ?_, ?_, ?_, frames ++ [frame], ?_, ?_⟩
  · by_cases hd : d = c
    · rw [hd, Service.begun, ← horder, hsend]
      simp [Service.wrote]
    · simpa [Service.begun, Service.wrote, Function.update_of_ne hd] using h.order d
  · by_cases hd : d = c
    · rw [hd, hexchanges, hanswered]
      simp [Service.begun, Service.wrote]
    · rw [hexchanges, h.answered d]
      simp [Service.begun, Service.wrote, Function.update_of_ne hd]
  · by_cases hd : d = c
    · rw [hd, hqueued, callsOf_own, hwaiting]
      simp [Service.wrote]
    · rw [hqueued, callsOf_other hd, h.waiting d]
      simp [Service.wrote, Function.update_of_ne hd]
  · intro d d' e e' hcurrent hcurrent' hname
    have hnew : forall {d e}, d ≠ c -> (sys.wrote c m rest frame).current d = some e ->
        p.nameOf e.message ≠ p.nameOf m := by
      intro d e hd hcurrent hsame
      simp only [Service.wrote, Function.update_of_ne hd] at hcurrent
      exact hfree (Or.inr ⟨d, e, hcurrent, hsame⟩)
    have hown : forall {e}, (sys.wrote c m rest frame).current c = some e -> e.message = m := by
      intro e hcurrent
      simp only [Service.wrote, Function.update_self, Option.some.injEq] at hcurrent
      rw [← hcurrent]
    by_cases hd : d = c
    · by_cases hd' : d' = c
      · rw [hd, hd']
      · rw [hd] at hcurrent
        rw [hown hcurrent] at hname
        exact absurd hname.symm (hnew hd' hcurrent')
    · by_cases hd' : d' = c
      · rw [hd'] at hcurrent'
        rw [hown hcurrent'] at hname
        exact absurd hname (hnew hd hcurrent)
      · simp only [Service.wrote, Function.update_of_ne hd] at hcurrent
        simp only [Service.wrote, Function.update_of_ne hd'] at hcurrent'
        exact h.distinct hcurrent hcurrent' hname
  · rw [hhandled]
    exact h.replies
  · rw [hhandled]
    exact h.server
  · rw [hqueued]
    exact List.rel_append hframes (List.Forall₂.cons hframe List.Forall₂.nil)
  · rw [List.flatten_append, List.flatten_singleton, ← hpipe]
    rfl

/-- Who waits for a reply after a client has written. -/
theorem pending_wrote (hidle : sys.current c = none) (d : client) (m' : message) :
    (sys.wrote c m rest frame).current d = some ⟨m', none⟩ <->
      (d = c ∧ m' = m) ∨ sys.current d = some ⟨m', none⟩ := by
  by_cases hd : d = c
  · rw [hd, hidle]
    simp [Service.wrote, eq_comm]
  · simp [Service.wrote, hd]

/-- Nobody waits for less when a client ends a run that has its reply. -/
theorem pending_ended (hcurrent : sys.current c = some e) (hreply : e.reply = some r)
    (d : client) (m' : message) : (sys.ended c e).current d = some ⟨m', none⟩ <->
      sys.current d = some ⟨m', none⟩ := by
  by_cases hd : d = c
  · rw [hd, hcurrent]
    constructor
    · intro hwaits
      simp [Service.ended] at hwaits
    · intro hwaits
      cases hwaits
      cases hreply
  · simp [Service.ended, Function.update_of_ne hd]

theorem refused (h : InOrder p astep R program a0 sys) (hidle : sys.current c = none)
    (hsend : sys.toSend c = m :: rest) :
    InOrder p astep R program a0 (sys.refused c m rest) := by
  refine ⟨fun d => ?_, fun d => ?_, h.waiting, h.distinct, h.replies, h.server, h.pipe⟩
  · by_cases hd : d = c
    · rw [hd, ← h.order c, hsend]
      simp [Service.begun, Service.refused, hidle]
    · simpa [Service.begun, Service.refused, Function.update_of_ne hd] using h.order d
  · by_cases hd : d = c
    · have hanswered := h.answered c
      simp only [Service.begun, hidle] at hanswered
      rw [hd]
      exact hanswered.trans (by simp [Service.begun, Service.refused, hidle])
    · refine (h.answered d).trans ?_
      simp [Service.begun, Service.refused, Function.update_of_ne hd]

/-- A run that ends is one of the runs that have begun. -/
theorem begun_ended (hcurrent : sys.current c = some e) (d : client) :
    (sys.ended c e).begun d = sys.begun d := by
  by_cases hd : d = c
  · rw [hd]
    simp [Service.begun, Service.ended, hcurrent]
  · simp [Service.begun, Service.ended, Function.update_of_ne hd]

theorem ended (h : InOrder p astep R program a0 sys) (hcurrent : sys.current c = some e)
    (hreply : e.reply = some r) : InOrder p astep R program a0 (sys.ended c e) := by
  have hothers : forall {d e'}, (sys.ended c e).current d = some e' ->
      sys.current d = some e' := by
    intro d e' hd'
    by_cases hd : d = c
    · simp [Service.ended, hd] at hd'
    · simpa [Service.ended, Function.update_of_ne hd] using hd'
  refine ⟨fun d => ?_, fun d => ?_, fun d => ?_, ?_, h.replies, h.server, h.pipe⟩
  · rw [begun_ended hcurrent]
    exact h.order d
  · rw [begun_ended hcurrent]
    exact h.answered d
  · by_cases hd : d = c
    · have hwaiting := h.waiting c
      rw [hcurrent] at hwaiting
      rw [hd]
      exact hwaiting.trans (by simp [Service.ended, hreply])
    · refine (h.waiting d).trans ?_
      simp [Service.ended, Function.update_of_ne hd]
  · exact fun hd hd' hname => h.distinct (hothers hd) (hothers hd') hname

/-- The front of the pipe is the frame of the next message. -/
theorem front (h : InOrder p astep R program a0 sys) (hqueue : sys.queued = (c, m) :: later) :
    p.encodes m (sys.pipe.take p.frameSize) ∧
      exists frames, List.Forall₂ (fun entry frame => p.encodes entry.2 frame) later frames ∧
        sys.pipe.drop p.frameSize = frames.flatten := by
  rcases h.pipe with ⟨frames, hframes, hpipe⟩
  rw [hqueue] at hframes
  cases hframes with
  | @cons _ frame _ frames hframe hrest =>
      have hlength := p.length_eq hframe
      rw [hpipe, List.flatten_cons, ← hlength, List.take_left, List.drop_left]
      exact ⟨hframe, frames, hrest, rfl⟩

end InOrder

/-!
## Turns
-/

variable [DecidableEq name]

/-- A client begins a run, or finds that its name is there; the server handles what is at
the front of the pipe; or a client ends its run.  No client takes a name over that the
server has removed, before the run that it was for has ended. -/
inductive Turn (p : Protocol message name reply server err)
    (sys : Service client message reply server) :
    Except err (Service client message reply server) -> Prop where
  | write {c : client} {m : message} {later : List message} {frame : List UInt8} :
      sys.current c = none -> sys.toSend c = m :: later -> ¬ Taken p sys (p.nameOf m) ->
      p.encodes m frame -> Turn p sys (.ok (sys.wrote c m later frame))
  | refuse {c : client} {m : message} {later : List message} :
      sys.current c = none -> sys.toSend c = m :: later -> Present p sys (p.nameOf m) ->
      Turn p sys (.ok (sys.refused c m later))
  | handle {result : Except err (Option (name × reply) × server)} :
      sys.pipe ≠ [] ->
      p.handles (Waits p sys) (sys.pipe.take p.frameSize) sys.server result ->
      Turn p sys (result.map fun r => sys.served p.nameOf p.frameSize r.1 r.2)
  | finish {c : client} {e : Exchange message reply} {r : reply} :
      sys.current c = some e -> e.reply = some r -> p.ends r ->
      Turn p sys (.ok (sys.ended c e))

/-- The clients and the server get from one state to another in some order of turns. -/
def Turns (p : Protocol message name reply server err) :
    Service client message reply server -> Service client message reply server -> Prop :=
  Relation.ReflTransGen fun sys sys' => Turn p sys (.ok sys')

namespace InOrder

/-- The reply reaches the client that has asked, and nobody else. -/
theorem current_served (h : InOrder p astep R program a0 sys)
    (hcurrent : sys.current c = some ⟨m, none⟩) (n : Nat) (r : reply) (s : server) :
    (sys.served p.nameOf n (some (p.nameOf m, r)) s).current =
      Function.update sys.current c (some ⟨m, some r⟩) := by
  funext d
  by_cases hd : d = c
  · rw [hd, Function.update_self]
    simp [Service.served, Service.answered, hcurrent]
  · rw [Function.update_of_ne hd]
    cases hother : sys.current d with
    | none => simp [Service.served, hother]
    | some e =>
        have hname : p.nameOf e.message ≠ p.nameOf m :=
          fun hsame => hd (h.distinct hother hcurrent hsame)
        simp [Service.served, Service.answered, hother, hname]

theorem served (h : InOrder p astep R program a0 sys) (hqueue : sys.queued = (c, m) :: later)
    {s : server} (hserver : R s (astep m (absRun astep (sys.handled.map Prod.snd) a0).2).2) :
    InOrder p astep R program a0 (sys.served p.nameOf p.frameSize
      (some (p.nameOf m, (astep m (absRun astep (sys.handled.map Prod.snd) a0).2).1)) s) := by
  rcases h.front hqueue with ⟨_, frames, hframes, hpipe⟩
  rcases take_drop_next hqueue with ⟨htake, hdrop⟩
  rcases h.waits hqueue with ⟨hcurrent, hlater⟩
  generalize hreply : (astep m (absRun astep (sys.handled.map Prod.snd) a0).2).1 = r
  have hupdate := h.current_served hcurrent p.frameSize r s
  generalize hsys : sys.served p.nameOf p.frameSize (some (p.nameOf m, r)) s = sys' at hupdate ⊢
  have hreplies : sys'.replies = sys.replies ++ [r] := by rw [← hsys]; rfl
  have hsent : sys'.sent = sys.sent := by rw [← hsys]; rfl
  have hpast : sys'.past = sys.past := by rw [← hsys]; rfl
  have htoSend : sys'.toSend = sys.toSend := by rw [← hsys]; rfl
  have hhandled : sys'.handled = sys.handled ++ [(c, m)] := by
    rw [Service.handled, hreplies, hsent, List.length_append, List.length_singleton]
    exact htake
  have hqueued : sys'.queued = later := by
    rw [Service.queued, hreplies, hsent, List.length_append, List.length_singleton]
    exact hdrop
  have hexchanges : sys'.exchanges = sys.exchanges ++ [(c, ⟨m, some r⟩)] := by
    rw [Service.exchanges, hhandled, hreplies, List.zip_append h.handled_length, List.map_append]
    rfl
  have hbegun : forall {d}, d ≠ c -> sys'.begun d = sys.begun d := by
    intro d hd
    rw [Service.begun, Service.begun, hpast, hupdate, Function.update_of_ne hd]
  have hown : sys'.begun c = sys.past c ++ [⟨m, some r⟩] := by
    rw [Service.begun, hpast, hupdate, Function.update_self]
    rfl
  have horder := h.order c
  have hanswered := h.answered c
  rw [Service.begun, hcurrent] at horder hanswered
  refine ⟨fun d => ?_, fun d => ?_, fun d => ?_, ?_, ?_, ?_, frames, ?_, ?_⟩
  · by_cases hd : d = c
    · rw [hd, hown, htoSend, ← horder]
      simp
    · rw [hbegun hd, htoSend]
      exact h.order d
  · by_cases hd : d = c
    · rw [hd, hown, hexchanges, callsOf_own, hanswered]
      simp
    · rw [hbegun hd, hexchanges, callsOf_other hd]
      exact h.answered d
  · rw [hqueued, hupdate]
    by_cases hd : d = c
    · rw [hd, hlater, Function.update_self]
      rfl
    · rw [Function.update_of_ne hd, ← h.waiting d, hqueue, callsOf_cons_other hd]
  · intro d d' e e' hd hd' hname
    have hkept : forall {d e}, sys'.current d = some e ->
        exists e0, sys.current d = some e0 ∧ e0.message = e.message := by
      intro d e hd
      by_cases hdc : d = c
      · rw [hdc, hupdate, Function.update_self, Option.some.injEq] at hd
        rw [hdc, ← hd]
        exact ⟨_, hcurrent, rfl⟩
      · rw [hupdate, Function.update_of_ne hdc] at hd
        exact ⟨e, hd, rfl⟩
    rcases hkept hd with ⟨e0, hold, hsame⟩
    rcases hkept hd' with ⟨e0', hold', hsame'⟩
    exact h.distinct hold hold' (by rw [hsame, hsame', hname])
  · rw [hhandled, List.map_append, List.map_singleton, absRun_snoc, hreply, ← h.replies,
      hreplies]
  · have hstate : sys'.server = s := by rw [← hsys]; rfl
    rw [hhandled, List.map_append, List.map_singleton, absRun_snoc, hstate]
    exact hserver
  · rw [hqueued]
    exact hframes
  · rw [← hsys]
    exact hpipe

/-- Every turn succeeds and keeps the order. -/
theorem turn (hserver : Realizes p proper astep allowed returns R)
    (hproper : forall c m, m ∈ program c -> proper m) (h : InOrder p astep R program a0 sys)
    (hallowed : AllowedRun astep allowed (sys.sent.map Prod.snd) a0)
    {result : Except err (Service client message reply server)} (hturn : Turn p sys result) :
    exists sys', result = .ok sys' ∧ InOrder p astep R program a0 sys' := by
  cases hturn with
  | write hidle hsend hfree hframe => exact ⟨_, rfl, h.wrote hidle hsend hfree hframe⟩
  | refuse hidle hsend _ => exact ⟨_, rfl, h.refused hidle hsend⟩
  | finish hcurrent hreply _ => exact ⟨_, rfl, h.ended hcurrent hreply⟩
  | handle hpipe hhandles =>
      cases hqueue : sys.queued with
      | nil =>
          rcases h.pipe with ⟨frames, hframes, hflat⟩
          rw [hqueue] at hframes
          cases hframes
          exact absurd hflat hpipe
      | cons entry later =>
          rcases entry with ⟨c, m⟩
          have hgood := hproper c m (h.mem_queued hqueue)
          rcases hserver.agrees hgood (Service.allowed_next hallowed hqueue) h.server
            (h.front hqueue).left (h.waits_only (h.waits hqueue).left) hhandles with
            ⟨s, hresult, hs⟩
          rw [hresult]
          exact ⟨_, rfl, h.served hqueue hs⟩

/-- A run that its reply ends can be ended. -/
theorem ends (h : InOrder p astep R program a0 sys) (hcurrent : sys.current c = some e)
    (hreply : e.reply = some r) (hends : p.ends r) :
    Turn p sys (.ok (sys.ended c e)) ∧ (sys.ended c e).current c = none ∧
      InOrder p astep R program a0 (sys.ended c e) :=
  ⟨Turn.finish hcurrent hreply hends, Function.update_self _ _ _, h.ended hcurrent hreply⟩

/-- A message that does not return keeps the server for good: there is never another reply,
and the frames stay in the pipe. -/
theorem blocks (hserver : Realizes p proper astep allowed returns R)
    (hproper : forall c m, m ∈ program c -> proper m) (h : InOrder p astep R program a0 sys)
    (hallowed : AllowedRun astep allowed (sys.sent.map Prod.snd) a0)
    (hqueue : sys.queued = (c, m) :: later)
    (hblocked : ¬ returns m (absRun astep (sys.handled.map Prod.snd) a0).2)
    (hturns : Turns p sys sys') : Blocked sys sys' := by
  have hgood := hproper c m (h.mem_queued hqueue)
  have hframe := (h.front hqueue).left
  have hlength := p.length_eq hframe
  have hcurrent := (h.waits hqueue).left
  suffices hall : Blocked sys sys' ∧ sys'.server = sys.server ∧
      forall m', Waits p sys' (p.nameOf m) m' <-> m' = m from hall.left
  induction hturns with
  | refl =>
      exact ⟨⟨rfl, fun hwaits => hwaits, List.prefix_refl _⟩, rfl, h.waits_only hcurrent⟩
  | @tail sys1 sys2 _ hturn ih =>
      rcases ih with ⟨hpast, hsame, honly⟩
      generalize hresult : (Except.ok sys2 : Except err _) = result at hturn
      cases hturn with
      | @write d m' later' frame' hidle _ hfree _ =>
          cases hresult
          have hpending : forall d' found,
              (sys1.wrote d m' later' frame').current d' = some ⟨found, none⟩ <->
                (d' = d ∧ found = m') ∨ sys1.current d' = some ⟨found, none⟩ :=
            pending_wrote hidle
          refine ⟨⟨hpast.replies, fun hwaits => (hpending _ _).mpr (Or.inr (hpast.waits hwaits)),
            hpast.pipe.trans (List.prefix_append _ _)⟩, hsame, fun found => ?_⟩
          rw [← honly found]
          constructor
          · rintro ⟨d', hd', hname⟩
            rcases (hpending _ _).mp hd' with ⟨_, heq⟩ | hold
            · rw [heq] at hname
              exact absurd (Or.inr ⟨c, _, hpast.waits hcurrent, hname.symm⟩) hfree
            · exact ⟨d', hold, hname⟩
          · rintro ⟨d', hd', hname⟩
            exact ⟨d', (hpending _ _).mpr (Or.inr hd'), hname⟩
      | refuse _ _ _ =>
          cases hresult
          exact ⟨⟨hpast.replies, hpast.waits, hpast.pipe⟩, hsame, honly⟩
      | @finish d e r hended hreply _ =>
          cases hresult
          have hpending := pending_ended hended hreply
          refine ⟨⟨hpast.replies, fun hwaits => (hpending _ _).mpr (hpast.waits hwaits),
            hpast.pipe⟩, hsame, fun found => ?_⟩
          rw [← honly found]
          exact exists_congr fun d' => and_congr_left fun _ => hpending d' found
      | @handle result _ hhandles =>
          have hfront : sys1.pipe.take p.frameSize = sys.pipe.take p.frameSize := by
            rcases hpast.pipe with ⟨behind, hpipe⟩
            rw [← hpipe, List.take_append_of_le_length]
            rw [List.length_take] at hlength
            omega
          rw [hfront, hsame] at hhandles
          exact absurd ((hserver.returns_iff hgood (Service.allowed_next hallowed hqueue) h.server
            hframe honly).mp ⟨result, hhandles⟩) hblocked

end InOrder

end Order

end Turns

end Library
end TecnicoFs
