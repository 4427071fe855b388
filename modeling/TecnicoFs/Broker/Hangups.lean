import TecnicoFs.Broker.Forwarding

/-!
# Subscribers that hang up

A write that fails ends the inner loop of a session only.  The outer loop ends when a
read of the box fails, and a read of an open file does not.
-/

namespace TecnicoFs
namespace Broker

open Library

/-- Behind a write that fails the session neither reads nor writes, closes its file, and is
done, with the readers of every box as before. -/
def EndsWhenGone (b : State) (session : List Action × SubscriberEnd) : Prop :=
  forall past bytes later, session.1 = past ++ .sent bytes false :: later ->
    (forall n data, Action.polled n data ∉ later) ∧
    (forall bytes' success, Action.sent bytes' success ∉ later) ∧
    (exists fh, .handled (.tfsOpened fh) ∈ past ∧ .handled (.tfsClosed fh) ∈ later) ∧
    exists b', session.2 = .done b' ∧ forall a cell, b.boxes.cell a = some cell ->
      (b'.boxes.cell a).map (fun cell => cell.value.nReaders) = some cell.value.nReaders

/-- The messages of a turn that has read `b` bytes: one for the string of the buffer, and
one for each byte that is left behind its end. -/
def messagesDue (b : Int) (text : CStr) : Nat :=
  if b <= 0 then 0 else max 1 (b - text.strlen).toNat

/-- The writes of the turn succeed. -/
def PipeHolds (fh : Int) (s : Subscription) (poll : Poll) : Prop :=
  forall b data fs' text msg, tfsRead fh msize (poll.others s.fs) = .ok (b, data, fs') ->
    bufferText (data ++ s.buffer.drop data.length) = .ok text ->
    serializeSend text = .ok msg ->
    forall n, n < messagesDue b text -> poll.writes n = true

/-- In a session that is granted all writes succeed. -/
def WritesHold (clientInput : Args) (env : SubscriberEnv) (b : State) : Prop :=
  forall fd fh boxToRead b', env.fd = some fd ->
    openSubscription clientInput env fd b = .ok (.granted fh boxToRead b') ->
    EveryCall (pollTurn fh) (PipeHolds fh) env.polls (env.start b'.fs)

/-- Some write of these actions fails. -/
def HasFailure (actions : List Action) : Prop := exists bytes, Action.sent bytes false ∈ actions

section Loops

variable {fh b left : Int} {buffer buffer' : List UInt8} {fs : Fs} {poll : Poll}
  {polls : List Poll} {s s' : Subscription} {text : CStr} {msg : List UInt8}
  {writes : Nat -> Bool} {fuel n : Nat} {actions : List Action}

theorem hasFailure_cons (action : Action) (actions : List Action) :
    HasFailure (action :: actions) <->
      (exists bytes, action = .sent bytes false) ∨ HasFailure actions := by
  simp only [HasFailure, List.mem_cons, exists_or, eq_comm]

theorem hasFailure_append (actions actions' : List Action) :
    HasFailure (actions ++ actions') <-> HasFailure actions ∨ HasFailure actions' := by
  simp only [HasFailure, List.mem_append, exists_or]

theorem not_hasFailure_nil : ¬ HasFailure [] := by
  rintro ⟨bytes, hmem⟩
  cases hmem

/-!
## The inner loop
-/

/-- Without a failure the inner loop ends when nothing is left. -/
theorem sendLoop_left (h : sendLoop writes fuel n b buffer = .ok (actions, left, buffer'))
    (hnone : ¬ HasFailure actions) : left <= 0 := by
  induction fuel generalizing n b buffer actions with
  | zero =>
      unfold sendLoop at h
      by_cases hb : b <= 0
      · rw [if_pos hb] at h
        cases h
        exact hb
      · rw [if_neg hb] at h
        cases h
  | succ fuel ih =>
      rw [sendLoop] at h
      by_cases hb : b <= 0
      · rw [if_pos hb] at h
        cases h
        exact hb
      · rw [if_neg hb] at h
        rcases bind_eq_ok.mp h with ⟨text, _, h⟩
        rcases bind_eq_ok.mp h with ⟨msg, _, h⟩
        cases hwrite : writes n with
        | true =>
            simp only [hwrite, if_true] at h
            rcases bind_eq_ok.mp h with ⟨⟨actions1, left1, buffer1⟩, hrest, h⟩
            cases h
            refine ih hrest fun hfailure => hnone ?_
            exact (hasFailure_cons _ _).mpr (Or.inr hfailure)
        | false =>
            rw [hwrite] at h
            cases h
            exact absurd ⟨msg, List.mem_cons_self⟩ hnone

theorem bufferText_cleared : bufferText (List.replicate bufferSize 0) = .ok emptyStr := by
  have hmem : (0 : UInt8) ∈ List.replicate bufferSize 0 :=
    List.mem_replicate.mpr ⟨by decide, rfl⟩
  rw [bufferText_mem hmem]
  rfl

/-- A string and the bytes behind its end, when the loop gets past the string. -/
theorem sendLoop_writes (htext : bufferText buffer = .ok text)
    (hmsg : serializeSend text = .ok msg) (hb : 0 < b)
    (hrest : exists actions left buffer', sendLoop writes fuel (n + 1) (b - (text.strlen + 1))
        (List.replicate bufferSize 0) = .ok (actions, left, buffer') ∧
      (HasFailure actions <->
        exists i, i < (b - (text.strlen + 1)).toNat ∧ writes (n + 1 + i) = false)) :
    exists actions left buffer', sendLoop writes (fuel + 1) n b buffer =
        .ok (actions, left, buffer') ∧
      (HasFailure actions <->
        exists i, i < 1 + (b - (text.strlen + 1)).toNat ∧ writes (n + i) = false) := by
  rcases hrest with ⟨actions, left, buffer', hloop, hfails⟩
  cases hwrite : writes n with
  | true =>
      refine ⟨_, _, _, sendLoop_sent hb htext hmsg hwrite hloop, ?_⟩
      rw [hasFailure_cons, hfails]
      constructor
      · rintro (⟨bytes, heq⟩ | ⟨i, hi, hfalse⟩)
        · cases heq
        · exact ⟨1 + i, by omega, by rw [← Nat.add_assoc]; exact hfalse⟩
      · rintro ⟨i, hi, hfalse⟩
        cases i with
        | zero =>
            rw [Nat.add_zero, hwrite] at hfalse
            cases hfalse
        | succ i =>
            refine Or.inr ⟨i, by omega, ?_⟩
            rw [Nat.add_assoc, Nat.add_comm 1 i]
            exact hfalse
  | false =>
      refine ⟨_, _, _, sendLoop_failed hb htext hmsg hwrite, ?_⟩
      constructor
      · intro _
        exact ⟨0, by omega, hwrite⟩
      · intro _
        exact ⟨msg, List.mem_cons_self⟩

/-- In a buffer that has been cleared each byte that is left takes a message. -/
theorem sendLoop_cleared (hfuel : b.toNat <= fuel) :
    exists actions left buffer', sendLoop writes fuel n b (List.replicate bufferSize 0) =
        .ok (actions, left, buffer') ∧
      (HasFailure actions <-> exists i, i < b.toNat ∧ writes (n + i) = false) := by
  induction fuel generalizing n b with
  | zero =>
      have hb : b <= 0 := by omega
      refine ⟨_, _, _, sendLoop_done hb, ?_⟩
      constructor
      · exact fun hfailure => absurd hfailure not_hasFailure_nil
      · rintro ⟨i, hi, _⟩
        omega
  | succ fuel ih =>
      by_cases hb : b <= 0
      · refine ⟨_, _, _, sendLoop_done hb, ?_⟩
        constructor
        · exact fun hfailure => absurd hfailure not_hasFailure_nil
        · rintro ⟨i, hi, _⟩
          omega
      · have hpos : 0 < b := by omega
        have hle : (b - 1).toNat <= fuel := by omega
        have hcount : 1 + (b - 1).toNat = b.toNat := by omega
        have hstep : b - ((emptyStr.strlen : Int) + 1) = b - 1 := rfl
        have hnext := ih (n := n + 1) hle
        have hloop := sendLoop_writes (n := n) bufferText_cleared
          (serializeSend_eq (Nat.zero_le _)) hpos hnext
        rw [hstep, hcount] at hloop
        exact hloop

theorem sendLoop_failures (htext : bufferText buffer = .ok text)
    (hmsg : serializeSend text = .ok msg) (hb : 0 < b) :
    exists actions left buffer', sendLoop writes b.toNat 0 b buffer = .ok (actions, left, buffer') ∧
      (HasFailure actions <-> exists i, i < messagesDue b text ∧ writes i = false) := by
  have hfuel : b.toNat = b.toNat - 1 + 1 := by omega
  have hpos : ¬ b <= 0 := by omega
  have hdue : messagesDue b text = 1 + (b - (text.strlen + 1)).toNat := by
    rw [messagesDue, if_neg hpos]
    omega
  rw [hfuel, hdue]
  have hcleared : exists actions left buffer',
      sendLoop writes (b.toNat - 1) (0 + 1) (b - (text.strlen + 1))
        (List.replicate bufferSize 0) = .ok (actions, left, buffer') ∧
      (HasFailure actions <->
        exists i, i < (b - (text.strlen + 1)).toNat ∧ writes (0 + 1 + i) = false) :=
    sendLoop_cleared (by omega)
  have hloop := sendLoop_writes htext hmsg hb hcleared
  simp only [Nat.zero_add] at hloop
  exact hloop

/-!
## Turns
-/

/-- The turn goes on to the next one without a failure, or ends the session. -/
def NoFailure (fh : Int) (s : Subscription) (poll : Poll) : Prop :=
  forall actions s', pollTurn fh poll s = .ok (actions, s') -> ¬ HasFailure actions

theorem messagesDue_none {b : Int} (hb : b <= 0) (text : CStr) : messagesDue b text = 0 :=
  if_pos hb

/-- A turn without a message to send. -/
theorem noFailure_idle {data : List UInt8} {fs' : Fs}
    (hread : tfsRead fh msize (poll.others s.fs) = .ok (b, data, fs'))
    (hidle : b <= 0) : NoFailure fh s poll <-> PipeHolds fh s poll := by
  have hholds : PipeHolds fh s poll := by
    intro b1 data1 fs1 text msg hread1 _ _ n hn
    rw [hread] at hread1
    cases hread1
    rw [messagesDue_none hidle] at hn
    cases hn
  refine ⟨fun _ => hholds, fun _ actions s' hturn => ?_⟩
  have hpolled : ¬ HasFailure [.polled b data] := by
    rintro ⟨bytes, hmem⟩
    cases List.mem_singleton.mp hmem
  by_cases hb : b = -1
  · refine absurd hturn (pollTurn_ended (fun b1 data1 fs1 hread1 => ?_) _)
    rw [hread] at hread1
    cases hread1
    exact hb
  · by_cases hskip : b = s.prev
    · rw [pollTurn_skip hread hb hskip] at hturn
      cases hturn
      exact hpolled
    · rw [pollTurn_eq hread hb hskip, sendLoop_done hidle] at hturn
      cases hturn
      exact hpolled

/-- As long as no write has failed, a turn has none that fails if the pipe holds. -/
theorem noFailure_iff (hprev : s.prev <= 0) : NoFailure fh s poll <-> PipeHolds fh s poll := by
  rcases poll_cases fh poll s.fs with ⟨b, data, fs', hread, hb⟩ | hno
  · by_cases hidle : b <= 0
    · exact noFailure_idle hread hidle
    · have hpos : 0 < b := by omega
      have hskip : b ≠ s.prev := by omega
      have hturn := pollTurn_eq hread hb hskip
      by_cases hfirst : exists text msg,
          bufferText (data ++ s.buffer.drop data.length) = .ok text ∧ serializeSend text = .ok msg
      · rcases hfirst with ⟨text, msg, htext, hmsg⟩
        have hsends : exists actions left buffer',
            sendLoop poll.writes b.toNat 0 b (data ++ s.buffer.drop data.length) =
              .ok (actions, left, buffer') ∧
            (HasFailure actions <->
              exists i, i < messagesDue b text ∧ poll.writes i = false) :=
          sendLoop_failures htext hmsg hpos
        rcases hsends with ⟨actions, left, buffer', hloop, hfails⟩
        rw [hloop] at hturn
        have hpolled : HasFailure (.polled b data :: actions) <-> HasFailure actions := by
          rw [hasFailure_cons]
          refine ⟨fun h => h.resolve_left ?_, Or.inr⟩
          rintro ⟨bytes, heq⟩
          cases heq
        constructor
        · intro hnone b1 data1 fs1 text1 msg1 hread1 htext1 _ n hn
          rw [hread] at hread1
          cases hread1
          rw [htext] at htext1
          cases htext1
          by_contra hwrite
          refine hnone _ _ hturn (hpolled.mpr (hfails.mpr ⟨n, hn, ?_⟩))
          exact Bool.eq_false_of_not_eq_true hwrite
        · intro hholds actions1 s1 hturn1 hfailure
          rw [hturn] at hturn1
          cases hturn1
          rcases hfails.mp (hpolled.mp hfailure) with ⟨i, hi, hwrite⟩
          rw [hholds b data fs' text msg hread htext hmsg i hi] at hwrite
          cases hwrite
      · -- The turn has no first message, and faults.
        constructor
        · intro _ b1 data1 fs1 text msg hread1 htext hmsg n _
          rw [hread] at hread1
          cases hread1
          exact absurd ⟨text, msg, htext, hmsg⟩ hfirst
        · intro _ actions s' hturn1
          rw [hturn] at hturn1
          rcases bind_eq_ok.mp hturn1 with ⟨⟨_, _, _⟩, hloop, _⟩
          rcases sendLoop_first hpos (mapError_eq_ok.mp hloop) with ⟨text, msg, _, htext, hmsg, _⟩
          exact absurd ⟨text, msg, htext, hmsg⟩ hfirst
  · constructor
    · intro _ b data fs' text msg hread _ _ n hn
      rw [messagesDue_none (by rw [hno b data fs' hread]; decide)] at hn
      cases hn
    · intro _ actions s' hturn
      exact absurd hturn (pollTurn_ended hno _)

/-- Without a failure nothing is left behind a turn. -/
theorem noFailure_prev (hprev : s.prev <= 0) (hnone : NoFailure fh s poll)
    (hturn : pollTurn fh poll s = .ok (actions, s')) : s'.prev <= 0 := by
  rcases poll_cases fh poll s.fs with ⟨b, data, fs', hread, hb⟩ | hno
  · by_cases hskip : b = s.prev
    · rw [pollTurn_skip hread hb hskip] at hturn
      cases hturn
      exact hprev
    · have hsame := hturn
      rw [pollTurn_eq hread hb hskip] at hsame
      rcases bind_eq_ok.mp hsame with ⟨⟨sent, left, buffer'⟩, hloop, hresult⟩
      cases hresult
      refine sendLoop_left (mapError_eq_ok.mp hloop) fun hfailure => ?_
      exact hnone _ _ hturn ((hasFailure_cons _ _).mpr (Or.inr hfailure))
  · exact absurd hturn (pollTurn_ended hno _)

theorem everyNoFailure_iff (hprev : s.prev <= 0) :
    EveryCall (pollTurn fh) (NoFailure fh) polls s <->
      EveryCall (pollTurn fh) (PipeHolds fh) polls s :=
  everyCall_iff (P := fun s => s.prev <= 0) (fun hprev => noFailure_iff hprev)
    (fun hprev hnone hturn => noFailure_prev hprev hnone hturn) hprev

/-!
## The outer loop
-/

theorem subscribeLoop_failure :
    EveryCall (pollTurn fh) (NoFailure fh) polls s <->
      ¬ HasFailure (subscribeLoop fh polls s).1 := by
  induction polls generalizing s with
  | nil => exact ⟨fun _ => not_hasFailure_nil, fun _ => trivial⟩
  | cons poll polls ih =>
      rw [subscribeLoop, EveryCall]
      cases hturn : pollTurn fh poll s with
      | ok r =>
          rcases r with ⟨actions, s'⟩
          simp only [hasFailure_append, not_or, ← ih]
          constructor
          · rintro ⟨hnone, hrest⟩
            exact ⟨hnone actions s' hturn, hrest actions s' rfl⟩
          · rintro ⟨hnone, hrest⟩
            refine ⟨fun actions1 s1 hturn1 => ?_, fun actions1 s1 hturn1 => ?_⟩
            · rw [hturn] at hturn1
              cases hturn1
              exact hnone
            · cases hturn1
              exact hrest
      | error e =>
          have hvacuous : NoFailure fh s poll := by
            intro actions s' hturn1
            rw [hturn] at hturn1
            cases hturn1
          refine ⟨fun _ => ?_, fun _ => ⟨hvacuous, fun _ _ h => by cases h⟩⟩
          cases e with
          | stop stop => exact not_hasFailure_nil
          | done fs =>
              rintro ⟨bytes, hmem⟩
              cases List.mem_singleton.mp hmem

/-- A loop that ends has just failed to read. -/
theorem subscribeLoop_ended (hended : (subscribeLoop fh polls s).2 = .ended fs) :
    exists front, (subscribeLoop fh polls s).1 = front ++ [.polled (-1) []] := by
  induction polls generalizing s with
  | nil => cases hended
  | cons poll polls ih =>
      rw [subscribeLoop] at hended ⊢
      cases hturn : pollTurn fh poll s with
      | ok r =>
          rw [hturn] at hended
          rcases ih hended with ⟨front, hfront⟩
          exact ⟨r.1 ++ front, by simp only [hfront, List.append_assoc]⟩
      | error e =>
          rw [hturn] at hended
          cases e with
          | stop stop => cases hended
          | done fs => exact ⟨[], rfl⟩

end Loops

/-!
## The handler
-/

section Handler

variable {clientInput : Args} {env : SubscriberEnv} {b b' : State} {fd boxToRead : Nat}
  {fh : Int} {actions : List Action}

theorem not_hasFailure_handled (events : List Event) : ¬ HasFailure (events.map .handled) := by
  rintro ⟨bytes, hmem⟩
  rcases List.mem_map.mp hmem with ⟨event, _, heq⟩
  cases heq

theorem hasFailure_granted (fd : Nat) (fh : Int) (events : List Event) :
    HasFailure (.handled (.opened fd) :: .handled (.tfsOpened fh) :: actions ++
      events.map .handled) <-> HasFailure actions := by
  have hevents := not_hasFailure_handled events
  simp only [hasFailure_append, hasFailure_cons, hevents, or_false, reduceCtorEq, exists_false,
    false_or]

/-- A session that is granted runs its loop, and is done only if the loop ends. -/
theorem regSubscriber_granted (hfd : env.fd = some fd)
    (hopening : openSubscription clientInput env fd b = .ok (.granted fh boxToRead b')) :
    exists events : List Event,
      (regSubscriber clientInput env b).1 =
        .handled (.opened fd) :: .handled (.tfsOpened fh) ::
          (subscribeLoop fh env.polls (env.start b'.fs)).1 ++ events.map .handled ∧
      forall b1, (regSubscriber clientInput env b).2 = .done b1 ->
        exists fs, (subscribeLoop fh env.polls (env.start b'.fs)).2 = .ended fs := by
  unfold regSubscriber
  simp only [hfd, hopening]
  cases hloop : (subscribeLoop fh env.polls (env.start b'.fs)).2 with
  | waiting s =>
      refine ⟨[], by simp, fun b1 hdone => ?_⟩
      cases hdone
  | stopped stop =>
      refine ⟨[], by simp, fun b1 hdone => ?_⟩
      cases hdone
  | ended fs =>
      cases hclose : closeSubscription clientInput fh boxToRead { b' with fs := fs } with
      | error stop =>
          refine ⟨[], by simp [hclose], fun b1 hdone => ⟨fs, rfl⟩⟩
      | ok r => exact ⟨r.1, by simp [hclose], fun b1 hdone => ⟨fs, rfl⟩⟩

/-- An element that is not behind another one has it behind itself. -/
theorem mem_later {alpha : Type} {past later front back : List alpha} {x y : alpha}
    (h : past ++ x :: later = front ++ y :: back) (hne : x ≠ y) (hnot : x ∉ back) : y ∈ later := by
  rcases List.append_eq_append_iff.mp h with ⟨mid, _, hmid⟩ | ⟨mid, _, hmid⟩
  · cases mid with
    | nil => exact absurd (List.cons.inj hmid).left hne
    | cons z mid =>
        rw [(List.cons.inj hmid).right]
        exact List.mem_append_right mid List.mem_cons_self
  · cases mid with
    | nil => exact absurd (List.cons.inj hmid).left.symm hne
    | cons z mid =>
        refine absurd ?_ hnot
        rw [(List.cons.inj hmid).right]
        exact List.mem_append_right mid List.mem_cons_self

/-- A session that is done read the box behind every write that failed. -/
theorem endsWhenGone_granted (hfd : env.fd = some fd)
    (hopening : openSubscription clientInput env fd b = .ok (.granted fh boxToRead b')) :
    EndsWhenGone b (regSubscriber clientInput env b) <->
      ¬ HasFailure (subscribeLoop fh env.polls (env.start b'.fs)).1 := by
  rcases regSubscriber_granted hfd hopening with ⟨events, htrace, hdone⟩
  constructor
  · intro hends hfailure
    have hmem := (hasFailure_granted fd fh events).mpr hfailure
    rw [← htrace] at hmem
    rcases hmem with ⟨bytes, hmem⟩
    rcases List.append_of_mem hmem with ⟨past, later, hsplit⟩
    rcases hends past bytes later hsplit with ⟨hpolled, _, _, b1, hend, _⟩
    rcases hdone b1 hend with ⟨fs, hended⟩
    rcases subscribeLoop_ended hended with ⟨front, hfront⟩
    rw [htrace, hfront] at hsplit
    have hlast : past ++ .sent bytes false :: later =
        (.handled (.opened fd) :: .handled (.tfsOpened fh) :: front) ++
          .polled (-1) [] :: events.map .handled := by
      rw [← hsplit]
      simp
    refine hpolled (-1) [] (mem_later hlast (by simp) fun hlate => ?_)
    exact not_hasFailure_handled events ⟨bytes, hlate⟩
  · intro hnone past bytes later hsplit
    refine absurd ((hasFailure_granted fd fh events).mp ?_) hnone
    rw [← htrace, hsplit]
    exact ⟨bytes, List.mem_append_right past List.mem_cons_self⟩

/-- Without a session nothing is sent. -/
theorem endsWhenGone_refused (hno : forall fd fh boxToRead b', env.fd = some fd ->
    openSubscription clientInput env fd b ≠ .ok (.granted fh boxToRead b')) :
    EndsWhenGone b (regSubscriber clientInput env b) := by
  have hnone : ¬ HasFailure (regSubscriber clientInput env b).1 := by
    unfold regSubscriber
    cases hfd : env.fd with
    | none => exact not_hasFailure_nil
    | some fd =>
        cases hopening : openSubscription clientInput env fd b with
        | error stop =>
            simp only [hopening]
            exact not_hasFailure_handled [.opened fd]
        | ok opening =>
            cases opening with
            | refused events b1 =>
                simp only [hopening]
                exact not_hasFailure_handled (.opened fd :: events)
            | granted fh boxToRead b1 => exact absurd hopening (hno fd fh boxToRead b1 hfd)
  intro past bytes later hsplit
  refine absurd ⟨bytes, ?_⟩ hnone
  rw [hsplit]
  exact List.mem_append_right past List.mem_cons_self

end Handler

/-- A subscriber's session ends at each write that fails if and only if none fails. -/
theorem endsWhenGone_iff (clientInput : Args) (env : SubscriberEnv) (b : State) :
    EndsWhenGone b (regSubscriber clientInput env b) <-> WritesHold clientInput env b := by
  by_cases hgranted : exists fd fh boxToRead b', env.fd = some fd ∧
      openSubscription clientInput env fd b = .ok (.granted fh boxToRead b')
  · rcases hgranted with ⟨fd, fh, boxToRead, b', hfd, hopening⟩
    rw [endsWhenGone_granted hfd hopening, ← subscribeLoop_failure,
      everyNoFailure_iff (Int.le_refl 0)]
    constructor
    · intro hevery fd1 fh1 box1 b1 hfd1 hopening1
      rw [hfd] at hfd1
      cases hfd1
      rw [hopening] at hopening1
      cases hopening1
      exact hevery
    · intro hholds
      exact hholds fd fh boxToRead b' hfd hopening
  · have hno : forall fd fh boxToRead b', env.fd = some fd ->
        openSubscription clientInput env fd b ≠ .ok (.granted fh boxToRead b') :=
      fun fd fh boxToRead b' hfd hopening => hgranted ⟨fd, fh, boxToRead, b', hfd, hopening⟩
    refine ⟨fun _ fd fh boxToRead b' hfd hopening => ?_, fun _ => endsWhenGone_refused hno⟩
    exact absurd hopening (hno fd fh boxToRead b' hfd)

/-- A subscriber of {lit}`/a` whose pipe is gone before the first message. -/
def goneEnv : SubscriberEnv where
  fd := some 3
  node := (openEnv []).node
  buffer := fun _ => 0
  polls := [⟨id, fun _ => false⟩, ⟨id, fun _ => false⟩]

/-- The session polls the box again behind the write that fails. -/
theorem endsWhenGone_hi :
    (regSubscriber argsA goneEnv (stateAfter [createA, publishHi])).1 =
        [.handled (.opened 3), .handled (.tfsOpened 0), .polled 3 (ascii "hi "),
          .sent (ascii "10 hi ") false, .polled 0 []] ∧
      ¬ EndsWhenGone (stateAfter [createA, publishHi])
        (regSubscriber argsA goneEnv (stateAfter [createA, publishHi])) := by
  have htrace : (regSubscriber argsA goneEnv (stateAfter [createA, publishHi])).1 =
      [.handled (.opened 3), .handled (.tfsOpened 0), .polled 3 (ascii "hi "),
        .sent (ascii "10 hi ") false, .polled 0 []] := by decide +kernel
  refine ⟨htrace, fun hends => ?_⟩
  have hlater := hends [.handled (.opened 3), .handled (.tfsOpened 0), .polled 3 (ascii "hi ")]
    (ascii "10 hi ") [.polled 0 []] htrace
  exact hlater.left 0 [] List.mem_cons_self

end Broker
end TecnicoFs
