import Mathlib.Logic.Function.Basic
import Mathlib.Logic.Relation
import TecnicoFs.Library.Outcome
import TecnicoFs.Library.Runs

/-!
# Threads behind one mutex

Threads share a state and run calls on it.  The code of a call is a sequence of atomic
actions, and the actions of different threads alternate in any order.  A mutex is taken
before the first action of a call and given back behind the last.  However small the
actions are, what the threads see is a run of whole calls, in the order in which they took
the mutex.
-/

namespace TecnicoFs
namespace Library

/-- What is left to do of a call.  An action reads and changes the shared state at once. -/
inductive Code (state err : Type) : Type -> Type 1 where
  | done {reply : Type} (r : reply) : Code state err reply
  | lock {reply : Type} (rest : Code state err reply) : Code state err reply
  | unlock {reply : Type} (rest : Code state err reply) : Code state err reply
  | act {reply beta : Type} (f : state -> Except err (beta × state))
      (rest : beta -> Code state err reply) : Code state err reply

namespace Code

variable {state err alpha beta reply : Type} {code : Code state err alpha}
  {next : alpha -> Code state err reply} {s : state}

def bind : Code state err alpha -> (alpha -> Code state err beta) -> Code state err beta
  | .done r, next => next r
  | .lock rest, next => .lock (rest.bind next)
  | .unlock rest, next => .unlock (rest.bind next)
  | .act f rest, next => .act f fun b => (rest b).bind next

instance : Monad (Code state err) where
  pure := .done
  bind := bind

/-- One action. -/
def step (f : state -> Except err (alpha × state)) : Code state err alpha := .act f .done

/-- An action that only reads. -/
def read (f : state -> Except err alpha) : Code state err alpha :=
  step fun s => (f s).map fun a => (a, s)

/-- An action that only changes the state. -/
def modify (f : state -> Except err state) : Code state err Unit :=
  step fun s => (f s).map fun s' => ((), s')

def mutexLock : Code state err Unit := .lock (.done ())

def mutexUnlock : Code state err Unit := .unlock (.done ())

/-- What the code does when no other thread runs. -/
def alone : Code state err reply -> state -> Except err (reply × state)
  | .done r, s => .ok (r, s)
  | .lock rest, s => rest.alone s
  | .unlock rest, s => rest.alone s
  | .act f rest, s => do
      let (b, s) <- f s
      (rest b).alone s

@[simp] theorem alone_pure (r : reply) (s : state) :
    (pure r : Code state err reply).alone s = .ok (r, s) := rfl

@[simp] theorem alone_step (f : state -> Except err (alpha × state)) (s : state) :
    (step f).alone s = f s := by
  simp only [step, alone]
  cases f s <;> rfl

@[simp] theorem alone_mutexLock (s : state) :
    (mutexLock : Code state err Unit).alone s = .ok ((), s) := rfl

@[simp] theorem alone_mutexUnlock (s : state) :
    (mutexUnlock : Code state err Unit).alone s = .ok ((), s) := rfl

@[simp] theorem alone_bind (code : Code state err alpha) (next : alpha -> Code state err reply)
    (s : state) :
    (code >>= next).alone s = (code.alone s >>= fun r => (next r.1).alone r.2) := by
  change (code.bind next).alone s = _
  induction code generalizing s with
  | done r => rfl
  | lock rest ih => exact ih s
  | unlock rest ih => exact ih s
  | act f rest ih =>
      simp only [bind, alone]
      cases f s with
      | error e => rfl
      | ok r => exact ih r.1 r.2

@[simp] theorem alone_read (f : state -> Except err alpha) (s : state) :
    (read f).alone s = (f s).map fun a => (a, s) := alone_step _ s

@[simp] theorem alone_modify (f : state -> Except err state) (s : state) :
    (modify f).alone s = (f s).map fun s' => ((), s') := alone_step _ s

/-!
## Code that keeps to the mutex
-/

/-- The code neither takes the mutex nor gives it back. -/
def Plain : Code state err reply -> Prop
  | .done _ => True
  | .lock _ => False
  | .unlock _ => False
  | .act _ rest => forall b, (rest b).Plain

/-- The code has the mutex, and returns as soon as it has given it back. -/
def Guarded : Code state err reply -> Prop
  | .done _ => False
  | .lock _ => False
  | .unlock rest => exists r, rest = .done r
  | .act _ rest => forall b, (rest b).Guarded

/-- The code takes the mutex first. -/
def Bracketed (code : Code state err reply) : Prop :=
  exists rest, code = .lock rest ∧ rest.Guarded

theorem plain_step (f : state -> Except err (alpha × state)) : (step f).Plain := fun _ => trivial

theorem plain_pure (r : reply) : (pure r : Code state err reply).Plain := trivial

theorem Plain.bind (hcode : code.Plain) (hnext : forall r, (next r).Plain) :
    (code >>= next).Plain := by
  change (code.bind next).Plain
  induction code with
  | done r => exact hnext r
  | lock rest ih => exact hcode.elim
  | unlock rest ih => exact hcode.elim
  | act f rest ih => exact fun b => ih b (hcode b)

theorem Plain.guarded (hcode : code.Plain) (hnext : forall r, (next r).Guarded) :
    (code >>= next).Guarded := by
  change (code.bind next).Guarded
  induction code with
  | done r => exact hnext r
  | lock rest ih => exact hcode.elim
  | unlock rest ih => exact hcode.elim
  | act f rest ih => exact fun b => ih b (hcode b)

theorem Guarded.map (hcode : code.Guarded) (f : alpha -> reply) :
    (code >>= fun r => pure (f r)).Guarded := by
  change (code.bind _).Guarded
  induction code with
  | done r => exact hcode.elim
  | lock rest ih => exact hcode.elim
  | unlock rest ih =>
      rcases hcode with ⟨r, hrest⟩
      rw [hrest]
      exact ⟨f r, rfl⟩
  | act g rest ih => exact fun b => ih b (hcode b)

/-- What is made of the reply when the mutex has been given back. -/
theorem Bracketed.map (hcode : code.Bracketed) (f : alpha -> reply) :
    (code >>= fun r => pure (f r)).Bracketed := by
  rcases hcode with ⟨rest, hlock, hguarded⟩
  rw [hlock]
  exact ⟨rest.bind fun r => pure (f r), rfl, hguarded.map f⟩

theorem guarded_unlock (r : reply) :
    (mutexUnlock >>= fun _ => pure r : Code state err reply).Guarded := ⟨r, rfl⟩

theorem bracketed_lock {code : Code state err reply} (hcode : code.Guarded) :
    (mutexLock >>= fun _ => code).Bracketed := ⟨code, rfl, hcode⟩

end Code

/-!
## Threads
-/

/-- A thread: the calls that it has still to make, the call that it is making, and the
replies that it has got. -/
structure Thread (call reply state err : Type) where
  calls : List call
  current : Option (call × Code state err reply)
  replies : List reply

structure Threads (tid call reply state err : Type) where
  shared : state
  /-- The thread that has the mutex. -/
  owner : Option tid
  thread : tid -> Thread call reply state err
  /-- The calls, in the order in which they took the mutex. -/
  log : List (tid × call)

section Threads

variable {tid call reply state err : Type}

namespace Threads

def start (program : tid -> List call) (s : state) : Threads tid call reply state err where
  shared := s
  owner := none
  thread := fun t => ⟨program t, none, []⟩
  log := []

/-- The calls of the log that are over: all but the call of the thread with the mutex. -/
def ended (sys : Threads tid call reply state err) : List (tid × call) :=
  if sys.owner.isSome then sys.log.dropLast else sys.log

theorem ended_log (sys : Threads tid call reply state err) : sys.ended <+: sys.log := by
  unfold ended
  split
  · exact List.dropLast_prefix _
  · exact List.prefix_rfl

variable [DecidableEq tid]

def put (sys : Threads tid call reply state err) (t : tid) (th : Thread call reply state err) :
    Threads tid call reply state err :=
  { sys with thread := Function.update sys.thread t th }

end Threads

variable [DecidableEq tid]

/-- An atomic step of thread `t`. -/
inductive Move (body : call -> Code state err reply) (sys : Threads tid call reply state err)
    (t : tid) : Threads tid call reply state err -> Prop where
  | call {c : call} {cs : List call} {rs : List reply} :
      sys.thread t = ⟨c :: cs, none, rs⟩ ->
      Move body sys t (sys.put t ⟨cs, some (c, body c), rs⟩)
  | lock {c : call} {cs : List call} {rs : List reply} {rest : Code state err reply} :
      sys.thread t = ⟨cs, some (c, .lock rest), rs⟩ -> sys.owner = none ->
      Move body sys t
        { sys.put t ⟨cs, some (c, rest), rs⟩ with owner := some t, log := sys.log ++ [(t, c)] }
  | act {c : call} {cs : List call} {rs : List reply} {beta : Type}
      {f : state -> Except err (beta × state)} {rest : beta -> Code state err reply} {b : beta}
      {s : state} :
      sys.thread t = ⟨cs, some (c, .act f rest), rs⟩ -> f sys.shared = .ok (b, s) ->
      Move body sys t { sys.put t ⟨cs, some (c, rest b), rs⟩ with shared := s }
  | unlock {c : call} {cs : List call} {rs : List reply} {rest : Code state err reply} :
      sys.thread t = ⟨cs, some (c, .unlock rest), rs⟩ ->
      Move body sys t { sys.put t ⟨cs, some (c, rest), rs⟩ with owner := none }
  | ret {c : call} {cs : List call} {rs : List reply} {r : reply} :
      sys.thread t = ⟨cs, some (c, .done r), rs⟩ ->
      Move body sys t (sys.put t ⟨cs, none, rs ++ [r]⟩)

/-- The next action of thread `t` fails. -/
def Fails (sys : Threads tid call reply state err) (t : tid) (e : err) : Prop :=
  exists (c : call) (cs : List call) (rs : List reply) (beta : Type)
    (f : state -> Except err (beta × state)) (rest : beta -> Code state err reply),
    sys.thread t = ⟨cs, some (c, .act f rest), rs⟩ ∧ f sys.shared = .error e

/-- The threads get from one state to another in some order of steps. -/
def Interleaving (body : call -> Code state err reply) :
    Threads tid call reply state err -> Threads tid call reply state err -> Prop :=
  Relation.ReflTransGen fun sys sys' => exists t, Move body sys t sys'

/-!
## The order of the mutex
-/

/-- The calls that thread `t` has in the log. -/
def callsOf (t : tid) (log : List (tid × call)) : List call :=
  (log.filter fun entry => entry.1 = t).map Prod.snd

/-- The replies to the calls that thread `t` has in the log. -/
def repliesOf (t : tid) (log : List (tid × call)) (rs : List reply) : List reply :=
  ((log.zip rs).filter fun entry => entry.1.1 = t).map Prod.snd

section Logs

variable {t u : tid} {c : call} {log : List (tid × call)} {rs : List reply} {r : reply}

theorem callsOf_own : callsOf t (log ++ [(t, c)]) = callsOf t log ++ [c] := by
  simp [callsOf, List.filter_append]

theorem callsOf_other (hne : u ≠ t) : callsOf u (log ++ [(t, c)]) = callsOf u log := by
  simp [callsOf, List.filter_append, hne.symm]

theorem mem_callsOf (h : (t, c) ∈ log) : c ∈ callsOf t log :=
  List.mem_map.mpr ⟨(t, c), List.mem_filter.mpr ⟨h, by simp⟩, rfl⟩

theorem repliesOf_own (hlength : rs.length = log.length) :
    repliesOf t (log ++ [(t, c)]) (rs ++ [r]) = repliesOf t log rs ++ [r] := by
  simp [repliesOf, List.zip_append hlength.symm, List.filter_append]

theorem repliesOf_other (hlength : rs.length = log.length) (hne : u ≠ t) :
    repliesOf u (log ++ [(t, c)]) (rs ++ [r]) = repliesOf u log rs := by
  simp [repliesOf, List.zip_append hlength.symm, List.filter_append, hne.symm]

end Logs

/-- How far a thread without the mutex is, behind the calls of the log. -/
inductive ThreadAt (body : call -> Code state err reply) (program : tid -> List call)
    (log : List (tid × call)) (rs : List reply) (t : tid) :
    Thread call reply state err -> Prop where
  | idle {calls : List call} : program t = callsOf t log ++ calls ->
      ThreadAt body program log rs t ⟨calls, none, repliesOf t log rs⟩
  | waiting {c : call} {calls : List call} : program t = callsOf t log ++ c :: calls ->
      ThreadAt body program log rs t ⟨calls, some (c, body c), repliesOf t log rs⟩
  | returning {c : call} {calls : List call} {replies : List reply} {r : reply} :
      program t = callsOf t log ++ calls -> replies ++ [r] = repliesOf t log rs ->
      ThreadAt body program log rs t ⟨calls, some (c, .done r), replies⟩

/-- The calls of the log have been run one after another, up to the call of the thread that
has the mutex. -/
inductive Serial (step : call -> state -> Except err (reply × state))
    (body : call -> Code state err reply) (program : tid -> List call) (s0 : state)
    (sys : Threads tid call reply state err) : Prop where
  | free {rs : List reply} : sys.owner = none ->
      run step (sys.log.map Prod.snd) s0 = .ok (rs, sys.shared) ->
      (forall t, ThreadAt body program sys.log rs t (sys.thread t)) ->
      Serial step body program s0 sys
  | held {log : List (tid × call)} {rs : List reply} {t : tid} {c : call} {s : state}
      {calls : List call} {rest : Code state err reply} : sys.owner = some t ->
      sys.log = log ++ [(t, c)] -> run step (log.map Prod.snd) s0 = .ok (rs, s) ->
      sys.thread t = ⟨calls, some (c, rest), repliesOf t log rs⟩ -> rest.Guarded ->
      rest.alone sys.shared = step c s -> program t = callsOf t log ++ c :: calls ->
      (forall u, u ≠ t -> ThreadAt body program log rs u (sys.thread u)) ->
      Serial step body program s0 sys

/-- The code of every call keeps to the mutex, and does what the call does. -/
structure Implements (body : call -> Code state err reply)
    (step : call -> state -> Except err (reply × state)) : Prop where
  bracketed : forall c, (body c).Bracketed
  alone : forall c s, (body c).alone s = step c s

section Order

variable {body : call -> Code state err reply} {step : call -> state -> Except err (reply × state)}
  {program : tid -> List call} {s0 : state} {sys sys' : Threads tid call reply state err}
  {t u : tid} {log : List (tid × call)} {rs : List reply} {th : Thread call reply state err}

theorem put_own (sys : Threads tid call reply state err) (t : tid)
    (th : Thread call reply state err) : (sys.put t th).thread t = th := by
  simp [Threads.put]

theorem put_other (sys : Threads tid call reply state err) {t u : tid}
    (th : Thread call reply state err) (hne : u ≠ t) : (sys.put t th).thread u = sys.thread u := by
  simp [Threads.put, hne]

/-- A thread without the mutex that makes a call has not begun with it, or is about to
return. -/
theorem ThreadAt.making {c : call} {calls : List call} {code : Code state err reply}
    {replies : List reply}
    (h : ThreadAt body program log rs t ⟨calls, some (c, code), replies⟩) :
    (code = body c ∧ replies = repliesOf t log rs ∧ program t = callsOf t log ++ c :: calls) ∨
      exists r, code = .done r ∧ replies ++ [r] = repliesOf t log rs ∧
        program t = callsOf t log ++ calls := by
  cases h with
  | waiting hprogram => exact Or.inl ⟨rfl, rfl, hprogram⟩
  | returning hprogram hlast => exact Or.inr ⟨_, rfl, hlast, hprogram⟩

/-- The other threads do not see that a call is added to the log. -/
theorem ThreadAt.other {c : call} {r : reply} (h : ThreadAt body program log rs u th)
    (hlength : rs.length = log.length) (hne : u ≠ t) :
    ThreadAt body program (log ++ [(t, c)]) (rs ++ [r]) u th := by
  have hcalls : callsOf u (log ++ [(t, c)]) = callsOf u log := callsOf_other hne
  have hreplies : repliesOf u (log ++ [(t, c)]) (rs ++ [r]) = repliesOf u log rs :=
    repliesOf_other hlength hne
  cases h with
  | idle hprogram =>
      rw [← hreplies]
      exact ThreadAt.idle (hcalls.symm ▸ hprogram)
  | waiting hprogram =>
      rw [← hreplies]
      exact ThreadAt.waiting (hcalls.symm ▸ hprogram)
  | returning hprogram hlast =>
      exact ThreadAt.returning (hcalls.symm ▸ hprogram) (hlast.trans hreplies.symm)

theorem Serial.start : Serial step body program s0 (Threads.start program s0) :=
  Serial.free rfl rfl fun _ => ThreadAt.idle rfl

/-- A step of a thread without the mutex that leaves the state, the mutex and the log. -/
theorem Serial.put (h : Serial step body program s0 sys) (hown : sys.owner ≠ some t)
    (hthread : forall log rs, ThreadAt body program log rs t (sys.thread t) ->
      ThreadAt body program log rs t th) :
    Serial step body program s0 (sys.put t th) := by
  cases h with
  | @free rs hfree hrun hall =>
      refine Serial.free hfree hrun fun u => ?_
      by_cases hu : u = t
      · rw [hu, put_own]
        exact hthread _ _ (hall t)
      · rw [put_other sys th hu]
        exact hall u
  | @held log rs v c s calls rest hheld hlog hrun hcurrent hguarded halone hprogram hall =>
      have hv : v ≠ t := fun heq => hown (heq ▸ hheld)
      refine Serial.held hheld hlog hrun ?_ hguarded halone hprogram fun u hu => ?_
      · rw [put_other sys th hv]
        exact hcurrent
      · by_cases hut : u = t
        · rw [hut, put_own]
          exact hthread _ _ (hall t hv.symm)
        · rw [put_other sys th hut]
          exact hall u hu

/-- A thread whose code is not behind the mutex does not have it. -/
theorem Serial.not_owner (h : Serial step body program s0 sys)
    (hnot : forall calls c rest replies, sys.thread t = ⟨calls, some (c, rest), replies⟩ ->
      ¬ rest.Guarded) : sys.owner ≠ some t := by
  intro hown
  cases h with
  | free hfree _ _ =>
      rw [hfree] at hown
      cases hown
  | held hheld _ _ hcurrent hguarded _ _ _ =>
      rw [hheld] at hown
      cases hown
      exact hnot _ _ _ _ hcurrent hguarded

/-- A thread whose code is behind the mutex has it. -/
theorem Serial.owner (hbody : forall c, (body c).Bracketed)
    (h : Serial step body program s0 sys) {c : call} {calls : List call}
    {code : Code state err reply} {replies : List reply}
    (hthread : sys.thread t = ⟨calls, some (c, code), replies⟩)
    (hcode : forall rest, code ≠ .lock rest) (hdone : forall r, code ≠ .done r) :
    exists log rs s, sys.owner = some t ∧ sys.log = log ++ [(t, c)] ∧
      run step (log.map Prod.snd) s0 = .ok (rs, s) ∧ replies = repliesOf t log rs ∧
      code.Guarded ∧ code.alone sys.shared = step c s ∧
      program t = callsOf t log ++ c :: calls ∧
      forall u, u ≠ t -> ThreadAt body program log rs u (sys.thread u) := by
  have hnot : forall {log rs}, ¬ ThreadAt body program log rs t (sys.thread t) := by
    intro log rs hat
    rw [hthread] at hat
    rcases hat.making with ⟨heq, _⟩ | ⟨r, heq, _⟩
    · rcases hbody c with ⟨rest, hlock, _⟩
      exact hcode rest (heq.trans hlock)
    · exact hdone r heq
  cases h with
  | free _ _ hall => exact absurd (hall t) hnot
  | @held log rs v c' s calls' rest hheld hlog hrun hcurrent hguarded halone hprogram hall =>
      by_cases hv : t = v
      · cases hv
        rw [hthread] at hcurrent
        cases hcurrent
        exact ⟨log, rs, s, hheld, hlog, hrun, rfl, hguarded, halone, hprogram, hall⟩
      · exact absurd (hall t hv) hnot

/-- Every step keeps the threads in a serial order. -/
theorem Serial.move (himplements : Implements body step)
    (h : Serial step body program s0 sys) (hmove : Move body sys t sys') :
    Serial step body program s0 sys' := by
  have hbody := himplements.bracketed
  cases hmove with
  | @call c cs replies hthread =>
      refine h.put (h.not_owner fun calls c' rest rs hcurrent => ?_) fun log rs hat => ?_
      · rw [hthread] at hcurrent
        cases hcurrent
      · rw [hthread] at hat
        cases hat with
        | idle hprogram => exact ThreadAt.waiting hprogram
  | @lock c cs replies rest hthread howner =>
      cases h with
      | held hheld _ _ _ _ _ _ _ =>
          rw [howner] at hheld
          cases hheld
      | @free rs _ hrun hall =>
          have hat := hall t
          rw [hthread] at hat
          rcases hat.making with ⟨hlock, hreplies, hprogram⟩ | ⟨r, hdone, _⟩
          · rcases hbody c with ⟨rest', hcode, hguarded⟩
            rw [hcode] at hlock
            cases hlock
            rw [hreplies]
            refine Serial.held rfl rfl hrun (put_own sys t _) hguarded ?_ hprogram
              fun u hu => ?_
            · rw [← himplements.alone c sys.shared, hcode]
              rfl
            · exact (put_other sys _ hu).symm ▸ hall u
          · cases hdone
  | @act c cs replies beta f rest b s hthread hf =>
      rcases h.owner hbody hthread (fun _ hlock => by cases hlock)
        (fun _ hdone => by cases hdone) with
        ⟨log, rs, s', hheld, hlog, hrun, hreplies, hguarded, halone, hprogram, hall⟩
      rw [hreplies]
      refine Serial.held hheld hlog hrun (put_own sys t _) (hguarded b) ?_ hprogram
        fun u hu => ?_
      · rw [← halone]
        simp only [Code.alone, hf, ok_bind]
      · exact (put_other sys _ hu).symm ▸ hall u hu
  | @unlock c cs replies rest hthread =>
      rcases h.owner hbody hthread (fun _ hlock => by cases hlock)
        (fun _ hdone => by cases hdone) with
        ⟨log, rs, s, hheld, hlog, hrun, hreplies, ⟨r, hdone⟩, halone, hprogram, hall⟩
      rw [hdone] at halone
      have hstep : step c s = .ok (r, sys.shared) := halone.symm
      have hlength : rs.length = log.length := by
        rw [run_length hrun, List.length_map]
      have hrun' : run step (sys.log.map Prod.snd) s0 = .ok (rs ++ [r], sys.shared) := by
        rw [hlog, List.map_append]
        exact run_snoc hrun hstep
      refine Serial.free rfl hrun' fun u => ?_
      change ThreadAt body program sys.log (rs ++ [r]) u ((sys.put t _).thread u)
      rw [hlog]
      by_cases hu : u = t
      · rw [hu, put_own, hdone]
        refine ThreadAt.returning ?_ ?_
        · rw [callsOf_own, List.append_assoc]
          exact hprogram
        · rw [repliesOf_own hlength, hreplies]
      · rw [put_other sys _ hu]
        exact (hall u hu).other hlength hu
  | @ret c cs replies r hthread =>
      refine h.put (h.not_owner fun calls c' rest rs hcurrent => ?_) fun log rs hat => ?_
      · rw [hthread] at hcurrent
        cases hcurrent
        exact id
      · rw [hthread] at hat
        rcases hat.making with ⟨hcode, _⟩ | ⟨r', hdone, hlast, hprogram⟩
        · rcases hbody c with ⟨rest, hlock, _⟩
          rw [hlock] at hcode
          cases hcode
        · cases hdone
          rw [hlast]
          exact ThreadAt.idle hprogram

theorem Serial.interleaving (himplements : Implements body step)
    (h : Serial step body program s0 sys) (hsteps : Interleaving body sys sys') :
    Serial step body program s0 sys' := by
  induction hsteps with
  | refl => exact h
  | tail _ hmove ih =>
      rcases hmove with ⟨t, hmove⟩
      exact ih.move himplements hmove

/-- A call that fails among the steps of other threads fails in the serial order. -/
theorem Serial.fails (himplements : Implements body step)
    (h : Serial step body program s0 sys) {e : err} (hfails : Fails sys t e) :
    run step (sys.log.map Prod.snd) s0 = .error e := by
  rcases hfails with ⟨c, calls, replies, beta, f, rest, hthread, hf⟩
  rcases h.owner himplements.bracketed hthread (fun _ hlock => by cases hlock)
    (fun _ hdone => by cases hdone) with ⟨log, rs, s, _, hlog, hrun, _, _, halone, _⟩
  rw [hlog, List.map_append]
  refine run_snoc_error hrun ?_
  rw [← halone]
  simp only [Code.alone, hf]
  rfl

/-- The thread makes no call and has none to make. -/
def Finished (sys : Threads tid call reply state err) (t : tid) : Prop :=
  (sys.thread t).calls = [] ∧ (sys.thread t).current = none

/-- The thread that has the mutex gets by its own steps to where it has given it back,
unless its call fails. -/
theorem released {c : call} {calls : List call} {code : Code state err reply}
    {replies : List reply} (sys : Threads tid call reply state err) (hguarded : code.Guarded)
    (hthread : sys.thread t = ⟨calls, some (c, code), replies⟩) :
    exists sys', Interleaving body sys sys' ∧
      ((sys'.owner = none ∧ exists r, sys'.thread t = ⟨calls, some (c, .done r), replies⟩) ∨
        exists e, Fails sys' t e) := by
  induction code generalizing sys with
  | done r => exact hguarded.elim
  | lock rest ih => exact hguarded.elim
  | unlock rest ih =>
      rcases hguarded with ⟨r, hrest⟩
      rw [hrest] at hthread
      exact ⟨_, Relation.ReflTransGen.single ⟨t, Move.unlock hthread⟩,
        Or.inl ⟨rfl, r, put_own sys t _⟩⟩
  | act f rest ih =>
      cases hf : f sys.shared with
      | error e =>
          exact ⟨sys, Relation.ReflTransGen.refl,
            Or.inr ⟨e, c, calls, replies, _, f, rest, hthread, hf⟩⟩
      | ok r =>
          rcases ih r.1 { sys.put t ⟨calls, some (c, rest r.1), replies⟩ with shared := r.2 }
            (hguarded r.1) (put_own sys t _) with ⟨sys', hsteps, hend⟩
          exact ⟨sys', Relation.ReflTransGen.head ⟨t, Move.act hthread hf⟩ hsteps, hend⟩

/-- A thread that waits for the mutex while it is free can get its reply. -/
theorem served (hbody : forall c, (body c).Bracketed) {c : call} {calls : List call}
    {replies : List reply} (sys : Threads tid call reply state err) (howner : sys.owner = none)
    (hthread : sys.thread t = ⟨calls, some (c, body c), replies⟩) :
    exists sys', Interleaving body sys sys' ∧
      ((sys'.owner = none ∧ exists rs, sys'.thread t = ⟨calls, none, rs⟩) ∨
        exists e, Fails sys' t e) := by
  rcases hbody c with ⟨rest, hlock, hguarded⟩
  rw [hlock] at hthread
  have hfirst : Move body sys t { sys.put t ⟨calls, some (c, rest), replies⟩ with
      owner := some t, log := sys.log ++ [(t, c)] } := Move.lock hthread howner
  rcases released { sys.put t ⟨calls, some (c, rest), replies⟩ with
      owner := some t, log := sys.log ++ [(t, c)] } hguarded (put_own sys t _) with
    ⟨sys1, hsteps, hend⟩
  have hsteps1 : Interleaving body sys sys1 := Relation.ReflTransGen.head ⟨t, hfirst⟩ hsteps
  rcases hend with ⟨hfree, r, hdone⟩ | hfails
  · exact ⟨_, Relation.ReflTransGen.tail hsteps1 ⟨t, Move.ret hdone⟩,
      Or.inl ⟨hfree, replies ++ [r], put_own sys1 t _⟩⟩
  · exact ⟨sys1, hsteps1, Or.inr hfails⟩

/-- A thread that makes no call can make all that it has still to make. -/
theorem finishes_idle (hbody : forall c, (body c).Bracketed) {calls : List call}
    {replies : List reply} (sys : Threads tid call reply state err) (howner : sys.owner = none)
    (hthread : sys.thread t = ⟨calls, none, replies⟩) :
    exists sys', Interleaving body sys sys' ∧ (Finished sys' t ∨ exists e, Fails sys' t e) := by
  induction calls generalizing sys replies with
  | nil => exact ⟨sys, Relation.ReflTransGen.refl, Or.inl ⟨by rw [hthread], by rw [hthread]⟩⟩
  | cons c calls ih =>
      have hfirst : Move body sys t (sys.put t ⟨calls, some (c, body c), replies⟩) :=
        Move.call hthread
      rcases served hbody (sys.put t ⟨calls, some (c, body c), replies⟩) howner
        (put_own sys t _) with ⟨sys1, hsteps, hend⟩
      have hsteps1 : Interleaving body sys sys1 := Relation.ReflTransGen.head ⟨t, hfirst⟩ hsteps
      rcases hend with ⟨hfree, rs, hidle⟩ | hfails
      · rcases ih sys1 hfree hidle with ⟨sys', hrest, hfinished⟩
        exact ⟨sys', Relation.ReflTransGen.trans hsteps1 hrest, hfinished⟩
      · exact ⟨sys1, hsteps1, Or.inr hfails⟩

/-- While the mutex is free, a thread can make all its calls. -/
theorem ThreadAt.finishes (hbody : forall c, (body c).Bracketed) (howner : sys.owner = none)
    (h : ThreadAt body program log rs t th) (hthread : sys.thread t = th) :
    exists sys', Interleaving body sys sys' ∧ (Finished sys' t ∨ exists e, Fails sys' t e) := by
  cases h with
  | idle _ => exact finishes_idle hbody sys howner hthread
  | waiting _ =>
      rcases served hbody sys howner hthread with ⟨sys1, hsteps, ⟨hfree, rs, hidle⟩ | hfails⟩
      · rcases finishes_idle hbody sys1 hfree hidle with ⟨sys', hrest, hfinished⟩
        exact ⟨sys', Relation.ReflTransGen.trans hsteps hrest, hfinished⟩
      · exact ⟨sys1, hsteps, Or.inr hfails⟩
  | @returning c calls replies r _ _ =>
      have hfirst : Move body sys t (sys.put t ⟨calls, none, replies ++ [r]⟩) :=
        Move.ret hthread
      rcases finishes_idle hbody (sys.put t ⟨calls, none, replies ++ [r]⟩) howner
        (put_own sys t _) with ⟨sys', hrest, hfinished⟩
      exact ⟨sys', Relation.ReflTransGen.head ⟨t, hfirst⟩ hrest, hfinished⟩

/-- No deadlock: every thread can make all its calls, unless a call fails. -/
theorem Serial.finishes (himplements : Implements body step)
    (h : Serial step body program s0 sys) (t : tid) :
    exists sys', Interleaving body sys sys' ∧ (Finished sys' t ∨ exists u e, Fails sys' u e) := by
  have hfree : forall {sys1}, Serial step body program s0 sys1 -> sys1.owner = none ->
      exists sys', Interleaving body sys1 sys' ∧
        (Finished sys' t ∨ exists u e, Fails sys' u e) := by
    intro sys1 h1 hfree
    cases h1 with
    | held hheld _ _ _ _ _ _ _ =>
        rw [hfree] at hheld
        cases hheld
    | free _ _ hall =>
        rcases (hall t).finishes himplements.bracketed hfree rfl with
          ⟨sys', hsteps, hfinished | hfails⟩
        · exact ⟨sys', hsteps, Or.inl hfinished⟩
        · exact ⟨sys', hsteps, Or.inr ⟨t, hfails⟩⟩
  cases hserial : sys.owner with
  | none => exact hfree h hserial
  | some v =>
      have hstart := h
      cases h with
      | free hnone _ _ =>
          rw [hserial] at hnone
          cases hnone
      | @held log rs v' c s calls rest hheld _ _ hcurrent hguarded _ _ _ =>
          rcases released sys hguarded hcurrent with ⟨sys1, hsteps, ⟨hnone, _⟩ | hfails⟩
          · rcases hfree (hstart.interleaving himplements hsteps) hnone with ⟨sys', hrest, hend⟩
            exact ⟨sys', Relation.ReflTransGen.trans hsteps hrest, hend⟩
          · exact ⟨sys1, hsteps, Or.inr ⟨v', hfails⟩⟩

/-- The log only grows. -/
theorem log_grows (hsteps : Interleaving body sys sys') : sys.log <+: sys'.log := by
  induction hsteps with
  | refl => exact List.prefix_rfl
  | tail _ hmove ih =>
      rcases hmove with ⟨t, hmove⟩
      cases hmove with
      | lock _ _ => exact ih.trans (List.prefix_append _ _)
      | call _ => exact ih
      | act _ _ => exact ih
      | unlock _ => exact ih
      | ret _ => exact ih

/-- The threads see a run of whole calls from `s0` to `s`, with the replies `rs`. -/
structure Linearized (step : call -> state -> Except err (reply × state))
    (program : tid -> List call) (s0 : state) (sys : Threads tid call reply state err)
    (rs : List reply) (s : state) : Prop where
  run : run step (sys.ended.map Prod.snd) s0 = .ok (rs, s)
  shared : sys.owner = none -> sys.shared = s
  order : forall t, callsOf t sys.log <+: program t
  replies : forall t, (sys.thread t).replies <+: repliesOf t sys.ended rs
  returned : forall t, (sys.thread t).current = none ->
    (sys.thread t).replies = repliesOf t sys.ended rs ∧
      callsOf t sys.ended ++ (sys.thread t).calls = program t

theorem ThreadAt.linearized (h : ThreadAt body program log rs t th) :
    callsOf t log <+: program t ∧ th.replies <+: repliesOf t log rs ∧
      (th.current = none -> th.replies = repliesOf t log rs ∧
        callsOf t log ++ th.calls = program t) := by
  cases h with
  | idle hprogram =>
      rw [hprogram]
      exact ⟨List.prefix_append _ _, List.prefix_rfl, fun _ => ⟨rfl, rfl⟩⟩
  | waiting hprogram =>
      rw [hprogram]
      exact ⟨List.prefix_append _ _, List.prefix_rfl, fun hnone => by cases hnone⟩
  | returning hprogram hlast =>
      rw [hprogram, ← hlast]
      exact ⟨List.prefix_append _ _, List.prefix_append _ _, fun hnone => by cases hnone⟩

theorem Serial.linearized (h : Serial step body program s0 sys) :
    exists rs s, Linearized step program s0 sys rs s := by
  cases h with
  | @free rs hfree hrun hall =>
      have hended : sys.ended = sys.log := by
        rw [Threads.ended, hfree]
        rfl
      refine ⟨rs, sys.shared, ?_, fun _ => rfl, fun t => (hall t).linearized.left, ?_, ?_⟩
      · rw [hended]
        exact hrun
      · rw [hended]
        exact fun t => (hall t).linearized.right.left
      · rw [hended]
        exact fun t => (hall t).linearized.right.right
  | @held log rs v c s calls rest hheld hlog hrun hcurrent _ _ hprogram hall =>
      have hended : sys.ended = log := by
        rw [Threads.ended, hheld, hlog]
        exact List.dropLast_concat
      refine ⟨rs, s, ?_, fun hfree => ?_, fun t => ?_, fun t => ?_, fun t hnone => ?_⟩
      · rw [hended]
        exact hrun
      · rw [hfree] at hheld
        cases hheld
      · rw [hlog]
        by_cases ht : t = v
        · rw [ht, callsOf_own, hprogram]
          exact ⟨calls, by simp⟩
        · rw [callsOf_other ht]
          exact (hall t ht).linearized.left
      · rw [hended]
        by_cases ht : t = v
        · simp only [ht, hcurrent, List.prefix_rfl]
        · exact (hall t ht).linearized.right.left
      · rw [hended]
        by_cases ht : t = v
        · rw [ht, hcurrent] at hnone
          cases hnone
        · exact (hall t ht).linearized.right.right hnone

end Order

end Threads

end Library
end TecnicoFs
