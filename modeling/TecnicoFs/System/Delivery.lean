import TecnicoFs.System.Service

/-!
# From publishers to subscribers

A box holds the texts that have been published to it since it was created, in the order of
the requests.  A subscriber to the box prints them as one line.  It is the last one that the
broker serves: the session does not end, and the broker has no other thread.
-/

namespace TecnicoFs
namespace System

open Library
open Broker

/-!
## What is in a box
-/

/-- The texts in a box that had these, after a job. -/
def Job.collect (name : CStr) (texts : List CStr) (job : Job) : List CStr :=
  if job.name = name then
    match job.purpose with
    | .create => []
    | .publish input => texts ++ (Clients.inputLines input).map InputLine.text
    | _ => texts
  else texts

section Contents

variable {a : AbstractBroker} {job : Job} {jobs : List Job} {name : CStr} {box : AbstractBox}
  {texts : CStr -> List CStr}

theorem collect_other (hname : job.name ≠ name) (past : List CStr) :
    job.collect name past = past :=
  if_neg hname

/-- Every box holds the texts that are listed for its name. -/
def HoldsTexts (a : AbstractBroker) (texts : CStr -> List CStr) : Prop :=
  forall box, box ∈ a.boxes -> box.content = boxAfter [] (texts box.name)

theorem HoldsTexts.create (h : HoldsTexts a texts) (hallowed : job.Allowed a)
    (hpurpose : job.purpose = .create) :
    HoldsTexts (a.createBox job.name).2 fun name => job.collect name (texts name) := by
  have hnew : job.name ∉ a.names := by
    simpa only [Job.Allowed, hpurpose] using hallowed
  have hold : HoldsTexts a fun name => job.collect name (texts name) := by
    intro box hbox
    have hother : job.name ≠ box.name :=
      fun heq => hnew (heq ▸ AbstractBroker.mem_names.mpr ⟨box, hbox, rfl⟩)
    simp only [collect_other hother]
    exact h box hbox
  rw [AbstractBroker.createBox, dif_pos hnew]
  split
  · split
    · intro box hbox
      rcases List.mem_append.mp hbox with hmem | hlast
      · exact hold box hmem
      · rw [List.mem_singleton.mp hlast]
        simp only [Job.collect, hpurpose, if_true]
        rfl
    · exact hold
  · exact hold

theorem HoldsTexts.publish (h : HoldsTexts a texts) {input : CStr}
    (hpurpose : job.purpose = .publish input) :
    HoldsTexts (a.publish job.name ((Clients.inputLines input).map InputLine.text))
      fun name => job.collect name (texts name) := by
  intro box hbox
  rcases List.mem_map.mp hbox with ⟨old, hold, heq⟩
  rw [← heq, AbstractBroker.publishTo]
  split
  · rename_i hname
    change boxAfter old.content _ = boxAfter [] (job.collect old.name (texts old.name))
    rw [h old hold, boxAfter_append, Job.collect, if_pos hname.symm, hpurpose]
  · rename_i hname
    simp only [collect_other fun hsame => hname hsame.symm]
    exact h old hold

/-- A job that neither creates a box nor publishes to one. -/
theorem collect_calm (hcreate : job.purpose ≠ .create)
    (hpublish : forall input, job.purpose ≠ .publish input) (past : List CStr) :
    job.collect name past = past := by
  rw [Job.collect]
  split
  · split
    · contradiction
    · rename_i input hinput
      exact absurd hinput (hpublish input)
    · rfl
  · rfl

theorem HoldsTexts.step (h : HoldsTexts a texts) (hallowed : job.Allowed a) :
    HoldsTexts (job.step a).2 fun name => job.collect name (texts name) := by
  have hcalm : job.purpose ≠ .create -> (forall input, job.purpose ≠ .publish input) ->
      HoldsTexts a fun name => job.collect name (texts name) := by
    intro hcreate hpublish box hbox
    simp only [collect_calm hcreate hpublish]
    exact h box hbox
  rw [Job.step]
  cases hpurpose : job.purpose with
  | create => exact h.create hallowed hpurpose
  | publish input => exact h.publish hpurpose
  | list => exact hcalm (by simp [hpurpose]) (by simp [hpurpose])
  | subscribe => exact hcalm (by simp [hpurpose]) (by simp [hpurpose])
  | remove =>
      intro box hbox
      refine hcalm (by simp [hpurpose]) (by simp [hpurpose]) box ?_
      simp only [AbstractBroker.removeBox] at hbox
      split at hbox
      · exact List.mem_of_mem_filter hbox
      · exact hbox

end Contents

/-!
## Printing
-/

section Lines

variable {texts : List CStr}

end Lines

/-!
## Subscriptions
-/

section Runs

variable {client : Type} [DecidableEq client] {program : client -> List Job}
  {registerPipe : CharArray pipeNameSize} {mem : Mallocs} {fs0 fs : Fs}
  {sys sys' : Service client Job Output (MainState × State)} {c : client} {job : Job}
  {later : List (client × Job)} {peer : Peer}

end Runs

/-- A client at the pipe {lit}`c`. -/
def letterC : CStr := ⟨[99], by decide⟩

theorem letterC_noSpace : NoSpace letterC := noSpace_of_all (by decide)

def pipeC : Word pipeNameSize := ⟨⟨letterC, by decide⟩, by decide, letterC_noSpace⟩

/-- The standard input of a publisher. -/
def hiText : CStr := hiInput.str

/-- One client creates a box and publishes {lit}`hi` to it, another one subscribes. -/
def deliveryJobs (c : Bool) : List Job :=
  if c then [jobAt pipeA .create, jobAt pipeB (.publish hiText)] else [jobAt pipeC .subscribe]

section Rounds

variable {sys : Service Bool Job Output (MainState × State)} {c : Bool} {job : Job}
  {rest : List Job} {lines : List (List UInt8)} {removed : Bool}

/-- These clients are served in order. -/
abbrev Ordered (sys : Service Bool Job Output (MainState × State)) : Prop :=
  InOrder (register registerR) Job.step Holds deliveryJobs AbstractBroker.empty sys

/-- Nothing is in the pipe, and no client has a run that goes on. -/
structure AtRest (sys : Service Bool Job Output (MainState × State)) : Prop where
  ordered : Ordered sys
  queued : sys.queued = []
  nobody : forall d, sys.current d = none

theorem AtRest.free (h : AtRest sys) (hpipe : job.pipeName ≠ registerR.str) :
    ¬ Taken (register registerR) sys job.pipeName := by
  rintro (hreserved | ⟨d, e, hcurrent, _⟩)
  · exact hpipe hreserved
  · rw [h.nobody d] at hcurrent
    cases hcurrent

end Rounds

end System
end TecnicoFs
