import Mathlib.Data.List.Forall2

/-!
# Runs of a machine

A machine executes one call at a time: a call in a state fails, or yields a reply
and a state.  A run executes a list of calls and ends at the first that fails.
The rules below carry facts about single steps to whole runs: invariants,
properties of every step taken, and simulation by an abstract machine that never
fails.
-/

namespace TecnicoFs
namespace Library

section Runs

variable {call state reply err : Type} {step : call -> state -> Except err (reply × state)}

/-- Execute the calls in order and collect their replies. -/
def run (step : call -> state -> Except err (reply × state)) :
    List call -> state -> Except err (List reply × state)
  | [], s => .ok ([], s)
  | c :: cs, s =>
      match step c s with
      | .error e => .error e
      | .ok (r, s') =>
          match run step cs s' with
          | .error e => .error e
          | .ok (rs, s'') => .ok (r :: rs, s'')

theorem run_nil_ok {s s' : state} {rs : List reply} :
    run step [] s = .ok (rs, s') <-> rs = [] ∧ s' = s := by
  constructor
  · intro h
    cases h
    exact ⟨rfl, rfl⟩
  · rintro ⟨hrs, hs⟩
    rw [hrs, hs, run]

theorem run_cons_ok {c : call} {cs : List call} {s s' : state} {rs : List reply} :
    run step (c :: cs) s = .ok (rs, s') <->
      exists r s1 rs', step c s = .ok (r, s1) ∧ run step cs s1 = .ok (rs', s') ∧
        rs = r :: rs' := by
  rw [run]
  constructor
  · intro h
    cases hstep : step c s with
    | error e =>
        rw [hstep] at h
        cases h
    | ok first =>
        rcases first with ⟨r, s1⟩
        simp only [hstep] at h
        cases hrest : run step cs s1 with
        | error e =>
            rw [hrest] at h
            cases h
        | ok rest =>
            rcases rest with ⟨rs', s2⟩
            rw [hrest] at h
            cases h
            exact ⟨r, s1, rs', rfl, hrest, rfl⟩
  · rintro ⟨r, s1, rs', hstep, hrest, hrs⟩
    simp only [hstep, hrest, hrs]

theorem run_cons_error {c : call} {cs : List call} {s : state} {e : err} :
    run step (c :: cs) s = .error e <->
      step c s = .error e ∨ exists r s1, step c s = .ok (r, s1) ∧ run step cs s1 = .error e := by
  rw [run]
  cases step c s with
  | error e' => simp
  | ok first =>
      rcases first with ⟨r, s1⟩
      constructor
      · intro h
        refine Or.inr ⟨r, s1, rfl, ?_⟩
        cases hrest : run step cs s1 with
        | error e' => simpa [hrest] using h
        | ok rest => simp [hrest] at h
      · rintro (h | ⟨r', s1', h, hrest⟩)
        · cases h
        · cases h
          simp [hrest]

theorem run_snoc {cs : List call} {c : call} {s s' s'' : state} {rs : List reply} {r : reply}
    (h : run step cs s = .ok (rs, s')) (hstep : step c s' = .ok (r, s'')) :
    run step (cs ++ [c]) s = .ok (rs ++ [r], s'') := by
  induction cs generalizing s rs with
  | nil =>
      rcases run_nil_ok.mp h with ⟨hrs, hs⟩
      rw [hs] at hstep
      rw [hrs]
      exact run_cons_ok.mpr ⟨r, s'', [], hstep, rfl, rfl⟩
  | cons d ds ih =>
      rcases run_cons_ok.mp h with ⟨r1, s1, rs', hfirst, hrest, hrs⟩
      exact run_cons_ok.mpr ⟨r1, s1, rs' ++ [r], hfirst, ih hrest, by rw [hrs]; rfl⟩

theorem run_snoc_error {cs : List call} {c : call} {s s' : state} {rs : List reply} {e : err}
    (h : run step cs s = .ok (rs, s')) (hstep : step c s' = .error e) :
    run step (cs ++ [c]) s = .error e := by
  induction cs generalizing s rs with
  | nil =>
      rw [(run_nil_ok.mp h).right] at hstep
      exact run_cons_error.mpr (Or.inl hstep)
  | cons d ds ih =>
      rcases run_cons_ok.mp h with ⟨r, s1, rs', hfirst, hrest, _⟩
      exact run_cons_error.mpr (Or.inr ⟨r, s1, hfirst, ih hrest⟩)

/-- A run has a reply for every call. -/
theorem run_length {cs : List call} {s s' : state} {rs : List reply}
    (h : run step cs s = .ok (rs, s')) : rs.length = cs.length := by
  induction cs generalizing s rs with
  | nil =>
      rw [(run_nil_ok.mp h).left]
      rfl
  | cons c cs ih =>
      rcases run_cons_ok.mp h with ⟨r, s1, rs', _, hrest, hrs⟩
      rw [hrs, List.length_cons, List.length_cons, ih hrest]

/-- What every step preserves holds after a run. -/
theorem run_invariant {P : state -> Prop}
    (hstep : forall {c s r s'}, P s -> step c s = .ok (r, s') -> P s')
    {cs : List call} {s s' : state} {rs : List reply} (h : run step cs s = .ok (rs, s'))
    (hs : P s) : P s' := by
  induction cs generalizing s rs with
  | nil =>
      rcases run_nil_ok.mp h with ⟨_, heq⟩
      exact heq ▸ hs
  | cons c cs ih =>
      rcases run_cons_ok.mp h with ⟨r, s1, rs', hfirst, hrest, _⟩
      exact ih hrest (hstep hs hfirst)

/-!
## Properties of the calls of a run
-/

/-- Every call that the run attempts has the property in the state it is made in.
The call at which a run fails counts as attempted. -/
def EveryCall (step : call -> state -> Except err (reply × state))
    (Q : state -> call -> Prop) : List call -> state -> Prop
  | [], _ => True
  | c :: cs, s => Q s c ∧ forall r s', step c s = .ok (r, s') -> EveryCall step Q cs s'

theorem not_everyCall {Q : state -> call -> Prop} {c : call} (cs : List call) {s : state}
    (hnot : ¬ Q s c) : ¬ EveryCall step Q (c :: cs) s :=
  fun hevery => hnot hevery.left

theorem not_everyCall_next {Q : state -> call -> Prop} {c : call} {cs : List call}
    {s s' : state} {r : reply} (hstep : step c s = .ok (r, s'))
    (hnot : ¬ EveryCall step Q cs s') : ¬ EveryCall step Q (c :: cs) s :=
  fun hevery => hnot (hevery.right r s' hstep)

/-- A property of calls that another implies as long as an invariant holds. -/
theorem everyCall_imp {P : state -> Prop} {Q Q' : state -> call -> Prop}
    (himp : forall {s c}, P s -> Q s c -> Q' s c)
    (hnext : forall {s c r s'}, P s -> Q s c -> step c s = .ok (r, s') -> P s')
    {cs : List call} {s : state} (hs : P s) (h : EveryCall step Q cs s) :
    EveryCall step Q' cs s := by
  induction cs generalizing s with
  | nil => trivial
  | cons c cs ih =>
      rcases h with ⟨hq, hrest⟩
      exact ⟨himp hs hq, fun r s' hstep => ih (hnext hs hq hstep) (hrest r s' hstep)⟩

/-- Two properties of calls that agree as long as an invariant holds. -/
theorem everyCall_iff {P : state -> Prop} {Q Q' : state -> call -> Prop}
    (hsame : forall {s c}, P s -> (Q s c <-> Q' s c))
    (hnext : forall {s c r s'}, P s -> Q s c -> step c s = .ok (r, s') -> P s')
    {cs : List call} {s : state} (hs : P s) :
    EveryCall step Q cs s <-> EveryCall step Q' cs s :=
  ⟨everyCall_imp (fun hs => (hsame hs).mp) hnext hs,
    everyCall_imp (fun hs => (hsame hs).mpr)
      (fun hs hq' hstep => hnext hs ((hsame hs).mpr hq') hstep) hs⟩

/-- An invariant of the calls with a property holds after a run of such calls. -/
theorem everyCall_invariant {P : state -> Prop} {Q : state -> call -> Prop}
    (hnext : forall {s c r s'}, P s -> Q s c -> step c s = .ok (r, s') -> P s')
    {cs : List call} {s s' : state} {rs : List reply} (h : run step cs s = .ok (rs, s'))
    (hevery : EveryCall step Q cs s) (hs : P s) : P s' := by
  induction cs generalizing s rs with
  | nil =>
      rcases run_nil_ok.mp h with ⟨_, heq⟩
      exact heq ▸ hs
  | cons c cs ih =>
      rcases run_cons_ok.mp h with ⟨r, s1, rs', hfirst, hrest, _⟩
      rcases hevery with ⟨hq, hevery'⟩
      exact ih hrest (hevery' r s1 hfirst) (hnext hs hq hfirst)

/-!
## Costs

Each call of a run costs something, which may depend on its reply.
-/

def runCost (cost : call -> reply -> Nat) : List call -> List reply -> Nat
  | c :: cs, r :: rs => cost c r + runCost cost cs rs
  | _, _ => 0

/-- When a step moves its cost into the invariant, a run moves the sum. -/
theorem run_cost {P : Nat -> state -> Prop} {Q : state -> call -> Prop}
    {cost : call -> reply -> Nat}
    (hstep : forall {n s c r s'}, P n s -> Q s c -> step c s = .ok (r, s') ->
      P (n + cost c r) s')
    {cs : List call} {s s' : state} {rs : List reply} {n : Nat}
    (h : run step cs s = .ok (rs, s')) (hevery : EveryCall step Q cs s) (hs : P n s) :
    P (n + runCost cost cs rs) s' := by
  induction cs generalizing s rs n with
  | nil =>
      rcases run_nil_ok.mp h with ⟨hrs, heq⟩
      rw [hrs, heq]
      exact hs
  | cons c cs ih =>
      rcases run_cons_ok.mp h with ⟨r, s1, rs', hfirst, hrest, hrs⟩
      rcases hevery with ⟨hq, hevery'⟩
      have hlast := ih hrest (hevery' r s1 hfirst) (hstep hs hq hfirst)
      rwa [hrs, runCost, ← Nat.add_assoc]

/-- What holds of each reply of such a run. -/
theorem run_replies {P : state -> Prop} {Q : state -> call -> Prop} {R : call -> reply -> Prop}
    (hstep : forall {s c r s'}, P s -> Q s c -> step c s = .ok (r, s') -> R c r ∧ P s')
    {cs : List call} {s s' : state} {rs : List reply} (h : run step cs s = .ok (rs, s'))
    (hevery : EveryCall step Q cs s) (hs : P s) : List.Forall₂ R cs rs := by
  induction cs generalizing s rs with
  | nil =>
      rw [(run_nil_ok.mp h).left]
      exact List.Forall₂.nil
  | cons c cs ih =>
      rcases run_cons_ok.mp h with ⟨r, s1, rs', hfirst, hrest, hrs⟩
      rcases hevery with ⟨hq, hevery'⟩
      rcases hstep hs hq hfirst with ⟨hreply, hs1⟩
      rw [hrs]
      exact List.Forall₂.cons hreply (ih hrest (hevery' r s1 hfirst) hs1)

theorem runCost_add {cost cost1 cost2 : call -> reply -> Nat} {cs : List call} {rs : List reply}
    (h : List.Forall₂ (fun c r => cost c r = cost1 c r + cost2 c r) cs rs) :
    runCost cost cs rs = runCost cost1 cs rs + runCost cost2 cs rs := by
  induction h with
  | nil => rfl
  | cons hfirst _ ih =>
      rw [runCost, runCost, runCost, hfirst, ih]
      omega

/-!
## Failures
-/

/-- A run fails in a certain way exactly when one of its calls does. -/
theorem run_avoids_iff {bad : err -> Prop} {cs : List call} {s : state} :
    (forall e, run step cs s = .error e -> ¬ bad e) <->
      EveryCall step (fun s c => forall e, step c s = .error e -> ¬ bad e) cs s := by
  induction cs generalizing s with
  | nil =>
      constructor
      · intro _
        trivial
      · intro _ e herror
        cases herror
  | cons c cs ih =>
      constructor
      · intro h
        refine ⟨fun e herror => h e (run_cons_error.mpr (Or.inl herror)), fun r s1 hstep => ?_⟩
        exact ih.mp fun e herror => h e (run_cons_error.mpr (Or.inr ⟨r, s1, hstep, herror⟩))
      · rintro ⟨hfirst, hrest⟩ e herror
        rcases run_cons_error.mp herror with hnow | ⟨r, s1, hstep, hlater⟩
        · exact hfirst e hnow
        · exact ih.mpr (hrest r s1 hstep) e hlater

/-- A property of states that a call keeps exactly when the call is good holds
after a run exactly when it held before and every call was good. -/
theorem run_keeps_iff (Good : state -> Prop) {P : state -> Prop} {Q : state -> call -> Prop}
    (hnext : forall {s c r s'}, P s -> step c s = .ok (r, s') -> P s')
    (hgood : forall {s c r s'}, P s -> step c s = .ok (r, s') ->
      (Good s' <-> Good s ∧ Q s c))
    {cs : List call} {s s' : state} {rs : List reply} (h : run step cs s = .ok (rs, s'))
    (hs : P s) : Good s' <-> Good s ∧ EveryCall step Q cs s := by
  induction cs generalizing s rs with
  | nil =>
      rcases run_nil_ok.mp h with ⟨_, heq⟩
      rw [heq]
      exact ⟨fun hg => ⟨hg, trivial⟩, fun hg => hg.left⟩
  | cons c cs ih =>
      rcases run_cons_ok.mp h with ⟨r, s1, rs', hfirst, hrest, _⟩
      rw [ih hrest (hnext hs hfirst), hgood hs hfirst, and_assoc]
      constructor
      · rintro ⟨hg, hq, hevery⟩
        refine ⟨hg, hq, fun r' s2 hstep => ?_⟩
        rw [hfirst] at hstep
        cases hstep
        exact hevery
      · rintro ⟨hg, hq, hevery⟩
        exact ⟨hg, hq, hevery r s1 hfirst⟩

/-!
## Two runs

Two runs from related states, whose calls are related one by one, are compared by
what an observer sees of them.
-/

/-- The replies to the calls that the observer sees. -/
def observed (step : call -> state -> Except err (reply × state))
    (sees : state -> call -> Bool) : List call -> state -> List reply
  | [], _ => []
  | c :: cs, s =>
      match step c s with
      | .error _ => []
      | .ok (r, s') =>
          if sees s c then r :: observed step sees cs s' else observed step sees cs s'

/-- The calls of a second run vary those of the first as the relation allows. -/
def EveryPair (step : call -> state -> Except err (reply × state))
    (V : state -> call -> call -> Prop) : List call -> List call -> state -> Prop
  | [], [], _ => True
  | c :: cs, d :: ds, s =>
      V s c d ∧ forall r s', step c s = .ok (r, s') -> EveryPair step V cs ds s'
  | _, _, _ => False

/-- When related calls keep states related and show the observer the same, so do
runs of them. -/
theorem observed_eq (sees : state -> call -> Bool) {R : state -> state -> Prop}
    {V : state -> call -> call -> Prop} {Q : state -> call -> Prop}
    (hstep : forall {s t c d r s'}, R s t -> V s c d -> Q s c -> step c s = .ok (r, s') ->
      exists r' t', step d t = .ok (r', t') ∧ R s' t' ∧ sees s c = sees t d ∧
        (sees s c = true -> r = r'))
    {cs ds : List call} {s t s' : state} {rs : List reply} (hR : R s t)
    (hpair : EveryPair step V cs ds s) (hevery : EveryCall step Q cs s)
    (hrun : run step cs s = .ok (rs, s')) :
    exists rs' t', run step ds t = .ok (rs', t') ∧ R s' t' ∧
      observed step sees cs s = observed step sees ds t := by
  induction cs generalizing ds s t rs with
  | nil =>
      cases ds with
      | nil =>
          rcases run_nil_ok.mp hrun with ⟨_, hs⟩
          exact ⟨[], t, rfl, hs ▸ hR, rfl⟩
      | cons d ds => exact absurd hpair id
  | cons c cs ih =>
      cases ds with
      | nil => exact absurd hpair id
      | cons d ds =>
          rcases run_cons_ok.mp hrun with ⟨r, s1, rs1, hfirst, hrest, _⟩
          rcases hpair with ⟨hv, hpairs⟩
          rcases hevery with ⟨hq, hcalls⟩
          rcases hstep hR hv hq hfirst with ⟨r', t1, hsecond, hR1, hsees, hsame⟩
          rcases ih hR1 (hpairs r s1 hfirst) (hcalls r s1 hfirst) hrest with
            ⟨rs', t', hrun', hR', hobserved⟩
          refine ⟨r' :: rs', t', run_cons_ok.mpr ⟨r', t1, rs', hsecond, hrun', rfl⟩, hR', ?_⟩
          rw [observed, observed, hfirst, hsecond]
          simp only [← hsees, hobserved]
          cases hseen : sees s c with
          | false => rfl
          | true => rw [hsame hseen]

end Runs

/-!
## Simulation

An abstract machine gives every call a reply.  It specifies the concrete machine
on the runs whose calls it allows.
-/

section Simulation

variable {call state abs reply err : Type} {step : call -> state -> Except err (reply × state)}

def absRun (astep : call -> abs -> reply × abs) : List call -> abs -> List reply × abs
  | [], a => ([], a)
  | c :: cs, a => ((astep c a).1 :: (absRun astep cs (astep c a).2).1,
      (absRun astep cs (astep c a).2).2)

/-- Every call of the list is allowed in the abstract state in which it is made. -/
def AllowedRun (astep : call -> abs -> reply × abs) (allowed : call -> abs -> Prop) :
    List call -> abs -> Prop
  | [], _ => True
  | c :: cs, a => allowed c a ∧ AllowedRun astep allowed cs (astep c a).2

/-- A relation under which each allowed call succeeds with the abstract reply. -/
def Simulates (step : call -> state -> Except err (reply × state))
    (astep : call -> abs -> reply × abs) (allowed : call -> abs -> Prop)
    (R : state -> abs -> Prop) : Prop :=
  forall {c s a}, R s a -> allowed c a ->
    exists s', step c s = .ok ((astep c a).1, s') ∧ R s' (astep c a).2

theorem Simulates.run {astep : call -> abs -> reply × abs} {allowed : call -> abs -> Prop}
    {R : state -> abs -> Prop} (hsim : Simulates step astep allowed R)
    {cs : List call} {s : state} {a : abs} (hs : R s a)
    (hallowed : AllowedRun astep allowed cs a) :
    exists s', Library.run step cs s = .ok ((absRun astep cs a).1, s') ∧
      R s' (absRun astep cs a).2 := by
  induction cs generalizing s a with
  | nil => exact ⟨s, rfl, hs⟩
  | cons c cs ih =>
      rcases hallowed with ⟨hc, hcs⟩
      rcases hsim hs hc with ⟨s1, hstep, hs1⟩
      rcases ih hs1 hcs with ⟨s', hrest, hs'⟩
      exact ⟨s', run_cons_ok.mpr ⟨_, s1, _, hstep, hrest, rfl⟩, hs'⟩

/-- Two states that one abstract state specifies give the same replies. -/
theorem Simulates.agree {astep : call -> abs -> reply × abs} {allowed : call -> abs -> Prop}
    {R : state -> abs -> Prop} (hsim : Simulates step astep allowed R)
    {cs : List call} {s t : state} {a : abs} (hs : R s a) (ht : R t a)
    (hallowed : AllowedRun astep allowed cs a) :
    exists rs s' t', Library.run step cs s = .ok (rs, s') ∧
      Library.run step cs t = .ok (rs, t') := by
  rcases hsim.run hs hallowed with ⟨s', hrun, _⟩
  rcases hsim.run ht hallowed with ⟨t', hrun', _⟩
  exact ⟨_, s', t', hrun, hrun'⟩

theorem absRun_length {astep : call -> abs -> reply × abs} (cs : List call) (a : abs) :
    (absRun astep cs a).1.length = cs.length := by
  induction cs generalizing a with
  | nil => rfl
  | cons c cs ih => exact congrArg Nat.succ (ih _)

theorem absRun_snoc {astep : call -> abs -> reply × abs} (cs : List call) (c : call) (a : abs) :
    absRun astep (cs ++ [c]) a =
      ((absRun astep cs a).1 ++ [(astep c (absRun astep cs a).2).1],
        (astep c (absRun astep cs a).2).2) := by
  induction cs generalizing a with
  | nil => rfl
  | cons d ds ih =>
      rw [List.cons_append, absRun, ih]
      rfl

theorem allowedRun_append {astep : call -> abs -> reply × abs} {allowed : call -> abs -> Prop}
    (cs ds : List call) (a : abs) :
    AllowedRun astep allowed (cs ++ ds) a <->
      AllowedRun astep allowed cs a ∧ AllowedRun astep allowed ds (absRun astep cs a).2 := by
  induction cs generalizing a with
  | nil => simp [AllowedRun, absRun]
  | cons c cs ih =>
      simp only [List.cons_append, AllowedRun, absRun]
      rw [ih, and_assoc]

end Simulation

end Library
end TecnicoFs
