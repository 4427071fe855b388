import Mathlib.Combinatorics.Enumerative.DoubleCounting
import Mathlib.Data.Finset.Card
import Mathlib.Data.Finset.Range
import Mathlib.Data.Nat.Find

/-!
# Counted loops and first-fit searches

Two loop shapes over an index are enough for table code: a loop that returns at
the first index whose body yields a result, and a loop that threads a state
through every index.  Their bodies may fail, and a failing body ends the loop.
The second half describes the search of a table for its first cell with a given
value and counts the cells that differ from it.
-/

namespace TecnicoFs
namespace Library

/-- `for (i = first; i < first + n; i++) if (body yields r) return r;` -/
def firstHit (body : Nat -> Except err (Option alpha)) :
    (first n : Nat) -> Except err (Option alpha)
  | _, 0 => .ok none
  | first, n + 1 =>
      match body first with
      | .error e => .error e
      | .ok (some a) => .ok (some a)
      | .ok none => firstHit body (first + 1) n

/-- `for (i = 0; i < n; i++) s = body(i, s);` -/
def forLoop (body : Nat -> sigma -> Except err sigma) :
    (n : Nat) -> sigma -> Except err sigma
  | 0, s => .ok s
  | n + 1, s =>
      match forLoop body n s with
      | .error e => .error e
      | .ok s' => body n s'

theorem firstHit_none {body : Nat -> Except err (Option alpha)} {first n : Nat}
    (h : forall j, first <= j -> j < first + n -> body j = .ok none) :
    firstHit body first n = .ok none := by
  induction n generalizing first with
  | zero => rfl
  | succ n ih =>
      rw [firstHit, h first (Nat.le_refl _) (by omega)]
      exact ih fun j hlo hhi => h j (by omega) (by omega)

theorem firstHit_some {body : Nat -> Except err (Option alpha)} {first n k : Nat} {a : alpha}
    (hlo : first <= k) (hhi : k < first + n) (hk : body k = .ok (some a))
    (h : forall j, first <= j -> j < k -> body j = .ok none) :
    firstHit body first n = .ok (some a) := by
  induction n generalizing first with
  | zero => omega
  | succ n ih =>
      rw [firstHit]
      by_cases heq : first = k
      · rw [heq, hk]
      · rw [h first (Nat.le_refl _) (by omega)]
        exact ih (by omega) (by omega) fun j hj hjk => h j (by omega) hjk

/-- An invariant indexed by the number of turns taken holds after the loop. -/
theorem forLoop_invariant {body : Nat -> sigma -> Except err sigma}
    {P : Nat -> sigma -> Prop} {n : Nat} {s s' : sigma}
    (h : forLoop body n s = .ok s') (hinit : P 0 s)
    (hstep : forall i t t', i < n -> P i t -> body i t = .ok t' -> P (i + 1) t') :
    P n s' := by
  induction n generalizing s' with
  | zero =>
      cases h
      exact hinit
  | succ n ih =>
      rw [forLoop] at h
      cases hloop : forLoop body n s with
      | error e =>
          rw [hloop] at h
          cases h
      | ok t =>
          rw [hloop] at h
          exact hstep n t s' (by omega)
            (ih hloop fun i u u' hi => hstep i u u' (by omega)) h

/-!
## First-fit searches of a table
-/

/-- Cell `k` is the first of the table's first `n` cells that holds `b`. -/
def FirstAt (t : List beta) (n : Nat) (b : beta) (k : Nat) : Prop :=
  k < n ∧ t[k]? = some b ∧ forall j, j < k -> exists x, t[j]? = some x ∧ x ≠ b

/-- None of the table's first `n` cells holds `b`. -/
def NowhereAt (t : List beta) (n : Nat) (b : beta) : Prop :=
  forall j, j < n -> exists x, t[j]? = some x ∧ x ≠ b

theorem NowhereAt.not_firstAt {t : List beta} {n : Nat} {b : beta} {k : Nat}
    (h : NowhereAt t n b) : ¬ FirstAt t n b k := by
  rintro ⟨hlt, hk, _⟩
  rcases h k hlt with ⟨x, hx, hne⟩
  rw [hk] at hx
  exact hne (Option.some.inj hx).symm

/-- A search inside the table either finds a first cell or there is none. -/
theorem firstAt_or_nowhereAt (t : List beta) {n : Nat} (b : beta) (hn : n <= t.length) :
    (exists k, FirstAt t n b k) ∨ NowhereAt t n b := by
  by_cases h : exists k, k < n ∧ t[k]? = some b
  · left
    classical
    have hspec := Nat.find_spec h
    refine ⟨Nat.find h, hspec.left, hspec.right, fun j hj => ?_⟩
    have hjlen : j < t.length := by omega
    refine ⟨t[j], List.getElem?_eq_getElem hjlen, fun heq => ?_⟩
    exact Nat.find_min h hj ⟨by omega, by rw [List.getElem?_eq_getElem hjlen, heq]⟩
  · right
    intro j hj
    have hjlen : j < t.length := by omega
    refine ⟨t[j], List.getElem?_eq_getElem hjlen, fun heq => h ⟨j, hj, ?_⟩⟩
    rw [List.getElem?_eq_getElem hjlen, heq]

section Counting

variable [DecidableEq beta]

/-- The indices below `n` whose cell differs from `b`. -/
def othersBelow (t : List beta) (n : Nat) (b : beta) : Finset Nat :=
  (Finset.range n).filter fun j => t[j]? ≠ some b

theorem mem_othersBelow {t : List beta} {n : Nat} {b : beta} {j : Nat} :
    j ∈ othersBelow t n b <-> j < n ∧ t[j]? ≠ some b := by
  simp [othersBelow]

/-- A cell with value `b` is found exactly when fewer than `n` cells differ from it. -/
theorem exists_firstAt_iff_card_lt (t : List beta) {n : Nat} (b : beta)
    (hn : n <= t.length) :
    (exists k, FirstAt t n b k) <-> (othersBelow t n b).card < n := by
  constructor
  · rintro ⟨k, hlt, hk, _⟩
    have hsub : othersBelow t n b ⊂ Finset.range n := by
      refine Finset.filter_ssubset.mpr ⟨k, Finset.mem_range.mpr hlt, ?_⟩
      simp [hk]
    simpa using Finset.card_lt_card hsub
  · intro hcard
    rcases firstAt_or_nowhereAt t b hn with hfound | hnone
    · exact hfound
    · exfalso
      have hall : othersBelow t n b = Finset.range n := by
        apply Finset.filter_true_of_mem
        intro j hj
        rcases hnone j (Finset.mem_range.mp hj) with ⟨x, hx, hne⟩
        rw [hx]
        exact fun heq => hne (Option.some.inj heq)
      rw [hall, Finset.card_range] at hcard
      exact Nat.lt_irrefl _ hcard

end Counting

/-- Finite sets that a relation matches one to one have the same size. -/
theorem card_eq_of_matching {s : Finset alpha} {t : Finset beta} (R : alpha -> beta -> Prop)
    (hs : forall a, a ∈ s -> exists b, b ∈ t ∧ R a b)
    (ht : forall b, b ∈ t -> exists a, a ∈ s ∧ R a b)
    (hright : forall a b b', R a b -> R a b' -> b = b')
    (hleft : forall a a' b, R a b -> R a' b -> a = a') : s.card = t.card := by
  apply Nat.le_antisymm
  · apply Finset.card_le_card_of_forall_subsingleton R hs
    intro b _ a ha a' ha'
    exact hleft a a' b ha.right ha'.right
  · apply Finset.card_le_card_of_forall_subsingleton' R ht
    intro a _ b hb b' hb'
    exact hright a b b' hb.right hb'.right

end Library
end TecnicoFs
