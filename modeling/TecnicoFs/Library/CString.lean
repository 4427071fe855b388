import Mathlib.Data.List.TakeWhile
import TecnicoFs.Library.Region
import TecnicoFs.Library.Machine

/-!
# NUL-terminated strings

A C string is a run of non-zero bytes followed by a zero byte.  String values
carry the absence of zero bytes as a field; strings in memory are compared byte
by byte, and a comparison that leaves the region has no result.
-/

namespace TecnicoFs
namespace Library

/-- The value of a C string: its bytes before the terminator. -/
structure CStr where
  bytes : List UInt8
  noNul : (0 : UInt8) ∉ bytes
deriving DecidableEq

namespace CStr

@[ext] theorem ext {s t : CStr} (h : s.bytes = t.bytes) : s = t := by
  cases s
  cases t
  cases h
  rfl

/-- The string that starts at the next byte. -/
def tail (s : CStr) : CStr where
  bytes := s.bytes.tail
  noNul := fun h => s.noNul (List.mem_of_mem_tail h)

/-- The string held by a buffer: its bytes before the first zero byte. -/
def ofBuffer (xs : List UInt8) : CStr where
  bytes := xs.takeWhile (· != 0)
  noNul := fun h => by
    have hne := List.mem_takeWhile_imp h
    simp at hne

end CStr

namespace Region

/-- The byte at `a`, if it lies inside the region. -/
def get? (m : Region alpha) (a : Nat) : Option alpha :=
  if a < m.size then some (m.cell a) else none

theorem get?_eq {m : Region alpha} {a : Nat} (h : a < m.size) :
    m.get? a = some (m.cell a) := if_pos h

end Region

/-- `strcmp(a, s) == 0` for a string in memory at `a`. -/
def strcmpZero (m : Region UInt8) : (a : Nat) -> (s : List UInt8) -> Option Bool
  | a, [] => (m.get? a).map fun c => c == 0
  | a, x :: s =>
      match m.get? a with
      | none => none
      | some c => if c = x then strcmpZero m (a + 1) s else some false

/-- `strncmp(a, s, n) == 0` for a string in memory at `a`. -/
def strncmpZero (m : Region UInt8) : (a : Nat) -> (s : List UInt8) -> (n : Nat) -> Option Bool
  | _, _, 0 => some true
  | a, [], _ + 1 => (m.get? a).map fun c => c == 0
  | a, x :: s, n + 1 =>
      match m.get? a with
      | none => none
      | some c => if c = x then strncmpZero m (a + 1) s n else some false

/-- `strncpy(_, s, n)`: at most `n` bytes of the string, padded with zero bytes. -/
def strncpyBytes (s : List UInt8) (n : Nat) : List UInt8 :=
  s.take n ++ List.replicate (n - s.length) 0

@[simp] theorem strncpyBytes_length (s : List UInt8) (n : Nat) :
    (strncpyBytes s n).length = n := by
  simp [strncpyBytes]
  omega

/-- The region holds the terminated string `s` at `a`. -/
def HoldsString (m : Region UInt8) (a : Nat) (s : List UInt8) : Prop :=
  a + s.length < m.size ∧ m.window a s.length = s ∧ m.cell (a + s.length) = 0

theorem holdsString_nil {m : Region UInt8} {a : Nat} :
    HoldsString m a [] <-> a < m.size ∧ m.cell a = 0 := by
  simp [HoldsString]

theorem holdsString_cons {m : Region UInt8} {a : Nat} {x : UInt8} {s : List UInt8} :
    HoldsString m a (x :: s) <->
      a < m.size ∧ m.cell a = x ∧ HoldsString m (a + 1) s := by
  have hwindow : m.window a (s.length + 1) = m.cell a :: m.window (a + 1) s.length := by
    rw [Nat.add_comm, Region.window_add]
    rfl
  have hadd : a + (s.length + 1) = a + 1 + s.length := by omega
  simp only [HoldsString, List.length_cons, hwindow, hadd, List.cons.injEq]
  constructor
  · rintro ⟨hsize, ⟨hx, hs⟩, hnul⟩
    exact ⟨by omega, hx, hsize, hs, hnul⟩
  · rintro ⟨_, hx, hsize, hs, hnul⟩
    exact ⟨hsize, ⟨hx, hs⟩, hnul⟩

/-- Comparing a string in memory with a string value decides their equality. -/
theorem strcmpZero_of_holds {m : Region UInt8} {a : Nat} {held s : List UInt8}
    (h : HoldsString m a held) (hheld : (0 : UInt8) ∉ held) (hs : (0 : UInt8) ∉ s) :
    strcmpZero m a s = some (decide (held = s)) := by
  induction s generalizing a held with
  | nil =>
      cases held with
      | nil =>
          rcases holdsString_nil.mp h with ⟨hsize, hnul⟩
          simp [strcmpZero, Region.get?_eq hsize, hnul]
      | cons y held =>
          rcases holdsString_cons.mp h with ⟨hsize, hy, _⟩
          have hne : y ≠ 0 := fun heq => hheld (heq ▸ List.mem_cons_self)
          simp [strcmpZero, Region.get?_eq hsize, hy, hne]
  | cons x s ih =>
      have hx : x ≠ 0 := fun heq => hs (heq ▸ List.mem_cons_self)
      cases held with
      | nil =>
          rcases holdsString_nil.mp h with ⟨hsize, hnul⟩
          simp [strcmpZero, Region.get?_eq hsize, hnul, hx.symm]
      | cons y held =>
          rcases holdsString_cons.mp h with ⟨hsize, hy, htail⟩
          have hrec := ih htail (fun hmem => hheld (List.mem_cons_of_mem y hmem))
            (fun hmem => hs (List.mem_cons_of_mem x hmem))
          by_cases hxy : y = x
          · simp [strcmpZero, Region.get?_eq hsize, hy, hxy, hrec]
          · simp [strcmpZero, Region.get?_eq hsize, hy, hxy]

/-- A bounded comparison that reaches past the terminator is a full comparison. -/
theorem strncmpZero_of_holds {m : Region UInt8} {a n : Nat} {held s : List UInt8}
    (h : HoldsString m a held) (hheld : (0 : UInt8) ∉ held) (hs : (0 : UInt8) ∉ s)
    (hn : held.length < n) :
    strncmpZero m a s n = some (decide (held = s)) := by
  induction s generalizing a held n with
  | nil =>
      cases n with
      | zero => omega
      | succ n =>
          have hfull := strcmpZero_of_holds h hheld hs
          simpa [strcmpZero, strncmpZero] using hfull
  | cons x s ih =>
      have hx : x ≠ 0 := fun heq => hs (heq ▸ List.mem_cons_self)
      cases n with
      | zero => omega
      | succ n =>
          cases held with
          | nil =>
              rcases holdsString_nil.mp h with ⟨hsize, hnul⟩
              simp [strncmpZero, Region.get?_eq hsize, hnul, hx.symm]
          | cons y held =>
              rcases holdsString_cons.mp h with ⟨hsize, hy, htail⟩
              have hrec := ih htail (fun hmem => hheld (List.mem_cons_of_mem y hmem))
                (fun hmem => hs (List.mem_cons_of_mem x hmem))
                (by simpa using hn)
              by_cases hxy : y = x
              · simp [strncmpZero, Region.get?_eq hsize, hy, hxy, hrec]
              · simp [strncmpZero, Region.get?_eq hsize, hy, hxy]

/-- A window that shows a string and its padding holds the string. -/
theorem holdsString_of_window {m : Region UInt8} {a n k : Nat} {s : List UInt8}
    (hw : m.window a n = s ++ List.replicate (k + 1) 0) (hsize : a + n <= m.size) :
    HoldsString m a s := by
  have hlen : n = s.length + (k + 1) := by
    have := congrArg List.length hw
    simpa using this
  rw [hlen, Region.window_add] at hw
  have hparts := List.append_inj hw (by simp)
  refine ⟨by omega, hparts.left, ?_⟩
  have hzero : (m.window (a + s.length) (k + 1))[0]? = some 0 := by
    rw [hparts.right]
    rfl
  rw [Region.window_getElem?, if_pos (Nat.succ_pos k)] at hzero
  exact Option.some.inj hzero

end Library
end TecnicoFs
