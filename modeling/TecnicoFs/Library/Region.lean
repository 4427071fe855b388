import Mathlib.Data.List.Basic
import Mathlib.Data.List.Range

/-!
# Bounded regions of cells

A region is an allocated block of memory: a number of cells and the contents of
each.  Loads and stores of runs of cells are checked against the size, so an
access outside the region has no result.  The unchecked forms
`window` and `overlay` describe what a successful access reads and leaves, and
the frame lemmas relate one to the other.
-/

namespace TecnicoFs
namespace Library

/-- An allocated block: its number of cells and their contents. -/
structure Region (alpha : Type u) where
  size : Nat
  cell : Nat -> alpha

namespace Region

/-- The `n` cells that start at `off`. -/
def window (m : Region alpha) (off n : Nat) : List alpha :=
  (List.range n).map fun i => m.cell (off + i)

/-- The region after the run `xs` has been put at `off`. -/
def overlay (m : Region alpha) (off : Nat) (xs : List alpha) : Region alpha where
  size := m.size
  cell := fun i =>
    if i < off then m.cell i
    else match xs[i - off]? with
      | some x => x
      | none => m.cell i

/-- Read `n` cells at `off`, if they all lie inside the region. -/
def load (m : Region alpha) (off n : Nat) : Option (List alpha) :=
  if off + n <= m.size then some (m.window off n) else none

/-- Write the run `xs` at `off`, if it lies inside the region. -/
def store (m : Region alpha) (off : Nat) (xs : List alpha) : Option (Region alpha) :=
  if off + xs.length <= m.size then some (m.overlay off xs) else none

@[simp] theorem overlay_size (m : Region alpha) (off : Nat) (xs : List alpha) :
    (m.overlay off xs).size = m.size := rfl

@[simp] theorem window_length (m : Region alpha) (off n : Nat) :
    (m.window off n).length = n := by
  simp [window]

@[simp] theorem window_zero (m : Region alpha) (off : Nat) :
    m.window off 0 = [] := rfl

theorem window_getElem? (m : Region alpha) (off n i : Nat) :
    (m.window off n)[i]? = if i < n then some (m.cell (off + i)) else none := by
  by_cases hi : i < n <;> simp [window, hi]

theorem window_congr {m m' : Region alpha} {off n : Nat}
    (h : forall i, off <= i -> i < off + n -> m.cell i = m'.cell i) :
    m.window off n = m'.window off n := by
  apply List.map_congr_left
  intro i hi
  have hlt : i < n := List.mem_range.mp hi
  exact h (off + i) (by omega) (by omega)

theorem window_cell_eq {m m' : Region alpha} {off n : Nat}
    (h : m.window off n = m'.window off n) {i : Nat}
    (hlo : off <= i) (hhi : i < off + n) :
    m.cell i = m'.cell i := by
  have hget : (m.window off n)[i - off]? = (m'.window off n)[i - off]? := by
    rw [h]
  rw [window_getElem?, window_getElem?, if_pos (by omega), if_pos (by omega),
    Nat.add_sub_of_le hlo] at hget
  exact Option.some.inj hget

theorem window_add (m : Region alpha) (off a b : Nat) :
    m.window off (a + b) = m.window off a ++ m.window (off + a) b := by
  simp [window, List.range_add, Nat.add_assoc]

theorem window_take (m : Region alpha) (off n k : Nat) (hk : k <= n) :
    (m.window off n).take k = m.window off k := by
  have hn : n = k + (n - k) := by omega
  rw [hn, window_add]
  exact List.take_left' (window_length m off k)

theorem window_drop (m : Region alpha) (off n k : Nat) (hk : k <= n) :
    (m.window off n).drop k = m.window (off + k) (n - k) := by
  have hn : n = k + (n - k) := by omega
  rw [hn, window_add]
  rw [List.drop_left' (window_length m off k), Nat.add_sub_cancel_left]

/-!
## Frame lemmas

A store changes the cells of its own run and no others.
-/

theorem overlay_cell_outside (m : Region alpha) {off : Nat} {xs : List alpha} {i : Nat}
    (h : i < off ∨ off + xs.length <= i) :
    (m.overlay off xs).cell i = m.cell i := by
  simp only [overlay]
  split
  · rfl
  · have hnone : xs[i - off]? = none := by
      apply List.getElem?_eq_none
      omega
    rw [hnone]

theorem overlay_cell_inside (m : Region alpha) {off : Nat} {xs : List alpha} {i : Nat}
    (hi : i < xs.length) :
    (m.overlay off xs).cell (off + i) = xs[i] := by
  simp [overlay, hi]

theorem window_overlay_disjoint (m : Region alpha) {off off' n : Nat} {xs : List alpha}
    (h : off' + n <= off ∨ off + xs.length <= off') :
    (m.overlay off xs).window off' n = m.window off' n := by
  apply window_congr
  intro i hlo hhi
  apply overlay_cell_outside
  omega

/-- A store leaves windows that were equal equal. -/
theorem window_overlay_congr {m m' : Region alpha} {off n : Nat}
    (h : m.window off n = m'.window off n) (base : Nat) (xs : List alpha) :
    (m.overlay base xs).window off n = (m'.overlay base xs).window off n := by
  apply window_congr
  intro i hlo hhi
  have hcell := window_cell_eq h hlo hhi
  simp only [overlay, hcell]

/-- Equal windows have equal windows inside them. -/
theorem window_sub {m m' : Region alpha} {off n : Nat} (h : m.window off n = m'.window off n)
    {off' n' : Nat} (hlo : off <= off') (hhi : off' + n' <= off + n) :
    m.window off' n' = m'.window off' n' := by
  apply window_congr
  intro i hi hi'
  exact window_cell_eq h (by omega) (by omega)

theorem window_overlay_self (m : Region alpha) (off : Nat) (xs : List alpha) :
    (m.overlay off xs).window off xs.length = xs := by
  apply List.ext_getElem
  · simp
  · intro i hi hi'
    have hcell := @overlay_cell_inside _ m off xs i hi'
    simpa [window] using hcell

/-- A run stored inside a window replaces the cells at its place. -/
theorem window_overlay_within (m : Region alpha) (base : Nat) {n k : Nat} {xs : List alpha}
    (h : k + xs.length <= n) :
    (m.overlay (base + k) xs).window base n =
      (m.window base n).take k ++ xs ++ (m.window base n).drop (k + xs.length) := by
  have hn : n = k + (xs.length + (n - (k + xs.length))) := by omega
  rw [window_take m base n k (by omega), window_drop m base n _ h]
  conv => lhs; rw [hn]
  rw [window_add, window_add, window_overlay_self,
    window_overlay_disjoint m (Or.inl (Nat.le_refl _)),
    window_overlay_disjoint m (Or.inr (Nat.le_refl _)), List.append_assoc,
    Nat.add_assoc]

theorem load_eq_some {m : Region alpha} {off n : Nat} {xs : List alpha} :
    m.load off n = some xs <-> off + n <= m.size ∧ xs = m.window off n := by
  unfold load
  split <;> simp_all [eq_comm]

theorem store_eq {m : Region alpha} {off : Nat} {xs : List alpha}
    (h : off + xs.length <= m.size) : m.store off xs = some (m.overlay off xs) := if_pos h

theorem store_eq_some {m m' : Region alpha} {off : Nat} {xs : List alpha} :
    m.store off xs = some m' <->
      off + xs.length <= m.size ∧ m' = m.overlay off xs := by
  unfold store
  split <;> simp_all [eq_comm]

end Region

end Library
end TecnicoFs
