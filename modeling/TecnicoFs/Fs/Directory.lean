import TecnicoFs.Fs.Operations

/-!
# The root directory as a table of slots

The root directory occupies the first block of the data area.  This module reads
its bytes as a table of slots and describes the three directory functions on it.

The name bytes of a slot that was never used are whatever the memory held when it
was allocated, and only the lookup skips free slots.  The shape below therefore
records that slots come into use in order: the slots below a mark have been used
and hold either a terminated name or zero bytes, and every slot above it is free.
-/

namespace TecnicoFs

open Library

def dInumber (data : Region UInt8) (i : Nat) : Int :=
  bytesInt (data.window (dInumberAt 0 i) 4)

def dName (data : Region UInt8) (i : Nat) : List UInt8 :=
  data.window (dNameAt 0 i) maxFileName

/-- A name that fits a directory entry with its terminator. -/
def FitsEntry (name : CStr) : Prop :=
  0 < name.bytes.length ∧ name.bytes.length < maxFileName

instance (name : CStr) : Decidable (FitsEntry name) :=
  inferInstanceAs (Decidable (_ ∧ _))

/-- Slot `i` is occupied by the name of inode `k`. -/
structure Entry (data : Region UInt8) (i : Nat) (name : CStr) (k : Nat) : Prop where
  inumber : dInumber data i = k
  bytes : dName data i = strncpyBytes name.bytes maxFileName
  fits : FitsEntry name

structure DirShape (data : Region UInt8) (n used : Nat) : Prop where
  inRegion : sizeofDirEntry * n <= data.size
  usedLe : used <= n
  unused : forall i, used <= i -> i < n -> dInumber data i = -1
  slots : forall i, i < used ->
    (dInumber data i = -1 ∧ dName data i = List.replicate maxFileName 0) ∨
      exists name k, Entry data i name k

/-- Slot `j` is the first free one. -/
def FreeSlot (data : Region UInt8) (n j : Nat) : Prop :=
  j < n ∧ dInumber data j = -1 ∧ forall i, i < j -> dInumber data i ≠ -1

def FullDir (data : Region UInt8) (n : Nat) : Prop :=
  forall i, i < n -> dInumber data i ≠ -1

theorem strncpyBytes_inj {s t : List UInt8} {n : Nat}
    (hs : (0 : UInt8) ∉ s) (ht : (0 : UInt8) ∉ t) (hsn : s.length < n) (htn : t.length < n)
    (h : strncpyBytes s n = strncpyBytes t n) : s = t := by
  have htake : forall u : List UInt8, (0 : UInt8) ∉ u -> u.length < n ->
      (strncpyBytes u n).takeWhile (· != 0) = u := by
    intro u hu hun
    have hpad : n - u.length = (n - u.length - 1) + 1 := by omega
    rw [strncpyBytes, List.take_of_length_le (by omega), hpad, List.replicate_succ]
    rw [List.takeWhile_append_of_pos]
    · simp
    · intro x hx
      have hne : x ≠ 0 := fun heq => hu (heq ▸ hx)
      simpa using hne
  rw [← htake s hs hsn, ← htake t ht htn, h]

namespace Entry

theorem name_unique {data : Region UInt8} {i : Nat} {name name' : CStr} {k k' : Nat}
    (h : Entry data i name k) (h' : Entry data i name' k') : name = name' ∧ k = k' := by
  constructor
  · apply CStr.ext
    exact strncpyBytes_inj name.noNul name'.noNul h.fits.right h'.fits.right
      (h.bytes.symm.trans h'.bytes)
  · have heq : (k : Int) = (k' : Int) := h.inumber.symm.trans h'.inumber
    omega

theorem ne_free {data : Region UInt8} {i : Nat} {name : CStr} {k : Nat}
    (h : Entry data i name k) : dInumber data i ≠ -1 := by
  rw [h.inumber]
  omega

theorem congr {data data' : Region UInt8} {i : Nat} {name : CStr} {k : Nat}
    (hinumber : dInumber data' i = dInumber data i) (hname : dName data' i = dName data i)
    (h : Entry data i name k) : Entry data' i name k where
  inumber := hinumber.trans h.inumber
  bytes := hname.trans h.bytes
  fits := h.fits

end Entry

namespace DirShape

variable {data : Region UInt8} {n used i k : Nat} {name : CStr}

theorem occupied_lt (h : DirShape data n used) (hi : i < n) (hocc : dInumber data i ≠ -1) :
    i < used := by
  by_contra hge
  exact hocc (h.unused i (by omega) hi)

theorem entry_of_occupied (h : DirShape data n used) (hi : i < n)
    (hocc : dInumber data i ≠ -1) : exists name k, Entry data i name k := by
  rcases h.slots i (h.occupied_lt hi hocc) with ⟨hfree, _⟩ | hentry
  · exact absurd hfree hocc
  · exact hentry

/-- A used slot holds a terminated string: its name, or the empty string. -/
theorem holds_of_used (h : DirShape data n used) (hi : i < used) :
    (dInumber data i = -1 ∧ HoldsString data (dNameAt 0 i) []) ∨
      exists name k, Entry data i name k ∧ HoldsString data (dNameAt 0 i) name.bytes := by
  have hin : dNameAt 0 i + maxFileName <= data.size := by
    have hsize := h.inRegion
    have hused := h.usedLe
    simp only [dNameAt, sizeofDirEntry, maxFileName] at *
    omega
  rcases h.slots i hi with ⟨hfree, hzero⟩ | ⟨name, k, hentry⟩
  · exact Or.inl ⟨hfree, holdsString_of_window (k := 39) hzero hin⟩
  · right
    refine ⟨name, k, hentry, ?_⟩
    have hlt : name.bytes.length < 40 := hentry.fits.right
    have hbytes := hentry.bytes
    have hpad : maxFileName - name.bytes.length = (39 - name.bytes.length) + 1 := by
      simp only [maxFileName]
      omega
    rw [strncpyBytes, List.take_of_length_le (Nat.le_of_lt hentry.fits.right), hpad] at hbytes
    exact holdsString_of_window hbytes hin

theorem load_dInumber (h : DirShape data n used) (hi : i < n) :
    data.load (dInumberAt 0 i) 4 = some (data.window (dInumberAt 0 i) 4) := by
  apply Region.load_eq_some.mpr
  refine ⟨?_, rfl⟩
  have hsize := h.inRegion
  simp only [dInumberAt, sizeofDirEntry, maxFileName] at *
  omega

end DirShape

/-!
## Entering and erasing a slot
-/

/-- The data area after an entry has been written to slot `j`. -/
def enterSlot (data : Region UInt8) (j : Nat) (name : CStr) (k : Int) : Region UInt8 :=
  ((data.overlay (dInumberAt 0 j) (intBytes k)).overlay (dNameAt 0 j)
    (strncpyBytes name.bytes (maxFileName - 1))).overlay
      (dNameAt 0 j + (maxFileName - 1)) [0]

/-- The data area after slot `j` has been cleared. -/
def eraseSlot (data : Region UInt8) (j : Nat) : Region UInt8 :=
  (data.overlay (dInumberAt 0 j) (intBytes (-1))).overlay (dNameAt 0 j)
    (List.replicate maxFileName 0)

/-- Two data areas agree outside slot `j`. -/
structure SameOutsideSlot (data data' : Region UInt8) (j : Nat) : Prop where
  size : data'.size = data.size
  cells : forall a, a < sizeofDirEntry * j ∨ sizeofDirEntry * (j + 1) <= a ->
    data'.cell a = data.cell a

namespace SameOutsideSlot

variable {data data' : Region UInt8} {i j : Nat}

theorem dInumber_eq (h : SameOutsideSlot data data' j) (hne : i ≠ j) :
    dInumber data' i = dInumber data i := by
  have hwindow : data'.window (dInumberAt 0 i) 4 = data.window (dInumberAt 0 i) 4 := by
    apply Region.window_congr
    intro a hlo hhi
    apply h.cells
    simp only [dInumberAt, sizeofDirEntry, maxFileName] at *
    omega
  rw [dInumber, dInumber, hwindow]

theorem dName_eq (h : SameOutsideSlot data data' j) (hne : i ≠ j) :
    dName data' i = dName data i := by
  apply Region.window_congr
  intro a hlo hhi
  apply h.cells
  simp only [dNameAt, sizeofDirEntry, maxFileName] at *
  omega

theorem entry_iff (h : SameOutsideSlot data data' j) (hne : i ≠ j) {name : CStr} {k : Nat} :
    Entry data' i name k <-> Entry data i name k := by
  constructor
  · exact Entry.congr (h.dInumber_eq hne).symm (h.dName_eq hne).symm
  · exact Entry.congr (h.dInumber_eq hne) (h.dName_eq hne)

theorem window_eq (h : SameOutsideSlot data data' j) {off n : Nat}
    (hoff : sizeofDirEntry * (j + 1) <= off) : data'.window off n = data.window off n := by
  apply Region.window_congr
  intro a hlo _
  apply h.cells
  omega

end SameOutsideSlot

theorem enterSlot_same (data : Region UInt8) (j : Nat) (name : CStr) (k : Int) :
    SameOutsideSlot data (enterSlot data j name k) j where
  size := rfl
  cells := by
    intro a ha
    rw [enterSlot, Region.overlay_cell_outside, Region.overlay_cell_outside,
      Region.overlay_cell_outside]
    all_goals
      simp only [dInumberAt, dNameAt, sizeofDirEntry, maxFileName, intBytes_length,
        strncpyBytes_length, List.length_singleton] at *
      omega

theorem eraseSlot_same (data : Region UInt8) (j : Nat) :
    SameOutsideSlot data (eraseSlot data j) j where
  size := rfl
  cells := by
    intro a ha
    rw [eraseSlot, Region.overlay_cell_outside, Region.overlay_cell_outside]
    all_goals
      simp only [dInumberAt, dNameAt, sizeofDirEntry, maxFileName, intBytes_length,
        List.length_replicate] at *
      omega

theorem enterSlot_entry (data : Region UInt8) (j : Nat) {name : CStr} {k : Nat}
    (hfits : FitsEntry name) (hk : k < intLimit) : Entry (enterSlot data j name k) j name k where
  inumber := by
    have hwindow : (enterSlot data j name k).window (dInumberAt 0 j) 4 = intBytes k := by
      rw [enterSlot, Region.window_overlay_disjoint, Region.window_overlay_disjoint]
      · exact Region.window_overlay_self data (dInumberAt 0 j) (intBytes k)
      all_goals
        right
        simp only [dInumberAt, dNameAt, maxFileName, strncpyBytes_length,
          List.length_singleton]
        omega
    simp only [intLimit] at hk
    rw [dInumber, hwindow, bytesInt_intBytes (by omega) (by omega)]
  bytes := by
    have hlen : (strncpyBytes name.bytes (maxFileName - 1)).length = maxFileName - 1 := by simp
    have hlt : name.bytes.length < 40 := hfits.right
    rw [dName, show maxFileName = (maxFileName - 1) + 1 by rfl, Region.window_add, enterSlot,
      Region.window_overlay_disjoint _ (Or.inl (Nat.le_refl _))]
    conv => lhs; arg 1; arg 3; rw [← hlen]
    rw [Region.window_overlay_self]
    rw [show (1 : Nat) = ([0] : List UInt8).length by rfl, Region.window_overlay_self]
    simp only [strncpyBytes, maxFileName, List.length_singleton,
      Nat.reduceSub, Nat.reduceAdd, List.append_assoc]
    rw [List.take_of_length_le (by omega), List.take_of_length_le (by omega)]
    rw [show 40 - name.bytes.length = (39 - name.bytes.length) + 1 by omega,
      List.replicate_succ']
  fits := hfits

theorem eraseSlot_cleared (data : Region UInt8) (j : Nat) :
    dInumber (eraseSlot data j) j = -1 ∧
      dName (eraseSlot data j) j = List.replicate maxFileName 0 := by
  constructor
  · have hwindow : (eraseSlot data j).window (dInumberAt 0 j) 4 = intBytes (-1) := by
      rw [eraseSlot, Region.window_overlay_disjoint]
      · exact Region.window_overlay_self data (dInumberAt 0 j) (intBytes (-1))
      · right
        simp only [dInumberAt, dNameAt, List.length_replicate]
        omega
    rw [dInumber, hwindow, bytesInt_intBytes (by omega) (by omega)]
  · have hself := Region.window_overlay_self
      (data.overlay (dInumberAt 0 j) (intBytes (-1))) (dNameAt 0 j)
      (List.replicate maxFileName 0)
    rwa [List.length_replicate] at hself

theorem DirShape.enter {data : Region UInt8} {n used j : Nat} (h : DirShape data n used)
    (hj : FreeSlot data n j) {name : CStr} {k : Nat} (hfits : FitsEntry name)
    (hk : k < intLimit) :
    DirShape (enterSlot data j name k) n (max used (j + 1)) := by
  have hsame := enterSlot_same data j name k
  have hjused : j <= used := by
    by_contra hgt
    exact hj.right.right used (by omega) (h.unused used (Nat.le_refl _) (by have := hj.left; omega))
  refine ⟨h.inRegion, ?_, ?_, ?_⟩
  · have hlt := hj.left
    have hle := h.usedLe
    omega
  · intro i hlo hhi
    rw [hsame.dInumber_eq (by omega)]
    exact h.unused i (by omega) hhi
  · intro i hi
    by_cases hij : i = j
    · right
      rw [hij]
      exact ⟨name, k, enterSlot_entry data j hfits hk⟩
    · rw [hsame.dInumber_eq hij, hsame.dName_eq hij]
      rcases h.slots i (by omega) with hfree | ⟨name', k', hentry⟩
      · exact Or.inl hfree
      · exact Or.inr ⟨name', k', (hsame.entry_iff hij).mpr hentry⟩

theorem DirShape.erase {data : Region UInt8} {n used j : Nat} (h : DirShape data n used)
    (hj : j < used) : DirShape (eraseSlot data j) n used := by
  have hsame := eraseSlot_same data j
  refine ⟨h.inRegion, h.usedLe, ?_, ?_⟩
  · intro i hlo hhi
    rw [hsame.dInumber_eq (by omega)]
    exact h.unused i hlo hhi
  · intro i hi
    by_cases hij : i = j
    · rw [hij]
      exact Or.inl (eraseSlot_cleared data j)
    · rw [hsame.dInumber_eq hij, hsame.dName_eq hij]
      rcases h.slots i hi with hfree | ⟨name', k', hentry⟩
      · exact Or.inl hfree
      · exact Or.inr ⟨name', k', (hsame.entry_iff hij).mpr hentry⟩

/-- Bytes stored above the directory leave its slots alone. -/
theorem slot_overlay_above {data : Region UInt8} {n off : Nat} {xs : List UInt8}
    (hoff : sizeofDirEntry * n <= off) {i : Nat} (hi : i < n) :
    dInumber (data.overlay off xs) i = dInumber data i ∧
      dName (data.overlay off xs) i = dName data i := by
  constructor
  · rw [dInumber, dInumber, Region.window_overlay_disjoint]
    left
    simp only [dInumberAt, sizeofDirEntry, maxFileName] at *
    omega
  · rw [dName, dName, Region.window_overlay_disjoint]
    left
    simp only [dNameAt, sizeofDirEntry, maxFileName] at *
    omega

end TecnicoFs
