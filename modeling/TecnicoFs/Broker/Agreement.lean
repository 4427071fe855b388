import TecnicoFs.Fs.Catalogue
import TecnicoFs.Broker.Reachable

/-!
# The two stores agree

The list of boxes and the root directory hold the same names.  Between requests no
box is in use and no file is open.
-/

namespace TecnicoFs
namespace Broker

open Library

/-- The name `/d_name` of an occupied slot of the root directory. -/
def SlotPath (fs : Fs) (path : CStr) : Prop :=
  exists i name, Occupied fs i ∧ SlotName fs i name ∧ path.bytes = 47 :: name.bytes

/-- The boxes `cells` from {lit}`head` on are the files of the root directory. -/
structure Agrees (b : State) (cells : List (Nat × Box)) : Prop where
  chain : Chain b.boxes b.head cells
  distinct : (boxNames cells).Nodup
  names : forall path, path ∈ boxNames cells <-> SlotPath b.fs path
  quiet : forall cell, cell ∈ cells -> cell.2.hasWriter = 0 ∧ cell.2.nReaders = 0
  handles : forall i, i < b.fs.maxOpenFiles -> b.fs.freeOpenFileEntries[i]? = some .free

theorem named_iff {made : Nat -> Prop} {fs : Fs} (hinv : Inv made fs) {held : CStr} :
    Named fs held <-> exists i, Occupied fs i ∧ SlotName fs i held := by
  constructor
  · rintro ⟨i, k, hlisted⟩
    exact ⟨i, ⟨hlisted.lt, hlisted.entry.ne_free⟩, hlisted.entry.bytes, hlisted.entry.fits⟩
  · rintro ⟨i, hoccupied, hname⟩
    rcases hinv.occupied_entry hoccupied with ⟨name, k, hlisted⟩
    have heq : name = held := (hlisted.entry.name_unique
      ⟨hlisted.entry.inumber, hname.left, hname.right⟩).left
    exact ⟨i, k, heq ▸ hlisted⟩

/-- A slash and a name that fits an entry are a path name. -/
theorem path_of_fits {path name : CStr} (hbytes : path.bytes = 47 :: name.bytes)
    (hfits : FitsEntry name) :
    validPathname (some path) = true ∧ skipSlash (some path) = name := by
  constructor
  · have hpos := hfits.left
    simp [validPathname, hbytes, hpos]
  · apply CStr.ext
    simp [skipSlash, CStr.tail, hbytes]

theorem Good.agrees {b : State} {cells : List (Nat × Box)} (h : Good b cells) :
    Agrees b cells := by
  rcases h.idle.steady.inv with ⟨made, hinv⟩
  refine ⟨h.chain, h.nodup, fun path => ?_, fun _ => h.quiet, fun i => h.idle.handle_free⟩
  constructor
  · intro hpath
    have hvalid := h.valid hpath
    rcases (named_iff hinv).mp ((h.named hvalid).mpr hpath) with ⟨i, hoccupied, hname⟩
    exact ⟨i, _, hoccupied, hname, bytes_of_valid hvalid⟩
  · rintro ⟨i, name, hoccupied, hname, hbytes⟩
    rcases path_of_fits hbytes hname.right with ⟨hvalid, hskip⟩
    refine (h.named hvalid).mp ((named_iff hinv).mpr ⟨i, hoccupied, ?_⟩)
    rw [hskip]
    exact hname

end Broker
end TecnicoFs
