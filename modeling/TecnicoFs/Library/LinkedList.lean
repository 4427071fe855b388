import TecnicoFs.Library.Heap

/-!
# Linked lists on a heap

A cell holds a value and the address of the next cell.  A segment relates the
cells between two addresses to the list of their addresses and values, and a
chain is a segment that ends in NULL.  All loops over a chain are one walk that
keeps the address of the cell before the current one.
-/

namespace TecnicoFs
namespace Library

structure Cell (beta : Type) where
  value : beta
  next : Option Nat
deriving DecidableEq

variable {beta : Type} {h h' : Heap (Cell beta)} {p p' q : Option Nat} {xs ys : List (Nat × beta)}

/-- The cells from `p` up to `q`. -/
def Segment (h : Heap (Cell beta)) (p : Option Nat) (xs : List (Nat × beta))
    (q : Option Nat) : Prop :=
  match xs with
  | [] => p = q
  | (a, v) :: rest => p = some a ∧ exists n, h.cell a = some ⟨v, n⟩ ∧ Segment h n rest q

def Chain (h : Heap (Cell beta)) (p : Option Nat) (xs : List (Nat × beta)) : Prop :=
  Segment h p xs none

/-- The addresses of the cells. -/
def addresses (xs : List (Nat × beta)) : List Nat := xs.map Prod.fst

/-- The walk of a loop over the list: it stops at the first cell that the test
accepts, or behind the last, and remembers the cell before. -/
def seek (test : Cell beta -> Except HeapFault Bool) (h : Heap (Cell beta)) :
    (fuel : Nat) -> (prev cur : Option Nat) -> Except HeapFault (Option Nat × Option Nat)
  | _, prev, none => .ok (prev, none)
  | 0, _, some _ => .error .endless
  | fuel + 1, prev, some a => do
      let cell <- h.load a
      let hit <- test cell
      if hit then pure (prev, some a) else seek test h fuel (some a) cell.next

/-- The loop that frees a list: each cell is freed after its pointer has been read. -/
def freeAll : (fuel : Nat) -> Option Nat -> Heap (Cell beta) ->
    Except HeapFault (Heap (Cell beta))
  | _, none, h => .ok h
  | 0, some _, _ => .error .endless
  | fuel + 1, some a, h => do
      let cell <- h.load a
      let h <- h.free a
      freeAll fuel cell.next h

/-- The address can be reached from `p`. -/
inductive Reaches (h : Heap (Cell beta)) (p : Option Nat) : Nat -> Prop where
  | head {a : Nat} : p = some a -> Reaches h p a
  | next {a b : Nat} {v : beta} :
      Reaches h p a -> h.cell a = some ⟨v, some b⟩ -> Reaches h p b

/-!
## Segments
-/

namespace Segment

theorem append : Segment h p (xs ++ ys) q <-> exists r, Segment h p xs r ∧ Segment h r ys q := by
  induction xs generalizing p with
  | nil =>
      constructor
      · intro hseg
        exact ⟨p, rfl, hseg⟩
      · rintro ⟨r, hr, hseg⟩
        rw [show p = r from hr]
        exact hseg
  | cons x xs ih =>
      rcases x with ⟨a, v⟩
      constructor
      · rintro ⟨hp, n, hcell, hrest⟩
        rcases ih.mp hrest with ⟨r, hxs, hys⟩
        exact ⟨r, ⟨hp, n, hcell, hxs⟩, hys⟩
      · rintro ⟨r, ⟨hp, n, hcell, hxs⟩, hys⟩
        exact ⟨hp, n, hcell, ih.mpr ⟨r, hxs, hys⟩⟩

theorem cell (hseg : Segment h p xs q) {a : Nat} {v : beta} (hmem : (a, v) ∈ xs) :
    exists n, h.cell a = some ⟨v, n⟩ := by
  induction xs generalizing p with
  | nil => cases hmem
  | cons x xs ih =>
      rcases x with ⟨b, w⟩
      rcases hseg with ⟨_, n, hcell, hrest⟩
      rcases List.mem_cons.mp hmem with heq | htail
      · cases heq
        exact ⟨n, hcell⟩
      · exact ih hrest htail

theorem live (hseg : Segment h p xs q) {a : Nat} (hmem : a ∈ addresses xs) : h.Live a := by
  rcases List.mem_map.mp hmem with ⟨⟨b, v⟩, hb, hba⟩
  rcases hseg.cell hb with ⟨n, hcell⟩
  exact hba ▸ Heap.live_of_cell hcell

/-- Only the cells of the segment matter to it. -/
theorem congr (hsame : forall a, a ∈ addresses xs -> h'.cell a = h.cell a)
    (hseg : Segment h p xs q) : Segment h' p xs q := by
  induction xs generalizing p with
  | nil => exact hseg
  | cons x xs ih =>
      rcases x with ⟨a, v⟩
      rcases hseg with ⟨hp, n, hcell, hrest⟩
      refine ⟨hp, n, ?_, ih (fun b hb => hsame b (List.mem_cons_of_mem a hb)) hrest⟩
      rw [hsame a List.mem_cons_self]
      exact hcell

theorem alloc (x : Cell beta) (hseg : Segment h p xs q) : Segment (h.alloc x).2 p xs q :=
  hseg.congr fun _ ha => Heap.alloc_other x (hseg.live ha)

/-- Replacing or freeing a cell elsewhere. -/
theorem update {a : Nat} (ha : h.Live a) (o : Option (Cell beta))
    (hnot : a ∉ addresses xs) (hseg : Segment h p xs q) : Segment (h.update a ha o) p xs q := by
  refine hseg.congr fun b hb => Heap.update_other ha o ?_
  intro hba
  exact hnot (hba ▸ hb)

theorem reaches {r : Option Nat} {a : Nat} (hr : forall b, r = some b -> Reaches h p b)
    (hseg : Segment h r xs (some a)) : Reaches h p a := by
  induction xs generalizing r with
  | nil => exact hr a hseg
  | cons x xs ih =>
      rcases x with ⟨b, v⟩
      rcases hseg with ⟨hb, n, hcell, hrest⟩
      refine ih (fun c hc => ?_) hrest
      exact Reaches.next (hr b hb) (hc ▸ hcell)

theorem start {t : Nat} (hseg : Segment h p xs (some t)) : exists c, p = some c := by
  cases xs with
  | nil => exact ⟨t, hseg⟩
  | cons x xs => exact ⟨x.1, hseg.left⟩

/-- Two segments of the same cells with the same end start at the same cell, with the
same contents. -/
theorem same (hseg : Segment h p xs q) (hseg' : Segment h' p' xs q) :
    p' = p ∧ forall a, a ∈ addresses xs -> h'.cell a = h.cell a := by
  induction xs generalizing p p' with
  | nil =>
      rw [show p = q from hseg, show p' = q from hseg']
      exact ⟨rfl, fun _ ha => absurd ha List.not_mem_nil⟩
  | cons x xs ih =>
      rcases x with ⟨b, v⟩
      rcases hseg with ⟨hp, n, hcell, hrest⟩
      rcases hseg' with ⟨hp', n', hcell', hrest'⟩
      rcases ih hrest hrest' with ⟨hn, hsame⟩
      refine ⟨hp'.trans hp.symm, fun a ha => ?_⟩
      rcases List.mem_cons.mp ha with heq | htail
      · rw [heq, hcell, hcell', hn]
      · exact hsame a htail

end Segment

theorem exists_split {a : Nat} (hmem : a ∈ addresses xs) :
    exists pre v post, xs = pre ++ (a, v) :: post := by
  rcases List.mem_map.mp hmem with ⟨⟨b, v⟩, hb, hba⟩
  rcases List.append_of_mem hb with ⟨pre, post, hsplit⟩
  exact ⟨pre, v, post, by rw [hsplit, ← hba]⟩

/-- Every cell of a segment that ends in a cell has a next one. -/
theorem Segment.next_some {t a : Nat} {cell : Cell beta} (hseg : Segment h p xs (some t))
    (hmem : a ∈ addresses xs) (hcell : h.cell a = some cell) : cell.next.isNone = false := by
  rcases exists_split hmem with ⟨pre, v, post, hsplit⟩
  rw [hsplit] at hseg
  rcases Segment.append.mp hseg with ⟨r, _, _, n, hcell', hpost⟩
  rw [hcell] at hcell'
  cases hcell'
  rcases hpost.start with ⟨c, hc⟩
  rw [hc]
  rfl

/-!
## Chains
-/

namespace Chain

/-- The cells of a chain are determined by its first address. -/
theorem unique (hxs : Chain h p xs) (hys : Chain h p ys) : xs = ys := by
  induction xs generalizing p ys with
  | nil =>
      cases ys with
      | nil => rfl
      | cons y ys =>
          have hnull := hys.left
          rw [show p = none from hxs] at hnull
          cases hnull
  | cons x xs ih =>
      rcases x with ⟨a, v⟩
      rcases hxs with ⟨ha, n, hcell, hrest⟩
      cases ys with
      | nil =>
          rw [show p = none from hys] at ha
          cases ha
      | cons y ys =>
          rcases y with ⟨b, w⟩
          rcases hys with ⟨hb, m, hcell', hrest'⟩
          have hab : a = b := Option.some.inj (ha.symm.trans hb)
          rw [← hab, hcell] at hcell'
          cases hcell'
          rw [ih hrest hrest', hab]

/-- The chain from one of its cells on. -/
theorem suffix {a : Nat} {v : beta} {pre post : List (Nat × beta)}
    (hchain : Chain h p (pre ++ (a, v) :: post)) :
    Segment h p pre (some a) ∧ exists n, h.cell a = some ⟨v, n⟩ ∧ Chain h n post := by
  rcases Segment.append.mp hchain with ⟨r, hpre, hr, n, hcell, hpost⟩
  rw [hr] at hpre
  exact ⟨hpre, n, hcell, hpost⟩

/-- Two chains of the same cells start at the same one, with the same contents. -/
theorem same (hchain : Chain h p xs) (hchain' : Chain h' p' xs) :
    p' = p ∧ forall a, a ∈ addresses xs -> h'.cell a = h.cell a :=
  Segment.same hchain hchain'

/-- No cell occurs twice in a chain: it would never end. -/
theorem nodup (hchain : Chain h p xs) : (addresses xs).Nodup := by
  induction xs generalizing p with
  | nil => exact List.nodup_nil
  | cons x xs ih =>
      rcases x with ⟨a, v⟩
      rcases hchain with ⟨hp, n, hcell, hrest⟩
      refine List.nodup_cons.mpr ⟨fun hmem => ?_, ih hrest⟩
      rcases exists_split hmem with ⟨pre, w, post, hsplit⟩
      have hrest' := hrest
      rw [hsplit] at hrest'
      rcases suffix hrest' with ⟨_, m, hcell', hpost⟩
      have hfull : Chain h (some a) ((a, v) :: xs) := ⟨rfl, n, hcell, hrest⟩
      have htail : Chain h (some a) ((a, w) :: post) := ⟨rfl, m, hcell', hpost⟩
      have hlen := congrArg List.length (hfull.unique htail)
      rw [hsplit] at hlen
      simp only [List.length_cons, List.length_append] at hlen
      omega

theorem length_le (hchain : Chain h p xs) : xs.length <= h.top := by
  have hsubset : forall a, a ∈ (addresses xs).toFinset -> a ∈ Finset.range h.top := by
    intro a ha
    exact Finset.mem_range.mpr (Segment.live hchain (List.mem_toFinset.mp ha)).lt_top
  have hcard := Finset.card_le_card hsubset
  rw [List.toFinset_card_of_nodup hchain.nodup, Finset.card_range, addresses,
    List.length_map] at hcard
  exact hcard

/-- The addresses that are reached are those of the cells. -/
theorem reaches_iff (hchain : Chain h p xs) {a : Nat} : Reaches h p a <-> a ∈ addresses xs := by
  constructor
  · intro hreach
    induction hreach with
    | head hp =>
        rename_i b
        cases xs with
        | nil =>
            rw [show p = none from hchain] at hp
            cases hp
        | cons x xs =>
            have hx : x.1 = b := Option.some.inj (hchain.left.symm.trans hp)
            rw [← hx]
            exact List.mem_cons_self
    | next _ hcell ih =>
        rename_i b c v _
        rcases exists_split ih with ⟨pre, w, post, hsplit⟩
        rw [hsplit] at hchain ⊢
        rcases hchain.suffix with ⟨_, n, hcell', hpost⟩
        rw [hcell] at hcell'
        cases hcell'
        cases post with
        | nil => cases (show some c = none from hpost)
        | cons y post =>
            have hy : c = y.1 := Option.some.inj hpost.left
            simp [addresses, hy]
  · intro hmem
    rcases exists_split hmem with ⟨pre, v, post, hsplit⟩
    rw [hsplit] at hchain
    exact Segment.reaches (fun b hb => Reaches.head hb) hchain.suffix.left

theorem notMem {a : Nat} {v : beta} {pre post : List (Nat × beta)}
    (hchain : Chain h p (pre ++ (a, v) :: post)) : a ∉ addresses pre ∧ a ∉ addresses post := by
  have hnodup := hchain.nodup
  rw [addresses, List.map_append, List.map_cons, List.nodup_append] at hnodup
  rcases hnodup with ⟨_, hpost, hdisjoint⟩
  refine ⟨fun hmem => ?_, (List.nodup_cons.mp hpost).left⟩
  exact hdisjoint a hmem a List.mem_cons_self rfl

/-- A cell is overwritten, and with it what follows it in the chain. -/
theorem splice {a : Nat} {w : beta} {m : Option Nat} {pre post : List (Nat × beta)}
    (ha : h.Live a) (hpre : Segment h p pre (some a)) (hnotPre : a ∉ addresses pre)
    (hpost : Chain h m post) (hnotPost : a ∉ addresses post) :
    Chain (h.update a ha (some ⟨w, m⟩)) p (pre ++ (a, w) :: post) := by
  refine Segment.append.mpr ⟨some a, hpre.update ha _ hnotPre, rfl, m, ?_, ?_⟩
  · exact Heap.update_self ha _
  · exact Segment.update ha _ hnotPost hpost

/-- Storing a value in a cell. -/
theorem setValue {a : Nat} {v w : beta} {n : Option Nat} {pre post : List (Nat × beta)}
    (ha : h.Live a) (hcell : h.cell a = some ⟨v, n⟩)
    (hchain : Chain h p (pre ++ (a, v) :: post)) :
    Chain (h.update a ha (some ⟨w, n⟩)) p (pre ++ (a, w) :: post) := by
  rcases hchain.suffix with ⟨hpre, m, hcell', hpost⟩
  rw [hcell] at hcell'
  cases hcell'
  exact splice ha hpre hchain.notMem.left hpost hchain.notMem.right

/-- Linking a cell behind the last. -/
theorem link {a b : Nat} {v w : beta} {pre : List (Nat × beta)} (ha : h.Live a)
    (hcell : h.cell b = some ⟨w, none⟩) (hchain : Chain h p (pre ++ [(a, v)]))
    (hnot : b ∉ addresses (pre ++ [(a, v)])) :
    Chain (h.update a ha (some ⟨v, some b⟩)) p (pre ++ [(a, v), (b, w)]) := by
  have hab : a ≠ b := by
    intro hab
    exact hnot (by simp [addresses, hab])
  refine splice ha hchain.suffix.left hchain.notMem.left ⟨rfl, none, hcell, rfl⟩ ?_
  simp [addresses, hab]

/-- Taking a cell out of the chain. -/
theorem unlink {a b : Nat} {u v : beta} {n : Option Nat} {pre post : List (Nat × beta)}
    (ha : h.Live a) (hcell : h.cell b = some ⟨v, n⟩)
    (hchain : Chain h p (pre ++ (a, u) :: (b, v) :: post)) :
    Chain (h.update a ha (some ⟨u, n⟩)) p (pre ++ (a, u) :: post) := by
  rcases hchain.suffix with ⟨hpre, m, _, hm, n', hcell', hpost⟩
  rw [hcell] at hcell'
  cases hcell'
  rcases hchain.notMem with ⟨hnotPre, hnotPost⟩
  refine splice ha hpre hnotPre hpost ?_
  intro hmem
  exact hnotPost (List.mem_cons_of_mem b hmem)

/-!
## Walks along a chain
-/

variable (test : Cell beta -> Except HeapFault Bool) (prev : Option Nat)

theorem seek_step {a fuel : Nat} {cell : Cell beta} {hit : Bool}
    (hcell : h.cell a = some cell) (htest : test cell = .ok hit) :
    seek test h (fuel + 1) prev (some a) =
      if hit then .ok (prev, some a) else seek test h fuel (some a) cell.next := by
  rw [seek, Heap.load_eq hcell]
  change (test cell >>= _) = _
  rw [htest]
  rfl

/-- A walk stops at the first cell that the test accepts. -/
theorem seek_hit {a fuel : Nat} {v : beta} {pre post : List (Nat × beta)}
    (hchain : Chain h p (pre ++ (a, v) :: post)) (hfuel : pre.length < fuel)
    (hpre : forall b cell, b ∈ addresses pre -> h.cell b = some cell -> test cell = .ok false)
    (hhit : forall cell, h.cell a = some cell -> test cell = .ok true) :
    seek test h fuel prev p = .ok ((addresses pre).getLast?.or prev, some a) := by
  induction pre generalizing p fuel prev with
  | nil =>
      rcases hchain with ⟨hp, n, hcell, _⟩
      cases fuel with
      | zero => cases hfuel
      | succ fuel =>
          rw [hp, seek_step test prev hcell (hhit _ hcell)]
          rfl
  | cons x pre ih =>
      rcases x with ⟨b, w⟩
      rcases hchain with ⟨hp, n, hcell, hrest⟩
      cases fuel with
      | zero => cases hfuel
      | succ fuel =>
          have hfuel' : pre.length < fuel := Nat.lt_of_succ_lt_succ hfuel
          rw [hp, seek_step test prev hcell (hpre b _ List.mem_cons_self hcell), if_neg (by decide)]
          rw [ih (some b) hrest hfuel' fun c cell hc => hpre c cell (List.mem_cons_of_mem b hc)]
          simp [addresses, List.getLast?_cons, Option.or_some]

/-- A walk whose test accepts no cell ends behind the last one. -/
theorem seek_miss {fuel : Nat} (hchain : Chain h p xs)
    (hfuel : xs.length <= fuel)
    (hmiss : forall b cell, b ∈ addresses xs -> h.cell b = some cell -> test cell = .ok false) :
    seek test h fuel prev p = .ok ((addresses xs).getLast?.or prev, none) := by
  induction xs generalizing p fuel prev with
  | nil =>
      rw [show p = none from hchain, seek]
      rfl
  | cons x xs ih =>
      rcases x with ⟨b, w⟩
      rcases hchain with ⟨hp, n, hcell, hrest⟩
      cases fuel with
      | zero => cases hfuel
      | succ fuel =>
          have hfuel' : xs.length <= fuel := Nat.le_of_succ_le_succ hfuel
          rw [hp, seek_step test prev hcell (hmiss b _ List.mem_cons_self hcell),
            if_neg (by decide)]
          rw [ih (some b) hrest hfuel' fun c cell hc => hmiss c cell (List.mem_cons_of_mem b hc)]
          simp [addresses, List.getLast?_cons, Option.or_some]

end Chain

/-- A walk along cells that end in a freed one stops at one of the cells before it. -/
theorem Segment.seek_dangling {test : Cell beta -> Except HeapFault Bool} {a fuel : Nat}
    {prev r cur : Option Nat} (hseg : Segment h p xs (some a)) (hfreed : h.cell a = none)
    (hseek : seek test h fuel prev p = .ok (r, cur)) :
    exists pre c v post cell, xs = pre ++ (c, v) :: post ∧ cur = some c ∧
      c ∉ addresses pre ∧ h.cell c = some cell ∧ test cell = .ok true := by
  induction xs generalizing p fuel prev with
  | nil =>
      rw [show p = some a from hseg] at hseek
      cases fuel with
      | zero => cases hseek
      | succ fuel =>
          rw [seek, Heap.load, hfreed] at hseek
          cases hseek
  | cons x xs ih =>
      rcases x with ⟨b, w⟩
      rcases hseg with ⟨hp, n, hcell, hrest⟩
      rw [hp] at hseek
      cases fuel with
      | zero => cases hseek
      | succ fuel =>
          cases htest : test ⟨w, n⟩ with
          | error e =>
              rw [seek, Heap.load_eq hcell] at hseek
              change (test ⟨w, n⟩ >>= _) = _ at hseek
              rw [htest] at hseek
              cases hseek
          | ok hit =>
              rw [Chain.seek_step test prev hcell htest] at hseek
              cases hit with
              | true =>
                  rw [if_pos rfl] at hseek
                  cases hseek
                  exact ⟨[], b, w, xs, _, rfl, rfl, List.not_mem_nil, hcell, htest⟩
              | false =>
                  rw [if_neg (by decide)] at hseek
                  rcases ih hrest hseek with ⟨pre, c, v, post, cell, hsplit, hcur, hnot, hc, hhit⟩
                  refine ⟨(b, w) :: pre, c, v, post, cell, by rw [hsplit]; rfl, hcur, ?_, hc,
                    hhit⟩
                  intro hmem
                  rcases List.mem_cons.mp hmem with heq | htail
                  · rw [heq, hcell] at hc
                    cases hc
                    rw [htest] at hhit
                    cases hhit
                  · exact hnot htail

/-!
## Freeing a list
-/

theorem freeAll_step {a fuel : Nat} {cell : Cell beta} (hcell : h.cell a = some cell) :
    freeAll (fuel + 1) (some a) h =
      freeAll fuel cell.next (h.update a (Heap.live_of_cell hcell) none) := by
  rw [freeAll, Heap.load_eq hcell]
  change (h.free a >>= _) = _
  rw [Heap.free_eq (Heap.live_of_cell hcell)]
  rfl

/-- Whatever the cells look like, each turn has one live cell less: the loop ends, and it
fails only at a cell that is not live. -/
theorem freeAll_error {fuel : Nat} {fault : HeapFault} (hfuel : h.liveCount < fuel)
    (herror : freeAll fuel p h = .error fault) : fault = .useAfterFree := by
  induction fuel generalizing p h with
  | zero => cases hfuel
  | succ fuel ih =>
      cases p with
      | none => cases herror
      | some a =>
          cases hcell : h.cell a with
          | none =>
              rw [freeAll, Heap.load, hcell] at herror
              cases herror
              rfl
          | some cell =>
              rw [freeAll_step hcell] at herror
              have hcount := Heap.liveCount_free (Heap.free_eq (Heap.live_of_cell hcell))
              exact ih (by omega) herror

/-- Of a chain every cell is freed once, and nothing else. -/
theorem Chain.freeAll {fuel : Nat} (hchain : Chain h p xs) (hfuel : xs.length <= fuel) :
    exists h', freeAll fuel p h = .ok h' ∧ h'.liveCount + xs.length = h.liveCount ∧
      forall a, h'.Live a <-> h.Live a ∧ a ∉ addresses xs := by
  induction xs generalizing p h fuel with
  | nil =>
      rw [show p = none from hchain]
      refine ⟨h, by cases fuel <;> rfl, rfl, fun a => ?_⟩
      exact ⟨fun ha => ⟨ha, List.not_mem_nil⟩, fun ha => ha.left⟩
  | cons x xs ih =>
      rcases x with ⟨b, v⟩
      have hnotMem : b ∉ addresses xs := (List.nodup_cons.mp hchain.nodup).left
      rcases hchain with ⟨hp, n, hcell, hrest⟩
      cases fuel with
      | zero => cases hfuel
      | succ fuel =>
          have hlive := Heap.live_of_cell hcell
          have hcount := Heap.liveCount_free (Heap.free_eq hlive)
          rcases ih (Segment.update hlive none hnotMem hrest) (Nat.le_of_succ_le_succ hfuel) with
            ⟨h', hfree, hcount', hlive'⟩
          refine ⟨h', ?_, ?_, fun a => ?_⟩
          · rw [hp, freeAll_step hcell]
            exact hfree
          · rw [List.length_cons]
            omega
          · have hmem : a ∈ addresses ((b, v) :: xs) <-> a = b ∨ a ∈ addresses xs := List.mem_cons
            rw [hlive', Heap.live_free hlive, hmem, not_or, and_assoc]

/-- Cells up to a freed one: before any cell of them, or all of them. -/
theorem Segment.upTo {a : Nat} (hseg : Segment h p xs (some a)) (b : Nat) :
    exists pre c, Segment h p pre (some c) ∧ b ∉ addresses pre ∧ (c = b ∨ c = a) := by
  induction xs generalizing p with
  | nil => exact ⟨[], a, hseg, List.not_mem_nil, Or.inr rfl⟩
  | cons x xs ih =>
      rcases x with ⟨d, w⟩
      rcases hseg with ⟨hp, n, hcell, hrest⟩
      by_cases hd : b = d
      · exact ⟨[], b, hd ▸ hp, List.not_mem_nil, Or.inl rfl⟩
      · rcases ih hrest with ⟨pre, c, hpre, hnot, hc⟩
        refine ⟨(d, w) :: pre, c, ⟨hp, n, hcell, hpre⟩, fun hmem => ?_, hc⟩
        rcases List.mem_cons.mp hmem with heq | htail
        · exact hd heq
        · exact hnot htail

/-- A list that ends in a freed cell cannot be freed. -/
theorem Segment.freeAll_dangling {a fuel : Nat} (hseg : Segment h p xs (some a))
    (hfreed : h.cell a = none) : freeAll fuel p h ≠ .ok h' := by
  intro hfree
  induction fuel generalizing p h xs a with
  | zero =>
      rcases hseg.start with ⟨b, hb⟩
      rw [hb] at hfree
      cases hfree
  | succ fuel ih =>
      cases xs with
      | nil =>
          rw [show p = some a from hseg, freeAll, Heap.load, hfreed] at hfree
          cases hfree
      | cons x xs =>
          rcases x with ⟨b, v⟩
          rcases hseg with ⟨hp, n, hcell, hrest⟩
          have hlive := Heap.live_of_cell hcell
          rw [hp, freeAll_step hcell] at hfree
          rcases hrest.upTo b with ⟨pre, c, hpre, hnot, hc⟩
          refine ih (hpre.update hlive none hnot) ?_ hfree
          rcases hc with hb | ha
          · rw [hb]
            exact Heap.update_self hlive none
          · have hne : c ≠ b := by
              rintro rfl
              rw [ha, Heap.Live, hfreed] at hlive
              cases hlive
            rw [Heap.update_other _ _ hne, ha]
            exact hfreed

end Library
end TecnicoFs
