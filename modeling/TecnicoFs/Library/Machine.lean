import Mathlib.Data.List.Basic
import Mathlib.Data.Int.Basic
import TecnicoFs.Library.Region

/-!
# Machine integers

Unsigned 64-bit sizes and signed 32-bit integers, as the C types `size_t` and
`int` of a 64-bit little-endian machine.  Sizes are natural numbers whose sums,
differences and products are reduced modulo {lit}`2^64`.
-/

namespace TecnicoFs
namespace Library

/-- The modulus of the unsigned size type. -/
def sizeMod : Nat := 18446744073709551616

/-- The largest object an allocator hands out. -/
def ptrdiffMax : Nat := 9223372036854775807

/-- The number of values of a signed 32-bit integer that are not negative. -/
def intLimit : Nat := 2147483648

def sizeAdd (a b : Nat) : Nat := (a + b) % sizeMod

def sizeSub (a b : Nat) : Nat := (a + (sizeMod - b % sizeMod)) % sizeMod

def sizeMul (a b : Nat) : Nat := (a * b) % sizeMod

/-- The signed 32-bit integer congruent to `v`. -/
def wrapInt (v : Int) : Int := (v + 2147483648) % 4294967296 - 2147483648

/-- The conversion of a size to a signed 32-bit integer. -/
def intOfSize (n : Nat) : Int := wrapInt n

/-- The number of turns of a loop `for (int i = 0; i < n; i++)` whose bound is a
size: an `i` that passes the largest integer becomes negative, and a negative
integer converts to a size above every table size. -/
def intLoopBound (n : Nat) : Nat := min n intLimit

theorem sizeAdd_eq {a b : Nat} (h : a + b < sizeMod) : sizeAdd a b = a + b :=
  Nat.mod_eq_of_lt h

theorem sizeSub_eq {a b : Nat} (hle : b <= a) (ha : a < sizeMod) :
    sizeSub a b = a - b := by
  simp only [sizeSub, sizeMod] at *
  omega

/-- A difference that wraps is too large for any object. -/
theorem sizeSub_wrap {a b : Nat} (h : a < b) (hb : b < sizeMod) :
    sizeSub a b = a + sizeMod - b := by
  simp only [sizeSub, sizeMod] at *
  omega

theorem intOfSize_eq {n : Nat} (h : n < intLimit) : intOfSize n = n := by
  simp only [intOfSize, wrapInt, intLimit] at *
  omega

theorem intOfSize_intLimit : intOfSize intLimit = -2147483648 := rfl

/-!
## Allocation

The byte count of an array is a product of sizes, so it wraps.  An allocator
refuses a request larger than any object; otherwise it answers with NULL or with
a block whose contents are arbitrary.  An array table is the list of its cells.
-/

def mallocArray (count size : Nat) (answer : Option (Nat -> alpha)) : Option (List alpha) :=
  if sizeMul count size <= ptrdiffMax then
    answer.map fun garbage => (List.range (sizeMul count size / size)).map garbage
  else none

def mallocRegion (count size : Nat) (answer : Option (Nat -> alpha)) :
    Option (Region alpha) :=
  if sizeMul count size <= ptrdiffMax then
    answer.map fun garbage => { size := sizeMul count size, cell := garbage }
  else none

/-- Loading and storing a cell at a signed index. -/
def loadCell (t : List alpha) (i : Int) : Option alpha :=
  if 0 <= i then t[i.toNat]? else none

def storeCell (t : List alpha) (i : Int) (x : alpha) : Option (List alpha) :=
  if 0 <= i ∧ i.toNat < t.length then some (t.set i.toNat x) else none

/-- `for (i = 0; i < n; i++) t[i] = x;` -/
def fillCells (t : List alpha) (n : Nat) (x : alpha) : Option (List alpha) :=
  if n <= t.length then some (List.replicate n x ++ t.drop n) else none

@[simp] theorem loadCell_nat (t : List alpha) (k : Nat) : loadCell t (k : Int) = t[k]? := by
  simp [loadCell]

theorem loadCell_neg {t : List alpha} {i : Int} (h : i < 0) : loadCell t i = none :=
  if_neg (by omega)

theorem storeCell_nat {t : List alpha} {k : Nat} (x : alpha) (h : k < t.length) :
    storeCell t (k : Int) x = some (t.set k x) := by
  simp [storeCell, h]

/-!
## Little-endian integers

A signed 32-bit integer occupies four bytes, the least significant first.
-/

/-- The four bytes of a signed 32-bit integer. -/
def intBytes (v : Int) : List UInt8 :=
  let n := (v % 4294967296).toNat
  [UInt8.ofNat (n % 256), UInt8.ofNat (n / 256 % 256),
    UInt8.ofNat (n / 65536 % 256), UInt8.ofNat (n / 16777216 % 256)]

/-- The signed 32-bit integer that four bytes hold. -/
def bytesInt : List UInt8 -> Int
  | [a, b, c, d] =>
      wrapInt (a.toNat + 256 * b.toNat + 65536 * c.toNat + 16777216 * d.toNat)
  | _ => 0

@[simp] theorem intBytes_length (v : Int) : (intBytes v).length = 4 := rfl

theorem bytesInt_intBytes {v : Int} (hlo : -2147483648 <= v) (hhi : v < 2147483648) :
    bytesInt (intBytes v) = v := by
  simp only [intBytes, bytesInt, wrapInt, UInt8.toNat_ofNat']
  omega

end Library
end TecnicoFs
