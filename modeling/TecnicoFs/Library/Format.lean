import Mathlib.Data.Nat.Digits.Defs
import TecnicoFs.Library.CString

/-!
# Formatted text

The decimal conversions of `printf` and the conversions of `scanf` that skip white
space, read a decimal integer, or read the rest of a line.
-/

namespace TecnicoFs
namespace Library

/-- The bytes of a text of ASCII characters. -/
def ascii (text : String) : List UInt8 := text.toList.map fun c => UInt8.ofNat c.toNat

def isSpace (c : UInt8) : Bool := c = 32 || (9 <= c && c <= 13)

def isDigit (c : UInt8) : Bool := 48 <= c && c <= 57

namespace CStr

def takeWhile (s : CStr) (accepts : UInt8 -> Bool) : CStr where
  bytes := s.bytes.takeWhile accepts
  noNul := fun h => s.noNul ((List.takeWhile_sublist accepts).subset h)

def dropWhile (s : CStr) (accepts : UInt8 -> Bool) : CStr where
  bytes := s.bytes.dropWhile accepts
  noNul := fun h => s.noNul ((List.dropWhile_sublist accepts).subset h)

def strlen (s : CStr) : Nat := s.bytes.length

def strcat (s t : CStr) : CStr where
  bytes := s.bytes ++ t.bytes
  noNul := fun h => (List.mem_append.mp h).elim s.noNul t.noNul

end CStr

/-!
## Output
-/

def formatNat (n : Nat) : List UInt8 :=
  if n = 0 then [48] else (Nat.digits 10 n).reverse.map fun d => 48 + UInt8.ofNat d

/-- `%d` and `%ld`. -/
def formatInt (v : Int) : List UInt8 :=
  if v < 0 then 45 :: formatNat v.natAbs else formatNat v.natAbs

/-- The conversion of a signed integer to an unsigned 64-bit one. -/
def uint64OfInt (v : Int) : Nat := (v % 18446744073709551616).toNat

/-- The signed 64-bit integer congruent to `v`. -/
def wrapLong (v : Int) : Int :=
  (v + 9223372036854775808) % 18446744073709551616 - 9223372036854775808

/-!
## Input
-/

def digitsValue (digits : List UInt8) : Nat :=
  digits.foldl (fun v c => 10 * v + (c.toNat - 48)) 0

/-- A value outside the signed 64-bit integers becomes the nearest one. -/
def clampLong (v : Int) : Int := max (-9223372036854775808) (min v 9223372036854775807)

/-- The sign that a conversion reads before the digits. -/
def signOf (s : CStr) : Bool × CStr :=
  match s.bytes with
  | 45 :: _ => (true, s.tail)
  | 43 :: _ => (false, s.tail)
  | _ => (false, s)

/-- `%d`: the integer, and what follows it. -/
def scanInt (s : CStr) : Option (Int × CStr) :=
  let (negative, s) := signOf (s.dropWhile isSpace)
  let digits := s.takeWhile isDigit
  if digits.strlen = 0 then none
  else
    let v : Int := digitsValue digits.bytes
    some (wrapInt (clampLong (if negative then -v else v)), s.dropWhile isDigit)

/-- `%lu`: the unsigned 64-bit integer, and what follows it. -/
def scanULong (s : CStr) : Option (Nat × CStr) :=
  let (negative, s) := signOf (s.dropWhile isSpace)
  let digits := s.takeWhile isDigit
  if digits.strlen = 0 then none
  else
    let v := digitsValue digits.bytes
    some (if 18446744073709551615 < v then 18446744073709551615
        else uint64OfInt (if negative then -v else v), s.dropWhile isDigit)

/-- `%s`: a word, and what follows it. -/
def scanWord (s : CStr) : Option (CStr × CStr) :=
  let s := s.dropWhile isSpace
  let word := s.takeWhile fun c => !isSpace c
  if word.strlen = 0 then none else some (word, s.dropWhile fun c => !isSpace c)

/-- `%[^\n]`: the bytes before a newline, and what follows them. -/
def scanLine (s : CStr) : Option (CStr × CStr) :=
  let line := s.takeWhile (· != 10)
  if line.strlen = 0 then none else some (line, s.dropWhile (· != 10))

end Library
end TecnicoFs
