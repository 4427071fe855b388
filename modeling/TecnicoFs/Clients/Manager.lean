import TecnicoFs.Library.Scanning
import TecnicoFs.Broker.Publishing

/-!
# The manager's answers

What {lit}`main` of the manager does with the bytes that it reads from its pipe after it
has sent its request: it scans the answer, and for a listing it reads and scans on until
a box is marked as the last one.
-/

namespace TecnicoFs
namespace Clients

open Library
open Broker

/-- The variables that the answers are scanned into. -/
structure Locals where
  code : Int
  returnCode : Int
  input : CStr
  errorMsg : CStr
  last : Int
  name : CStr
  size : Nat
  p : Nat
  s : Nat

def unsetLocals : Locals := ⟨0, 0, emptyStr, emptyStr, 0, emptyStr, 0, 0, 0⟩

/-- The string fits an array of `n` bytes. -/
def fitsArray (n : Nat) (s : CStr) : Out CStr :=
  if s.strlen < n then .ok s else .error .overflow

/-!
## Scanning

A conversion that fails ends the scan, and keeps what was scanned before.
-/

/-- `"%d %[^\n]%*c"` -/
def scanAnswer (text : CStr) (l : Locals) : Out Locals :=
  match scanInt text with
  | none => .ok l
  | some (code, text) =>
      match scanLine (text.dropWhile isSpace) with
      | none => .ok { l with code := code }
      | some (input, _) => do
          let input <- fitsArray msize input
          pure { l with code := code, input := input }

/-- `"%d %s"` -/
def scanReturn (text : CStr) (l : Locals) : Out Locals :=
  match scanInt text with
  | none => .ok l
  | some (returnCode, text) =>
      match scanWord text with
      | none => .ok { l with returnCode := returnCode }
      | some (message, _) => do
          let message <- fitsArray Broker.errorMsg message
          pure { l with returnCode := returnCode, errorMsg := message }

/-- `"%lu %lu %lu"` -/
def scanCounts (text : CStr) (l : Locals) : Locals :=
  match scanULong text with
  | none => l
  | some (size, text) =>
      match scanULong text with
      | none => { l with size := size }
      | some (p, text) =>
          match scanULong text with
          | none => { l with size := size, p := p }
          | some (s, _) => { l with size := size, p := p, s := s }

/-- `"%d %s %lu %lu %lu"` -/
def scanBox (text : CStr) (l : Locals) : Out Locals :=
  match scanInt text with
  | none => .ok l
  | some (last, text) =>
      match scanWord text with
      | none => .ok { l with last := last }
      | some (name, text) => do
          let name <- fitsArray boxNameSize name
          pure (scanCounts text { l with last := last, name := name })

/-- `"%d %d %s %lu %lu %lu"` -/
def scanListing (text : CStr) (l : Locals) : Out Locals :=
  match scanInt text with
  | none => .ok l
  | some (code, text) => scanBox text { l with code := code }

section Scanning

variable {l : Locals} {text : CStr} {code : Int} {rest : List UInt8}

/-- The first scan keeps the line behind the code. -/
theorem scanAnswer_line (hs : text.bytes = formatInt code ++ ([32] ++ rest))
    (hlow : -2147483648 <= code) (hhigh : code < 2147483648) (hne : rest ≠ [])
    (hstop : Stops isSpace rest) (hlength : rest.length < msize) :
    exists input, scanAnswer text l = .ok { l with code := code, input := input } ∧
      input.bytes = rest.takeWhile (· != 10) := by
  rw [← List.nil_append (_ ++ _)] at hs
  rcases scanInt_field hs (fun c hc => absurd hc List.not_mem_nil) hlow hhigh with
    ⟨text1, hint, h1⟩
  rcases CStr.exists_suffix h1 with ⟨text2, h2⟩
  have hskip : text1.dropWhile isSpace = text2 := by
    refine CStr.dropWhile_eq (h1.trans (congrArg _ h2.symm)) space_isSpace ?_
    rw [h2]
    exact hstop
  have hbytes : (text2.takeWhile (· != 10)).bytes = rest.takeWhile (· != 10) := by
    rw [CStr.bytes_takeWhile, h2]
  have hpos : ¬ (text2.takeWhile (· != 10)).strlen = 0 := by
    rw [CStr.strlen, hbytes, List.length_eq_zero_iff]
    cases rest with
    | nil => exact absurd rfl hne
    | cons c rest =>
        have hc : c ≠ 10 := by
          intro heq
          have hspace := hstop c rest rfl
          rw [heq] at hspace
          exact absurd hspace (by decide)
        simp [hc]
  have hfits : fitsArray msize (text2.takeWhile (· != 10)) =
      .ok (text2.takeWhile (· != 10)) := by
    refine if_pos ?_
    rw [CStr.strlen, hbytes]
    exact Nat.lt_of_le_of_lt (List.takeWhile_sublist _).length_le hlength
  refine ⟨text2.takeWhile (· != 10), ?_, hbytes⟩
  simp only [scanAnswer, hint, hskip, scanLine, if_neg hpos, hfits, ok_bind, pure_ok]

theorem takeWhile_line (h : 10 ∉ rest) : rest.takeWhile (· != 10) = rest := by
  refine List.takeWhile_eq_self_iff.mpr fun c hc => ?_
  rw [bne_iff_ne]
  exact fun heq => h (heq ▸ hc)

end Scanning

/-!
## Printing
-/

/-- `"%s %zu %zu %zu\n"` -/
def printBox (name : CStr) (size p s : Nat) : List UInt8 :=
  name.bytes ++ [32] ++ formatNat size ++ [32] ++ formatNat p ++ [32] ++ formatNat s ++ [10]

def failedToRead : List UInt8 := ascii "ERROR: Failed to read\n"

def printAnswer (l : Locals) : List UInt8 :=
  if l.returnCode = -1 then ascii "ERROR " ++ l.errorMsg.bytes ++ [10] else ascii "OK\n"

/-- The first box of a listing. -/
def printFirst (l : Locals) : List UInt8 :=
  if l.name.bytes = ascii "0" then ascii " 0 0 0\n" else printBox l.name l.size l.p l.s

/-!
## The loop
-/

/-- `memset(buffer, '\0', strlen(buffer))` -/
def clearText (buffer : List UInt8) : Out (List UInt8) := do
  let text <- bufferText buffer
  pure (List.replicate text.strlen 0 ++ buffer.drop text.strlen)

/-- The lines that the loop prints, until the last box or the end of the pipe. -/
def listingLoop : List Chunk -> (buffer : List UInt8) -> Locals -> Out (List (List UInt8))
  | [], buffer, l =>
      if l.last = 1 then pure []
      else do
        let _ <- clearText buffer
        pure [failedToRead]
  | read :: reads, buffer, l =>
      if l.last = 1 then pure []
      else do
        let buffer <- clearText buffer
        let buffer := afterRead read buffer
        let text <- bufferText buffer
        let l <- scanListing text l
        let lines <- listingLoop reads buffer l
        pure (printBox l.name l.size l.p l.s :: lines)

/-- What is printed for an answer in the buffer. -/
def printed (reads : List Chunk) (buffer : List UInt8) (l : Locals) :
    Out (List (List UInt8)) := do
  let text <- bufferText buffer
  let l <- scanAnswer text l
  if l.code ≠ listAnswer then do
    let l <- scanReturn l.input l
    pure [printAnswer l]
  else do
    let buffer := l.input.bytes ++ [0] ++ buffer.drop (l.input.strlen + 1)
    let text <- bufferText buffer
    let l <- scanBox text l
    let lines <- listingLoop reads buffer l
    pure (printFirst l :: lines)

/-- What the manager prints, given what its pipe yields, what {lit}`malloc` left in its
buffer and what its variables hold before they are set. -/
def answer (reads : List Chunk) (buffer : List UInt8) (l : Locals) :
    Out (List (List UInt8)) :=
  match reads with
  | [] => do
      let lines <- printed [] buffer l
      pure (failedToRead :: lines)
  | read :: reads => printed reads (afterRead read buffer) l

end Clients
end TecnicoFs
