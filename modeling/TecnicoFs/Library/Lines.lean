import TecnicoFs.Library.Format

/-!
# Reading a text in lines

{lit}`fgets` takes a line with its newline, but no more bytes than the array has room for,
so a long line arrives in several parts.  The parts are the text again.
-/

namespace TecnicoFs
namespace Library

/-- The bytes that {lit}`fgets` stores in an array with room for `n` of them, and the bytes
behind. -/
def fgets : (n : Nat) -> List UInt8 -> List UInt8 × List UInt8
  | 0, input => ([], input)
  | _ + 1, [] => ([], [])
  | n + 1, c :: input =>
      if c = 10 then ([c], input) else (c :: (fgets n input).1, (fgets n input).2)

section Fgets

variable {n : Nat} {input line rest : List UInt8}

theorem fgets_append (n : Nat) (input : List UInt8) :
    (fgets n input).1 ++ (fgets n input).2 = input := by
  induction n generalizing input with
  | zero => rfl
  | succ n ih =>
      cases input with
      | nil => rfl
      | cons c input =>
          rw [fgets]
          split
          · rfl
          · exact congrArg (List.cons c) (ih input)

theorem fgets_length (n : Nat) (input : List UInt8) : (fgets n input).1.length <= n := by
  induction n generalizing input with
  | zero => exact Nat.le_refl 0
  | succ n ih =>
      cases input with
      | nil => exact Nat.zero_le _
      | cons c input =>
          rw [fgets]
          split
          · exact Nat.succ_le_succ (Nat.zero_le n)
          · exact Nat.succ_le_succ (ih input)

/-- At the end of the text nothing is read, and only there. -/
theorem fgets_eq_nil (hn : n ≠ 0) : (fgets n input).1 = [] <-> input = [] := by
  rcases Nat.exists_eq_succ_of_ne_zero hn with ⟨k, hk⟩
  rw [hk]
  cases input with
  | nil => simp [fgets]
  | cons c input =>
      rw [fgets]
      split <;> simp

/-- A newline ends what is read. -/
theorem fgets_oneLine (n : Nat) (input : List UInt8) : 10 ∉ (fgets n input).1.dropLast := by
  induction n generalizing input with
  | zero => exact List.not_mem_nil
  | succ n ih =>
      cases input with
      | nil => exact List.not_mem_nil
      | cons c input =>
          rw [fgets]
          split
          · exact List.not_mem_nil
          · rename_i hc
            cases hrest : (fgets n input).1 with
            | nil => exact List.not_mem_nil
            | cons d more =>
                intro hmem
                have hlater := ih input
                rw [hrest] at hlater
                rw [List.dropLast_cons_cons] at hmem
                rcases List.mem_cons.mp hmem with hfirst | hmore
                · exact hc hfirst.symm
                · exact hlater hmore

end Fgets

end Library
end TecnicoFs
