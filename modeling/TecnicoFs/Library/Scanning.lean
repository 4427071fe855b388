import Mathlib.Data.Nat.Digits.Lemmas
import TecnicoFs.Library.Format

/-!
# Reading formatted text back

A conversion of `scanf` reads what the matching conversion of `printf` wrote, and stops
where it ends, if what follows does not prolong it.
-/

namespace TecnicoFs
namespace Library

/-- The bytes do not start with one that is accepted. -/
def Stops (accepts : UInt8 -> Bool) (bytes : List UInt8) : Prop :=
  forall c rest, bytes = c :: rest -> accepts c = false

section Prefixes

variable {accepts : UInt8 -> Bool} {xs ys : List UInt8}

theorem stops_nil : Stops accepts [] := by
  intro c rest heq
  cases heq

theorem stops_cons {c : UInt8} (h : accepts c = false) (rest : List UInt8) :
    Stops accepts (c :: rest) := by
  intro d rest' heq
  cases heq
  exact h

theorem Stops.append (h : Stops accepts xs) (hne : xs ≠ []) (ys : List UInt8) :
    Stops accepts (xs ++ ys) := by
  cases xs with
  | nil => exact absurd rfl hne
  | cons c rest => exact stops_cons (h c rest rfl) (rest ++ ys)

theorem Stops.of_append (h : Stops accepts (xs ++ ys)) : Stops accepts xs := by
  intro c rest heq
  refine h c (rest ++ ys) ?_
  rw [heq]
  rfl

theorem takeWhile_stops (hall : forall c, c ∈ xs -> accepts c = true) (hstop : Stops accepts ys) :
    (xs ++ ys).takeWhile accepts = xs := by
  rw [List.takeWhile_append_of_pos hall]
  cases ys with
  | nil => simp
  | cons c rest => simp [hstop c rest rfl]

theorem dropWhile_stops (hall : forall c, c ∈ xs -> accepts c = true) (hstop : Stops accepts ys) :
    (xs ++ ys).dropWhile accepts = ys := by
  rw [List.dropWhile_append_of_pos hall]
  cases ys with
  | nil => simp
  | cons c rest => simp [hstop c rest rfl]

theorem stops_dropWhile (accepts : UInt8 -> Bool) (xs : List UInt8) :
    Stops accepts (xs.dropWhile accepts) := by
  intro c rest heq
  have hhead := List.head?_dropWhile_not accepts xs
  rw [heq] at hhead
  simpa using hhead

variable {s t : CStr}

@[simp] theorem CStr.bytes_takeWhile (s : CStr) (accepts : UInt8 -> Bool) :
    (s.takeWhile accepts).bytes = s.bytes.takeWhile accepts := rfl

@[simp] theorem CStr.bytes_dropWhile (s : CStr) (accepts : UInt8 -> Bool) :
    (s.dropWhile accepts).bytes = s.bytes.dropWhile accepts := rfl

@[simp] theorem CStr.bytes_tail (s : CStr) : s.tail.bytes = s.bytes.tail := rfl

theorem CStr.takeWhile_eq (hs : s.bytes = xs ++ ys)
    (hall : forall c, c ∈ xs -> accepts c = true) (hstop : Stops accepts ys) :
    (s.takeWhile accepts).bytes = xs := by
  rw [CStr.bytes_takeWhile, hs]
  exact takeWhile_stops hall hstop

theorem CStr.dropWhile_eq (hs : s.bytes = xs ++ t.bytes)
    (hall : forall c, c ∈ xs -> accepts c = true) (hstop : Stops accepts t.bytes) :
    s.dropWhile accepts = t := by
  apply CStr.ext
  rw [CStr.bytes_dropWhile, hs]
  exact dropWhile_stops hall hstop

end Prefixes

/-!
## Numbers
-/

theorem digit_toNat {d : Nat} (h : d < 10) : (48 + UInt8.ofNat d).toNat = 48 + d := by
  rw [UInt8.toNat_add, UInt8.toNat_ofNat']
  have hd : d % 2 ^ 8 = d := Nat.mod_eq_of_lt (by omega)
  rw [hd]
  exact Nat.mod_eq_of_lt (by
    change 48 + d < 2 ^ 8
    omega)

theorem isDigit_digit {d : Nat} (h : d < 10) : isDigit (48 + UInt8.ofNat d) = true := by
  have hd := digit_toNat h
  simp only [isDigit, Bool.and_eq_true, decide_eq_true_eq, UInt8.le_iff_toNat_le, hd]
  change 48 <= 48 + d ∧ 48 + d <= 57
  omega

theorem formatNat_digits (n : Nat) :
    forall c, c ∈ formatNat n -> isDigit c = true := by
  intro c hc
  rw [formatNat] at hc
  by_cases hn : n = 0
  · rw [if_pos hn, List.mem_singleton] at hc
    rw [hc]
    decide
  · rw [if_neg hn] at hc
    rcases List.mem_map.mp hc with ⟨d, hd, heq⟩
    rw [← heq]
    exact isDigit_digit (Nat.digits_lt_base (by decide) (List.mem_reverse.mp hd))

theorem formatNat_ne_nil (n : Nat) : formatNat n ≠ [] := by
  rw [formatNat]
  by_cases hn : n = 0
  · simp [hn]
  · simpa [hn] using Nat.digits_ne_nil_iff_ne_zero.mpr hn

/-- The digits of a number have its value. -/
theorem digitsValue_formatNat (n : Nat) : digitsValue (formatNat n) = n := by
  rw [formatNat]
  by_cases hn : n = 0
  · rw [if_pos hn, hn]
    rfl
  · rw [if_neg hn, digitsValue, List.foldl_map, List.foldl_reverse]
    have hfold : forall ds : List Nat, (forall d, d ∈ ds -> d < 10) ->
        ds.foldr (fun d v => 10 * v + ((48 + UInt8.ofNat d).toNat - 48)) 0 =
          Nat.ofDigits 10 ds := by
      intro ds hds
      induction ds with
      | nil => rfl
      | cons d ds ih =>
          have hd := hds d List.mem_cons_self
          rw [List.foldr_cons, ih fun e he => hds e (List.mem_cons_of_mem d he),
            digit_toNat hd, Nat.ofDigits_cons]
          omega
    rw [hfold _ fun d hd => Nat.digits_lt_base (by decide) hd, Nat.ofDigits_digits]

/-- The number at the start of a string, without a sign. -/
theorem formatNat_start (n : Nat) (rest : List UInt8) :
    exists c tail, formatNat n ++ rest = c :: tail ∧ isDigit c = true := by
  cases hformat : formatNat n with
  | nil => exact absurd hformat (formatNat_ne_nil n)
  | cons c tail =>
      exact ⟨c, tail ++ rest, rfl, formatNat_digits n c (by rw [hformat]; exact List.mem_cons_self)⟩

theorem isSpace_of_isDigit {c : UInt8} (h : isDigit c = true) : isSpace c = false := by
  simp only [isDigit, Bool.and_eq_true, decide_eq_true_eq, UInt8.le_iff_toNat_le] at h
  have hlow : 48 <= c.toNat := h.left
  have hne : c ≠ 32 := by
    intro heq
    rw [heq] at hlow
    exact absurd hlow (by decide)
  have hhigh : ¬ c <= 13 := by
    intro hle
    have hle' : c.toNat <= 13 := UInt8.le_iff_toNat_le.mp hle
    omega
  simp [isSpace, hne, hhigh]

theorem formatInt_stops (v : Int) (rest : List UInt8) : Stops isSpace (formatInt v ++ rest) := by
  intro c tail heq
  rw [formatInt] at heq
  by_cases hv : v < 0
  · rw [if_pos hv] at heq
    cases heq
    decide
  · rw [if_neg hv] at heq
    rcases formatNat_start v.natAbs rest with ⟨d, tail', hstart, hdigit⟩
    rw [hstart] at heq
    cases heq
    exact isSpace_of_isDigit hdigit

theorem formatInt_notSpace (v : Int) : forall c, c ∈ formatInt v -> isSpace c = false := by
  intro c hc
  rw [formatInt] at hc
  by_cases hv : v < 0
  · rw [if_pos hv] at hc
    rcases List.mem_cons.mp hc with heq | hc
    · rw [heq]
      decide
    · exact isSpace_of_isDigit (formatNat_digits _ c hc)
  · rw [if_neg hv] at hc
    exact isSpace_of_isDigit (formatNat_digits _ c hc)

theorem formatInt_noNul (v : Int) : 0 ∉ formatInt v := by
  intro hmem
  have hdigit : forall c, c ∈ formatNat v.natAbs -> c ≠ 0 := by
    intro c hc heq
    have hzero := formatNat_digits _ c hc
    rw [heq] at hzero
    exact absurd hzero (by decide)
  rw [formatInt] at hmem
  by_cases hv : v < 0
  · rw [if_pos hv] at hmem
    rcases List.mem_cons.mp hmem with heq | hmem
    · cases heq
    · exact hdigit 0 hmem rfl
  · rw [if_neg hv] at hmem
    exact hdigit 0 hmem rfl

/-- A number below a power of ten has at most as many digits. -/
theorem formatNat_length_le {n k : Nat} (hn : n < 10 ^ k) (hk : 0 < k) :
    (formatNat n).length <= k := by
  rw [formatNat]
  by_cases hzero : n = 0
  · rw [if_pos hzero]
    exact hk
  · rw [if_neg hzero, List.length_map, List.length_reverse]
    exact (Nat.digits_length_le_iff (by decide) n).mpr hn

theorem formatInt_length_le {v : Int} {k : Nat} (hv : v.natAbs < 10 ^ k) (hk : 0 < k) :
    (formatInt v).length <= k + 1 := by
  have hlength := formatNat_length_le hv hk
  rw [formatInt]
  by_cases hneg : v < 0
  · rw [if_pos hneg, List.length_cons]
    omega
  · rw [if_neg hneg]
    omega

/-!
## Unsigned integers
-/

theorem uint64OfInt_lt (v : Int) : uint64OfInt v < 18446744073709551616 := by
  simp only [uint64OfInt]
  omega

theorem wrapLong_natAbs (v : Int) : (wrapLong v).natAbs <= 9223372036854775808 := by
  simp only [wrapLong]
  omega

/-- An unsigned integer comes back from its signed form. -/
theorem uint64OfInt_wrapLong {n : Nat} (h : n < 18446744073709551616) :
    uint64OfInt (wrapLong n) = n := by
  simp only [uint64OfInt, wrapLong]
  omega

theorem space_isSpace : forall c, c ∈ [(32 : UInt8)] -> isSpace c = true := by
  intro c hc
  rw [List.mem_singleton.mp hc]
  decide

theorem stops_space {accepts : UInt8 -> Bool} (h : accepts 32 = false) (rest : List UInt8) :
    Stops accepts ([32] ++ rest) := stops_cons h rest

section Conversions

variable {s t : CStr} {ws : List UInt8}

theorem scanInt_eq (s : CStr) : scanInt s =
    if ((signOf (s.dropWhile isSpace)).2.takeWhile isDigit).strlen = 0 then none
    else
      let v : Int := digitsValue ((signOf (s.dropWhile isSpace)).2.takeWhile isDigit).bytes
      some (wrapInt (clampLong (if (signOf (s.dropWhile isSpace)).1 then -v else v)),
        (signOf (s.dropWhile isSpace)).2.dropWhile isDigit) := rfl

theorem signOf_format {v : Int} (hs : s.bytes = formatInt v ++ t.bytes) :
    exists u, signOf s = (decide (v < 0), u) ∧ u.bytes = formatNat v.natAbs ++ t.bytes := by
  rw [formatInt] at hs
  by_cases hv : v < 0
  · rw [if_pos hv] at hs
    refine ⟨s.tail, ?_, ?_⟩
    · rw [signOf, hs]
      simp [hv]
    · rw [CStr.bytes_tail, hs]
      rfl
  · rw [if_neg hv] at hs
    rcases formatNat_start v.natAbs t.bytes with ⟨c, tail, hstart, hdigit⟩
    refine ⟨s, ?_, hs⟩
    rw [signOf, hs, hstart]
    split
    · rename_i heq
      cases heq
      exact absurd hdigit (by decide)
    · rename_i heq
      cases heq
      exact absurd hdigit (by decide)
    · simp [hv]

/-- The sign and the digits of a number that was written with `%d` or `%ld`. -/
theorem signOf_skip {v : Int} (hs : s.bytes = ws ++ (formatInt v ++ t.bytes))
    (hws : forall c, c ∈ ws -> isSpace c = true) :
    exists u, signOf (s.dropWhile isSpace) = (decide (v < 0), u) ∧
      u.bytes = formatNat v.natAbs ++ t.bytes := by
  refine signOf_format ?_
  rw [CStr.bytes_dropWhile, hs]
  exact dropWhile_stops hws (formatInt_stops v _)

/-- The digits that `%d` reads, before the rest of the string. -/
theorem scanInt_parts {v : Int} (h : scanInt s = some (v, t)) :
    exists start digits, s.bytes = start ++ (digits ++ t.bytes) ∧ digits ≠ [] ∧
      (forall c, c ∈ digits -> isDigit c = true) ∧ Stops isDigit t.bytes := by
  have hsign : forall u : CStr, exists sign, u.bytes = sign ++ (signOf u).2.bytes := by
    intro u
    rw [signOf]
    split
    · rename_i rest hu
      exact ⟨[45], by rw [CStr.bytes_tail, hu]; rfl⟩
    · rename_i rest hu
      exact ⟨[43], by rw [CStr.bytes_tail, hu]; rfl⟩
    · exact ⟨[], rfl⟩
  rcases hsign (s.dropWhile isSpace) with ⟨sign, hsplit⟩
  rw [scanInt_eq] at h
  by_cases hempty : ((signOf (s.dropWhile isSpace)).2.takeWhile isDigit).strlen = 0
  · rw [if_pos hempty] at h
    cases h
  · rw [if_neg hempty] at h
    cases h
    refine ⟨s.bytes.takeWhile isSpace ++ sign,
      ((signOf (s.dropWhile isSpace)).2.takeWhile isDigit).bytes, ?_, ?_, ?_, ?_⟩
    · rw [CStr.bytes_takeWhile, CStr.bytes_dropWhile, List.takeWhile_append_dropWhile,
        List.append_assoc, ← hsplit, CStr.bytes_dropWhile, List.takeWhile_append_dropWhile]
    · exact fun hnil => hempty (congrArg List.length hnil)
    · exact fun c hc => List.mem_takeWhile_imp hc
    · exact stops_dropWhile isDigit _

theorem signed_natAbs (v : Int) :
    (if decide (v < 0) = true then -(v.natAbs : Int) else v.natAbs) = v := by
  by_cases hv : v < 0
  · simp only [hv, decide_true, if_true]
    omega
  · simp only [hv, decide_false, Bool.false_eq_true, if_false]
    omega

theorem formatNat_length_ne_zero (n : Nat) : ¬ (formatNat n).length = 0 := by
  rw [List.length_eq_zero_iff]
  exact formatNat_ne_nil n

/-- `%d` reads what `%d` wrote. -/
theorem scanInt_format {v : Int} (hs : s.bytes = ws ++ (formatInt v ++ t.bytes))
    (hws : forall c, c ∈ ws -> isSpace c = true) (hlow : -2147483648 <= v)
    (hhigh : v < 2147483648) (hstop : Stops isDigit t.bytes) : scanInt s = some (v, t) := by
  have hdigits := formatNat_digits v.natAbs
  have hclamp : wrapInt (clampLong v) = v := by
    simp only [wrapInt, clampLong]
    omega
  rcases signOf_skip hs hws with ⟨u, hsign, hu⟩
  rw [scanInt_eq, hsign]
  simp only [CStr.strlen, CStr.takeWhile_eq hu hdigits hstop, CStr.dropWhile_eq hu hdigits hstop,
    if_neg (formatNat_length_ne_zero _), digitsValue_formatNat, signed_natAbs, hclamp]

/-- `%lu` reads the unsigned integer that `%ld` wrote as a signed one. -/
theorem scanULong_format {v : Int} (hs : s.bytes = ws ++ (formatInt v ++ t.bytes))
    (hws : forall c, c ∈ ws -> isSpace c = true) (hrange : v.natAbs <= 18446744073709551615)
    (hstop : Stops isDigit t.bytes) : scanULong s = some (uint64OfInt v, t) := by
  have hdigits := formatNat_digits v.natAbs
  rcases signOf_skip hs hws with ⟨u, hsign, hu⟩
  rw [scanULong, hsign]
  simp only [CStr.strlen, CStr.takeWhile_eq hu hdigits hstop, CStr.dropWhile_eq hu hdigits hstop,
    if_neg (formatNat_length_ne_zero _), digitsValue_formatNat, signed_natAbs,
    if_neg (Nat.not_lt.mpr hrange)]

/-- `%s` reads a word. -/
theorem scanWord_word {word : CStr} (hs : s.bytes = ws ++ (word.bytes ++ t.bytes))
    (hws : forall c, c ∈ ws -> isSpace c = true) (hne : word.bytes ≠ [])
    (hword : forall c, c ∈ word.bytes -> isSpace c = false)
    (hstop : Stops (fun c => !isSpace c) t.bytes) : scanWord s = some (word, t) := by
  have hall : forall c, c ∈ word.bytes -> (!isSpace c) = true := by
    intro c hc
    rw [hword c hc]
    rfl
  have hstarts : Stops isSpace (word.bytes ++ t.bytes) := by
    refine Stops.append (fun c rest heq => hword c ?_) hne t.bytes
    rw [heq]
    exact List.mem_cons_self
  have hdrop : (s.dropWhile isSpace).bytes = word.bytes ++ t.bytes := by
    rw [CStr.bytes_dropWhile, hs]
    exact dropWhile_stops hws hstarts
  have htake : (s.dropWhile isSpace).takeWhile (fun c => !isSpace c) = word :=
    CStr.ext (CStr.takeWhile_eq hdrop hall hstop)
  have hlength : ¬ word.strlen = 0 := by
    rw [CStr.strlen, List.length_eq_zero_iff]
    exact hne
  rw [scanWord]
  simp only [htake, if_neg hlength, CStr.dropWhile_eq hdrop hall hstop]

/-- No byte of the string is white space. -/
def NoSpace (s : CStr) : Prop := forall c, c ∈ s.bytes -> isSpace c = false

theorem noSpace_of_all (h : (s.bytes.all fun c => !isSpace c) = true) : NoSpace s := by
  intro c hc
  have hc := List.all_eq_true.mp h c hc
  simpa using hc

theorem noSpace_takeWhile (s : CStr) : NoSpace (s.takeWhile fun c => !isSpace c) := by
  intro c hc
  have hc := List.mem_takeWhile_imp hc
  simpa using hc

/-- A word is not empty and holds no white space. -/
theorem scanWord_noSpace {word : CStr} (h : scanWord s = some (word, t)) :
    word.strlen ≠ 0 ∧ NoSpace word := by
  rw [scanWord] at h
  by_cases hempty : ((s.dropWhile isSpace).takeWhile fun c => !isSpace c).strlen = 0
  · simp only [if_pos hempty] at h
    cases h
  · simp only [if_neg hempty] at h
    cases h
    exact ⟨hempty, noSpace_takeWhile _⟩

/-- What follows a prefix of a string is a string. -/
theorem CStr.exists_suffix {xs ys : List UInt8} (hs : s.bytes = xs ++ ys) :
    exists u : CStr, u.bytes = ys :=
  ⟨⟨ys, fun hmem => s.noNul (hs ▸ List.mem_append_right xs hmem)⟩, rfl⟩

/-- `%d` before a space reads the integer and stops at the space. -/
theorem scanInt_field {v : Int} {rest : List UInt8}
    (hs : s.bytes = ws ++ (formatInt v ++ ([32] ++ rest)))
    (hws : forall c, c ∈ ws -> isSpace c = true) (hlow : -2147483648 <= v)
    (hhigh : v < 2147483648) :
    exists t, scanInt s = some (v, t) ∧ t.bytes = [32] ++ rest := by
  rw [← List.append_assoc] at hs
  rcases CStr.exists_suffix hs with ⟨t, ht⟩
  rw [← ht, List.append_assoc] at hs
  refine ⟨t, scanInt_format hs hws hlow hhigh ?_, ht⟩
  rw [ht]
  exact stops_space (by decide) _

/-- `%s` before a space reads the word and stops at the space. -/
theorem scanWord_field {word : CStr} {rest : List UInt8}
    (hs : s.bytes = ws ++ (word.bytes ++ ([32] ++ rest)))
    (hws : forall c, c ∈ ws -> isSpace c = true) (hne : word.bytes ≠ [])
    (hword : forall c, c ∈ word.bytes -> isSpace c = false) :
    exists t, scanWord s = some (word, t) ∧ t.bytes = [32] ++ rest := by
  rw [← List.append_assoc] at hs
  rcases CStr.exists_suffix hs with ⟨t, ht⟩
  rw [← ht, List.append_assoc] at hs
  refine ⟨t, scanWord_word hs hws hne hword ?_, ht⟩
  rw [ht]
  exact stops_space (by decide) _

/-- `%[^\n]` reads a line. -/
theorem scanLine_line {line : CStr} (hs : s.bytes = line.bytes ++ t.bytes)
    (hne : line.strlen ≠ 0) (hline : 10 ∉ line.bytes) (hstop : Stops (· != 10) t.bytes) :
    scanLine s = some (line, t) := by
  have hall : forall c, c ∈ line.bytes -> (c != 10) = true := by
    intro c hc
    rw [bne_iff_ne]
    exact fun heq => hline (heq ▸ hc)
  have htake : s.takeWhile (· != 10) = line := CStr.ext (CStr.takeWhile_eq hs hall hstop)
  rw [scanLine, htake, if_neg hne, CStr.dropWhile_eq hs hall hstop]

end Conversions

end Library
end TecnicoFs
