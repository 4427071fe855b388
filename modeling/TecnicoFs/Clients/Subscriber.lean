import TecnicoFs.Broker.Sessions
import TecnicoFs.Clients.Manager

/-!
# A subscriber's messages

The broker sends each fragment of a box as one message without a terminator.  The
subscriber takes each read for one message and ends its string behind the bytes of the
read, which is outside the buffer when the read fills it.
-/

namespace TecnicoFs
namespace Clients

open Library
open Broker

/-- The loop of the subscriber over the reads that yield bytes: the lines it prints. -/
def subscriberLoop : List Chunk -> Out (List CStr)
  | [] => pure []
  | read :: reads =>
      if read.bytes.length < msize then
        -- `buf[c] = 0`
        match messageIn (CStr.ofBuffer (read.bytes ++ [0])) with
        | none => subscriberLoop reads
        | some output => do
            let output <- fitsArray msize output
            let lines <- subscriberLoop reads
            pure (output :: lines)
      else .error .overflow

/-- What one {lit}`tfs_read` of a box yields: a text that a scan does not stop in. -/
structure Fragment where
  text : CStr
  nonempty : text.strlen ≠ 0
  starts : Stops isSpace text.bytes
  oneLine : 10 ∉ text.bytes
  fits : text.strlen <= boxSize

/-- What the broker sends for a fragment. -/
def Fragment.message (fragment : Fragment) : List UInt8 :=
  serializeMessage serverSend fragment.text.bytes

/-- The reads divide what the broker sends. -/
def DividesMessages (fragments : List Fragment) (reads : List Chunk) : Prop :=
  (reads.map Chunk.bytes).flatten = fragments.flatMap Fragment.message

/-- The subscriber stays inside its buffer and prints the bytes of the fragments. -/
def Delivered (fragments : List Fragment) (reads : List Chunk) : Prop :=
  exists lines, subscriberLoop reads = .ok lines ∧
    lines.flatMap CStr.bytes = fragments.flatMap fun fragment => fragment.text.bytes

/-- Each message arrives in a read of its own that does not fill the buffer.  Only the
first digit of its code may arrive before the rest. -/
inductive WholeMessages : List Fragment -> List Chunk -> Prop where
  | nil : WholeMessages [] []
  | whole {fragment : Fragment} {fragments : List Fragment} {read : Chunk}
      {reads : List Chunk} : read.bytes = fragment.message -> read.bytes.length < msize ->
      WholeMessages fragments reads -> WholeMessages (fragment :: fragments) (read :: reads)
  | digit {fragment : Fragment} {fragments : List Fragment} {first read : Chunk}
      {reads : List Chunk} : first.bytes = [49] ->
      first.bytes ++ read.bytes = fragment.message -> read.bytes.length < msize ->
      WholeMessages fragments reads ->
      WholeMessages (fragment :: fragments) (first :: read :: reads)

theorem WholeMessages.divides {fragments : List Fragment} {reads : List Chunk}
    (h : WholeMessages fragments reads) : DividesMessages fragments reads := by
  induction h with
  | nil => rfl
  | whole hread _ _ ih =>
      rw [DividesMessages, List.map_cons, List.flatten_cons, List.flatMap_cons, hread]
      exact congrArg _ ih
  | digit _ hread _ _ ih =>
      rw [DividesMessages, List.map_cons, List.map_cons, List.flatten_cons, List.flatten_cons,
        List.flatMap_cons, ← hread, List.append_assoc]
      exact congrArg _ (congrArg _ ih)

/-!
## Scanning a read
-/

section Scanning

variable {text line : CStr} {read : Chunk} {fragment : Fragment}

/-- What a scan takes before the text that it finds. -/
structure Header (header line : List UInt8) : Prop where
  digit : exists c, c ∈ header ∧ isDigit c = true
  ends : forall start c, header = start ++ [c] -> isDigit c = true -> Stops isDigit line
  starts : Stops isSpace line

/-- A digit before the spaces that are skipped ends its number. -/
theorem stops_behind_spaces {start rest before : List UInt8} {c : UInt8}
    (hstop : Stops isDigit rest) (hlast : start ++ rest.takeWhile isSpace = before ++ [c])
    (hdigit : isDigit c = true) : Stops isDigit (rest.dropWhile isSpace) := by
  have hrest := List.takeWhile_append_dropWhile (p := isSpace) (l := rest)
  cases hspaces : rest.takeWhile isSpace with
  | nil =>
      rw [hspaces, List.nil_append] at hrest
      rw [hrest]
      exact hstop
  | cons d spaces =>
      have hgetLast := congrArg List.getLast? hlast
      rw [hspaces, List.getLast?_append_of_ne_nil _ (List.cons_ne_nil d spaces),
        List.getLast?_concat, ← hspaces] at hgetLast
      have hspace := List.mem_takeWhile_imp (List.mem_of_getLast? hgetLast)
      rw [isSpace_of_isDigit hdigit] at hspace
      cases hspace

/-- A text that is found lies behind a header, and ends with its line. -/
theorem messageIn_header (h : messageIn text = some line) :
    exists header tail, text.bytes = header ++ (line.bytes ++ tail) ∧
      Header header line.bytes ∧ Stops (· != 10) tail := by
  rw [messageIn] at h
  cases hscan : scanInt text with
  | none =>
      rw [hscan] at h
      cases h
  | some r =>
      rcases r with ⟨code, rest⟩
      rw [hscan] at h
      simp only [scanLine] at h
      split at h
      · cases h
      · cases h
        rcases scanInt_parts hscan with ⟨start, digits, htext, hdigits, hall, hstop⟩
        have hline := List.takeWhile_append_dropWhile (p := (· != 10))
          (l := rest.bytes.dropWhile isSpace)
        refine ⟨start ++ digits ++ rest.bytes.takeWhile isSpace,
          (rest.bytes.dropWhile isSpace).dropWhile (· != 10), ?_, ⟨?_, ?_, ?_⟩,
          stops_dropWhile _ _⟩
        · simp only [CStr.bytes_takeWhile, CStr.bytes_dropWhile, List.append_assoc]
          rw [hline, List.takeWhile_append_dropWhile, htext]
        · rcases List.exists_mem_of_ne_nil _ hdigits with ⟨c, hc⟩
          exact ⟨c, by simp [hc], hall c hc⟩
        · intro before c hlast hdigit
          have hbehind := stops_behind_spaces hstop hlast hdigit
          rw [← hline] at hbehind
          exact hbehind.of_append
        · have hstarts := stops_dropWhile isSpace rest.bytes
          rw [← hline] at hstarts
          exact hstarts.of_append

/-- The text that is found in a read is shorter than the read. -/
theorem messageIn_fits (hlength : read.bytes.length < msize)
    (h : messageIn (CStr.ofBuffer (read.bytes ++ [0])) = some line) :
    fitsArray msize line = .ok line := by
  have htext : (CStr.ofBuffer (read.bytes ++ [0])).bytes.length <= read.bytes.length := by
    by_cases hended : 0 ∈ read.bytes
    · rw [ofBuffer_of_mem hended [0] [], List.append_nil]
      exact (List.takeWhile_sublist _).length_le
    · rw [ofBuffer_eq hended []]
  rcases messageIn_header h with ⟨header, tail, hbytes, _, _⟩
  rw [hbytes, List.length_append, List.length_append] at htext
  refine if_pos ?_
  rw [CStr.strlen]
  omega

/-- A text without a newline ends with the line that is found. -/
theorem messageIn_oneLine (h : messageIn text = some line) (hline : 10 ∉ text.bytes) :
    exists header, text.bytes = header ++ line.bytes ∧ Header header line.bytes := by
  rcases messageIn_header h with ⟨header, tail, hbytes, hheader, hstop⟩
  cases tail with
  | nil => exact ⟨header, by rw [hbytes, List.append_nil], hheader⟩
  | cons c tail =>
      have hc : c = 10 := by simpa using hstop c tail rfl
      rw [hbytes, hc] at hline
      simp at hline

/-- A number and a space before the text of a fragment are its header. -/
theorem messageIn_fragment {code : Int} (hlow : -2147483648 <= code) (hhigh : code < 2147483648)
    (hread : read.bytes = serializeMessage code fragment.text.bytes) :
    messageIn (CStr.ofBuffer (read.bytes ++ [0])) = some fragment.text := by
  have hspace : (0 : UInt8) ≠ 32 := by decide
  have hnoNul : 0 ∉ read.bytes := by
    rw [hread, serializeMessage, List.mem_append, List.mem_append, not_or, not_or,
      List.mem_singleton]
    exact ⟨⟨formatInt_noNul code, hspace⟩, fragment.text.noNul⟩
  have hbytes : (CStr.ofBuffer (read.bytes ++ [0])).bytes =
      [] ++ serializeMessage code (fragment.text.bytes ++ []) := by
    rw [ofBuffer_eq hnoNul [], hread, List.nil_append, List.append_nil]
  exact messageIn_serialize hbytes (fun c hc => absurd hc List.not_mem_nil) hlow hhigh
    fragment.nonempty fragment.starts fragment.oneLine stops_nil

end Scanning

/-!
## The loop
-/

section Loop

variable {fragment : Fragment} {fragments : List Fragment} {read : Chunk} {reads : List Chunk}
  {text line : List UInt8}

/-- The subscriber stays inside its buffer when no read fills it. -/
theorem subscriberLoop_ok_iff (reads : List Chunk) :
    (exists lines, subscriberLoop reads = .ok lines) <->
      forall read, read ∈ reads -> read.bytes.length < msize := by
  induction reads with
  | nil =>
      exact ⟨fun _ read hread => absurd hread List.not_mem_nil, fun _ => ⟨[], rfl⟩⟩
  | cons read reads ih =>
      rw [List.forall_mem_cons, ← ih, subscriberLoop]
      by_cases hlength : read.bytes.length < msize
      · rw [if_pos hlength]
        cases hmessage : messageIn (CStr.ofBuffer (read.bytes ++ [0])) with
        | none => exact ⟨fun hlines => ⟨hlength, hlines⟩, fun h => h.right⟩
        | some line =>
            simp only [messageIn_fits hlength hmessage, ok_bind]
            constructor
            · rintro ⟨lines, hlines⟩
              rcases bind_eq_ok.mp hlines with ⟨rest, hrest, _⟩
              exact ⟨hlength, rest, hrest⟩
            · rintro ⟨_, lines, hlines⟩
              exact ⟨line :: lines, by rw [hlines]; rfl⟩
      · rw [if_neg hlength]
        constructor
        · rintro ⟨lines, hlines⟩
          cases hlines
        · exact fun h => absurd h.left hlength

/-- A turn prints the text that its read delivers. -/
theorem subscriberLoop_message {found : CStr} (hlength : read.bytes.length < msize)
    (hmessage : messageIn (CStr.ofBuffer (read.bytes ++ [0])) = some found) :
    subscriberLoop (read :: reads) = (subscriberLoop reads).map (found :: ·) := by
  rw [subscriberLoop, if_pos hlength, hmessage]
  simp only [messageIn_fits hlength hmessage, ok_bind]
  cases subscriberLoop reads <;> rfl

/-- A turn whose read holds no message prints nothing. -/
theorem subscriberLoop_none (hlength : read.bytes.length < msize)
    (hmessage : messageIn (CStr.ofBuffer (read.bytes ++ [0])) = none) :
    subscriberLoop (read :: reads) = subscriberLoop reads := by
  rw [subscriberLoop, if_pos hlength, hmessage]

theorem Fragment.message_eq (fragment : Fragment) :
    fragment.message = 49 :: 48 :: 32 :: fragment.text.bytes := by
  have hcode : formatInt serverSend = [49, 48] := by decide
  rw [Fragment.message, serializeMessage, hcode]
  rfl

theorem WholeMessages.lines (h : WholeMessages fragments reads) :
    subscriberLoop reads = .ok (fragments.map Fragment.text) := by
  induction h with
  | nil => rfl
  | whole hread hlength _ ih =>
      rw [subscriberLoop_message hlength (messageIn_fragment (by decide) (by decide) hread), ih]
      rfl
  | @digit fragment fragments first read reads hfirst hread hlength _ ih =>
      have hnone : messageIn (CStr.ofBuffer (first.bytes ++ [0])) = none := by
        rw [hfirst]
        decide
      have hrest : read.bytes = serializeMessage 0 fragment.text.bytes := by
        rw [hfirst, Fragment.message_eq] at hread
        exact List.cons.inj hread |>.right
      have hfirst' : first.bytes.length < msize := by
        rw [hfirst]
        decide
      rw [subscriberLoop_none hfirst' hnone,
        subscriberLoop_message hlength (messageIn_fragment (by decide) (by decide) hrest), ih]
      rfl

/-!
## Where a line can start
-/

/-- A text that follows itself by one byte repeats the byte that stands behind it. -/
theorem repeats_of_shift {c d : UInt8} {xs more behind : List UInt8} (hne : xs ≠ [])
    (h : xs ++ d :: more = c :: (xs ++ behind)) : c = d ∧ exists rest, xs = d :: rest := by
  induction xs generalizing c with
  | nil => exact absurd rfl hne
  | cons x xs ih =>
      rcases List.cons.inj h with ⟨hx, htail⟩
      cases xs with
      | nil =>
          have hd := (List.cons.inj htail).left
          rw [← hx, ← hd]
          exact ⟨rfl, [], rfl⟩
      | cons y ys =>
          have hd := (ih (List.cons_ne_nil y ys) htail).left
          rw [← hx, ← hd]
          exact ⟨rfl, y :: ys, rfl⟩

/-- Among the bytes of a message and the first byte of the next one, only the space can
stand directly before the line that a scan finds. -/
theorem header_last {c : UInt8} {j : Nat} {later behind : List UInt8} (hne : line ≠ [])
    (hbytes : (49 :: 48 :: 32 :: (line ++ later)).drop j = c :: (line ++ behind))
    (hends : isDigit c = true -> Stops isDigit line) (hstarts : Stops isSpace line)
    (hj : j <= 3) (hlater : j = 3 -> exists more, later = 49 :: more) : j = 2 := by
  rcases List.exists_cons_of_ne_nil hne with ⟨x, rest, hx⟩
  rcases hj' : j with _ | _ | _ | _ | j
  · rw [hj', hx] at hbytes
    rcases List.cons.inj hbytes with ⟨hc, hbytes⟩
    rw [← (List.cons.inj hbytes).left] at hx
    exact absurd (hends (by rw [← hc]; decide) 48 rest hx) (by decide)
  · rw [hj', hx] at hbytes
    rcases List.cons.inj hbytes with ⟨_, hbytes⟩
    rw [← (List.cons.inj hbytes).left] at hx
    exact absurd (hstarts 32 rest hx) (by decide)
  · rfl
  · rcases hlater hj' with ⟨more, hmore⟩
    rw [hj', hmore] at hbytes
    rcases repeats_of_shift hne hbytes with ⟨hc, rest', hrest'⟩
    exact absurd (hends (by rw [hc]; decide) 49 rest' hrest') (by decide)
  · omega

/-- What follows a line that a scan finds later than it stands in its message. -/
theorem behind_message {c : UInt8} {k : Nat} {later behind : List UInt8}
    (hbytes : (49 :: 48 :: 32 :: (line ++ later)).drop (k + 2) = c :: (line ++ behind)) :
    behind = later.drop k := by
  have hdrop := congrArg (List.drop (line.length + 1)) hbytes
  have hadd : k + 2 + (line.length + 1) = line.length + k + 1 + 1 + 1 := by omega
  rw [List.drop_drop, hadd, List.drop_succ_cons, List.drop_succ_cons, List.drop_succ_cons,
    List.drop_succ_cons, ← List.drop_drop, List.drop_left, List.drop_left] at hdrop
  exact hdrop.symm

/-- Behind the line of a message that starts at most one byte too late, the reads go on
with the next message. -/
theorem header_whole {header behind later : List UInt8} {o : Nat}
    (hstream : header ++ (fragment.text.bytes ++ behind) = (fragment.message ++ later).drop o)
    (hheader : Header header fragment.text.bytes)
    (hlater : later = [] ∨ (exists more, later = 49 :: more) ∧
      forall k, behind = later.drop k -> k <= 1) : o <= 1 ∧ o + header.length = 3 := by
  have hne : fragment.text.bytes ≠ [] := fun hnil =>
    fragment.nonempty (congrArg List.length hnil)
  rcases hheader.digit with ⟨d, hd, hdigit⟩
  rcases List.eq_nil_or_concat header with hnil | ⟨before, c, hlast⟩
  · rw [hnil] at hd
    cases hd
  rw [List.concat_eq_append] at hlast
  have hbytes : (49 :: 48 :: 32 :: (fragment.text.bytes ++ later)).drop (o + before.length) =
      c :: (fragment.text.bytes ++ behind) := by
    have hdrop := congrArg (List.drop before.length) hstream
    rw [hlast, List.append_assoc, List.drop_left, List.drop_drop, Fragment.message_eq] at hdrop
    exact hdrop.symm
  have hj : o + before.length <= 3 ∧
      (o + before.length = 3 -> exists more, later = 49 :: more) := by
    rcases hlater with hnil | ⟨hmore, hshift⟩
    · have hlength := congrArg List.length hbytes
      rw [hnil] at hlength
      simp only [List.length_drop, List.length_cons, List.length_append, List.length_nil]
        at hlength
      exact ⟨by omega, by omega⟩
    · refine ⟨?_, fun _ => hmore⟩
      rcases Nat.lt_or_ge (o + before.length) 2 with hlt | hge
      · omega
      · have hsum : o + before.length = o + before.length - 2 + 2 := by omega
        rw [hsum] at hbytes
        have hk := hshift _ (behind_message hbytes)
        omega
  have hspace := header_last hne hbytes (hheader.ends before c hlast) hheader.starts hj.left
    hj.right
  have hlength : header.length = before.length + 1 := by
    rw [hlast, List.length_append]
    rfl
  refine ⟨?_, by omega⟩
  rcases Nat.lt_or_ge o 2 with hlt | hge
  · omega
  · -- the space alone is no header
    have hbefore : before = [] := List.eq_nil_of_length_eq_zero (by omega)
    rw [hspace] at hbytes
    rw [hlast, hbefore] at hd
    rw [List.mem_singleton.mp hd, ← (List.cons.inj hbytes).left] at hdigit
    cases hdigit

theorem messages_plain {c : UInt8} (hc : c ∈ fragments.flatMap Fragment.message) :
    c ≠ 0 ∧ c ≠ 10 := by
  rcases List.mem_flatMap.mp hc with ⟨fragment, _, hc⟩
  rw [Fragment.message_eq, List.mem_cons, List.mem_cons, List.mem_cons] at hc
  rcases hc with hc | hc | hc | hc
  · rw [hc]
    decide
  · rw [hc]
    decide
  · rw [hc]
    decide
  · exact ⟨fun heq => fragment.text.noNul (heq ▸ hc), fun heq => fragment.oneLine (heq ▸ hc)⟩

/-- What a turn does whose read holds neither a terminator nor a newline. -/
theorem subscriberLoop_cons {lines : List CStr}
    (hplain : forall c, c ∈ read.bytes -> c ≠ 0 ∧ c ≠ 10)
    (h : subscriberLoop (read :: reads) = .ok lines) : read.bytes.length < msize ∧
      (subscriberLoop reads = .ok lines ∨ exists found rest header, lines = found :: rest ∧
        subscriberLoop reads = .ok rest ∧ read.bytes = header ++ found.bytes ∧
        Header header found.bytes) := by
  have hlength := (subscriberLoop_ok_iff (read :: reads)).mp ⟨lines, h⟩ read List.mem_cons_self
  refine ⟨hlength, ?_⟩
  have htext : (CStr.ofBuffer (read.bytes ++ [0])).bytes = read.bytes :=
    ofBuffer_eq (fun hmem => (hplain 0 hmem).left rfl) []
  cases hmessage : messageIn (CStr.ofBuffer (read.bytes ++ [0])) with
  | none =>
      rw [subscriberLoop_none hlength hmessage] at h
      exact Or.inl h
  | some found =>
      rw [subscriberLoop_message hlength hmessage] at h
      rcases messageIn_oneLine hmessage (by
        rw [htext]
        exact fun hmem => (hplain 10 hmem).right rfl) with ⟨header, hbytes, hheader⟩
      rw [htext] at hbytes
      cases hrest : subscriberLoop reads with
      | error e =>
          rw [hrest] at h
          cases h
      | ok rest =>
          rw [hrest] at h
          cases h
          exact Or.inr ⟨found, rest, header, rfl, rfl, hbytes, hheader⟩

/-- Reads that start at most one byte behind the start of a message. -/
def Resumes (o : Nat) (fragments : List Fragment) (reads : List Chunk) : Prop :=
  o = 0 ∧ WholeMessages fragments reads ∨
    o = 1 ∧ forall first : Chunk, first.bytes = [49] -> WholeMessages fragments (first :: reads)

theorem Resumes.le {o : Nat} (h : Resumes o fragments reads) : o <= 1 := by
  rcases h with ⟨ho, _⟩ | ⟨ho, _⟩ <;> omega

theorem Resumes.whole (h : Resumes 0 fragments reads) : WholeMessages fragments reads := by
  rcases h with ⟨_, hwhole⟩ | ⟨ho, _⟩
  · exact hwhole
  · cases ho

/-- A read without a message leaves out the first digit, or the rest does not resume. -/
theorem Resumes.before {o : Nat} (hne : fragments ≠ [])
    (hstream : read.bytes ++ (reads.map Chunk.bytes).flatten =
      (fragments.flatMap Fragment.message).drop o)
    (h : Resumes (o + read.bytes.length) fragments reads) :
    Resumes o fragments (read :: reads) := by
  have hnonempty := read.nonempty
  rcases h with ⟨ho, _⟩ | ⟨ho, hwhole⟩
  · omega
  · have hzero : o = 0 := by omega
    refine Or.inl ⟨hzero, hwhole read ?_⟩
    rcases List.exists_cons_of_ne_nil hne with ⟨fragment, others, hfragments⟩
    rcases List.length_eq_one_iff.mp (show read.bytes.length = 1 by omega) with ⟨c, hc⟩
    rw [hzero, List.drop_zero, hfragments, List.flatMap_cons, Fragment.message_eq, hc] at hstream
    rw [hc, (List.cons.inj hstream).left]

/-- The reads of an empty stream. -/
theorem reads_nil (h : (reads.map Chunk.bytes).flatten = []) : reads = [] := by
  cases reads with
  | nil => rfl
  | cons read reads =>
      have hlength := congrArg List.length h
      rw [List.map_cons, List.flatten_cons, List.length_append, List.length_nil] at hlength
      have hnonempty := read.nonempty
      omega

/-- A read that prints the text of the next fragment holds the rest of its message. -/
theorem Resumes.message {o : Nat} {header : List UInt8} (hlength : read.bytes.length < msize)
    (hbytes : read.bytes = header ++ fragment.text.bytes)
    (hheader : Header header fragment.text.bytes)
    (hstream : read.bytes ++ (reads.map Chunk.bytes).flatten =
      (fragment.message ++ fragments.flatMap Fragment.message).drop o)
    (hlater : forall k, fragments ≠ [] ->
      (reads.map Chunk.bytes).flatten = (fragments.flatMap Fragment.message).drop k ->
      Resumes k fragments reads) : Resumes o (fragment :: fragments) (read :: reads) := by
  have hnext : fragments.flatMap Fragment.message = [] ∨
      (exists more, fragments.flatMap Fragment.message = 49 :: more) ∧
        forall k, (reads.map Chunk.bytes).flatten =
          (fragments.flatMap Fragment.message).drop k -> k <= 1 := by
    cases fragments with
    | nil => exact Or.inl rfl
    | cons next fragments =>
        refine Or.inr ⟨?_, fun k hdrop => (hlater k (List.cons_ne_nil _ _) hdrop).le⟩
        rw [List.flatMap_cons, Fragment.message_eq]
        exact ⟨_, rfl⟩
  have hwhole := hstream
  rw [hbytes, List.append_assoc] at hwhole
  rcases header_whole hwhole hheader hnext with ⟨ho, hsum⟩
  have hmessage : fragment.message.length = 3 + fragment.text.bytes.length := by
    rw [Fragment.message_eq]
    simp only [List.length_cons]
    omega
  rw [List.drop_append_of_le_length (by omega)] at hstream
  rcases List.append_inj hstream (by
    rw [hbytes, List.length_append, List.length_drop]
    omega) with ⟨hread, hrest⟩
  have hothers : WholeMessages fragments reads := by
    cases fragments with
    | nil =>
        rw [reads_nil hrest]
        exact WholeMessages.nil
    | cons next fragments => exact (hlater 0 (List.cons_ne_nil _ _) hrest).whole
  rcases Nat.le_one_iff_eq_zero_or_eq_one.mp ho with hzero | hone
  · rw [hzero, List.drop_zero] at hread
    exact Or.inl ⟨hzero, WholeMessages.whole hread hlength hothers⟩
  · refine Or.inr ⟨hone, fun first hfirst => WholeMessages.digit hfirst ?_ hlength hothers⟩
    rw [hfirst, hread, hone, Fragment.message_eq]
    rfl

/-- If the lines are the fragments, the reads hold whole messages, wherever the first one
starts. -/
theorem resumes_of_lines {o : Nat} (hne : fragments ≠ [])
    (hstream : (reads.map Chunk.bytes).flatten = (fragments.flatMap Fragment.message).drop o)
    (hlines : subscriberLoop reads = .ok (fragments.map Fragment.text)) :
    Resumes o fragments reads := by
  induction reads generalizing fragments o with
  | nil =>
      cases fragments with
      | nil => exact absurd rfl hne
      | cons fragment fragments => cases hlines
  | cons read reads ih =>
      rw [List.map_cons, List.flatten_cons] at hstream
      have hplain : forall c, c ∈ read.bytes -> c ≠ 0 ∧ c ≠ 10 := by
        intro c hc
        have hmem := List.mem_append_left (reads.map Chunk.bytes).flatten hc
        rw [hstream] at hmem
        exact messages_plain (List.mem_of_mem_drop hmem)
      rcases subscriberLoop_cons hplain hlines with
        ⟨hlength, hrest | ⟨found, rest, header, hfound, hrest, hbytes, hheader⟩⟩
      · have hdrop := congrArg (List.drop read.bytes.length) hstream
        rw [List.drop_left, List.drop_drop] at hdrop
        exact (ih hne hdrop hrest).before hne hstream
      · cases fragments with
        | nil => exact absurd rfl hne
        | cons fragment fragments =>
            rcases List.cons.inj hfound with ⟨hfirst, hothers⟩
            rw [← hothers] at hrest
            rw [← hfirst] at hbytes hheader
            exact Resumes.message hlength hbytes hheader hstream fun k hne' hdrop =>
              ih hne' hdrop hrest

end Loop

/-!
## Delivered messages
-/

/-- The subscriber stays inside its buffer exactly when no read fills it.  It prints each
fragment as a line of its own exactly when its reads hold whole messages, and then the
lines make up the fragments. -/
theorem messages_delivered_iff {fragments : List Fragment} {reads : List Chunk}
    (h : DividesMessages fragments reads) :
    ((exists lines, subscriberLoop reads = .ok lines) <->
        forall read, read ∈ reads -> read.bytes.length < msize) ∧
      (subscriberLoop reads = .ok (fragments.map Fragment.text) <->
        WholeMessages fragments reads) ∧
      (WholeMessages fragments reads -> Delivered fragments reads) := by
  refine ⟨subscriberLoop_ok_iff reads, ⟨fun hlines => ?_, WholeMessages.lines⟩, fun hwhole => ?_⟩
  · cases fragments with
    | nil =>
        rw [reads_nil h]
        exact WholeMessages.nil
    | cons fragment fragments =>
        exact (resumes_of_lines (o := 0) (List.cons_ne_nil _ _) h hlines).whole
  · exact ⟨fragments.map Fragment.text, hwhole.lines, by rw [List.flatMap_map]⟩

/-- The fragments {lit}`a` and {lit}`b`. -/
def fragmentA : Fragment :=
  ⟨⟨ascii "a", by decide⟩, by decide, stops_cons (by decide) [], by decide, by decide⟩

def fragmentB : Fragment :=
  ⟨⟨ascii "b", by decide⟩, by decide, stops_cons (by decide) [], by decide, by decide⟩

/-- Both messages in one read. -/
def joinedMessages : Chunk :=
  ⟨fragmentA.message ++ fragmentB.message, by decide, by decide⟩

/-- A fragment whose message has as many bytes as the buffer. -/
def fullFragment : Fragment where
  text := ⟨List.replicate 1021 97, fun hmem =>
    absurd (List.eq_of_mem_replicate hmem) (by decide)⟩
  nonempty := by
    rw [CStr.strlen, List.length_replicate]
    decide
  starts := stops_cons (by decide) (List.replicate 1020 97)
  oneLine := fun hmem => absurd (List.eq_of_mem_replicate hmem) (by decide)
  fits := by
    rw [CStr.strlen, List.length_replicate]
    decide

theorem fullFragment_length : fullFragment.message.length = msize := by
  rw [Fragment.message_eq, List.length_cons, List.length_cons, List.length_cons, fullFragment,
    List.length_replicate]
  rfl

def fullRead : Chunk where
  bytes := fullFragment.message
  nonempty := by
    rw [fullFragment_length]
    decide
  fits := Nat.le_of_eq fullFragment_length

/-- The second of two messages in one read is printed with its code, and a read that fills
the buffer makes the subscriber write behind it. -/
theorem joinedMessages_garbled :
    DividesMessages [fragmentA, fragmentB] [joinedMessages] ∧
      (subscriberLoop [joinedMessages]).toOption.map (List.map CStr.bytes) =
        some [ascii "a10 b"] ∧
      ¬ Delivered [fragmentA, fragmentB] [joinedMessages] ∧
      DividesMessages [fullFragment] [fullRead] ∧
      subscriberLoop [fullRead] = .error .overflow := by
  have hprinted : (subscriberLoop [joinedMessages]).toOption.map (List.map CStr.bytes) =
      some [ascii "a10 b"] := by
    decide +kernel
  refine ⟨by rw [DividesMessages]; simp [joinedMessages], hprinted, ?_, ?_, ?_⟩
  · rintro ⟨lines, hlines, hbytes⟩
    rw [hlines] at hprinted
    rw [List.flatMap_def, Option.some.inj hprinted] at hbytes
    exact absurd hbytes (by decide)
  · rw [DividesMessages]
    simp [fullRead]
  · rw [subscriberLoop, if_neg]
    exact Nat.not_lt.mpr (Nat.le_of_eq fullFragment_length.symm)

/-- The reads {lit}`1`, {lit}`0 a` and {lit}`10 b`. -/
def wholeReads : List Chunk :=
  [⟨[49], by decide, by decide⟩, ⟨48 :: 32 :: ascii "a", by decide, by decide⟩,
    ⟨fragmentB.message, by decide, by decide⟩]

theorem messages_delivered_iff_AB :
    subscriberLoop wholeReads = .ok [fragmentA.text, fragmentB.text] ∧
      Delivered [fragmentA, fragmentB] wholeReads := by
  have hwhole : WholeMessages [fragmentA, fragmentB] wholeReads :=
    WholeMessages.digit rfl (by decide) (by decide)
      (WholeMessages.whole rfl (by decide) WholeMessages.nil)
  rcases messages_delivered_iff hwhole.divides with ⟨_, hlines, hdelivered⟩
  exact ⟨hlines.mpr hwhole, hdelivered hwhole⟩

end Clients
end TecnicoFs
