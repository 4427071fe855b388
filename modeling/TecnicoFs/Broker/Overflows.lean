import TecnicoFs.Broker.Sessions

/-!
# Messages that outgrow their array

The message of a turn that finds no text is the one of the turn before, and each turn
puts one more space behind it.  So its length depends on the whole history of reads: it
is the length of the last text and the number of turns since.
-/

namespace TecnicoFs
namespace Broker

open Library

/-- After the scan, and with the space behind it, the message fits its array. -/
def MessageFits (s : Session) (read : Chunk) : Prop :=
  exists line, scanned read s = .ok line ∧ line.strlen < msize ∧
    (line.strlen ≠ 0 -> (line.strcat space).strlen < msize)

/-- The texts that the scans of a session find.  The first scan looks at what was in the
buffer before, the others find it cleared. -/
def textsOf (buffer : List UInt8) : List Chunk -> List (Option CStr)
  | [] => []
  | read :: reads =>
      messageIn (CStr.ofBuffer (afterRead read buffer)) ::
        reads.map fun read => messageIn (ownText read)

/-- The first scan finds the end of its string.  If it also finds a text, then each text,
a space for its turn, one for each turn without a text that follows, and the terminator
fit the array. -/
structure StaysShort (buffer : List UInt8) (reads : List Chunk) : Prop where
  terminated : forall read rest, reads = read :: rest -> 0 ∈ afterRead read buffer
  short : forall text rest, textsOf buffer reads = some text :: rest ->
    forall pre text k post,
      textsOf buffer reads = pre ++ some text :: (List.replicate k none ++ post) ->
      text.strlen + k + 2 <= msize

/-!
## Lengths
-/

/-- No message gets too long when the one before has length `n`. -/
def ShortFrom : (n : Nat) -> List (Option CStr) -> Prop
  | _, [] => True
  | n, none :: texts => n + 2 <= msize ∧ ShortFrom (n + 1) texts
  | _, some text :: texts => text.strlen + 2 <= msize ∧ ShortFrom (text.strlen + 1) texts

/-- Each text fits with the turns without one behind it. -/
def TextsFit (texts : List (Option CStr)) : Prop :=
  forall pre text k post, texts = pre ++ some text :: (List.replicate k none ++ post) ->
    text.strlen + k + 2 <= msize

/-- So does a message of length `n` from before. -/
def PrefixFits (n : Nat) (texts : List (Option CStr)) : Prop :=
  forall k post, texts = List.replicate k none ++ post -> k ≠ 0 -> n + k + 1 <= msize

theorem prefixFits_none {n : Nat} {texts : List (Option CStr)} :
    PrefixFits n (none :: texts) <-> n + 2 <= msize ∧ PrefixFits (n + 1) texts := by
  constructor
  · intro h
    refine ⟨h 1 texts rfl (by decide), fun k post heq _ => ?_⟩
    have hnext := h (k + 1) post (by rw [heq, List.replicate_succ, List.cons_append])
      (Nat.succ_ne_zero k)
    omega
  · rintro ⟨hfirst, hrest⟩ k post heq hk
    cases k with
    | zero => exact absurd rfl hk
    | succ k =>
        rw [List.replicate_succ, List.cons_append] at heq
        by_cases hzero : k = 0
        · rw [hzero]
          exact hfirst
        · have hnext := hrest k post (List.cons.inj heq).right hzero
          omega

theorem prefixFits_some (n : Nat) (text : CStr) (texts : List (Option CStr)) :
    PrefixFits n (some text :: texts) := by
  intro k post heq hk
  cases k with
  | zero => exact absurd rfl hk
  | succ k =>
      rw [List.replicate_succ, List.cons_append] at heq
      cases (List.cons.inj heq).left

theorem textsFit_none {texts : List (Option CStr)} :
    TextsFit (none :: texts) <-> TextsFit texts := by
  constructor
  · intro h pre text k post heq
    exact h (none :: pre) text k post (by rw [heq]; rfl)
  · intro h pre text k post heq
    cases pre with
    | nil => cases (List.cons.inj heq).left
    | cons first pre => exact h pre text k post (List.cons.inj heq).right

theorem textsFit_some {text : CStr} {texts : List (Option CStr)} :
    TextsFit (some text :: texts) <->
      text.strlen + 2 <= msize ∧ PrefixFits (text.strlen + 1) texts ∧ TextsFit texts := by
  constructor
  · intro h
    refine ⟨h [] text 0 texts rfl, fun k post heq _ => ?_, fun pre text' k post heq => ?_⟩
    · have hfits := h [] text k post (by rw [heq]; rfl)
      omega
    · exact h (some text :: pre) text' k post (by rw [heq]; rfl)
  · rintro ⟨hfirst, hstart, hrest⟩ pre text' k post heq
    cases pre with
    | nil =>
        rcases List.cons.inj heq with ⟨htext, htexts⟩
        rw [← Option.some.inj htext]
        by_cases hzero : k = 0
        · rw [hzero]
          exact hfirst
        · have hfits := hstart k post htexts hzero
          omega
    | cons first pre => exact hrest pre text' k post (List.cons.inj heq).right

/-- The bound of every turn in terms of the texts. -/
theorem shortFrom_iff (n : Nat) (texts : List (Option CStr)) :
    ShortFrom n texts <-> PrefixFits n texts ∧ TextsFit texts := by
  induction texts generalizing n with
  | nil =>
      refine ⟨fun _ => ⟨fun k post heq hk => ?_, fun pre text k post heq => ?_⟩, fun _ => trivial⟩
      · have hlength := congrArg List.length heq
        simp only [List.length_nil, List.length_append, List.length_replicate] at hlength
        omega
      · exact absurd heq (by simp)
  | cons text texts ih =>
      cases text with
      | none => rw [ShortFrom, ih, prefixFits_none, textsFit_none, and_assoc]
      | some text =>
          have hstart := prefixFits_some n text texts
          rw [ShortFrom, ih, textsFit_some]
          exact ⟨fun h => ⟨hstart, h⟩, fun h => h.right⟩

/-!
## Turns

No write to the open file of a session ends the loop: without a free block it returns -1,
which becomes 0.
-/

section Turns

variable {fs fs' : Fs} {held : CStr} {content : List UInt8} {s : Session} {read : Chunk}
  {line : CStr}

theorem AtEnd.writes (h : AtEnd fs held content) {message : List UInt8}
    (hlength : message.length < msize) :
    exists (r : Int) (fs' : Fs) (content' : List UInt8),
      tfsWrite 0 message message.length fs = .ok (r, fs') ∧ -1 <= r ∧ AtEnd fs' held content' := by
  by_cases hroom : HasRoom fs content
  · rcases h.write hlength hroom with ⟨r, fs', hwrite, hr, hend, _⟩
    exact ⟨r, fs', _, hwrite, by omega, hend⟩
  · rcases not_or.mp hroom with ⟨hempty, hfull⟩
    have hcontent : content = [] := not_not.mp hempty
    rcases h.busy.steady.inv with ⟨made, hinv⟩
    rcases h.record with ⟨i, k, inode, hlisted, hopen, hinode, hbytes⟩
    have hsize : inode.iSize = 0 := by
      rw [← inodeBytes_length inode, hbytes, hcontent]
      rfl
    have hnowhere : NowhereAt fs.freeBlocks fs.dataBlocks .free := by
      rcases firstAt_or_nowhereAt fs.freeBlocks .free
        (Nat.le_of_eq hinv.layout.blockCells.symm) with ⟨b, hfirst⟩ | hnone
      · exact absurd ⟨b, hfirst.right.left⟩ hfull
      · exact hnone
    by_cases hclip : clippedWrite fs.blockSize content.length message.length = 0
    · have hstep : WriteStep fs 0 message message.length 0 fs := WriteStep.nothing rfl hopen hclip
      exact ⟨0, fs, content, hstep.sound hinv, by decide, h⟩
    · have hstep : WriteStep fs 0 message message.length (-1) fs :=
        WriteStep.noSpace rfl hopen hclip rfl hinode hsize hnowhere
      exact ⟨-1, fs, content, hstep.sound hinv, Int.le_refl _, h⟩

/-- A turn whose message fits leaves it with its space in a cleared buffer. -/
theorem publishTurn_fits (h : AtEnd s.fs held content) (hscan : scanned read s = .ok line)
    (hne : line.strlen ≠ 0) (hfits : line.strlen + 2 <= msize) :
    exists fs' content', AtEnd fs' held content' ∧ publishTurn 0 read s =
      .ok (line.strcat space, ⟨List.replicate bufferSize 0, line.strcat space, fs'⟩) := by
  have hlength : (line.strcat space).strlen = line.strlen + 1 := List.length_append
  have hlong : (line.strcat space).strlen < msize := by omega
  have hbytes : (line.strcat space).bytes.length < msize := hlong
  have hline : line.strlen < msize := by omega
  rcases h.writes hbytes with ⟨r, fs', content', hwrite, hr, hend⟩
  change tfsWrite 0 _ (line.strcat space).strlen s.fs = _ at hwrite
  have hbreak : ¬ r + 1 < 0 := by omega
  refine ⟨fs', content', hend, ?_⟩
  rw [publishTurn, hscan, ok_bind, fitsMessage, if_pos hline]
  simp only [Except.mapError, ok_bind, if_neg hne, fitsMessage, if_pos hlong, hwrite, ofFs_ok,
    if_neg hbreak, pure_ok]

theorem messageFits_iff (hscan : scanned read s = .ok line) (hne : line.strlen ≠ 0) :
    MessageFits s read <-> line.strlen + 2 <= msize := by
  have hlength : (line.strcat space).strlen = line.strlen + 1 := List.length_append
  constructor
  · rintro ⟨line', hline', _, hfits⟩
    rw [hscan] at hline'
    cases hline'
    have hlong := hfits hne
    omega
  · intro hfits
    exact ⟨line, hscan, by omega, fun _ => by omega⟩

/-- A turn on a message that is not empty, with the turns that follow it. -/
theorem everyTurn_cons {reads : List Chunk} {P : Prop} (h : AtEnd s.fs held content)
    (hscan : scanned read s = .ok line) (hne : line.strlen ≠ 0)
    (hrest : forall {fs' content'}, AtEnd fs' held content' ->
      (EveryCall (publishTurn 0) MessageFits reads
        ⟨List.replicate bufferSize 0, line.strcat space, fs'⟩ <-> P)) :
    EveryCall (publishTurn 0) MessageFits (read :: reads) s <->
      line.strlen + 2 <= msize ∧ P := by
  rw [EveryCall, messageFits_iff hscan hne]
  refine and_congr_right fun hfits => ?_
  rcases publishTurn_fits h hscan hne hfits with ⟨fs', content', hend, hturn⟩
  rw [← hrest hend]
  constructor
  · intro hevery
    exact hevery _ _ hturn
  · intro hevery message s' hstep
    rw [hturn] at hstep
    cases hstep
    exact hevery

/-- Behind the first turn the message is not empty and the buffer is cleared. -/
theorem everyTurn_iff (h : AtEnd s.fs held content) {reads : List Chunk}
    (hbuffer : s.buffer = List.replicate bufferSize 0) (hne : s.message.strlen ≠ 0) :
    EveryCall (publishTurn 0) MessageFits reads s <->
      ShortFrom s.message.strlen (reads.map fun read => messageIn (ownText read)) := by
  induction reads generalizing s content with
  | nil => exact Iff.rfl
  | cons read reads ih =>
      have hclear := undisturbed_cleared read
      rw [← hbuffer] at hclear
      rcases hclear with ⟨hmem, hown⟩
      have hlength : forall line : CStr, (line.strcat space).strlen = line.strlen + 1 :=
        fun line => List.length_append
      have hnext : forall {line : CStr} {fs' content'}, AtEnd fs' held content' ->
          (EveryCall (publishTurn 0) MessageFits reads
            ⟨List.replicate bufferSize 0, line.strcat space, fs'⟩ <->
              ShortFrom (line.strlen + 1) (reads.map fun read => messageIn (ownText read))) := by
        intro line fs' content' hend
        rw [← hlength line]
        exact ih hend rfl (by rw [hlength]; omega)
      rw [List.map_cons]
      cases htext : messageIn (ownText read) with
      | none =>
          have hscan : scanned read s = .ok s.message :=
            scanned_eq_ok.mpr ⟨hmem, by rw [hown, htext]; rfl⟩
          exact everyTurn_cons h hscan hne hnext
      | some text =>
          have hscan : scanned read s = .ok text :=
            scanned_eq_ok.mpr ⟨hmem, by rw [hown, htext]; rfl⟩
          exact everyTurn_cons h hscan (messageIn_ne htext) hnext

theorem everyTurn_next (h : AtEnd fs held content) (line : CStr) (reads : List Chunk) :
    EveryCall (publishTurn 0) MessageFits reads
        ⟨List.replicate bufferSize 0, line.strcat space, fs⟩ <->
      ShortFrom (line.strlen + 1) (reads.map fun read => messageIn (ownText read)) := by
  have hlength : (line.strcat space).strlen = line.strlen + 1 := List.length_append
  have hne : (line.strcat space).strlen ≠ 0 := by omega
  rw [← hlength]
  exact everyTurn_iff (s := ⟨List.replicate bufferSize 0, line.strcat space, fs⟩) h rfl hne

/-- The turns of a session: without a first text it ends at once. -/
theorem everyFits_iff (h : AtEnd fs held content) (buffer : List UInt8) (reads : List Chunk) :
    EveryCall (publishTurn 0) MessageFits reads ⟨buffer, emptyStr, fs⟩ <->
      StaysShort buffer reads := by
  cases reads with
  | nil =>
      refine ⟨fun _ => ⟨fun read rest heq => ?_, fun text rest heq => ?_⟩, fun _ => trivial⟩
      · cases heq
      · cases heq
  | cons read reads =>
      by_cases hmem : 0 ∈ afterRead read buffer
      · have hterminated : forall first rest, read :: reads = first :: rest ->
            0 ∈ afterRead first buffer := by
          intro first rest heq
          rw [← (List.cons.inj heq).left]
          exact hmem
        cases htext : messageIn (CStr.ofBuffer (afterRead read buffer)) with
        | none =>
            have hscan : scanned read ⟨buffer, emptyStr, fs⟩ = .ok emptyStr :=
              scanned_eq_ok.mpr ⟨hmem, by rw [htext]; rfl⟩
            constructor
            · intro _
              refine ⟨hterminated, fun text rest heq => ?_⟩
              rw [textsOf, htext] at heq
              cases (List.cons.inj heq).left
            · intro _
              refine ⟨⟨emptyStr, hscan, by decide, fun hne => absurd rfl hne⟩, ?_⟩
              intro message s' hturn
              rw [publishTurn_empty hscan] at hturn
              cases hturn
        | some text =>
            have hscan : scanned read ⟨buffer, emptyStr, fs⟩ = .ok text :=
              scanned_eq_ok.mpr ⟨hmem, by rw [htext]; rfl⟩
            rw [everyTurn_cons h hscan (messageIn_ne htext) fun hend =>
              everyTurn_next hend text reads]
            have hfits := @textsFit_some text (reads.map fun read => messageIn (ownText read))
            rw [shortFrom_iff, ← hfits]
            constructor
            · intro hall
              refine ⟨hterminated, fun _ _ _ => ?_⟩
              rw [textsOf, htext]
              exact hall
            · intro hshort
              have hall := hshort.short text _ (by rw [textsOf, htext])
              rw [textsOf, htext] at hall
              exact hall
      · constructor
        · rintro ⟨⟨line, hscan, _⟩, _⟩
          exact absurd (scanned_eq_ok.mp hscan).left hmem
        · intro hshort
          exact absurd (hshort.terminated read reads rfl) hmem

/-- The turn ends the process, or leaves what happens next undefined. -/
def IsStop (e : TurnEnd) : Prop := exists stop, e = .stop stop

/-- A message that does not fit stops its turn, and nothing else does. -/
theorem messageFits_iff_turn (h : AtEnd s.fs held content) :
    MessageFits s read <-> forall e, publishTurn 0 read s = .error e -> ¬ IsStop e := by
  cases hscan : scanned read s with
  | error stop =>
      have hturn : publishTurn 0 read s = .error (.stop stop) := by
        rw [publishTurn, hscan]
        rfl
      constructor
      · rintro ⟨line, hline, _⟩
        rw [hscan] at hline
        cases hline
      · intro hnot
        exact absurd ⟨stop, rfl⟩ (hnot _ hturn)
  | ok line =>
      by_cases hempty : line.strlen = 0
      · have hline : line = emptyStr := CStr.ext (List.length_eq_zero_iff.mp hempty)
        rw [hline] at hscan
        refine ⟨fun _ e hturn => ?_, fun _ => ⟨emptyStr, hscan, by decide, fun hne => ?_⟩⟩
        · rw [publishTurn_empty hscan] at hturn
          cases hturn
          rintro ⟨_, ⟨⟩⟩
        · exact absurd rfl hne
      · rw [messageFits_iff hscan hempty]
        constructor
        · intro hfits e hturn
          rcases publishTurn_fits h hscan hempty hfits with ⟨_, _, _, hok⟩
          rw [hok] at hturn
          cases hturn
        · intro hnot
          have hlength : (line.strcat space).strlen = line.strlen + 1 := List.length_append
          by_contra hlong
          have hturn : publishTurn 0 read s = .error (.stop .overflow) := by
            rw [publishTurn, hscan, ok_bind, fitsMessage]
            by_cases hline : line.strlen < msize
            · have hspace : ¬ (line.strcat space).strlen < msize := by omega
              simp only [if_pos hline, Except.mapError, ok_bind, if_neg hempty, fitsMessage,
                if_neg hspace]
              rfl
            · rw [if_neg hline]
              rfl
          exact absurd ⟨_, rfl⟩ (hnot _ hturn)

/-- A turn leaves the file open at its end. -/
theorem AtEnd.turn {s' : Session} (h : AtEnd s.fs held content)
    (hturn : publishTurn 0 read s = .ok (line, s')) :
    exists content', AtEnd s'.fs held content' := by
  rcases publishTurn_ok hturn with ⟨_, r, _, _, _, hlt, hwrite, _, _⟩
  rcases h.writes hlt with ⟨r', fs', content', hwrite', _, hend⟩
  change tfsWrite 0 _ line.strlen s.fs = _ at hwrite'
  rw [hwrite] at hwrite'
  cases hwrite'
  exact ⟨content', hend⟩

/-- The loop of a session ends exactly when all its messages fit. -/
theorem publishLoop_ok_iff (h : AtEnd fs held content) (buffer : List UInt8)
    (reads : List Chunk) :
    (exists fs', publishLoop 0 reads buffer emptyStr fs = .ok fs') <-> StaysShort buffer reads := by
  have hturns : EveryCall (publishTurn 0) MessageFits reads ⟨buffer, emptyStr, fs⟩ <->
      EveryCall (publishTurn 0)
        (fun s read => forall e, publishTurn 0 read s = .error e -> ¬ IsStop e) reads
        ⟨buffer, emptyStr, fs⟩ := by
    apply everyCall_iff (P := fun s => exists content, AtEnd s.fs held content)
    · rintro s read ⟨content, hend⟩
      exact messageFits_iff_turn hend
    · rintro s read message s' ⟨content, hend⟩ _ hturn
      exact hend.turn hturn
    · exact ⟨content, h⟩
  rw [← everyFits_iff h, hturns, ← run_avoids_iff,
    publishLoop_run 0 reads ⟨buffer, emptyStr, fs⟩]
  cases run (publishTurn 0) reads ⟨buffer, emptyStr, fs⟩ with
  | ok result =>
      refine ⟨fun _ e herror => ?_, fun _ => ⟨_, rfl⟩⟩
      cases herror
  | error e =>
      cases e with
      | stop stop =>
          refine ⟨?_, fun hnot => absurd ⟨stop, rfl⟩ (hnot _ rfl)⟩
          rintro ⟨_, ⟨⟩⟩
      | done fs' =>
          refine ⟨fun _ e herror => ?_, fun _ => ⟨fs', rfl⟩⟩
          cases herror
          rintro ⟨_, ⟨⟩⟩

/-- The file of a session that has been opened. -/
theorem opened_atEnd {b : State} (hreach : Reachable b) {name : CStr} {fh : Int}
    (hopen : tfsOpen (some name) tfsOAppend b.fs = .ok (fh, fs)) (hfh : fh ≠ -1) :
    fh = 0 ∧ exists content, AtEnd fs (skipSlash (some name)) content := by
  have hidle := hreach.idle
  by_cases hnamed : validPathname (some name) = true ∧ Named b.fs (skipSlash (some name))
  · rcases hnamed with ⟨hvalid, i, k, hlisted⟩
    rcases hidle.steady.inv with ⟨made, hinv⟩
    rcases hinv.inode_of_listed hlisted with ⟨_, _, _, inode, hinode, _⟩
    rcases AtEnd.of_open hidle hreach.fullData hvalid hlisted hinode with ⟨fs', hopen', _, hend⟩
    rw [hopen] at hopen'
    cases hopen'
    exact ⟨rfl, _, hend⟩
  · have habsent : tfsOpen (some name) tfsOAppend b.fs = .ok (-1, b.fs) :=
      open_absent hidle.steady fun hvalid hname => hnamed ⟨hvalid, hname⟩
    rw [hopen] at habsent
    cases habsent
    exact absurd rfl hfh

end Turns

/-- The message of a publisher's session never outgrows its array exactly when each text
leaves room for the turns without one that follow it. -/
theorem neverOverflows_iff {b : State} (hreach : Reachable b) {name : CStr} {fh : Int} {fs : Fs}
    (hopen : tfsOpen (some name) tfsOAppend b.fs = .ok (fh, fs)) (hfh : fh ≠ -1)
    (buffer : List UInt8) (reads : List Chunk) :
    EveryCall (publishTurn fh) MessageFits reads ⟨buffer, emptyStr, fs⟩ <->
      StaysShort buffer reads := by
  rcases opened_atEnd hreach hopen hfh with ⟨hzero, content, hend⟩
  rw [hzero]
  exact everyFits_iff hend buffer reads

/-- The reads of a publisher's line of 1023 bytes: the last one comes by itself. -/
def longChunk : Chunk :=
  ⟨ascii "9 " ++ List.replicate 1022 97, by decide +kernel, by decide +kernel⟩

def restChunk : Chunk := ⟨[97, 0], by decide, by decide⟩

/-- The file system with {lit}`/a` open for a session. -/
def openedA : Fs :=
  match tfsOpen (some argsA.boxName.str) tfsOAppend (stateAfter [createA]).fs with
  | .ok (_, fs) => fs
  | .error _ => (stateAfter [createA]).fs

theorem openedA_eq : tfsOpen (some argsA.boxName.str) tfsOAppend (stateAfter [createA]).fs =
    .ok (0, openedA) := by
  have hfh : (tfsOpen (some argsA.boxName.str) tfsOAppend (stateAfter [createA]).fs).toOption.map
      Prod.fst = some 0 := by decide +kernel
  unfold openedA
  cases hopen : tfsOpen (some argsA.boxName.str) tfsOAppend (stateAfter [createA]).fs with
  | error e =>
      rw [hopen] at hfh
      cases hfh
  | ok r =>
      rw [hopen] at hfh
      rw [← Option.some.inj hfh]

/-- The text of the first read and two spaces do not fit. -/
theorem not_staysShort_long :
    ¬ StaysShort (List.replicate bufferSize 0) [longChunk, restChunk] := by
  intro hshort
  have hlong : (messageIn (CStr.ofBuffer
      (afterRead longChunk (List.replicate bufferSize 0)))).map CStr.strlen = some 1022 := by
    decide +kernel
  have hrest : messageIn (ownText restChunk) = none := by decide +kernel
  rcases Option.map_eq_some_iff.mp hlong with ⟨text, htext, hlength⟩
  have htexts : textsOf (List.replicate bufferSize 0) [longChunk, restChunk] =
      [some text, none] := by
    simp only [textsOf, htext, hrest, List.map_cons, List.map_nil]
  have hfits := hshort.short text [none] htexts [] text 1 [] htexts
  rw [hlength] at hfits
  exact absurd hfits (by decide)

theorem overflows_long : ¬ EveryCall (publishTurn 0) MessageFits [longChunk, restChunk]
    ⟨List.replicate bufferSize 0, emptyStr, openedA⟩ := by
  rcases opened_atEnd createdA_reachable.left openedA_eq (by decide) with ⟨_, content, hend⟩
  rw [everyFits_iff hend]
  exact not_staysShort_long

/-- The text {lit}`hi` and two spaces fit. -/
theorem staysShort_hi : StaysShort (List.replicate bufferSize 0) [hiChunk, blankChunk] := by
  refine ⟨fun read rest heq => (undisturbed_cleared read).left, ?_⟩
  have hhi : messageIn (CStr.ofBuffer (afterRead hiChunk (List.replicate bufferSize 0))) =
      some ⟨ascii "hi", by decide⟩ := by decide +kernel
  have hblank : messageIn (ownText blankChunk) = none := by decide +kernel
  have htexts : textsOf (List.replicate bufferSize 0) [hiChunk, blankChunk] =
      [some ⟨ascii "hi", by decide⟩, none] := by
    simp only [textsOf, hhi, hblank, List.map_cons, List.map_nil]
  have hshort : ShortFrom 0 [some ⟨ascii "hi", by decide⟩, none] :=
    ⟨by decide, by decide, trivial⟩
  rw [htexts]
  intro text rest _
  exact ((shortFrom_iff 0 _).mp hshort).right

/-- A session with a short message and an empty line. -/
theorem neverOverflows_hi : EveryCall (publishTurn 0) MessageFits [hiChunk, blankChunk]
    ⟨List.replicate bufferSize 0, emptyStr, openedA⟩ :=
  (neverOverflows_iff createdA_reachable.left openedA_eq (by decide) _ _).mpr staysShort_hi

end Broker
end TecnicoFs
