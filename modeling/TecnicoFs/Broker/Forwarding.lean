import TecnicoFs.Broker.Subscribing

/-!
# What a subscriber's session forwards

A message ends where the buffer has a zero byte.  Behind the first poll that reads
something the whole buffer is zero, so only that poll depends on the bytes that the
buffer had at first.
-/

namespace TecnicoFs
namespace Broker

open Library

/-- What a turn sends for the bytes that it reads: one message, or nothing. -/
def forwarded (data : List UInt8) : List Action :=
  if data = [] then [] else [.sent (serializeMessage serverSend data) true]

/-- The turn sends exactly what it reads. -/
def Forwards (fh : Int) (s : Subscription) (poll : Poll) : Prop :=
  forall b data fs', tfsRead fh msize (poll.others s.fs) = .ok (b, data, fs') -> b ≠ -1 ->
    exists s', pollTurn fh poll s = .ok (.polled b data :: forwarded data, s')

/-- Behind the first bytes that are read the buffer has a zero byte. -/
def EndsFirst (buffer : List UInt8) (results : List (List UInt8)) : Prop :=
  forall pre data post, results = pre ++ data :: post ->
    (forall earlier, earlier ∈ pre -> earlier = []) -> data ≠ [] ->
    buffer[data.length]? = some 0

section Turns

variable {fh b : Int} {data buffer : List UInt8} {fs fs' : Fs} {poll : Poll} {polls : List Poll}
  {s s' : Subscription} {text : CStr} {writes : Nat -> Bool} {fuel n : Nat}

theorem serialized_length (data : List UInt8) :
    (serializeMessage serverSend data).length = data.length + 3 := by
  have hcode : (formatInt serverSend).length = 2 := by decide
  simp only [serializeMessage, List.length_append, hcode, List.length_singleton]
  omega

theorem serializeSend_eq (h : text.strlen <= msize) :
    serializeSend text = .ok (serializeMessage serverSend text.bytes) := by
  have hlength := serialized_length text.bytes
  change text.bytes.length <= msize at h
  rw [serializeSend, if_pos]
  simp only [msize, errorMsg] at h ⊢
  omega

theorem serializeSend_ok {msg : List UInt8} (h : serializeSend text = .ok msg) :
    msg = serializeMessage serverSend text.bytes := by
  unfold serializeSend at h
  split at h
  · cases h
    rfl
  · cases h

/-- A zero byte in the buffer ends the string of what is read before it. -/
theorem bufferText_read (hnul : 0 ∉ data) (hend : buffer[data.length]? = some 0) :
    exists text, bufferText (data ++ buffer.drop data.length) = .ok text ∧ text.bytes = data := by
  have hdrop : buffer.drop data.length = 0 :: buffer.drop (data.length + 1) := by
    rcases List.getElem?_eq_some_iff.mp hend with ⟨hlt, hget⟩
    rw [List.drop_eq_getElem_cons hlt, hget]
  have hmem : 0 ∈ data ++ buffer.drop data.length := by
    rw [hdrop]
    exact List.mem_append_right data List.mem_cons_self
  refine ⟨_, bufferText_mem hmem, ?_⟩
  rw [hdrop]
  exact ofBuffer_eq hnul _

/-- The string of what is read ends with it only at a zero byte. -/
theorem ends_of_text (hlength : data.length < buffer.length)
    (htext : bufferText (data ++ buffer.drop data.length) = .ok text) (heq : text.bytes = data) :
    buffer[data.length]? = some 0 := by
  have hdrop := List.drop_eq_getElem_cons hlength
  unfold bufferText at htext
  split at htext
  · cases htext
    have htake : (data ++ buffer.drop data.length).takeWhile (· != 0) = data := heq
    have hall : forall c, c ∈ data -> (c != 0) = true := by
      intro c hc
      rw [← htake] at hc
      exact List.mem_takeWhile_imp (p := (· != 0)) hc
    rw [List.takeWhile_append_of_pos hall, hdrop, List.takeWhile_cons] at htake
    rw [List.getElem?_eq_getElem hlength]
    by_cases hzero : buffer[data.length] = 0
    · rw [hzero]
    · have hne : (buffer[data.length] != 0) = true := bne_iff_ne.mpr hzero
      rw [if_pos hne] at htake
      have hlong := congrArg List.length htake
      simp at hlong
  · cases htext

/-- The buffer and {lit}`prev` behind a turn that has forwarded what it read. -/
structure After (data : List UInt8) (s s' : Subscription) : Prop where
  prev : s'.prev <= 0
  kept : data = [] -> s'.buffer = s.buffer ∧ s'.prev = 0
  cleared : data ≠ [] -> s'.buffer = List.replicate bufferSize 0

/-- A turn that reads something in front of a zero byte. -/
theorem pollTurn_forwards (hread : tfsRead fh msize (poll.others s.fs) = .ok (b, data, fs'))
    (hb : b ≠ -1) (hprev : s.prev <= 0) (hwrites : poll.writes 0 = true) (hnul : 0 ∉ data)
    (hend : data ≠ [] -> s.buffer[data.length]? = some 0) :
    exists s', pollTurn fh poll s = .ok (.polled b data :: forwarded data, s') ∧
      After data s s' ∧ s'.fs = fs' := by
  rcases tfsRead_lengths hread with ⟨hfailed, _⟩ | ⟨hlength, hshort⟩
  · exact absurd hfailed hb
  · by_cases hempty : data = []
    · have hzero : b = 0 := by
        rw [hlength, hempty]
        rfl
      by_cases hskip : b = s.prev
      · rw [pollTurn_skip hread hb hskip, hempty]
        refine ⟨_, rfl, ⟨hprev, fun _ => ⟨rfl, ?_⟩, fun hne => absurd rfl hne⟩, rfl⟩
        rw [← hskip, hzero]
      · have hdone : b <= 0 := Int.le_of_eq hzero
        rw [pollTurn_eq hread hb hskip, sendLoop_done hdone, hempty]
        exact ⟨_, rfl, ⟨hdone, fun _ => ⟨rfl, hzero⟩, fun hne => absurd rfl hne⟩, rfl⟩
    · have hpos : 0 < data.length := List.length_pos_iff.mpr hempty
      have hb0 : 0 < b := by omega
      have hskip : b ≠ s.prev := by omega
      rcases bufferText_read hnul (hend hempty) with ⟨text, htext, hbytes⟩
      have hstrlen : text.strlen = data.length := by rw [CStr.strlen, hbytes]
      have hmsg := serializeSend_eq (hstrlen ▸ hshort : text.strlen <= msize)
      rw [hbytes] at hmsg
      have hleft : b - (text.strlen + 1) = -1 := by omega
      have hfuel : b.toNat = data.length - 1 + 1 := by omega
      have hdone : sendLoop poll.writes (data.length - 1) (0 + 1) (b - (text.strlen + 1))
          (List.replicate bufferSize 0) =
            .ok ([], b - (text.strlen + 1), List.replicate bufferSize 0) :=
        sendLoop_done (hleft ▸ (by decide) : b - (text.strlen + 1) <= 0)
      have hsent := sendLoop_sent hb0 htext hmsg hwrites hdone
      rw [← hfuel, hleft] at hsent
      have hafter : (-1 : Int) <= 0 := by decide
      refine ⟨⟨List.replicate bufferSize 0, -1, fs'⟩, ?_, ⟨hafter, fun h => absurd h hempty,
        fun _ => rfl⟩, rfl⟩
      rw [pollTurn_eq hread hb hskip, hsent, forwarded, if_neg hempty]
      rfl

/-- What is forwarded by the first turn that reads something ended in the buffer. -/
theorem ends_of_forwards (hread : tfsRead fh msize (poll.others s.fs) = .ok (b, data, fs'))
    (hb : b ≠ -1) (hprev : s.prev <= 0) (hempty : data ≠ [])
    (hlength : s.buffer.length = bufferSize) (hforwards : Forwards fh s poll) :
    s.buffer[data.length]? = some 0 := by
  rcases hforwards b data fs' hread hb with ⟨s', hturn⟩
  rcases tfsRead_lengths hread with ⟨hfailed, _⟩ | ⟨hcount, hshort⟩
  · exact absurd hfailed hb
  · have hpos : 0 < data.length := List.length_pos_iff.mpr hempty
    have hb0 : 0 < b := by omega
    have hskip : b ≠ s.prev := by omega
    rw [pollTurn_eq hread hb hskip] at hturn
    rcases bind_eq_ok.mp hturn with ⟨⟨actions, left, buffer'⟩, hloop, hresult⟩
    rcases sendLoop_first hb0 (mapError_eq_ok.mp hloop) with
      ⟨text, msg, rest, htext, hmsg, hactions⟩
    rw [forwarded, if_neg hempty, hactions] at hresult
    simp only [pure_ok, Except.ok.injEq, Prod.mk.injEq, List.cons.injEq, Action.sent.injEq]
      at hresult
    have hbytes := (serializeSend_ok hmsg).symm.trans hresult.left.right.left.left
    refine ends_of_text ?_ htext (List.append_cancel_left hbytes)
    rw [hlength]
    simp only [bufferSize, msize] at hshort ⊢
    omega

/-!
## Sessions
-/

theorem poll_cases (fh : Int) (poll : Poll) (fs : Fs) :
    (exists b data fs', tfsRead fh msize (poll.others fs) = .ok (b, data, fs') ∧ b ≠ -1) ∨
      forall b data fs', tfsRead fh msize (poll.others fs) = .ok (b, data, fs') -> b = -1 := by
  cases hread : tfsRead fh msize (poll.others fs) with
  | error e =>
      right
      intro b data fs' h
      cases h
  | ok r =>
      rcases r with ⟨b, data, fs'⟩
      by_cases hb : b = -1
      · right
        intro b' data' fs'' h
        cases h
        exact hb
      · exact Or.inl ⟨b, data, fs', rfl, hb⟩

theorem pollResults_cons (hread : tfsRead fh msize (poll.others fs) = .ok (b, data, fs'))
    (hb : b ≠ -1) : pollResults fh (poll :: polls) fs = data :: pollResults fh polls fs' := by
  rw [pollResults, hread]
  exact if_neg hb

theorem pollResults_ended
    (hno : forall b data fs', tfsRead fh msize (poll.others fs) = .ok (b, data, fs') -> b = -1) :
    pollResults fh (poll :: polls) fs = [] := by
  unfold pollResults
  cases hread : tfsRead fh msize (poll.others fs) with
  | error e => rfl
  | ok r => exact if_pos (hno r.1 r.2.1 r.2.2 hread)

/-- A poll that fails ends the session. -/
theorem pollTurn_ended
    (hno : forall b data fs', tfsRead fh msize (poll.others s.fs) = .ok (b, data, fs') -> b = -1)
    (r : List Action × Subscription) : pollTurn fh poll s ≠ .ok r := by
  intro hturn
  rcases bind_eq_ok.mp hturn with ⟨⟨b, data, fs'⟩, hread, hrest⟩
  have hb := hno b data fs' (ofFs_eq_ok.mp (mapError_eq_ok.mp hread))
  simp only [if_pos hb] at hrest
  cases hrest

/-- The session goes on behind a turn that has forwarded what it read. -/
theorem everyForwards_step (hread : tfsRead fh msize (poll.others s.fs) = .ok (b, data, fs'))
    (hturn : pollTurn fh poll s = .ok (.polled b data :: forwarded data, s')) :
    EveryCall (pollTurn fh) (Forwards fh) (poll :: polls) s <->
      EveryCall (pollTurn fh) (Forwards fh) polls s' := by
  have hforwards : Forwards fh s poll := by
    intro b1 data1 fs1 hread1 _
    rw [hread] at hread1
    cases hread1
    exact ⟨s', hturn⟩
  constructor
  · intro hevery
    exact hevery.right _ _ hturn
  · intro hevery
    refine ⟨hforwards, fun actions s1 hturn1 => ?_⟩
    rw [hturn] at hturn1
    cases hturn1
    exact hevery

theorem everyForwards_ended
    (hno : forall b data fs', tfsRead fh msize (poll.others s.fs) = .ok (b, data, fs') -> b = -1) :
    EveryCall (pollTurn fh) (Forwards fh) (poll :: polls) s :=
  ⟨fun b data fs' hread hb => absurd (hno b data fs' hread) hb,
    fun actions s' hturn => absurd hturn (pollTurn_ended hno (actions, s'))⟩

/-- In a buffer that has been cleared every string ends behind what is read. -/
theorem cleared_ends (hbuffer : s.buffer = List.replicate bufferSize 0)
    (hread : tfsRead fh msize (poll.others s.fs) = .ok (b, data, fs')) (hb : b ≠ -1) :
    s.buffer[data.length]? = some 0 := by
  rcases tfsRead_lengths hread with ⟨hfailed, _⟩ | ⟨_, hshort⟩
  · exact absurd hfailed hb
  · rw [hbuffer, List.getElem?_replicate, if_pos]
    simp only [bufferSize, msize] at hshort ⊢
    omega

/-- Every turn of a session forwards what it reads once the buffer has been cleared. -/
theorem everyForwards_cleared (hbuffer : s.buffer = List.replicate bufferSize 0)
    (hprev : s.prev <= 0) (hwrites : forall poll, poll ∈ polls -> forall n, poll.writes n = true)
    (hnul : forall data, data ∈ pollResults fh polls s.fs -> 0 ∉ data) :
    EveryCall (pollTurn fh) (Forwards fh) polls s := by
  induction polls generalizing s with
  | nil => trivial
  | cons poll polls ih =>
      rcases poll_cases fh poll s.fs with ⟨b, data, fs', hread, hb⟩ | hno
      · rw [pollResults_cons hread hb] at hnul
        rcases pollTurn_forwards hread hb hprev (hwrites poll List.mem_cons_self 0)
          (hnul data List.mem_cons_self) (fun _ => cleared_ends hbuffer hread hb) with
          ⟨s', hturn, hafter, hfs⟩
        rw [everyForwards_step hread hturn]
        refine ih ?_ hafter.prev (fun poll hpoll => hwrites poll (List.mem_cons_of_mem _ hpoll)) ?_
        · by_cases hempty : data = []
          · rw [(hafter.kept hempty).left, hbuffer]
          · exact hafter.cleared hempty
        · rw [hfs]
          exact fun data' hdata' => hnul data' (List.mem_cons_of_mem _ hdata')
      · exact everyForwards_ended hno

theorem endsFirst_empty (buffer : List UInt8) (results : List (List UInt8)) :
    EndsFirst buffer ([] :: results) <-> EndsFirst buffer results := by
  constructor
  · intro h pre data post heq hpre
    refine h ([] :: pre) data post (by rw [heq]; rfl) fun earlier hmem => ?_
    rcases List.mem_cons.mp hmem with hfirst | hrest
    · exact hfirst
    · exact hpre earlier hrest
  · intro h pre data post heq hpre hne
    cases pre with
    | nil => exact absurd (List.cons.inj heq).left.symm hne
    | cons first pre =>
        exact h pre data post (List.cons.inj heq).right
          (fun earlier hmem => hpre earlier (List.mem_cons_of_mem _ hmem)) hne

theorem endsFirst_cons (buffer : List UInt8) (results : List (List UInt8)) (hne : data ≠ []) :
    EndsFirst buffer (data :: results) <-> buffer[data.length]? = some 0 := by
  constructor
  · intro h
    exact h [] data results rfl (fun earlier hmem => absurd hmem List.not_mem_nil) hne
  · intro hend pre data' post heq hpre _
    cases pre with
    | nil => exact (List.cons.inj heq).left ▸ hend
    | cons first pre =>
        have hfirst := hpre first List.mem_cons_self
        exact absurd ((List.cons.inj heq).left.trans hfirst) hne

/-- While nothing has been read, the buffer is the one of the start. -/
theorem everyForwards_iff (hlength : s.buffer.length = bufferSize) (hprev : s.prev <= 0)
    (hwrites : forall poll, poll ∈ polls -> forall n, poll.writes n = true)
    (hnul : forall data, data ∈ pollResults fh polls s.fs -> 0 ∉ data) :
    EveryCall (pollTurn fh) (Forwards fh) polls s <->
      EndsFirst s.buffer (pollResults fh polls s.fs) := by
  induction polls generalizing s with
  | nil =>
      refine ⟨fun _ pre data post heq => ?_, fun _ => trivial⟩
      exact absurd heq (by simp [pollResults])
  | cons poll polls ih =>
      have hrest : forall poll', poll' ∈ polls -> forall n, poll'.writes n = true :=
        fun poll' hpoll => hwrites poll' (List.mem_cons_of_mem _ hpoll)
      rcases poll_cases fh poll s.fs with ⟨b, data, fs', hread, hb⟩ | hno
      · rw [pollResults_cons hread hb] at hnul ⊢
        have hnul' : forall data', data' ∈ pollResults fh polls fs' -> 0 ∉ data' :=
          fun data' hdata' => hnul data' (List.mem_cons_of_mem _ hdata')
        have hturn := pollTurn_forwards hread hb hprev (hwrites poll List.mem_cons_self 0)
          (hnul data List.mem_cons_self)
        by_cases hempty : data = []
        · rcases hturn fun hne => absurd hempty hne with ⟨s', hturn, hafter, hfs⟩
          rcases hafter.kept hempty with ⟨hbuffer, _⟩
          rw [everyForwards_step hread hturn, hempty, endsFirst_empty, ← hbuffer, ← hfs]
          exact ih (hbuffer ▸ hlength) hafter.prev hrest (hfs ▸ hnul')
        · rw [endsFirst_cons _ _ hempty]
          constructor
          · intro hevery
            exact ends_of_forwards hread hb hprev hempty hlength hevery.left
          · intro hend
            rcases hturn fun _ => hend with ⟨s', hturn, hafter, hfs⟩
            rw [everyForwards_step hread hturn]
            exact everyForwards_cleared (hafter.cleared hempty) hafter.prev hrest (hfs ▸ hnul')
      · rw [pollResults_ended hno]
        refine ⟨fun _ pre data post heq => ?_, fun _ => everyForwards_ended hno⟩
        exact absurd heq (by simp)

end Turns

/-- A session in which no write fails forwards exactly what it reads from a box without
zero bytes if and only if the fresh buffer has a zero byte behind the first read that is
not empty. -/
theorem sessionForwards_iff (fh : Int) (fs : Fs) {polls : List Poll} {buffer : List UInt8}
    (hlength : buffer.length = bufferSize)
    (hwrites : forall poll, poll ∈ polls -> forall n, poll.writes n = true)
    (hnul : forall data, data ∈ pollResults fh polls fs -> 0 ∉ data) :
    EveryCall (pollTurn fh) (Forwards fh) polls ⟨buffer, 0, fs⟩ <->
      EndsFirst buffer (pollResults fh polls fs) :=
  everyForwards_iff (s := ⟨buffer, 0, fs⟩) hlength (Int.le_refl 0) hwrites hnul

/-- A turn in which nothing else happens and no write fails. -/
def calmPoll : Poll := ⟨id, fun _ => true⟩

/-- The file system with {lit}`hi` in {lit}`/a`, open for a subscriber. -/
def openedHi : Fs :=
  match tfsOpen (some argsA.boxName.str) tfsOCreat (stateAfter [createA, publishHi]).fs with
  | .ok (_, fs) => fs
  | .error _ => (stateAfter [createA, publishHi]).fs

theorem openedHi_results : pollResults 0 [calmPoll] openedHi = [ascii "hi "] := by decide +kernel

theorem openedHi_noNul {data : List UInt8} (h : data ∈ pollResults 0 [calmPoll] openedHi) :
    0 ∉ data := by
  rw [openedHi_results, List.mem_singleton] at h
  rw [h]
  decide

theorem calmPoll_writes {poll : Poll} (h : poll ∈ [calmPoll]) (n : Nat) :
    poll.writes n = true := by
  rw [List.mem_singleton.mp h]
  rfl

/-- The condition on a session that reads the box once. -/
theorem openedHi_endsFirst (buffer : List UInt8) :
    EndsFirst buffer (pollResults 0 [calmPoll] openedHi) <-> buffer[3]? = some 0 := by
  rw [openedHi_results]
  exact endsFirst_cons buffer [] (by decide)

/-- A fresh buffer with a byte behind the first three. -/
def staleBuffer : List UInt8 := [0, 0, 0, 120] ++ List.replicate (bufferSize - 4) 0

/-- The byte behind what is read is sent with it. -/
theorem forwards_stale :
    (pollTurn 0 calmPoll ⟨staleBuffer, 0, openedHi⟩).toOption.map Prod.fst =
        some [.polled 3 (ascii "hi "), .sent (ascii "10 hi x") true] ∧
      ¬ EveryCall (pollTurn 0) (Forwards 0) [calmPoll] ⟨staleBuffer, 0, openedHi⟩ := by
  have hlength : staleBuffer.length = bufferSize := by decide +kernel
  have hstale : staleBuffer[3]? ≠ some 0 := by decide +kernel
  have hiff := @everyForwards_iff 0 [calmPoll] ⟨staleBuffer, 0, openedHi⟩ hlength (Int.le_refl 0)
    (fun poll hpoll => calmPoll_writes hpoll)
  simp only at hiff
  refine ⟨by decide +kernel, fun hevery => ?_⟩
  have hends := (hiff fun data hdata => openedHi_noNul hdata).mp hevery
  exact hstale ((openedHi_endsFirst staleBuffer).mp hends)

/-- From a buffer that is zero the text of the box is forwarded. -/
theorem sessionForwards_hi : EveryCall (pollTurn 0) (Forwards 0) [calmPoll]
    ⟨List.replicate bufferSize 0, 0, openedHi⟩ := by
  refine (sessionForwards_iff 0 openedHi List.length_replicate
    (fun poll hpoll => calmPoll_writes hpoll) (fun data hdata => openedHi_noNul hdata)).mpr ?_
  rw [openedHi_endsFirst, List.getElem?_replicate]
  exact if_pos (by decide)

end Broker
end TecnicoFs
