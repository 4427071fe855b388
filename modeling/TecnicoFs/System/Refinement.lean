import TecnicoFs.Clients.Contents
import TecnicoFs.Fs.Commutation
import TecnicoFs.System.Abstract

/-!
# The broker refines the abstract broker

Between requests the list of boxes, the directory and the files hold the boxes of the
abstract broker.  Every allowed request succeeds, sends the abstract texts and keeps this
relation, so the handlers never run out of inodes, slots, blocks or handles before the
abstract limit.
-/

namespace TecnicoFs

open Library

/-!
## A file that is written at its end
-/

namespace AbstractFs

/-- Handle 0 is open at the end of the file, which has these bytes. -/
def atEnd (a : AbstractFs) (name : CStr) (bytes : List UInt8) : AbstractFs :=
  (a.setContent name bytes).setHandle 0 (some (name, bytes.length))

variable {params : TfsParams} {a : AbstractFs} {path : Option CStr} {name : CStr}
  {bytes : List UInt8}

theorem freeHandle_first (hpos : 0 < params.maxOpenFilesCount)
    (hclosed : forall h, a.handles h = none) : a.freeHandle params = some 0 := by
  rw [freeHandle]
  cases hmax : params.maxOpenFilesCount with
  | zero =>
      rw [hmax] at hpos
      exact absurd hpos (Nat.lt_irrefl 0)
  | succ n =>
      rw [List.range_succ_eq_map, List.find?_cons, hclosed 0]
      rfl

/-- Opening a file to append to it. -/
theorem openFile_append (hpos : 0 < params.maxOpenFilesCount)
    (hclosed : forall h, a.handles h = none) (hvalid : validPathname path = true)
    (hthere : skipSlash path ∈ a.names) :
    a.openFile params path tfsOAppend =
      (0, a.atEnd (skipSlash path) (a.content (skipSlash path))) := by
  have hkeep : a.truncated tfsOAppend (skipSlash path) = a := rfl
  have hoffset : hasFlag tfsOAppend tfsOAppend = true := by decide
  rw [openFile, if_neg (by simp [hvalid]), if_pos hthere]
  simp only [hkeep, hoffset, if_true, newHandle, freeHandle_first hpos hclosed, atEnd,
    setContent_self]
  rfl

/-- Creating a file. -/
theorem openFile_create (hpos : 0 < params.maxOpenFilesCount)
    (hclosed : forall h, a.handles h = none) (hvalid : validPathname path = true)
    (hnot : skipSlash path ∉ a.names) (hcan : a.canCreate params (skipSlash path)) :
    a.openFile params path tfsOCreat =
      (0, (a.created (skipSlash path)).atEnd (skipSlash path) []) := by
  have hcreat : hasFlag tfsOCreat tfsOCreat = true := by decide
  have hempty : (a.created (skipSlash path)).content (skipSlash path) = [] :=
    Function.update_self _ _ _
  have hself := setContent_self (a.created (skipSlash path)) (skipSlash path)
  rw [hempty] at hself
  have hclosed' : forall h, (a.created (skipSlash path)).handles h = none := hclosed
  rw [openFile, if_neg (by simp [hvalid]), if_neg hnot, if_pos ⟨hcreat, hcan⟩, newHandle,
    freeHandle_first hpos hclosed', atEnd, hself]
  rfl

theorem openFile_noRoom (hnot : skipSlash path ∉ a.names)
    (hcan : validPathname path = true -> ¬ a.canCreate params (skipSlash path)) :
    a.openFile params path tfsOCreat = (-1, a) := by
  rw [openFile]
  split
  · rfl
  · have hvalid : validPathname path = true := by
      cases hpath : validPathname path with
      | true => rfl
      | false => contradiction
    rw [if_neg fun h => hcan hvalid h.right]

theorem handles_atEnd : (a.atEnd name bytes).handles 0 = some (name, bytes.length) := by
  simp [atEnd, setHandle]

theorem content_atEnd : (a.atEnd name bytes).content name = bytes := by
  simp [atEnd, setContent, setHandle]

theorem patch_end (cut : List UInt8) : patch bytes bytes.length cut = bytes ++ cut := by
  rw [patch, List.take_length, List.drop_eq_nil_of_le (Nat.le_add_right _ _), List.append_nil]

theorem atEnd_atEnd (bytes' : List UInt8) :
    (a.atEnd name bytes).atEnd name bytes' = a.atEnd name bytes' := by
  simp only [atEnd, setContent, setHandle, Function.update_idem]

theorem closeFile_atEnd (hclosed : forall h, a.handles h = none) :
    (a.atEnd name bytes).closeFile 0 = (0, a.setContent name bytes) := by
  have hentry : (a.atEnd name bytes).entry ((0 : Nat) : Int) = some (name, bytes.length) :=
    entry_eq handles_atEnd
  have hself : Function.update a.handles 0 none = a.handles := by
    rw [← hclosed 0, Function.update_eq_self]
  have hdrop : (a.atEnd name bytes).setHandle 0 none = a.setContent name bytes := by
    simp only [atEnd, setContent, setHandle, Function.update_idem, hself]
  rw [Int.ofNat_zero] at hentry
  rw [closeFile, hentry]
  exact congrArg (Prod.mk 0) hdrop

/-- A write appends what the block of the file has room for. -/
theorem writeFile_atEnd (hroom : (a.atEnd name bytes).nonEmpty.card ≠ params.maxBlockCount - 1)
    (hfits : bytes.length <= params.blockSize) (buffer : List UInt8) :
    exists r, -1 <= r ∧ (a.atEnd name bytes).writeFile params 0 buffer buffer.length =
      (r, a.atEnd name ((bytes ++ buffer).take params.blockSize)) := by
  have hentry : (a.atEnd name bytes).entry ((0 : Nat) : Int) = some (name, bytes.length) :=
    entry_eq handles_atEnd
  rw [Int.ofNat_zero] at hentry
  have hspace : ¬ ((a.atEnd name bytes).content name = [] ∧
      (a.atEnd name bytes).nonEmpty.card = params.maxBlockCount - 1) := fun h => hroom h.right
  have htake : (bytes ++ buffer).take params.blockSize =
      bytes ++ buffer.take (params.blockSize - bytes.length) := by
    rw [List.take_append, List.take_of_length_le hfits]
  have hcut : buffer.take (min buffer.length (params.blockSize - bytes.length)) =
      buffer.take (params.blockSize - bytes.length) := by
    rw [← List.take_take, List.take_of_length_le]
    rw [List.length_take]
    exact Nat.min_le_right _ _
  rw [writeFile, hentry]
  simp only [if_neg hspace]
  by_cases hzero : min buffer.length (params.blockSize - bytes.length) = 0
  · refine ⟨0, by decide, ?_⟩
    rw [hzero, List.take_zero] at hcut
    rw [if_pos hzero, htake, ← hcut, List.append_nil]
  · refine ⟨(min buffer.length (params.blockSize - bytes.length) : Nat), by omega, ?_⟩
    have hlength : (buffer.take (params.blockSize - bytes.length)).length =
        min buffer.length (params.blockSize - bytes.length) := by
      rw [List.length_take, Nat.min_comm]
    have hlonger : (a.atEnd name bytes).atEnd name
        (bytes ++ buffer.take (params.blockSize - bytes.length)) =
        a.atEnd name (bytes ++ buffer.take (params.blockSize - bytes.length)) := atEnd_atEnd _
    rw [if_neg hzero, content_atEnd, hcut, patch_end, htake, ← hlonger, ← hlength,
      ← List.length_append]
    rfl

end AbstractFs

/-!
## Calls of the library by name
-/

namespace Refines

variable {params : TfsParams} {fs : Fs} {files files' : AbstractFs} {path : Option CStr} {r : Int}

theorem tfsOpen (h : Refines params fs files) (hfits : FitsMachine params) {mode : Nat}
    (hkeep : hasFlag mode tfsOTrunc = false)
    (hopen : files.openFile params path mode = (r, files')) :
    exists fs', tfsOpen path mode fs = .ok (r, fs') ∧ Refines params fs' files' := by
  rcases h.inv with ⟨made, hinv⟩
  have hquiet : validPathname path = true -> hasFlag mode tfsOTrunc = true ->
      files.NoHandleOn (skipSlash path) := by
    intro _ hflag
    rw [hkeep] at hflag
    cases hflag
  rcases h.openStep hfits hquiet with ⟨fs', hstep, h'⟩
  rw [hopen] at hstep h'
  exact ⟨fs', hstep.sound hinv, h'⟩

theorem tfsClose (h : Refines params fs files) {fhandle : Int}
    (hclose : files.closeFile fhandle = (r, files')) :
    exists fs', tfsClose fhandle fs = .ok (r, fs') ∧ Refines params fs' files' := by
  rcases h.inv with ⟨made, hinv⟩
  rcases h.closeStep fhandle with ⟨fs', hstep, h'⟩
  rw [hclose] at hstep h'
  exact ⟨fs', hstep.sound hinv, h'⟩

theorem tfsWrite (h : Refines params fs files) (hfits : FitsMachine params) {fhandle : Int}
    {buffer : List UInt8}
    (hsum : forall name offset, files.entry fhandle = some (name, offset) ->
      buffer.length + offset < sizeMod)
    (hwrite : files.writeFile params fhandle buffer buffer.length = (r, files')) :
    exists fs', tfsWrite fhandle buffer buffer.length fs = .ok (r, fs') ∧
      Refines params fs' files' := by
  rcases h.inv with ⟨made, hinv⟩
  rcases h.writeStep hfits (Nat.le_refl buffer.length) hsum with ⟨fs', hstep, h'⟩
  rw [hwrite] at hstep h'
  exact ⟨fs', hstep.sound hinv, h'⟩

theorem tfsUnlink (h : Refines params fs files) (hclosed : forall fh, files.handles fh = none)
    (hunlink : files.unlinkFile path = (r, files')) :
    exists fs', tfsUnlink path fs = .ok (r, fs') ∧ Refines params fs' files' := by
  rcases h.inv with ⟨made, hinv⟩
  have hquiet : validPathname path = true -> files.NoHandleOn (skipSlash path) := by
    intro _ fh offset hhandle
    rw [hclosed fh] at hhandle
    cases hhandle
  rcases h.unlinkStep hquiet with ⟨fs', hstep, h'⟩
  rw [hunlink] at hstep h'
  exact ⟨fs', hstep.sound hinv, h'⟩

/-- The directory has a slot for each file. -/
theorem card_names_le (h : Refines params fs files) :
    files.names.card <= params.blockSize / sizeofDirEntry := by
  rw [← h.card_slots, ← h.maxDirEntries_eq]
  have hfilter := Finset.card_filter_le (Finset.range fs.maxDirEntries)
    fun i => dInumber fs.fsData i ≠ -1
  rwa [Finset.card_range] at hfilter

/-- With the default parameters there are more blocks than files. -/
theorem hasBlock (h : Refines tfsDefaultParams fs files) :
    files.nonEmpty.card ≠ tfsDefaultParams.maxBlockCount - 1 := by
  have hnames := h.card_names_le
  have hfilter : files.nonEmpty.card <= files.names.card := Finset.card_filter_le _ _
  have hslots : tfsDefaultParams.blockSize / sizeofDirEntry = 23 := by decide
  have hblocks : tfsDefaultParams.maxBlockCount = 1024 := rfl
  omega

end Refines

theorem fitsMachine_default : FitsMachine tfsDefaultParams := by
  constructor <;> decide

namespace System

open Broker

/-!
## The files of the boxes
-/

/-- The files are those of the boxes, and none is open. -/
structure FilesOf (a : AbstractBroker) (files : AbstractFs) : Prop where
  names : forall held, held ∈ files.names <->
    exists box, box ∈ a.boxes ∧ skipSlash (some box.name) = held
  content : forall box, box ∈ a.boxes -> files.content (skipSlash (some box.name)) = box.content
  closed : forall fh, files.handles fh = none

section Files

variable {a : AbstractBroker} {files : AbstractFs} {name : CStr} {fs fs' : Fs}
  {box : AbstractBox} {texts : List CStr}

theorem sameBox {box' : AbstractBox} (hmem : box ∈ a.boxes) (hmem' : box' ∈ a.boxes)
    (hname : box.name = box'.name) : box = box' :=
  List.inj_on_of_nodup_map a.distinct hmem hmem' hname

namespace FilesOf

theorem initial : FilesOf AbstractBroker.empty AbstractFs.empty := by
  refine ⟨fun held => ?_, fun box hbox => absurd hbox List.not_mem_nil, fun _ => rfl⟩
  constructor
  · intro hheld
    simp [AbstractFs.empty] at hheld
  · rintro ⟨box, hbox, _⟩
    exact absurd hbox List.not_mem_nil

theorem named_iff (h : FilesOf a files) (hvalid : validPathname (some name) = true) :
    skipSlash (some name) ∈ files.names <-> name ∈ a.names := by
  rw [h.names, AbstractBroker.mem_names]
  constructor
  · rintro ⟨box, hbox, hskip⟩
    exact ⟨box, hbox, skipSlash_injective box.valid hvalid hskip⟩
  · rintro ⟨box, hbox, hname⟩
    exact ⟨box, hbox, by rw [hname]⟩

/-- There is one file for each box. -/
theorem card_names (h : FilesOf a files) : files.names.card = a.boxes.length := by
  have hnodup : (a.boxes.map fun box => skipSlash (some box.name)).Nodup := by
    refine List.Nodup.map_on (fun box hbox box' hbox' hskip => ?_) (List.Nodup.of_map _ a.distinct)
    exact sameBox hbox hbox' (skipSlash_injective box.valid box'.valid hskip)
  have hnames : files.names = (a.boxes.map fun box => skipSlash (some box.name)).toFinset := by
    ext held
    rw [h.names, List.mem_toFinset, List.mem_map]
  rw [hnames, List.toFinset_card_of_nodup hnodup, List.length_map]

theorem canCreate_iff (h : FilesOf a files) {array : CharArray boxNameSize}
    (hvalid : validPathname (some array.str) = true) :
    files.canCreate tfsDefaultParams (skipSlash (some array.str)) <->
      a.boxes.length < AbstractBroker.capacity := by
  have hfits := array.fits
  have hbytes := congrArg List.length (bytes_of_valid hvalid)
  have hlong : 1 < array.str.bytes.length := by
    simp only [validPathname, Bool.and_eq_true, decide_eq_true_eq] at hvalid
    exact hvalid.left
  rw [List.length_cons] at hbytes
  have hslots : tfsDefaultParams.blockSize / sizeofDirEntry = 23 := by decide
  have hinodes : tfsDefaultParams.maxInodeCount = 64 := rfl
  have hsize : boxNameSize = 32 := rfl
  rw [CStr.strlen] at hfits
  rw [AbstractFs.canCreate, AbstractBroker.capacity, h.card_names]
  omega

theorem create (h : FilesOf a files) (hvalid : validPathname (some name) = true)
    (hnew : name ∉ a.names) :
    FilesOf (a.create name hvalid hnew)
      ((files.created (skipSlash (some name))).setContent (skipSlash (some name)) []) := by
  refine ⟨fun held => ?_, fun box hbox => ?_, h.closed⟩
  · change held ∈ insert (skipSlash (some name)) files.names <-> _
    rw [Finset.mem_insert, h.names]
    constructor
    · rintro (hheld | ⟨box, hbox, hskip⟩)
      · exact ⟨_, List.mem_append_right _ List.mem_cons_self, hheld.symm⟩
      · exact ⟨box, List.mem_append_left _ hbox, hskip⟩
    · rintro ⟨box, hbox, hskip⟩
      rcases List.mem_append.mp hbox with hold | hlast
      · exact Or.inr ⟨box, hold, hskip⟩
      · rw [List.mem_singleton.mp hlast] at hskip
        exact Or.inl hskip.symm
  · change Function.update (Function.update files.content (skipSlash (some name)) [])
      (skipSlash (some name)) [] (skipSlash (some box.name)) = box.content
    rw [Function.update_idem]
    rcases List.mem_append.mp hbox with hold | hlast
    · have hother : skipSlash (some box.name) ≠ skipSlash (some name) := by
        intro hskip
        have hname := skipSlash_injective box.valid hvalid hskip
        exact hnew (hname ▸ List.mem_map_of_mem hold)
      rw [Function.update_of_ne hother]
      exact h.content box hold
    · rw [List.mem_singleton.mp hlast, Function.update_self]

theorem remove (h : FilesOf a files) (hvalid : validPathname (some name) = true) :
    FilesOf (a.remove name)
      { files with names := files.names.erase (skipSlash (some name)) } := by
  have hmem : forall box, box ∈ (a.remove name).boxes <-> box ∈ a.boxes ∧ box.name ≠ name := by
    intro box
    rw [AbstractBroker.remove, List.mem_filter, decide_eq_true_iff]
  refine ⟨fun held => ?_, fun box hbox => h.content box ((hmem box).mp hbox).left, h.closed⟩
  change held ∈ files.names.erase (skipSlash (some name)) <-> _
  rw [Finset.mem_erase, h.names]
  constructor
  · rintro ⟨hne, box, hbox, hskip⟩
    exact ⟨box, (hmem box).mpr ⟨hbox, fun hname => hne (hname ▸ hskip.symm)⟩, hskip⟩
  · rintro ⟨box, hbox, hskip⟩
    rcases (hmem box).mp hbox with ⟨hold, hne⟩
    refine ⟨fun hheld => hne ?_, box, hold, hskip⟩
    exact skipSlash_injective box.valid hvalid (hskip.trans hheld)

theorem publish (h : FilesOf a files) (hbox : box ∈ a.boxes) :
    FilesOf (a.publish box.name texts)
      (files.setContent (skipSlash (some box.name)) (boxAfter box.content texts)) := by
  refine ⟨fun held => ?_, fun new hnew => ?_, h.closed⟩
  · change held ∈ files.names <-> _
    rw [h.names]
    constructor
    · rintro ⟨old, hold, hskip⟩
      refine ⟨_, List.mem_map_of_mem hold, ?_⟩
      rw [AbstractBroker.name_publishTo]
      exact hskip
    · rintro ⟨new, hnew, hskip⟩
      rcases List.mem_map.mp hnew with ⟨old, hold, hsame⟩
      refine ⟨old, hold, ?_⟩
      rw [← hsame, AbstractBroker.name_publishTo] at hskip
      exact hskip
  · change Function.update files.content (skipSlash (some box.name)) (boxAfter box.content texts)
      (skipSlash (some new.name)) = new.content
    rcases List.mem_map.mp hnew with ⟨old, hold, hsame⟩
    by_cases hname : old.name = box.name
    · have hpublished : new = old.publish texts := by
        rw [← hsame, AbstractBroker.publishTo, if_pos hname]
      rw [hpublished, sameBox hold hbox hname]
      exact Function.update_self _ _ _
    · have hother : skipSlash (some old.name) ≠ skipSlash (some box.name) := fun hskip =>
        hname (skipSlash_injective old.valid box.valid hskip)
      have hkept : new = old := by
        rw [← hsame, AbstractBroker.publishTo, if_neg hname]
      rw [hkept, Function.update_of_ne hother]
      exact h.content old hold

end FilesOf

end Files

/-!
## A session on a file
-/

theorem ownMessage_eq {read : Chunk} {text : CStr} (h : Delivers read text) :
    ownMessage read = text := by
  rw [ownMessage, h.message]
  rfl

section Session

variable {fs : Fs} {files : AbstractFs} {held : CStr} {content : List UInt8}

theorem publishLoop_refines {reads : List Chunk}
    (hdelivers : forall read, read ∈ reads -> Delivers read (ownMessage read))
    (hfits : content.length <= boxSize)
    (h : Refines tfsDefaultParams fs (files.atEnd held content)) (buffer : List UInt8)
    (message : CStr) :
    exists fs', publishLoop 0 reads buffer message fs = .ok fs' ∧
      Refines tfsDefaultParams fs'
        (files.atEnd held (boxAfter content (reads.map ownMessage))) := by
  induction reads generalizing fs content buffer message with
  | nil =>
      rw [List.map_nil, boxAfter_nil hfits]
      exact ⟨fs, rfl, h⟩
  | cons read reads ih =>
      have hfirst := hdelivers read List.mem_cons_self
      have hsum : forall name offset,
          (files.atEnd held content).entry 0 = some (name, offset) ->
          ((ownMessage read).strcat space).bytes.length + offset < sizeMod := by
        intro name offset hentry
        have hlength : ((ownMessage read).strcat space).bytes.length =
            (ownMessage read).strlen + 1 := List.length_append
        have hshort := hfirst.fits
        have hoffset : content.length = offset := by
          have hsame : some (held, content.length) = some (name, offset) :=
            AbstractFs.handles_atEnd.symm.trans hentry
          cases hsame
          rfl
        have hbox : boxSize = 1024 := rfl
        have hread : msize = 1024 := rfl
        simp only [sizeMod]
        omega
      rcases AbstractFs.writeFile_atEnd h.hasBlock hfits ((ownMessage read).strcat space).bytes
        with ⟨r, hr, hwrite⟩
      rcases h.tfsWrite fitsMachine_default hsum hwrite with ⟨fs1, hcall, h1⟩
      have hlength : ((content ++ ((ownMessage read).strcat space).bytes).take boxSize).length <=
          boxSize := by
        rw [List.length_take]
        exact Nat.min_le_left _ _
      rcases ih (fun later hlater => hdelivers later (List.mem_cons_of_mem _ hlater)) hlength h1
        (List.replicate bufferSize 0) ((ownMessage read).strcat space) with ⟨fs', hloop, h'⟩
      rw [boxAfter_cons] at h'
      exact ⟨fs', (publishLoop_turn hfirst hcall hr buffer message).trans hloop, h'⟩

end Session

/-!
## What a handler leaves in the file system
-/

section Handlers

variable {b b' : State} {cells pre post : List (Nat × Box)} {clientInput : Args} {env : Env}
  {fd c : Nat} {box : Box} {fs1 fs2 fs3 : Fs} {r : Int}

theorem boxExists_fresh (boxes : Heap (Cell Box)) (next : Option Nat) :
    boxExists (-1) boxes.top (boxes.alloc ⟨⟨unexistent, -1, -1⟩, next⟩).2 = .ok false := by
  simp [boxExists, Heap.load_eq (boxes.alloc_self ⟨⟨unexistent, -1, -1⟩, next⟩)]

/-- The file of a new box is created and closed. -/
theorem createBox_files (h : Good b cells) (hnot : clientInput.boxName.str ∉ boxNames cells)
    (hfd : env.fd = some fd)
    (hcreate : tfsOpen (some clientInput.boxName.str) tfsOCreat b.fs = .ok (0, fs1))
    (hclose : tfsClose 0 fs1 = .ok (r, fs2)) (hwrites : env.writes 0 = true) :
    exists boxes head, createBox clientInput env b =
      .ok ([.opened fd, .tfsOpened 0, answerEvent env fd 0 [], .tfsClosed 0],
        ⟨fs2, boxes, head⟩) := by
  have hfind := findBox_missing (.array clientInput.boxName.str) env.node h.chain rfl hnot
  have hopen := open_absent h.idle.steady fun hvalid => h.absent hnot hvalid
  have hfresh := b.boxes.alloc_self ⟨⟨unexistent, -1, -1⟩, env.node.next⟩
  have hexists := boxExists_fresh b.boxes env.node.next
  have hmodify := modifyBox_eq hfresh fun cell =>
    { cell with value := ⟨clientInput.boxName, 0, 0⟩ }
  have hchain := Segment.update (Heap.live_of_cell hfresh)
    (some ⟨⟨clientInput.boxName, 0, 0⟩, env.node.next⟩) h.top_notMem
    (Segment.alloc ⟨⟨unexistent, -1, -1⟩, env.node.next⟩ h.chain)
  have hself := Heap.update_self (Heap.live_of_cell hfresh)
    (some (⟨⟨clientInput.boxName, 0, 0⟩, env.node.next⟩ : Cell Box))
  rcases insertBox_chain hchain hself h.top_notMem with ⟨head', boxes', hinsert, _⟩
  refine ⟨boxes', head', ?_⟩
  simp only [createBox, hfd, hfind, ofHeap_ok, ok_bind, hopen, ofFs_ok, hexists, hcreate, hmodify,
    hinsert]
  rw [answerCreate, sendRequest, if_pos hwrites]
  simp only [ok_bind, hclose, ofFs_ok, pure_ok]
  rfl

theorem createBox_noFile (h : Good b cells) (hnot : clientInput.boxName.str ∉ boxNames cells)
    (hfd : env.fd = some fd)
    (hcreate : tfsOpen (some clientInput.boxName.str) tfsOCreat b.fs = .ok (-1, fs1)) :
    exists boxes, createBox clientInput env b = .ok ([.opened fd], ⟨fs1, boxes, b.head⟩) := by
  have hfind := findBox_missing (.array clientInput.boxName.str) env.node h.chain rfl hnot
  have hopen := open_absent h.idle.steady fun hvalid => h.absent hnot hvalid
  have hexists := boxExists_fresh b.boxes env.node.next
  refine ⟨(b.boxes.alloc ⟨⟨unexistent, -1, -1⟩, env.node.next⟩).2, ?_⟩
  simp only [createBox, hfd, hfind, ofHeap_ok, ok_bind, hopen, ofFs_ok, hexists, hcreate]
  rfl

/-- The file of a box is opened, closed and deleted. -/
theorem removeBox_files (h : Good b (pre ++ (c, box) :: post))
    (hname : box.boxName.str = clientInput.boxName.str) (hfd : env.fd = some fd)
    (hopen : tfsOpen (some clientInput.boxName.str) tfsOAppend b.fs = .ok (0, fs1))
    (hclose : tfsClose 0 fs1 = .ok (r, fs2))
    (hunlink : tfsUnlink (some clientInput.boxName.str) fs2 = .ok (0, fs3))
    (hwrites : env.writes 0 = true) :
    exists boxes head, removeBox clientInput env b =
      .ok ([.opened fd, .tfsOpened 0, .tfsClosed 0, answerEvent env fd 0 [], .closed fd],
        ⟨fs3, boxes, head⟩) := by
  rcases h.name_mem hname with ⟨_, hnotPre⟩
  have hfind := findBox_found (.array clientInput.boxName.str) env.node h.chain rfl hname hnotPre
  have hchain : Chain (b.boxes.alloc env.node).2 b.head (pre ++ (c, box) :: post) :=
    Segment.alloc env.node h.chain
  rcases hchain.suffix with ⟨_, n, hcell, _⟩
  have hquiet := (h.quiet (List.mem_append_right pre List.mem_cons_self)).right
  have hmissing : boxMissing 0 c (b.boxes.alloc env.node).2 = .ok false := by
    simp only at hquiet
    simp [boxMissing, Heap.load_eq hcell, hquiet]
  have hload : (NamePtr.node c).load (b.boxes.alloc env.node).2 =
      .ok clientInput.boxName.str := by
    rw [NamePtr.load, Heap.load_eq hcell, ← hname]
    rfl
  rcases deleteBox_chain hchain hload hname hnotPre with ⟨head', boxes', hdelete, hdeleted⟩
  refine ⟨boxes', head', ?_⟩
  simp only [removeBox, iterateBox_chain h.chain, hfd, hfind, ofHeap_ok, ok_bind, hopen, ofFs_ok,
    hmissing, hdelete, hclose, hunlink]
  have hanswer : answerRemove env fd (openEvents 0 ++ [.tfsClosed 0]) 0 []
      ⟨fs3, boxes', head'⟩ = answered env _ ⟨fs3, boxes', head'⟩ :=
    answerRemove_chain hdeleted.chain _ 0 []
  rw [answered, if_pos hwrites] at hanswer
  exact hanswer

theorem regPublisher_unknown (h : Good b cells)
    (hnot : clientInput.boxName.str ∉ boxNames cells) (hfd : env.fd = some fd) :
    exists boxes, regPublisher clientInput env b =
      .ok ([.opened fd, .unlinked clientInput.clientPipe.str, .closed fd],
        { b with boxes := boxes }) := by
  have hfind := findBox_missing (.array clientInput.boxName.str) env.node h.chain rfl hnot
  have hload := Heap.load_eq (b.boxes.alloc_self ⟨⟨unexistent, -1, -1⟩, env.node.next⟩)
  rcases freed_sentinel h env.node with ⟨boxes', hfree, _, _⟩
  exact ⟨boxes', by simp [regPublisher, hfd, hfind, hload, hfree]⟩

end Handlers

/-!
## The relation
-/

/-- The strings in the frames that a request sends to its client. -/
def sentTexts (events : List Event) : List (List UInt8) :=
  (events.filterMap written).map fun frame => (CStr.ofBuffer frame.2).bytes

def serveTexts (request : Request) (b : State) : Out (List (List UInt8) × State) := do
  let (events, b) <- serve request b
  pure (sentTexts events, b)

/-- The boxes of the list and their files are the abstract boxes. -/
structure Represents (b : State) (a : AbstractBroker) : Prop where
  good : exists cells, Good b cells ∧ boxNames cells = a.names
  files : exists files, Refines tfsDefaultParams b.fs files ∧ FilesOf a files

/-- The request succeeds with these texts, and leads to a state of these boxes. -/
def Serves (request : Request) (b : State) (texts : List (List UInt8)) (a : AbstractBroker) :
    Prop :=
  exists events b', serve request b = .ok (events, b') ∧ sentTexts events = texts ∧
    Represents b' a

section Steps

variable {b : State} {a : AbstractBroker} {clientInput : Args} {env : Env} {fd : Nat}

theorem Serves.serveTexts {request : Request} {texts : List (List UInt8)}
    (h : Serves request b texts a) :
    exists b', serveTexts request b = .ok (texts, b') ∧ Represents b' a := by
  rcases h with ⟨events, b', hserve, htexts, hrepresents⟩
  refine ⟨b', ?_, hrepresents⟩
  rw [System.serveTexts, hserve, ← htexts]
  rfl

/-- The client gets the text of an answer. -/
theorem sentTexts_answer {events : List Event} (returnCode : Int) (message : String)
    {behind : Nat -> UInt8} (hnoNul : 0 ∉ AbstractBroker.answer returnCode message)
    (hlength : (AbstractBroker.answer returnCode message).length < frameSize)
    (hevents : events.filterMap written =
      [(fd, frame (AbstractBroker.answer returnCode message) behind)]) :
    sentTexts events = [AbstractBroker.answer returnCode message] := by
  rw [sentTexts, hevents, List.map_singleton, (frame_text hnoNul hlength behind).right.right]

/-!
### Creating a box
-/

theorem create_new (h : Represents b a) (hfd : env.fd = some fd)
    (hnot : clientInput.boxName.str ∉ a.names) (hwrites : env.writes 0 = true)
    (hvalid : validPathname (some clientInput.boxName.str) = true)
    (hroom : a.boxes.length < AbstractBroker.capacity) :
    Serves (.createBox clientInput env) b [AbstractBroker.answer 0 ""]
      (a.create clientInput.boxName.str hvalid hnot) := by
  rcases h.good with ⟨cells, hgood, hnames⟩
  rcases h.files with ⟨files, hrefines, hfiles⟩
  have hmissing : clientInput.boxName.str ∉ boxNames cells := hnames ▸ hnot
  have hheld : skipSlash (some clientInput.boxName.str) ∉ files.names :=
    fun hmem => hnot ((hfiles.named_iff hvalid).mp hmem)
  have hcan := (hfiles.canCreate_iff hvalid).mpr hroom
  rcases hrefines.tfsOpen fitsMachine_default (by decide)
    (AbstractFs.openFile_create (by decide) hfiles.closed hvalid hheld hcan) with
    ⟨fs1, hcreate, h1⟩
  rcases h1.tfsClose (AbstractFs.closeFile_atEnd hfiles.closed) with ⟨fs2, hclose, h2⟩
  rcases createBox_files hgood hmissing hfd hcreate hclose hwrites with ⟨boxes, head, hserve⟩
  refine ⟨_, _, hserve, sentTexts_answer 0 "" (by decide) (by decide) rfl, ?_, _, h2,
    hfiles.create hvalid hnot⟩
  rcases createBox_absent hgood hmissing hfd with ⟨b1, hother, _⟩ | ⟨b1, hsame, hgood', _⟩
  · rw [hserve] at hother
    cases hother
  · rw [hserve, answered, if_pos hwrites] at hsame
    cases hsame
    refine ⟨_, hgood', ?_⟩
    rw [boxNames_append, AbstractBroker.names_create, hnames]
    rfl

theorem create_noRoom (h : Represents b a) (hfd : env.fd = some fd)
    (hnot : clientInput.boxName.str ∉ a.names) (hwrites : env.writes 0 = true)
    (hfull : validPathname (some clientInput.boxName.str) = true ->
      ¬ a.boxes.length < AbstractBroker.capacity) :
    Serves (.createBox clientInput env) b [] a := by
  rcases h.good with ⟨cells, hgood, hnames⟩
  rcases h.files with ⟨files, hrefines, hfiles⟩
  have hmissing : clientInput.boxName.str ∉ boxNames cells := hnames ▸ hnot
  have hopen : files.openFile tfsDefaultParams (some clientInput.boxName.str) tfsOCreat =
      (-1, files) := by
    cases hvalid : validPathname (some clientInput.boxName.str) with
    | false => rw [AbstractFs.openFile, if_pos hvalid]
    | true =>
        have hheld : skipSlash (some clientInput.boxName.str) ∉ files.names :=
          fun hmem => hnot ((hfiles.named_iff hvalid).mp hmem)
        exact AbstractFs.openFile_noRoom hheld
          fun _ hcan => hfull hvalid ((hfiles.canCreate_iff hvalid).mp hcan)
  rcases hrefines.tfsOpen fitsMachine_default (by decide) hopen with ⟨fs1, hcreate, h1⟩
  rcases createBox_noFile hgood hmissing hfd hcreate with ⟨boxes, hserve⟩
  refine ⟨_, _, hserve, rfl, ?_, files, h1, hfiles⟩
  rcases createBox_absent hgood hmissing hfd with ⟨b1, hsame, hgood', _⟩ | ⟨b1, hother, _⟩
  · rw [hserve] at hsame
    cases hsame
    exact ⟨cells, hgood', hnames⟩
  · rw [hserve, answered, if_pos hwrites] at hother
    cases hother

theorem create_serves (h : Represents b a) (hfd : env.fd = some fd)
    (hnot : clientInput.boxName.str ∉ a.names) (hwrites : env.writes 0 = true) :
    Serves (.createBox clientInput env) b (a.createBox clientInput.boxName.str).1
      (a.createBox clientInput.boxName.str).2 := by
  rw [AbstractBroker.createBox, dif_pos hnot]
  split
  · rename_i hvalid
    split
    · rename_i hroom
      exact create_new h hfd hnot hwrites hvalid hroom
    · rename_i hfull
      exact create_noRoom h hfd hnot hwrites fun _ => hfull
  · rename_i hinvalid
    exact create_noRoom h hfd hnot hwrites fun hvalid => absurd hvalid hinvalid

/-!
### Removing a box
-/

theorem remove_known (h : Represents b a) (hfd : env.fd = some fd)
    (hmem : clientInput.boxName.str ∈ a.names) (hwrites : env.writes 0 = true) :
    Serves (.removeBox clientInput env) b [AbstractBroker.answer 0 ""]
      (a.remove clientInput.boxName.str) := by
  rcases h.good with ⟨cells, hgood, hnames⟩
  rcases h.files with ⟨files, hrefines, hfiles⟩
  rcases first_box clientInput.boxName.str cells with
    hnot | ⟨pre, c, box, post, hsplit, hname, _⟩
  · exact absurd (hnames ▸ hmem) hnot
  rw [hsplit] at hgood hnames
  have hvalid := hgood.valid (hgood.name_mem hname).left
  have hheld := (hfiles.named_iff hvalid).mpr hmem
  rcases hrefines.tfsOpen fitsMachine_default (by decide)
    (AbstractFs.openFile_append (by decide) hfiles.closed hvalid hheld) with ⟨fs1, hopen, h1⟩
  rcases h1.tfsClose (AbstractFs.closeFile_atEnd hfiles.closed) with ⟨fs2, hclose, h2⟩
  rw [AbstractFs.setContent_self] at h2
  have hremove : files.unlinkFile (some clientInput.boxName.str) =
      (0, { files with
        names := files.names.erase (skipSlash (some clientInput.boxName.str)) }) := by
    rw [AbstractFs.unlinkFile, if_pos ⟨hvalid, hheld⟩]
  rcases h2.tfsUnlink hfiles.closed hremove with ⟨fs3, hunlink, h3⟩
  rcases removeBox_files hgood hname hfd hopen hclose hunlink hwrites with ⟨boxes, head, hserve⟩
  refine ⟨_, _, hserve, sentTexts_answer 0 "" (by decide) (by decide) rfl, ?_, _, h3,
    hfiles.remove hvalid⟩
  rcases removeBox_existing hgood hname hfd with ⟨b1, hsame, hgood', _⟩
  rw [hserve, answered, if_pos hwrites] at hsame
  cases hsame
  refine ⟨pre ++ post, hgood', ?_⟩
  have hgone := hgood.not_inList_delete hname
  have hkept : forall held, held ∈ boxNames pre ++ boxNames post ->
      held ≠ clientInput.boxName.str := by
    rintro held hheld rfl
    exact hgone (by rwa [boxNames, List.map_append])
  have hpre := List.filter_eq_self.mpr fun held hmem =>
    decide_eq_true (hkept held (List.mem_append_left _ hmem))
  have hpost := List.filter_eq_self.mpr fun held hmem =>
    decide_eq_true (hkept held (List.mem_append_right _ hmem))
  rw [AbstractBroker.names_remove, ← hnames, boxNames_append, hname, List.filter_append, hpre,
    List.filter_cons_of_neg (by simp), hpost, boxNames, List.map_append]
  rfl

theorem remove_unknown (h : Represents b a) (hfd : env.fd = some fd)
    (hnot : clientInput.boxName.str ∉ a.names) (hwrites : env.writes 0 = true) :
    Serves (.removeBox clientInput env) b [AbstractBroker.answer (-1) "Box doesn't exist\n"] a := by
  rcases h.good with ⟨cells, hgood, hnames⟩
  rcases h.files with ⟨files, hrefines, hfiles⟩
  rcases removeBox_missing hgood (hnames ▸ hnot) hfd with ⟨b', hserve, hgood', hfs, _⟩
  rw [answered, if_pos hwrites] at hserve
  refine ⟨_, b', hserve, ?_, ⟨cells, hgood', hnames⟩, files, hfs.symm ▸ hrefines, hfiles⟩
  exact sentTexts_answer (-1) "Box doesn't exist\n" (by decide +kernel) (by decide +kernel) rfl

theorem remove_serves (h : Represents b a) (hfd : env.fd = some fd)
    (hwrites : env.writes 0 = true) :
    Serves (.removeBox clientInput env) b (a.removeBox clientInput.boxName.str).1
      (a.removeBox clientInput.boxName.str).2 := by
  rw [AbstractBroker.removeBox]
  split
  · rename_i hmem
    exact remove_known h hfd hmem hwrites
  · rename_i hnot
    exact remove_unknown h hfd hnot hwrites

/-!
### Publishing
-/

/-- The loop of a session appends these texts to whatever box is open. -/
def AppendsTexts (env : Env) (texts : List CStr) : Prop :=
  forall {fs : Fs} {files : AbstractFs} {held : CStr} {content : List UInt8},
    content.length <= boxSize -> Refines tfsDefaultParams fs (files.atEnd held content) ->
    exists fs', publishLoop 0 env.reads ((List.range bufferSize).map env.buffer) emptyStr fs =
        .ok fs' ∧
      Refines tfsDefaultParams fs' (files.atEnd held (boxAfter content texts))

theorem publish_session (h : Represents b a) (hfd : env.fd = some fd) {texts : List CStr}
    (hloop : clientInput.boxName.str ∈ a.names -> AppendsTexts env texts) :
    Serves (.regPublisher clientInput env) b [] (a.publish clientInput.boxName.str texts) := by
  rcases h.good with ⟨cells, hgood, hnames⟩
  rcases h.files with ⟨files, hrefines, hfiles⟩
  rcases first_box clientInput.boxName.str cells with
    hnot | ⟨pre, c, box, post, hsplit, hname, _⟩
  · rcases regPublisher_unknown hgood hnot hfd with ⟨boxes, hserve⟩
    rcases regPublisher_missing hgood hnot hfd with ⟨b', hsame, hgood', _⟩
    rw [hserve] at hsame
    cases hsame
    rw [AbstractBroker.publish_unknown (hnames ▸ hnot)]
    exact ⟨_, _, hserve, rfl, ⟨cells, hgood', hnames⟩, files, hrefines, hfiles⟩
  · rw [hsplit] at hgood hnames
    have hmem : clientInput.boxName.str ∈ a.names := hnames ▸ (hgood.name_mem hname).left
    have hvalid := hgood.valid (hgood.name_mem hname).left
    rcases AbstractBroker.mem_names.mp hmem with ⟨known, hknown, hsame⟩
    have hheld := (hfiles.named_iff hvalid).mpr hmem
    have hcontent : files.content (skipSlash (some clientInput.boxName.str)) = known.content := by
      rw [← hsame]
      exact hfiles.content known hknown
    rcases hrefines.tfsOpen fitsMachine_default (by decide)
      (AbstractFs.openFile_append (by decide) hfiles.closed hvalid hheld) with ⟨fs1, hopen, h1⟩
    rw [hcontent] at h1
    rcases hloop hmem known.fits h1 with ⟨fs2, hended, h2⟩
    rcases h2.tfsClose (AbstractFs.closeFile_atEnd hfiles.closed) with ⟨fs3, hclose, h3⟩
    rcases regPublisher_eq hgood hname hfd with ⟨boxes, _, _, heq⟩
    have hserve := heq fs1 hopen
    simp only [hended, hclose, ofFs_ok, ok_bind, pure_ok] at hserve
    have hgood' := ((regPublisher_existing hgood hname hfd).value hserve).right.left
    rw [← hsame] at h3 ⊢
    refine ⟨_, _, hserve, rfl, ⟨_, hgood', ?_⟩, _, h3, hfiles.publish hknown⟩
    rw [AbstractBroker.names_publish]
    exact hnames

theorem publish_serves (h : Represents b a) (hfd : env.fd = some fd)
    (hdelivers : clientInput.boxName.str ∈ a.names ->
      forall read, read ∈ env.reads -> Delivers read (ownMessage read)) :
    Serves (.regPublisher clientInput env) b []
      (a.publish clientInput.boxName.str (env.reads.map ownMessage)) :=
  publish_session h hfd fun hmem =>
    fun hfits hopened => publishLoop_refines (hdelivers hmem) hfits hopened _ emptyStr

/-!
### Listing
-/

theorem boxText_idle {box : Box} (last : Nat) (h : box.hasWriter = 0 ∧ box.nReaders = 0) :
    Clients.boxText last box =
      serializeListing listAnswer last box.boxName.str.bytes sizeofPointer 0 0 := by
  rw [Clients.boxText, h.left, h.right]
  rfl

/-- The frames of idle boxes hold the texts of the listing. -/
theorem listing_texts {linked : List Box} {frames : List (List UInt8)}
    {boxes : List AbstractBox} (hframes : Clients.FramesOf linked frames)
    (hquiet : forall box, box ∈ linked -> box.hasWriter = 0 ∧ box.nReaders = 0)
    (hnames : linked.map (fun box => box.boxName.str) = boxes.map AbstractBox.name) :
    frames.map (fun frame => (CStr.ofBuffer frame).bytes) = AbstractBroker.listing boxes := by
  induction hframes generalizing boxes with
  | @last box frame _ _ htext =>
      rcases boxes with _ | ⟨first, _ | ⟨second, rest⟩⟩
      · cases hnames
      · have hname := (List.cons.inj hnames).left
        simp only at hname
        rw [List.map_singleton, htext, boxText_idle 1 (hquiet box List.mem_cons_self), hname]
        rfl
      · cases (List.cons.inj hnames).right
  | @next box linked frame frames _ _ htext hrest ih =>
      rcases boxes with _ | ⟨first, _ | ⟨second, rest⟩⟩
      · cases hnames
      · have hnone : linked = [] := List.map_eq_nil_iff.mp (List.cons.inj hnames).right
        rw [hnone] at hrest
        cases hrest
      · have hname := (List.cons.inj hnames).left
        simp only at hname
        rw [List.map_cons, htext, boxText_idle 0 (hquiet box List.mem_cons_self), hname,
          ih (fun later hlater => hquiet later (List.mem_cons_of_mem _ hlater))
            (List.cons.inj hnames).right]
        rfl

theorem list_serves (h : Represents b a) (hfd : env.fd = some fd)
    (hwrites : forall n, env.writes n = true) :
    Serves (.listBox clientInput env) b a.listBox a := by
  rcases h.good with ⟨cells, hgood, hnames⟩
  cases cells with
  | nil =>
      have hhead : b.head = none := hgood.chain
      have hserve := Clients.listBox_empty hhead hfd hwrites clientInput
      have hboxes : a.boxes = [] := List.map_eq_nil_iff.mp hnames.symm
      refine ⟨_, b, hserve, ?_, h⟩
      rw [AbstractBroker.listBox, if_pos (by rw [hboxes]; rfl)]
      have htext : (CStr.ofBuffer (frame Clients.emptyText (env.behind 0))).bytes =
          Clients.emptyText :=
        (frame_text (by decide +kernel) (by decide +kernel) (env.behind 0)).right.right
      exact congrArg (fun text => [text]) htext
  | cons cell cells =>
      rcases Clients.listBox_boxes hgood.chain (List.cons_ne_nil _ _) hfd hwrites clientInput with
        ⟨frames, hserve, hframes⟩
      have hboxes : a.boxes.isEmpty = false := by
        cases hnone : a.boxes with
        | nil =>
            rw [AbstractBroker.names, hnone] at hnames
            cases hnames
        | cons first rest => rfl
      refine ⟨_, b, hserve, ?_, h⟩
      have hquiet : forall box, box ∈ (cell :: cells).map Prod.snd ->
          box.hasWriter = 0 ∧ box.nReaders = 0 := by
        intro box hbox
        rcases List.mem_map.mp hbox with ⟨linked, hlinked, hsame⟩
        exact hsame ▸ hgood.quiet hlinked
      have hsent : (Event.opened fd :: frames.map (Event.wrote fd) ++
          [Event.closed fd]).filterMap written = frames.map fun frame => (fd, frame) := by
        have hmap : written ∘ Event.wrote fd = some ∘ fun frame => (fd, frame) := rfl
        rw [List.cons_append, List.filterMap_cons_none rfl, List.filterMap_append,
          List.filterMap_map, hmap, List.filterMap_eq_map, List.filterMap_cons_none rfl,
          List.filterMap_nil, List.append_nil]
      rw [AbstractBroker.listBox, hboxes, sentTexts, hsent, List.map_map]
      refine listing_texts hframes hquiet ?_
      rw [List.map_map]
      exact hnames

/-- A request whose pipe cannot be opened does nothing. -/
theorem closed_serves (h : Represents b a) {request : Request}
    (hserve : serve request b = .ok ([], b)) : Serves request b [] a :=
  ⟨[], b, hserve, rfl, h⟩

/-- An allowed request succeeds with the texts of the abstract broker. -/
theorem represents_simulates :
    Simulates serveTexts AbstractBroker.step AbstractBroker.Allowed Represents := by
  intro request b a h hallowed
  apply Serves.serveTexts
  cases request with
  | createBox clientInput env =>
      cases hfd : env.fd with
      | none =>
          simp only [AbstractBroker.step, hfd]
          exact closed_serves h (by simp [serve, createBox, hfd])
      | some fd =>
          rcases hallowed (by rw [hfd]; rfl) with ⟨hnot, hwrites⟩
          simp only [AbstractBroker.step, hfd]
          exact create_serves h hfd hnot hwrites
  | removeBox clientInput env =>
      cases hfd : env.fd with
      | none =>
          rcases h.good with ⟨cells, hgood, _⟩
          simp only [AbstractBroker.step, hfd]
          exact closed_serves h (by simp [serve, removeBox, hfd, iterateBox_chain hgood.chain])
      | some fd =>
          simp only [AbstractBroker.step, hfd]
          exact remove_serves h hfd (hallowed (by rw [hfd]; rfl))
  | listBox clientInput env =>
      cases hfd : env.fd with
      | none =>
          simp only [AbstractBroker.step, hfd]
          exact closed_serves h (by simp [serve, listBox, hfd])
      | some fd =>
          simp only [AbstractBroker.step, hfd]
          exact list_serves h hfd (hallowed (by rw [hfd]; rfl))
  | regPublisher clientInput env =>
      cases hfd : env.fd with
      | none =>
          simp only [AbstractBroker.step, hfd]
          exact closed_serves h (by simp [serve, regPublisher, hfd])
      | some fd =>
          simp only [AbstractBroker.step, hfd]
          exact publish_serves h hfd (hallowed (by rw [hfd]; rfl))

end Steps

/-- The broker that starts has no boxes. -/
theorem represents_start {mem : Mallocs} {fs0 fs : Fs}
    (hinit : tfsInit none mem fs0 = .ok (0, fs)) :
    Represents (start fs) AbstractBroker.empty :=
  ⟨⟨[], good_start hinit, rfl⟩, AbstractFs.empty,
    Refines.initial (tfsInit_initial hinit) fitsMachine_default, FilesOf.initial⟩

/-- From the start, every allowed sequence of requests succeeds, sends the texts of the
abstract broker, and ends in a state that represents its boxes. -/
theorem requests_refine {mem : Mallocs} {fs0 fs : Fs}
    (hinit : tfsInit none mem fs0 = .ok (0, fs)) {requests : List Request}
    (hallowed : AllowedRun AbstractBroker.step AbstractBroker.Allowed requests
      AbstractBroker.empty) :
    exists b', run serveTexts requests (start fs) =
        .ok ((absRun AbstractBroker.step requests AbstractBroker.empty).1, b') ∧
      Represents b' (absRun AbstractBroker.step requests AbstractBroker.empty).2 :=
  Simulates.run represents_simulates (represents_start hinit) hallowed

/-- A request to remove {lit}`/a`, and one to list the boxes. -/
def removeA : Request := .removeBox argsA (openEnv [])

def listAll : Request := .listBox argsA (openEnv [])

/-- A box is created, published to, listed, removed and listed again. -/
def sessionRequests : List Request := [createA, publishHi, listAll, removeA, listAll]

theorem sessionRequests_allowed :
    AllowedRun AbstractBroker.step AbstractBroker.Allowed sessionRequests
      AbstractBroker.empty := by
  refine ⟨fun _ => ⟨List.not_mem_nil, rfl⟩, fun _ _ read hread => ?_, fun _ _ => rfl,
    fun _ => rfl, fun _ _ => rfl, trivial⟩
  have hbytes : read.bytes = [] ++ hiLine.message :=
    congrArg Chunk.bytes (List.mem_singleton.mp hread)
  have hdelivers := hiLine.delivers hbytes fun c hc => absurd hc List.not_mem_nil
  rw [ownMessage_eq hdelivers]
  exact hdelivers

theorem requests_refine_session : exists b',
    run serveTexts sessionRequests (start defaultFs) =
      .ok ([[ascii "4 0 "], [], [ascii "8 1 /a 8 0 0"], [ascii "4 0 "], [ascii "8 1  0 0 0"]],
        b') := by
  rcases requests_refine defaultInit sessionRequests_allowed with ⟨b', hrun, _⟩
  have htexts : (absRun AbstractBroker.step sessionRequests AbstractBroker.empty).1 =
      [[ascii "4 0 "], [], [ascii "8 1 /a 8 0 0"], [ascii "4 0 "], [ascii "8 1  0 0 0"]] := by
    decide +kernel
  exact ⟨b', htexts ▸ hrun⟩

end System

end TecnicoFs
