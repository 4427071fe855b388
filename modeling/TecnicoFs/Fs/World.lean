import Mathlib.Logic.Function.Basic
import TecnicoFs.Fs.Files

/-!
# Runs with their history

The state forgets which file a handle was opened on and which inodes were ever in
use.  A world pairs the state with that history.  The history is only an
observer: the calls never read it.
-/

namespace TecnicoFs

open Library

/-- The inode that the call creates as a file, whether or not the creation of the
file then succeeds. -/
def createdInode (call : Call) (fs : Fs) : Option Int :=
  match call with
  | .open name mode =>
      if validPathname name && hasFlag mode tfsOCreat then
        match tfsLookup name rootDirInum fs, inodeCreate .file fs with
        | .ok inum, .ok (created, _) =>
            if 0 <= inum ∨ created = -1 then none else some created
        | _, _ => none
      else none
  | _ => none

/-- The directory has a file of this name. -/
def present (name : CStr) (fs : Fs) : Bool :=
  match findInDir rootDirInum name fs with
  | .ok inum => 0 <= inum
  | .error _ => false

structure History where
  /-- The number of calls made so far. -/
  clock : Nat
  /-- The inodes that were created as files. -/
  inodes : List Int
  /-- The call that created each file of the directory. -/
  files : CStr -> Option Nat
  /-- The name and the file that each handle was opened on. -/
  opened : Nat -> Option (CStr × Nat)

namespace History

def empty : History where
  clock := 0
  inodes := []
  files := fun _ => none
  opened := fun _ => none

def afterFiles (hist : History) (call : Call) (reply : Reply) (fs' : Fs) :
    CStr -> Option Nat :=
  match call with
  | .open name _ =>
      if validPathname name && (hist.files (skipSlash name)).isNone &&
          present (skipSlash name) fs' then
        Function.update hist.files (skipSlash name) (some hist.clock)
      else hist.files
  | .unlink target =>
      if reply.ret = 0 then Function.update hist.files (skipSlash target) none
      else hist.files
  | _ => hist.files

def afterOpened (hist : History) (call : Call) (reply : Reply) (fs' : Fs) :
    Nat -> Option (CStr × Nat) :=
  match call with
  | .open name _ =>
      if 0 <= reply.ret then
        Function.update hist.opened reply.ret.toNat
          ((hist.afterFiles call reply fs' (skipSlash name)).map (skipSlash name, ·))
      else hist.opened
  | .close fhandle =>
      if reply.ret = 0 then Function.update hist.opened fhandle.toNat none
      else hist.opened
  | _ => hist.opened

def after (hist : History) (call : Call) (reply : Reply) (fs fs' : Fs) : History where
  clock := hist.clock + 1
  inodes := (createdInode call fs).toList ++ hist.inodes
  files := hist.afterFiles call reply fs'
  opened := hist.afterOpened call reply fs'

end History

structure World where
  fs : Fs
  history : History

namespace World

def start (fs : Fs) : World := ⟨fs, History.empty⟩

def exec (call : Call) (w : World) : Res (Reply × World) := do
  let (reply, fs) <- TecnicoFs.exec call w.fs
  pure (reply, ⟨fs, w.history.after call reply w.fs fs⟩)

/-- The inodes that were created as files in the run so far. -/
def made (w : World) (k : Nat) : Prop := (k : Int) ∈ w.history.inodes

/-- Handle `fhandle` was opened on the file that call `id` created as `name`. -/
def OpenedOn (w : World) (fhandle : Nat) (name : CStr) (id : Nat) : Prop :=
  w.history.opened fhandle = some (name, id)

/-- The file that call `id` created as `name` is in the directory. -/
def HasFile (w : World) (name : CStr) (id : Nat) : Prop :=
  w.history.files name = some id

end World

def runWorld : List Call -> World -> Res (List Reply × World) := run World.exec

/-- The worlds that calls lead to from a successful {lit}`tfs_init`. -/
def Reachable (w : World) : Prop :=
  exists paramsPtr mem fs fs0 calls replies,
    tfsInit paramsPtr mem fs = .ok (0, fs0) ∧
      runWorld calls (World.start fs0) = .ok (replies, w)

theorem World.exec_ok {call : Call} {w w' : World} {reply : Reply} :
    World.exec call w = .ok (reply, w') <->
      TecnicoFs.exec call w.fs = .ok (reply, w'.fs) ∧
        w'.history = w.history.after call reply w.fs w'.fs := by
  unfold World.exec
  rw [bind_eq_ok]
  constructor
  · rintro ⟨⟨reply', fs'⟩, hexec, hw⟩
    cases hw
    exact ⟨hexec, rfl⟩
  · rintro ⟨hexec, hhist⟩
    refine ⟨(reply, w'.fs), hexec, ?_⟩
    simp [← hhist]

/-- The history is an observer: runs with it are runs without it. -/
theorem runWorld_erase {calls : List Call} {w : World} {replies : List Reply} {fs' : Fs} :
    runCalls calls w.fs = .ok (replies, fs') <->
      exists w', runWorld calls w = .ok (replies, w') ∧ w'.fs = fs' := by
  induction calls generalizing w replies with
  | nil =>
      constructor
      · intro h
        rcases run_nil_ok.mp h with ⟨hrs, hfs⟩
        exact ⟨w, run_nil_ok.mpr ⟨hrs, rfl⟩, hfs.symm⟩
      · rintro ⟨w', h, hfs⟩
        rcases run_nil_ok.mp h with ⟨hrs, hw⟩
        exact run_nil_ok.mpr ⟨hrs, by rw [← hfs, hw]⟩
  | cons call calls ih =>
      constructor
      · intro h
        rcases run_cons_ok.mp h with ⟨r, fs1, rs, hexec, hrest, hrs⟩
        rcases (ih (w := ⟨fs1, w.history.after call r w.fs fs1⟩)).mp hrest with
          ⟨w', hrun, hfs⟩
        have hfirst : World.exec call w = .ok (r, ⟨fs1, w.history.after call r w.fs fs1⟩) :=
          World.exec_ok.mpr ⟨hexec, rfl⟩
        exact ⟨w', run_cons_ok.mpr ⟨r, _, rs, hfirst, hrun, hrs⟩, hfs⟩
      · rintro ⟨w', h, hfs⟩
        rcases run_cons_ok.mp h with ⟨r, w1, rs, hexec, hrest, hrs⟩
        have hrest' := (ih (w := w1)).mpr ⟨w', hrest, hfs⟩
        exact run_cons_ok.mpr ⟨r, w1.fs, rs, (World.exec_ok.mp hexec).left, hrest', hrs⟩

/-!
## Inodes created as files
-/

section Created

variable {made : Nat -> Prop} {fs fs' : Fs}

theorem present_iff (h : Inv made fs) {name : CStr} :
    present name fs = true <-> exists i k, Listed fs i name k := by
  rcases h.directory with ⟨used, hdir⟩
  rcases listed_or_absent fs name with ⟨i, k, hlisted⟩ | habsent
  · constructor
    · intro _
      exact ⟨i, k, hlisted⟩
    · intro _
      simp [present, findInDir_listed h.layout hdir hlisted]
  · constructor
    · intro hpresent
      simp [present, findInDir_absent h.layout hdir habsent] at hpresent
    · rintro ⟨i, k, hlisted⟩
      exact absurd hlisted (habsent i k)

/-- An open that does not reach {lit}`inode_create` creates no inode. -/
theorem createdInode_none (h : Inv made fs) {name : Option CStr} {mode : Nat}
    (hnot : validPathname name = false ∨ hasFlag mode tfsOCreat = false ∨
      (validPathname name = true ∧ ¬ Absent fs (skipSlash name)) ∨
        NowhereAt fs.freeinodeTs fs.inodeTableSize .free) :
    createdInode (.open name mode) fs = none := by
  rcases h.directory with ⟨used, hdir⟩
  rcases hnot with hbad | hflag | ⟨hvalid, hlisted⟩ | hnone
  · simp [createdInode, hbad]
  · simp [createdInode, hflag]
  · rcases listed_or_absent fs (skipSlash name) with ⟨i, k, hi⟩ | habsent
    · simp only [createdInode, tfsLookup_eq hvalid, findInDir_listed h.layout hdir hi]
      cases inodeCreate .file fs with
      | error _ => simp
      | ok created => simp
    · exact absurd habsent hlisted
  · simp only [createdInode, inodeCreate_nowhere h.layout .file hnone]
    cases tfsLookup name rootDirInum fs with
    | error _ => simp
    | ok inum => simp

theorem createdInode_some (h : Inv made fs) {name : Option CStr} {mode k : Nat}
    (hvalid : validPathname name = true) (habsent : Absent fs (skipSlash name))
    (hflag : hasFlag mode tfsOCreat = true)
    (hfirst : FirstAt fs.freeinodeTs fs.inodeTableSize .free k) (hint : k < intLimit)
    (hlt : k < fs.inodeTable.length) : createdInode (.open name mode) fs = some (k : Int) := by
  rcases h.directory with ⟨used, hdir⟩
  have hne : (k : Int) ≠ -1 := by omega
  simp [createdInode, hvalid, hflag, tfsLookup_eq hvalid,
    findInDir_absent h.layout hdir habsent, inodeCreate_file h.layout hfirst hint hlt, hne]

theorem Inv.of_made_iff {made' : Nat -> Prop} (h : Inv made fs)
    (hiff : forall k, made k <-> made' k) : Inv made' fs := by
  have heq : made = made' := funext fun k => propext (hiff k)
  exact heq ▸ h

/-- Every call keeps the invariant, for the inodes created so far. -/
theorem Inv.step (h : Inv made fs) {call : Call} {reply : Reply}
    (hstep : Step fs call reply fs') :
    Inv (fun k => made k ∨ createdInode call fs = some (k : Int)) fs' := by
  have hquiet : createdInode call fs = none -> Inv made fs' ->
      Inv (fun k => made k ∨ createdInode call fs = some (k : Int)) fs' := by
    intro hnone hinv
    apply hinv.of_made_iff
    intro k
    simp [hnone]
  have hnew : forall {k : Nat}, createdInode call fs = some (k : Int) ->
      Inv (fun j => made j ∨ j = k) fs' ->
      Inv (fun j => made j ∨ createdInode call fs = some (j : Int)) fs' := by
    intro k hsome hinv
    apply hinv.of_made_iff
    intro j
    rw [hsome, Option.some_inj, Int.ofNat_inj, eq_comm (a := j)]
  cases hstep with
  | «open» hopen =>
      cases hopen with
      | badPath hbad => exact hquiet (createdInode_none h (Or.inl hbad)) h
      | existing hvalid hlisted hk htrunc hhandle =>
          rcases h.inode_of_listed hlisted with ⟨hne, htaken, _, inode1, hk1, hfile⟩
          have hpresent : ¬ Absent fs (skipSlash _) := fun habsent => habsent _ _ hlisted
          refine hquiet (createdInode_none h (Or.inr (Or.inr (Or.inl ⟨hvalid, hpresent⟩)))) ?_
          rw [Inv.inode_unique hk1 hk] at hfile
          have hsize := Nat.lt_of_le_of_lt (Inv.truncateStep_size htrunc) (h.size_lt hfile)
          refine (h.truncateStep hne htaken hk htrunc).handleStep
            (h.storage.takenMade htaken hne) ?_ hhandle
          split
          · exact hsize
          · decide
      | absent _ _ hflag => exact hquiet (createdInode_none h (Or.inr (Or.inl hflag))) h
      | noInode _ _ _ hnone =>
          exact hquiet (createdInode_none h (Or.inr (Or.inr (Or.inr hnone)))) h
      | notEntered hvalid habsent hflag hfirst hint hlt _ =>
          exact hnew (createdInode_some h hvalid habsent hflag hfirst hint hlt)
            (h.resetInode hfirst hint hlt)
      | created hvalid habsent hflag hfirst hint hlt hfits hslot hhandle =>
          refine hnew (createdInode_some h hvalid habsent hflag hfirst hint hlt) ?_
          exact (h.createFile habsent hfirst hint hlt hfits hslot).handleStep (Or.inr rfl)
            (by decide) hhandle
  | close hclose => exact hquiet rfl (h.closeStep hclose)
  | read hread => exact hquiet rfl (h.readStep hread)
  | write hwrite => exact hquiet rfl (h.writeStep hwrite)
  | unlink hunlink => exact hquiet rfl (h.unlinkStep hunlink)

end Created

/-!
## The files of the history
-/

/-- The history names exactly the files of the directory, and the handles that
were opened on files still there reach their inodes. -/
structure Tracked (w : World) : Prop where
  file : forall {name}, (exists id, w.HasFile name id) <->
    exists i k, Listed w.fs i name k
  old : forall {name id}, w.HasFile name id -> id < w.history.clock
  distinct : forall {name name' id}, w.HasFile name id -> w.HasFile name' id -> name = name'
  known : forall {h e}, OpenAt w.fs h e -> exists name id, w.OpenedOn h name id
  past : forall {h name id}, w.OpenedOn h name id -> id < w.history.clock
  live : forall {h e name id}, OpenAt w.fs h e -> w.OpenedOn h name id ->
    w.HasFile name id -> exists i k, Listed w.fs i name k ∧ e.ofInumber = k

/-- What a step must show about files and handles to keep the history in step. -/
theorem Tracked.next {w w' : World} (h : Tracked w)
    (hclock : w'.history.clock = w.history.clock + 1)
    (hfile : forall {name}, (exists id, w'.HasFile name id) <->
      exists i k, Listed w'.fs i name k)
    (hfrom : forall {name id}, w'.HasFile name id ->
      w.HasFile name id ∨ id = w.history.clock)
    (hnew : forall {name name'}, w'.HasFile name w.history.clock ->
      w'.HasFile name' w.history.clock -> name = name')
    (hkeep : forall {name id i k}, w'.HasFile name id -> w.HasFile name id ->
      Listed w.fs i name k -> exists j, Listed w'.fs j name k)
    (hopen : forall {fh e}, OpenAt w'.fs fh e ->
      (exists e0, OpenAt w.fs fh e0 ∧ e.ofInumber = e0.ofInumber ∧
        w'.history.opened fh = w.history.opened fh) ∨
      exists name id i k, w'.OpenedOn fh name id ∧ w'.HasFile name id ∧
        Listed w'.fs i name k ∧ e.ofInumber = k)
    (hpast : forall {fh name id}, w'.OpenedOn fh name id ->
      w.OpenedOn fh name id ∨ w'.HasFile name id) : Tracked w' := by
  have hold : forall {name id}, w'.HasFile name id -> id < w'.history.clock := by
    intro name id hname
    rcases hfrom hname with hbefore | heq
    · have hlt := h.old hbefore
      omega
    · omega
  constructor
  · exact hfile
  · exact hold
  · intro name name' id hname hname'
    rcases hfrom hname with hbefore | heq
    · rcases hfrom hname' with hbefore' | heq'
      · exact h.distinct hbefore hbefore'
      · have hlt := h.old hbefore
        omega
    · rw [heq] at hname hname'
      exact hnew hname hname'
  · intro fh e hfh
    rcases hopen hfh with ⟨e0, hfh0, _, hsame⟩ | ⟨name, id, _, _, hname, _⟩
    · rcases h.known hfh0 with ⟨name, id, hname⟩
      exact ⟨name, id, hsame.trans hname⟩
    · exact ⟨name, id, hname⟩
  · intro fh name id hname
    rcases hpast hname with hbefore | hthere
    · have hlt := h.past hbefore
      omega
    · exact hold hthere
  · intro fh e name id hfh hname hthere
    rcases hopen hfh with ⟨e0, hfh0, hinum, hsame⟩ | ⟨name', id', i, k, hname', _, hlisted, hk⟩
    · have hname0 : w.OpenedOn fh name id := hsame.symm.trans hname
      have hlt := h.past hname0
      rcases hfrom hthere with hbefore | heq
      · rcases h.live hfh0 hname0 hbefore with ⟨i, k, hlisted, hk⟩
        rcases hkeep hthere hbefore hlisted with ⟨j, hlisted'⟩
        exact ⟨j, k, hlisted', hinum.trans hk⟩
      · omega
    · have hsame : (name', id') = (name, id) := Option.some.inj (hname'.symm.trans hname)
      cases hsame
      exact ⟨i, k, hlisted, hk⟩

/-- Steps that leave the directory and the files of the history alone. -/
theorem Tracked.sameFiles {w w' : World} (h : Tracked w)
    (hclock : w'.history.clock = w.history.clock + 1)
    (hfiles : w'.history.files = w.history.files)
    (hlisted : forall i name k, Listed w'.fs i name k <-> Listed w.fs i name k)
    (hopen : forall {fh e}, OpenAt w'.fs fh e ->
      (exists e0, OpenAt w.fs fh e0 ∧ e.ofInumber = e0.ofInumber ∧
        w'.history.opened fh = w.history.opened fh) ∨
      exists name id i k, w'.OpenedOn fh name id ∧ w'.HasFile name id ∧
        Listed w'.fs i name k ∧ e.ofInumber = k)
    (hpast : forall {fh name id}, w'.OpenedOn fh name id ->
      w.OpenedOn fh name id ∨ w'.HasFile name id) : Tracked w' := by
  have hhas : forall {name id}, w'.HasFile name id <-> w.HasFile name id := by
    intro name id
    rw [World.HasFile, World.HasFile, hfiles]
  refine h.next hclock ?_ (fun hname => Or.inl (hhas.mp hname)) ?_ ?_ hopen hpast
  · intro name
    simp only [hhas, hlisted]
    exact h.file
  · intro name name' hname hname'
    exact h.distinct (hhas.mp hname) (hhas.mp hname')
  · intro name id i k _ _ hi
    exact ⟨i, (hlisted i name k).mpr hi⟩

/-!
## The history keeps in step
-/

section History

variable {w w' : World}

/-- An open that leaves the directory alone creates no file. -/
theorem afterFiles_same {name : Option CStr} (mode : Nat) (reply : Reply)
    {made' : Nat -> Prop} {fs' : Fs} (h : Tracked w) (hinv' : Inv made' fs')
    (hlisted : forall i held k, Listed fs' i held k <-> Listed w.fs i held k) :
    w.history.afterFiles (.open name mode) reply fs' = w.history.files := by
  unfold History.afterFiles
  by_cases hvalid : validPathname name = true
  · cases hfile : w.history.files (skipSlash name) with
    | some id => simp [hfile]
    | none =>
        have hnot : present (skipSlash name) fs' = false := by
          rw [← Bool.not_eq_true, present_iff hinv']
          rintro ⟨i, k, hi⟩
          rcases h.file.mpr ⟨i, k, (hlisted i _ k).mp hi⟩ with ⟨id, hid⟩
          rw [World.HasFile, hfile] at hid
          cases hid
        simp [hnot]
  · simp [hvalid]

/-- An open that enters a new name creates a file. -/
theorem afterFiles_created {name : Option CStr} (mode : Nat) (reply : Reply)
    {made' : Nat -> Prop} {fs' : Fs} (h : Tracked w) (hinv' : Inv made' fs')
    (hvalid : validPathname name = true) (habsent : Absent w.fs (skipSlash name)) {j k : Nat}
    (hj : Listed fs' j (skipSlash name) k) :
    w.history.afterFiles (.open name mode) reply fs' =
      Function.update w.history.files (skipSlash name) (some w.history.clock) := by
  have hnone : w.history.files (skipSlash name) = none := by
    cases hfile : w.history.files (skipSlash name) with
    | none => rfl
    | some id =>
        rcases h.file.mp ⟨id, hfile⟩ with ⟨i, m, hi⟩
        exact absurd hi (habsent i m)
  have hpresent := (present_iff hinv').mpr ⟨j, k, hj⟩
  simp [History.afterFiles, hvalid, hnone, hpresent]

/-- A call that opens no handle keeps what the open handles were opened on. -/
theorem Tracked.quiet {call : Call} {reply : Reply} (h : Tracked w)
    (hhist : w'.history = w.history.after call reply w.fs w'.fs)
    (hfiles : w.history.afterFiles call reply w'.fs = w.history.files)
    (hopened : w.history.afterOpened call reply w'.fs = w.history.opened)
    (hlisted : forall i held k, Listed w'.fs i held k <-> Listed w.fs i held k)
    (hopen : forall {fh e}, OpenAt w'.fs fh e ->
      exists e0, OpenAt w.fs fh e0 ∧ e.ofInumber = e0.ofInumber) : Tracked w' := by
  have hopened' : w'.history.opened = w.history.opened := by
    rw [hhist]
    exact hopened
  refine h.sameFiles (by rw [hhist]; rfl) (by rw [hhist]; exact hfiles) hlisted ?_ ?_
  · intro fh e hfh
    rcases hopen hfh with ⟨e0, hfh0, hinum⟩
    exact Or.inl ⟨e0, hfh0, hinum, by rw [hopened']⟩
  · intro fh name id hname
    left
    rw [World.OpenedOn, ← hopened']
    exact hname

/-- The handles after an open that reached the open-file table. -/
theorem handles_afterOpen {name : Option CStr} {mode k offset : Nat} {r : Int} {fs1 : Fs}
    {made1 : Nat -> Prop} {id : Nat}
    (hhist : w'.history = w.history.after (.open name mode) ⟨r, []⟩ w.fs w'.fs)
    (hinv1 : Inv made1 fs1) (hhandle : HandleStep fs1 k offset r w'.fs)
    (hsame : forall {fh e}, OpenAt fs1 fh e <-> OpenAt w.fs fh e)
    (hfile : w'.HasFile (skipSlash name) id) {i : Nat}
    (hlisted : Listed w'.fs i (skipSlash name) k) :
    (forall {fh e}, OpenAt w'.fs fh e ->
      (exists e0, OpenAt w.fs fh e0 ∧ e.ofInumber = e0.ofInumber ∧
        w'.history.opened fh = w.history.opened fh) ∨
      exists held id i k, w'.OpenedOn fh held id ∧ w'.HasFile held id ∧
        Listed w'.fs i held k ∧ e.ofInumber = k) ∧
    (forall {fh held id}, w'.OpenedOn fh held id ->
      w.OpenedOn fh held id ∨ w'.HasFile held id) := by
  have hfiles : w.history.afterFiles (.open name mode) ⟨r, []⟩ w'.fs (skipSlash name) =
      some id := by
    rw [World.HasFile, hhist] at hfile
    exact hfile
  have hopened : forall fh : Nat, w'.history.opened fh =
      if r = fh then some (skipSlash name, id) else w.history.opened fh := by
    intro fh
    rw [hhist]
    change w.history.afterOpened (.open name mode) ⟨r, []⟩ w'.fs fh = _
    rcases hhandle.result with hneg | ⟨fh0, hr⟩
    · have hne : ¬ ((-1 : Int) = fh) := by omega
      simp [History.afterOpened, hneg, hne]
    · rw [hr] at hfiles ⊢
      by_cases heq : fh = fh0
      · simp [History.afterOpened, heq, hfiles]
      · have hne : ¬ ((fh0 : Int) = fh) := by omega
        simp [History.afterOpened, heq, hne]
  constructor
  · intro fh e hfh
    rcases (hhandle.openAt hinv1).mp hfh with ⟨hr, he⟩ | ⟨hne, hold⟩
    · right
      refine ⟨skipSlash name, id, i, k, ?_, hfile, hlisted, by rw [he]⟩
      rw [World.OpenedOn, hopened, if_pos hr]
    · left
      exact ⟨e, hsame.mp hold, rfl, by rw [hopened, if_neg hne]⟩
  · intro fh held id' hname
    rw [World.OpenedOn, hopened] at hname
    split at hname
    · right
      cases hname
      exact hfile
    · exact Or.inl hname

theorem afterOpened_failed {name : Option CStr} {mode : Nat} {fs' : Fs} :
    w.history.afterOpened (.open name mode) ⟨-1, []⟩ fs' = w.history.opened := by
  simp [History.afterOpened]

/-- An open of a file of the directory. -/
theorem Tracked.openExisting {made' : Nat -> Prop} {name : Option CStr} {mode i k : Nat} {r : Int}
    {inode inode' : Inode} {fs1 : Fs} (h : Tracked w) (hinv : Inv w.made w.fs)
    (hinv' : Inv made' w'.fs)
    (hhist : w'.history = w.history.after (.open name mode) ⟨r, []⟩ w.fs w'.fs)
    (hlisted : Listed w.fs i (skipSlash name) k) (hk : w.fs.inodeTable[k]? = some inode)
    (htrunc : TruncateStep w.fs k inode mode inode' fs1)
    (hhandle : HandleStep fs1 k (if hasFlag mode tfsOAppend then inode'.iSize else 0) r w'.fs) :
    Tracked w' := by
  have hsame : forall i held m, Listed w'.fs i held m <-> Listed w.fs i held m :=
    fun _ _ _ => hhandle.sameStorage.listed.trans htrunc.listed
  have hfiles' : w'.history.files = w.history.files := by
    rw [hhist]
    exact afterFiles_same mode ⟨r, []⟩ h hinv' hsame
  rcases h.file.mpr ⟨i, k, hlisted⟩ with ⟨id, hid⟩
  have hid' : w'.HasFile (skipSlash name) id := by
    rw [World.HasFile, hfiles']
    exact hid
  rcases hinv.inode_of_listed hlisted with ⟨hne, htaken, _⟩
  have hinv1 := hinv.truncateStep hne htaken hk htrunc
  rcases handles_afterOpen hhist hinv1 hhandle htrunc.openAt hid'
    ((hsame i _ k).mpr hlisted) with ⟨hopen, hpast⟩
  exact h.sameFiles (by rw [hhist]; rfl) hfiles' hsame hopen hpast

/-- An open that creates a file. -/
theorem Tracked.openCreated {made' : Nat -> Prop} {name : Option CStr} {mode j k : Nat} {r : Int}
    (h : Tracked w) (hinv : Inv w.made w.fs) (hinv' : Inv made' w'.fs)
    (hhist : w'.history = w.history.after (.open name mode) ⟨r, []⟩ w.fs w'.fs)
    (hvalid : validPathname name = true) (habsent : Absent w.fs (skipSlash name))
    (hfirst : FirstAt w.fs.freeinodeTs w.fs.inodeTableSize .free k) (hint : k < intLimit)
    (hlt : k < w.fs.inodeTable.length) (hfits : FitsEntry (skipSlash name))
    (hslot : FreeSlot w.fs.fsData w.fs.maxDirEntries j)
    (hhandle : HandleStep (w.fs.createFile j (skipSlash name) k) k 0 r w'.fs) : Tracked w' := by
  have hlisted : forall i held m, Listed w'.fs i held m <->
      (i = j ∧ held = skipSlash name ∧ m = k) ∨ (i ≠ j ∧ Listed w.fs i held m) :=
    fun _ _ _ => hhandle.sameStorage.listed.trans (Inv.listed_createFile hfits hint hslot)
  have hnew : Listed w'.fs j (skipSlash name) k :=
    (hlisted j _ k).mpr (Or.inl ⟨rfl, rfl, rfl⟩)
  have hfiles' : w'.history.files =
      Function.update w.history.files (skipSlash name) (some w.history.clock) := by
    rw [hhist]
    exact afterFiles_created mode ⟨r, []⟩ h hinv' hvalid habsent hnew
  have hid' : w'.HasFile (skipSlash name) w.history.clock := by
    rw [World.HasFile, hfiles', Function.update_self]
  have hother : forall {held : CStr} {id : Nat}, held ≠ skipSlash name ->
      (w'.HasFile held id <-> w.HasFile held id) := by
    intro held id hne
    rw [World.HasFile, World.HasFile, hfiles', Function.update_of_ne hne]
  have hinv1 := hinv.createFile habsent hfirst hint hlt hfits hslot
  have hsame : forall {fh e}, OpenAt (w.fs.createFile j (skipSlash name) k) fh e <->
      OpenAt w.fs fh e :=
    OpenAt.frame w.fs (w.fs.createFile j (skipSlash name) k) rfl rfl rfl
  rcases handles_afterOpen hhist hinv1 hhandle hsame hid' hnew with ⟨hopen, hpast⟩
  refine h.next (by rw [hhist]; rfl) ?_ ?_ ?_ ?_ hopen hpast
  · intro held
    by_cases hheld : held = skipSlash name
    · rw [hheld]
      exact ⟨fun _ => ⟨j, k, hnew⟩, fun _ => ⟨_, hid'⟩⟩
    · simp only [hother hheld, h.file, hlisted, hheld, false_and, and_false, false_or]
      constructor
      · rintro ⟨i, m, hi⟩
        refine ⟨i, m, ?_, hi⟩
        intro hij
        exact hi.entry.ne_free (hij ▸ hslot.right.left)
      · rintro ⟨i, m, _, hi⟩
        exact ⟨i, m, hi⟩
  · intro held id hid
    by_cases hheld : held = skipSlash name
    · right
      rw [hheld, World.HasFile, hfiles', Function.update_self] at hid
      exact (Option.some.inj hid).symm
    · exact Or.inl ((hother hheld).mp hid)
  · intro held held' hid hid'
    have heq : forall {held : CStr}, w'.HasFile held w.history.clock ->
        held = skipSlash name := by
      intro held hid
      by_contra hheld
      exact Nat.lt_irrefl _ (h.old ((hother hheld).mp hid))
    rw [heq hid, heq hid']
  · intro held id i m hid hold hi
    refine ⟨i, (hlisted i held m).mpr (Or.inr ⟨?_, hi⟩)⟩
    intro hij
    exact hi.entry.ne_free (hij ▸ hslot.right.left)

theorem Tracked.openStep {made' : Nat -> Prop} {name : Option CStr} {mode : Nat} {r : Int}
    (h : Tracked w) (hinv : Inv w.made w.fs) (hinv' : Inv made' w'.fs)
    (hhist : w'.history = w.history.after (.open name mode) ⟨r, []⟩ w.fs w'.fs)
    (hstep : OpenStep w.fs name mode r w'.fs) : Tracked w' := by
  have hquiet : r = -1 -> (forall i held k, Listed w'.fs i held k <-> Listed w.fs i held k) ->
      (forall {fh e}, OpenAt w'.fs fh e -> OpenAt w.fs fh e) -> Tracked w' := by
    intro hr hlisted hopen
    rw [hr] at hhist
    exact h.quiet hhist (afterFiles_same mode _ h hinv' hlisted) afterOpened_failed hlisted
      (fun hfh => ⟨_, hopen hfh, rfl⟩)
  generalize hfs' : w'.fs = fs' at hstep
  cases hstep with
  | badPath _ =>
      exact hquiet rfl (fun _ _ _ => by rw [hfs']) (fun hfh => by rwa [hfs'] at hfh)
  | absent _ _ _ =>
      exact hquiet rfl (fun _ _ _ => by rw [hfs']) (fun hfh => by rwa [hfs'] at hfh)
  | noInode _ _ _ _ =>
      exact hquiet rfl (fun _ _ _ => by rw [hfs']) (fun hfh => by rwa [hfs'] at hfh)
  | notEntered _ _ _ _ _ _ _ =>
      refine hquiet rfl (fun _ _ _ => ?_) (fun hfh => ?_)
      · rw [hfs']
        exact Listed.sameData w.fs (w.fs.resetInode _) rfl rfl
      · rw [hfs'] at hfh
        exact (OpenAt.frame w.fs (w.fs.resetInode _) rfl rfl rfl).mp hfh
  | existing hvalid hlisted hk htrunc hhandle =>
      rw [← hfs'] at hhandle
      exact h.openExisting hinv hinv' hhist hlisted hk htrunc hhandle
  | created hvalid habsent _ hfirst hint hlt hfits hslot hhandle =>
      rw [← hfs'] at hhandle
      exact h.openCreated hinv hinv' hhist hvalid habsent hfirst hint hlt hfits hslot hhandle

theorem Tracked.unlinkStep {target : Option CStr} {r : Int} (h : Tracked w)
    (hinv : Inv w.made w.fs)
    (hhist : w'.history = w.history.after (.unlink target) ⟨r, []⟩ w.fs w'.fs)
    (hstep : UnlinkStep w.fs target r w'.fs) : Tracked w' := by
  have hopen : forall {fh e}, OpenAt w'.fs fh e ->
      exists e0, OpenAt w.fs fh e0 ∧ e.ofInumber = e0.ofInumber := by
    intro fh e hfh
    generalize w'.fs = fs' at hstep hfh
    cases hstep with
    | badPath _ => exact ⟨e, hfh, rfl⟩
    | absent _ _ => exact ⟨e, hfh, rfl⟩
    | removed _ _ _ =>
        exact ⟨e, (OpenAt.frame w.fs (w.fs.removeFile _ _ _) rfl rfl rfl).mp hfh, rfl⟩
  rcases hstep.listed hinv with ⟨hr, hfs⟩ | ⟨hr, hlisted⟩
  · rw [hr] at hhist
    exact h.quiet hhist (by simp [History.afterFiles]) rfl (fun _ _ _ => by rw [hfs]) hopen
  · have hfiles' : w'.history.files =
        Function.update w.history.files (skipSlash target) none := by
      rw [hhist, hr]
      simp [History.after, History.afterFiles]
    have hopened' : w'.history.opened = w.history.opened := by
      rw [hhist]
      rfl
    have hhas : forall {name id}, w'.HasFile name id <->
        name ≠ skipSlash target ∧ w.HasFile name id := by
      intro name id
      rw [World.HasFile, World.HasFile, hfiles']
      by_cases hname : name = skipSlash target
      · simp [hname]
      · simp [hname]
    refine h.next (by rw [hhist]; rfl) ?_ (fun hid => Or.inl (hhas.mp hid).right) ?_ ?_ ?_ ?_
    · intro name
      simp only [hhas, hlisted, exists_and_left, h.file]
    · intro name name' hid hid'
      exact h.distinct (hhas.mp hid).right (hhas.mp hid').right
    · intro name id i k hid _ hi
      exact ⟨i, (hlisted i name k).mpr ⟨(hhas.mp hid).left, hi⟩⟩
    · intro fh e hfh
      rcases hopen hfh with ⟨e0, hfh0, hinum⟩
      exact Or.inl ⟨e0, hfh0, hinum, by rw [hopened']⟩
    · intro fh name id hname
      left
      rw [World.OpenedOn, ← hopened']
      exact hname

theorem Tracked.closeStep {fhandle r : Int} (h : Tracked w)
    (hhist : w'.history = w.history.after (.close fhandle) ⟨r, []⟩ w.fs w'.fs)
    (hstep : CloseStep w.fs fhandle r w'.fs) : Tracked w' := by
  have hlisted : forall i held k, Listed w'.fs i held k <-> Listed w.fs i held k :=
    fun _ _ _ => hstep.sameStorage.listed
  generalize hfs' : w'.fs = fs' at hstep
  cases hstep with
  | notOpen _ =>
      exact h.quiet hhist rfl (by simp [History.afterOpened]) hlisted
        (fun hfh => ⟨_, by rwa [hfs'] at hfh, rfl⟩)
  | closed heq hold =>
      rename_i fh0 e0
      have hopened' : w'.history.opened = Function.update w.history.opened fh0 none := by
        rw [hhist, heq]
        simp [History.after, History.afterOpened]
      refine h.sameFiles (by rw [hhist]; rfl) (by rw [hhist]; rfl) hlisted ?_ ?_
      · intro fh e hfh
        rw [hfs'] at hfh
        rcases openAt_dropHandle.mp hfh with ⟨hne, hother⟩
        exact Or.inl ⟨e, hother, rfl, by rw [hopened', Function.update_of_ne hne]⟩
      · intro fh name id hname
        left
        rw [World.OpenedOn, hopened'] at hname
        by_cases hfh : fh = fh0
        · rw [hfh, Function.update_self] at hname
          cases hname
        · rwa [Function.update_of_ne hfh] at hname

end History

structure Invariant (w : World) : Prop where
  inv : Inv w.made w.fs
  tracked : Tracked w

namespace Invariant

variable {w w' : World}

/-- In the world's state a call does exactly what the step relation says. -/
theorem exec_iff (h : Invariant w) {call : Call} {reply : Reply} :
    World.exec call w = .ok (reply, w') <->
      Step w.fs call reply w'.fs ∧
        w'.history = w.history.after call reply w.fs w'.fs := by
  rw [World.exec_ok, TecnicoFs.exec_iff h.inv]

theorem made_after {call : Call} {reply : Reply} {k : Nat}
    (hhist : w'.history = w.history.after call reply w.fs w'.fs) :
    w'.made k <-> w.made k ∨ createdInode call w.fs = some (k : Int) := by
  rw [World.made, hhist]
  change (k : Int) ∈ (createdInode call w.fs).toList ++ w.history.inodes <-> _
  rw [List.mem_append, Option.mem_toList, or_comm]
  exact Iff.rfl

/-- A step keeps the invariant. -/
theorem step (h : Invariant w) {call : Call} {reply : Reply}
    (hexec : World.exec call w = .ok (reply, w')) : Invariant w' := by
  rcases h.exec_iff.mp hexec with ⟨hstep, hhist⟩
  have hinv' : Inv w'.made w'.fs :=
    (h.inv.step hstep).of_made_iff fun k => (made_after hhist).symm
  refine ⟨hinv', ?_⟩
  generalize hfs' : w'.fs = fs' at hstep
  cases hstep with
  | «open» hopen => exact h.tracked.openStep h.inv hinv' hhist (hfs' ▸ hopen)
  | close hclose => exact h.tracked.closeStep hhist (hfs' ▸ hclose)
  | read hread =>
      rw [← hfs'] at hread
      exact h.tracked.quiet hhist rfl rfl (fun _ _ _ => hread.sameStorage.listed)
        hread.openAt
  | write hwrite =>
      rw [← hfs'] at hwrite
      exact h.tracked.quiet hhist rfl rfl (fun _ _ _ => hwrite.listed h.inv)
        (hwrite.openAt h.inv)
  | unlink hunlink => exact h.tracked.unlinkStep h.inv hhist (hfs' ▸ hunlink)

theorem initial {params : TfsParams} {mem : Mallocs} {fs : Fs} (h : Initial params mem fs) :
    Invariant (World.start fs) where
  inv := by
    apply h.inv.of_made_iff
    intro k
    simp [World.made, World.start, History.empty]
  tracked := by
    constructor
    · intro name
      constructor
      · rintro ⟨id, hid⟩
        cases hid
      · rintro ⟨i, k, hi⟩
        exact absurd hi h.notListed
    · intro name id hid
      cases hid
    · intro name name' id hid
      cases hid
    · intro fh e hopen
      exact absurd hopen h.notOpen
    · intro fh name id hid
      cases hid
    · intro fh e name id hopen
      exact absurd hopen h.notOpen

end Invariant

/-- The invariant holds in every reachable world. -/
theorem Reachable.invariant {w : World} (h : Reachable w) : Invariant w := by
  rcases h with ⟨paramsPtr, mem, fs, fs0, calls, replies, hinit, hrun⟩
  exact run_invariant (fun hw hexec => hw.step hexec) hrun
    (Invariant.initial (tfsInit_initial hinit))

/-!
## A small file system

Three inodes, three blocks of two directory slots each, and two handles.
-/

def smallParams : TfsParams := ⟨3, 3, 2, 88⟩

/-- Allocations that all succeed, with data bytes that are all ones. -/
def smallMallocs : Mallocs where
  inodeTable := some fun _ => ⟨.file, 0, 0⟩
  freeinodeTs := some fun _ => .taken
  fsData := some fun _ => 255
  freeBlocks := some fun _ => .taken
  openFileTable := some fun _ => ⟨0, 0⟩
  freeOpenFileEntries := some fun _ => .taken

/-- The state after the initialisation, if it succeeds. -/
def initFs (params : TfsParams) (mem : Mallocs) : Fs :=
  match tfsInit (some params) mem Fs.unset with
  | .ok (_, fs) => fs
  | .error _ => Fs.unset

theorem initFs_ok {params : TfsParams} {mem : Mallocs}
    (h : (tfsInit (some params) mem Fs.unset).map (·.1) = .ok 0) :
    tfsInit (some params) mem Fs.unset = .ok (0, initFs params mem) := by
  rcases map_eq_ok.mp h with ⟨⟨r, fs⟩, hinit, hr⟩
  rw [initFs, hinit]
  simp only at hr
  rw [hr]

def smallFs : Fs := initFs smallParams smallMallocs

theorem smallInit : tfsInit (some smallParams) smallMallocs Fs.unset = .ok (0, smallFs) :=
  initFs_ok (by decide +kernel)

/-- The world after the calls, if none of them fails. -/
def smallWorld (calls : List Call) : World :=
  match runWorld calls (World.start smallFs) with
  | .ok (_, w) => w
  | .error _ => World.start Fs.unset

theorem smallWorld_run (calls : List Call)
    (h : (runWorld calls (World.start smallFs)).isOk = true) :
    exists replies, runWorld calls (World.start smallFs) = .ok (replies, smallWorld calls) := by
  cases hrun : runWorld calls (World.start smallFs) with
  | error e =>
      rw [hrun] at h
      cases h
  | ok result =>
      have hw : smallWorld calls = result.2 := by
        rw [smallWorld, hrun]
      exact ⟨result.1, by rw [hw]⟩

theorem smallWorld_reachable {calls : List Call}
    (h : (runWorld calls (World.start smallFs)).isOk = true) :
    Reachable (smallWorld calls) := by
  rcases smallWorld_run calls h with ⟨replies, hrun⟩
  exact ⟨some smallParams, smallMallocs, Fs.unset, smallFs, calls, replies, smallInit, hrun⟩

/-- One more call leads to the next of the small worlds. -/
theorem smallWorld_next (calls : List Call) {call : Call} {reply : Reply} {w : World}
    (h : (runWorld calls (World.start smallFs)).isOk = true)
    (hexec : World.exec call (smallWorld calls) = .ok (reply, w)) :
    w = smallWorld (calls ++ [call]) := by
  rcases smallWorld_run calls h with ⟨replies, hrun⟩
  have hsnoc := run_snoc hrun hexec
  rw [smallWorld, runWorld, hsnoc]

theorem smallWorld_snoc (calls : List Call) {call : Call} {reply : Reply} {fs' : Fs}
    (h : (runWorld calls (World.start smallFs)).isOk = true)
    (hexec : TecnicoFs.exec call (smallWorld calls).fs = .ok (reply, fs')) :
    fs' = (smallWorld (calls ++ [call])).fs := by
  have hstep : World.exec call (smallWorld calls) = .ok (reply,
      ⟨fs', (smallWorld calls).history.after call reply (smallWorld calls).fs fs'⟩) :=
    World.exec_ok.mpr ⟨hexec, rfl⟩
  rw [← smallWorld_next calls h hstep]

/-- The path name of one slash and one byte. -/
def shortPath (byte : UInt8) (h : byte ≠ 0) : Option CStr :=
  some ⟨[47, byte], by simp [Ne.symm h]⟩

def pathA : Option CStr := shortPath 97 (by decide)

def pathB : Option CStr := shortPath 98 (by decide)

end TecnicoFs
