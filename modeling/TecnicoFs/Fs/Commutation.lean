import TecnicoFs.Fs.Refinement

/-!
# Calls on different files

A write, a read or a close through an open handle changes the handle and the file it
is open on, and reads nothing else but whether a block is free.  While two blocks are
free, two such calls on two files may be made in either order: both orders reach one
abstract state, so no later call tells them apart, although first-fit allocation may
have given the files each other's blocks.
-/

namespace TecnicoFs

open Library

/-- A call through an open handle. -/
inductive FileCall where
  | write (buffer : List UInt8) (toWrite : Nat)
  | read (len : Nat)
  | close

def FileCall.on (call : FileCall) (fhandle : Nat) : Call :=
  match call with
  | .write buffer toWrite => .write fhandle buffer toWrite
  | .read len => .read fhandle len
  | .close => .close fhandle

namespace AbstractFs

/-- What a call returns, and what it leaves in its file and in its handle. -/
structure Effect where
  reply : Reply
  bytes : List UInt8
  offset : Option Nat

/-- The effect of a call while a block is free. -/
def effect (params : TfsParams) (bytes : List UInt8) (offset : Nat) : FileCall -> Effect
  | .write buffer toWrite =>
      let count := min toWrite (params.blockSize - offset)
      if count = 0 then ⟨⟨0, []⟩, bytes, some offset⟩
      else ⟨⟨count, []⟩, patch bytes offset (buffer.take count), some (offset + count)⟩
  | .read len =>
      let data := (bytes.drop offset).take len
      ⟨⟨data.length, data⟩, bytes, some (offset + data.length)⟩
  | .close => ⟨⟨0, []⟩, bytes, none⟩

def put (a : AbstractFs) (name : CStr) (fh : Nat) (e : Effect) : AbstractFs :=
  (a.setContent name e.bytes).setHandle fh (e.offset.map fun offset => (name, offset))

variable {params : TfsParams} {a : AbstractFs} {name name' : CStr} {fh fh' offset offset' : Nat}

/-!
## A call is local
-/

theorem setContent_self (a : AbstractFs) (name : CStr) :
    a.setContent name (a.content name) = a := by
  rw [setContent, Function.update_eq_self]

theorem setHandle_self (hentry : a.handles fh = some (name, offset)) :
    a.setHandle fh (some (name, offset)) = a := by
  rw [setHandle, ← hentry, Function.update_eq_self]

theorem entry_eq (hentry : a.handles fh = some (name, offset)) :
    a.entry fh = some (name, offset) := by
  rw [entry, if_pos (Int.natCast_nonneg fh), Int.toNat_natCast, hentry]

/-- While a block is free, a call through a handle has its effect and no other. -/
theorem exec_fileCall (hroom : a.nonEmpty.card ≠ params.maxBlockCount - 1)
    (hentry : a.handles fh = some (name, offset)) (call : FileCall) :
    exec params (call.on fh) a =
      ((effect params (a.content name) offset call).reply,
        a.put name fh (effect params (a.content name) offset call)) := by
  have hlookup := entry_eq hentry
  cases call with
  | write buffer toWrite =>
      have hspace : ¬ (a.content name = [] ∧ a.nonEmpty.card = params.maxBlockCount - 1) :=
        fun h => hroom h.right
      simp only [FileCall.on, exec, writeFile, hlookup, if_neg hspace, effect,
        Int.toNat_natCast]
      by_cases hzero : min toWrite (params.blockSize - offset) = 0
      · simp only [if_pos hzero, put, setContent_self, Option.map_some,
          setHandle_self hentry]
      · simp only [if_neg hzero]
        rfl
  | read len =>
      simp only [FileCall.on, exec, readFile, hlookup, effect, Int.toNat_natCast, put,
        setContent_self, Option.map_some]
  | close =>
      simp only [FileCall.on, exec, closeFile, hlookup, effect, Int.toNat_natCast, put,
        setContent_self, Option.map_none]

theorem put_comm (hnames : name ≠ name') (hhandles : fh ≠ fh') (e e' : Effect) :
    (a.put name fh e).put name' fh' e' = (a.put name' fh' e').put name fh e := by
  simp only [put, setContent, setHandle]
  rw [Function.update_comm hnames, Function.update_comm hhandles]

theorem put_content_of_ne (hnames : name' ≠ name) (e : Effect) :
    (a.put name fh e).content name' = a.content name' :=
  Function.update_of_ne hnames _ _

theorem put_handles_of_ne (hhandles : fh' ≠ fh) (e : Effect) :
    (a.put name fh e).handles fh' = a.handles fh' :=
  Function.update_of_ne hhandles _ _

/-- At most one file more has bytes. -/
theorem card_nonEmpty_put (e : Effect) :
    (a.put name fh e).nonEmpty.card <= a.nonEmpty.card + 1 := by
  have hsub : (a.put name fh e).nonEmpty ⊆ insert name a.nonEmpty := by
    intro other hother
    rcases Finset.mem_filter.mp hother with ⟨hthere, hbytes⟩
    by_cases hsame : other = name
    · exact Finset.mem_insert.mpr (Or.inl hsame)
    · rw [put_content_of_ne hsame] at hbytes
      exact Finset.mem_insert_of_mem (Finset.mem_filter.mpr ⟨hthere, hbytes⟩)
  exact Nat.le_trans (Finset.card_le_card hsub) (Finset.card_insert_le _ _)

/-!
## Two calls
-/

/-- Room for two more files with bytes. -/
def RoomForTwo (params : TfsParams) (a : AbstractFs) : Prop :=
  a.nonEmpty.card + 3 <= params.maxBlockCount

theorem RoomForTwo.free (hroom : a.RoomForTwo params) :
    a.nonEmpty.card ≠ params.maxBlockCount - 1 := by
  rw [RoomForTwo] at hroom
  omega

theorem RoomForTwo.put (hroom : a.RoomForTwo params) (e : Effect) :
    (a.put name fh e).nonEmpty.card ≠ params.maxBlockCount - 1 := by
  have hcard : (a.put name fh e).nonEmpty.card <= a.nonEmpty.card + 1 := card_nonEmpty_put e
  rw [RoomForTwo] at hroom
  omega

/-- The second of two calls has the effect that it has in the state before both. -/
theorem exec_second (hroom : a.RoomForTwo params)
    (hentry : a.handles fh = some (name, offset))
    (hentry' : a.handles fh' = some (name', offset')) (hnames : name ≠ name')
    (hhandles : fh ≠ fh') (x y : FileCall) :
    exec params (y.on fh') (exec params (x.on fh) a).2 =
      ((exec params (y.on fh') a).1,
        (a.put name fh (effect params (a.content name) offset x)).put name' fh'
          (effect params (a.content name') offset' y)) := by
  rw [exec_fileCall hroom.free hentry x, exec_fileCall hroom.free hentry' y]
  have hlater : (a.put name fh (effect params (a.content name) offset x)).handles fh' =
      some (name', offset') := (put_handles_of_ne hhandles.symm _).trans hentry'
  rw [exec_fileCall (hroom.put _) hlater y, put_content_of_ne hnames.symm]

theorem exec_comm (hroom : a.RoomForTwo params)
    (hentry : a.handles fh = some (name, offset))
    (hentry' : a.handles fh' = some (name', offset')) (hnames : name ≠ name')
    (hhandles : fh ≠ fh') (x y : FileCall) :
    (exec params (y.on fh') (exec params (x.on fh) a).2).2 =
      (exec params (x.on fh) (exec params (y.on fh') a).2).2 := by
  rw [exec_second hroom hentry hentry' hnames hhandles,
    exec_second hroom hentry' hentry hnames.symm hhandles.symm]
  exact put_comm hnames hhandles _ _

/-- A call on one file leaves a call on another as disciplined as it was. -/
theorem disciplined_second (hroom : a.RoomForTwo params)
    (hentry : a.handles fh = some (name, offset)) (hhandles : fh ≠ fh') (x y : FileCall)
    (hy : Disciplined (y.on fh') a) :
    Disciplined (y.on fh') (exec params (x.on fh) a).2 := by
  cases y with
  | write buffer toWrite =>
      rcases hy with ⟨hbuffer, hsum⟩
      refine ⟨hbuffer, fun name' offset' hlookup => hsum name' offset' ?_⟩
      rw [exec_fileCall hroom.free hentry x] at hlookup
      rw [entry, if_pos (Int.natCast_nonneg fh'), Int.toNat_natCast] at hlookup ⊢
      rwa [put_handles_of_ne hhandles.symm] at hlookup
  | read len => trivial
  | close => trivial

end AbstractFs

/-!
## The library
-/

/-- At least two blocks are free. -/
def TwoFreeBlocks (fs : Fs) : Prop :=
  exists b c : Nat, b ≠ c ∧ fs.freeBlocks[b]? = some .free ∧ fs.freeBlocks[c]? = some .free

namespace Refines

variable {params : TfsParams} {fs : Fs} {a : AbstractFs}

theorem roomForTwo (h : Refines params fs a) (hfree : TwoFreeBlocks fs) :
    a.RoomForTwo params := by
  rcases h.inv with ⟨made, hinv⟩
  rcases hfree with ⟨b, c, hne, hb, hc⟩
  have hlt : forall {d : Nat}, fs.freeBlocks[d]? = some .free -> d < fs.dataBlocks := by
    intro d hd
    rw [← hinv.layout.blockCells]
    exact (List.getElem?_eq_some_iff.mp hd).choose
  have hsub : othersBelow fs.freeBlocks fs.dataBlocks .free ⊆
      ((Finset.range fs.dataBlocks).erase b).erase c := by
    intro d hd
    rcases Finset.mem_filter.mp hd with ⟨hrange, hother⟩
    have hdc : d ≠ c := fun heq => hother (heq ▸ hc)
    have hdb : d ≠ b := fun heq => hother (heq ▸ hb)
    exact Finset.mem_erase.mpr ⟨hdc, Finset.mem_erase.mpr ⟨hdb, hrange⟩⟩
  have hcard := Finset.card_le_card hsub
  have hmem : c ∈ (Finset.range fs.dataBlocks).erase b :=
    Finset.mem_erase.mpr ⟨hne.symm, Finset.mem_range.mpr (hlt hc)⟩
  have htwo : 2 <= fs.dataBlocks := by
    have hbound := hlt hb
    have hbound' := hlt hc
    omega
  rw [Finset.card_erase_of_mem hmem, Finset.card_erase_of_mem (Finset.mem_range.mpr (hlt hb)),
    Finset.card_range, h.card_blocks, h.dataBlocks_eq] at hcard
  rw [h.dataBlocks_eq] at htwo
  rw [AbstractFs.RoomForTwo]
  omega

/-- The file of an open handle, by its name. -/
theorem handle_of_openAt (h : Refines params fs a) {fh : Nat} {e : OpenFileEntry}
    (hopen : OpenAt fs fh e) :
    exists name offset i k, a.handles fh = some (name, offset) ∧ Listed fs i name k ∧
      e.ofInumber = k := by
  rcases h.entry_cases fh with ⟨_, hnot⟩ |
    ⟨gh, name, offset, i, k, hgh, _, hhandle, hopen', hlisted, _⟩
  · exact absurd hopen (hnot fh e rfl)
  · have hsame : gh = fh := by omega
    rw [hsame] at hhandle hopen'
    exact ⟨name, offset, i, k, hhandle, hlisted, by rw [hopen.unique hopen']⟩

/-- Both orders of two calls on two files give the same replies and reach states that
refine one abstract state. -/
theorem fileCalls (h : Refines params fs a) (hfits : FitsMachine params) {fh gh : Nat}
    {e d : OpenFileEntry} (hopen : OpenAt fs fh e) (hopen' : OpenAt fs gh d)
    (hfiles : e.ofInumber ≠ d.ofInumber) (hfree : TwoFreeBlocks fs) {x y : FileCall}
    (hx : AbstractFs.Disciplined (x.on fh) a) (hy : AbstractFs.Disciplined (y.on gh) a) :
    exists rx ry fsxy fsyx,
      runCalls [x.on fh, y.on gh] fs = .ok ([rx, ry], fsxy) ∧
      runCalls [y.on gh, x.on fh] fs = .ok ([ry, rx], fsyx) ∧
      Refines params fsxy (absRun (AbstractFs.exec params) [x.on fh, y.on gh] a).2 ∧
      Refines params fsyx (absRun (AbstractFs.exec params) [y.on gh, x.on fh] a).2 ∧
      (absRun (AbstractFs.exec params) [x.on fh, y.on gh] a).2 =
        (absRun (AbstractFs.exec params) [y.on gh, x.on fh] a).2 := by
  rcases h.handle_of_openAt hopen with ⟨name, offset, i, k, hentry, hlisted, hk⟩
  rcases h.handle_of_openAt hopen' with ⟨name', offset', i', k', hentry', hlisted', hk'⟩
  have hnames : name ≠ name' := by
    intro hsame
    rcases h.inv with ⟨made, hinv⟩
    have hinodes := (hinv.listed_unique hlisted (hsame ▸ hlisted')).right
    exact hfiles (by rw [hk, hk', hinodes])
  have hhandles : fh ≠ gh := by
    intro hsame
    rw [hsame] at hopen
    exact hfiles (by rw [hopen.unique hopen'])
  have hroom := h.roomForTwo hfree
  have hxy := AbstractFs.disciplined_second hroom hentry hhandles x y hy
  have hyx := AbstractFs.disciplined_second hroom hentry' hhandles.symm y x hx
  have hallowed : AllowedRun (AbstractFs.exec params) AbstractFs.Disciplined
      [x.on fh, y.on gh] a := ⟨hx, hxy, trivial⟩
  have hallowed' : AllowedRun (AbstractFs.exec params) AbstractFs.Disciplined
      [y.on gh, x.on fh] a := ⟨hy, hyx, trivial⟩
  rcases Simulates.run (refines_simulates hfits) h hallowed with ⟨fsxy, hrunxy, hrefxy⟩
  rcases Simulates.run (refines_simulates hfits) h hallowed' with ⟨fsyx, hrunyx, hrefyx⟩
  have hsecond := AbstractFs.exec_second hroom hentry hentry' hnames hhandles x y
  have hsecond' :=
    AbstractFs.exec_second hroom hentry' hentry hnames.symm hhandles.symm y x
  refine ⟨_, _, fsxy, fsyx, hrunxy, ?_, hrefxy, hrefyx,
    AbstractFs.exec_comm hroom hentry hentry' hnames hhandles x y⟩
  simp only [absRun, hsecond, hsecond'] at hrunyx ⊢
  exact hrunyx

end Refines

/-- The calls, from {lit}`tfs_init` on, keep to the discipline of the library. -/
def DisciplinedRun (params : TfsParams) (calls : List Call) : Prop :=
  AllowedRun (AbstractFs.exec params) AbstractFs.Disciplined calls AbstractFs.empty

/-- Calls through two handles that are open on two files may be made in either order
while two blocks are free: each has the same reply in both orders, and the replies to
all later calls are the same. -/
theorem fileCalls_commute {paramsPtr : Option TfsParams} {mem : Mallocs} {fs fs0 fs1 : Fs}
    (hinit : tfsInit paramsPtr mem fs = .ok (0, fs0))
    (hfits : FitsMachine (paramsPtr.getD tfsDefaultParams)) {before : List Call}
    {replies : List Reply} (hrun : runCalls before fs0 = .ok (replies, fs1))
    {fh gh : Nat} {e d : OpenFileEntry} (hopen : OpenAt fs1 fh e) (hopen' : OpenAt fs1 gh d)
    (hfiles : e.ofInumber ≠ d.ofInumber) (hfree : TwoFreeBlocks fs1) {x y : FileCall}
    (hx : DisciplinedRun (paramsPtr.getD tfsDefaultParams) (before ++ [x.on fh]))
    (hy : DisciplinedRun (paramsPtr.getD tfsDefaultParams) (before ++ [y.on gh])) :
    exists rx ry fsxy fsyx,
      runCalls [x.on fh, y.on gh] fs1 = .ok ([rx, ry], fsxy) ∧
      runCalls [y.on gh, x.on fh] fs1 = .ok ([ry, rx], fsyx) ∧
      forall later : List Call,
        DisciplinedRun (paramsPtr.getD tfsDefaultParams)
            (before ++ ([x.on fh, y.on gh] ++ later)) ∨
          DisciplinedRun (paramsPtr.getD tfsDefaultParams)
            (before ++ ([y.on gh, x.on fh] ++ later)) ->
        exists rs fs' fs'', runCalls later fsxy = .ok (rs, fs') ∧
          runCalls later fsyx = .ok (rs, fs'') := by
  rcases (allowedRun_append before [x.on fh] AbstractFs.empty).mp hx with ⟨hbefore, hx, _⟩
  rcases (allowedRun_append before [y.on gh] AbstractFs.empty).mp hy with ⟨_, hy, _⟩
  rcases runCalls_refines hinit hfits hbefore with ⟨fs1', hrun', h⟩
  have hsame := hrun.symm.trans hrun'
  cases hsame
  rcases h.fileCalls hfits hopen hopen' hfiles hfree hx hy with
    ⟨rx, ry, fsxy, fsyx, hrunxy, hrunyx, hrefxy, hrefyx, hcomm⟩
  refine ⟨rx, ry, fsxy, fsyx, hrunxy, hrunyx, fun later hlater => ?_⟩
  rw [← hcomm] at hrefyx
  refine Simulates.agree (refines_simulates hfits) hrefxy hrefyx ?_
  simp only [DisciplinedRun, allowedRun_append] at hlater
  rcases hlater with ⟨_, _, hafter⟩ | ⟨_, _, hafter⟩
  · exact hafter
  · rw [hcomm]
    exact hafter

/-- Two files are created and stay open. -/
def twoOpenCalls : List Call := [.open pathA 1, .open pathB 1]

def twoOpenFs : Fs :=
  match runCalls twoOpenCalls smallFs with
  | .ok (_, fs) => fs
  | .error _ => Fs.unset

theorem twoOpenFs_run : runCalls twoOpenCalls smallFs = .ok ([⟨0, []⟩, ⟨1, []⟩], twoOpenFs) := by
  have hreplies : (runCalls twoOpenCalls smallFs).map (·.1) = .ok [⟨0, []⟩, ⟨1, []⟩] := by
    decide +kernel
  rcases map_eq_ok.mp hreplies with ⟨⟨replies, fs⟩, hrun, hr⟩
  rw [twoOpenFs, hrun]
  simp only at hr
  rw [hr]

/-- A write of one byte through either of the two handles. -/
theorem twoOpenWrite_disciplined (fhandle : Nat) (byte : UInt8)
    (hzero : forall name offset, (absRun (AbstractFs.exec smallParams) twoOpenCalls
      AbstractFs.empty).2.entry fhandle = some (name, offset) -> offset = 0) :
    DisciplinedRun smallParams (twoOpenCalls ++ [(FileCall.write [byte] 1).on fhandle]) := by
  refine ⟨fun _ hflag => absurd hflag (by decide), fun _ hflag => absurd hflag (by decide),
    ⟨Nat.le_refl 1, fun name offset hentry => ?_⟩, trivial⟩
  rw [hzero name offset hentry]
  decide

theorem fileCalls_commute_twoOpen : exists rx ry fsxy fsyx,
    runCalls [.write 0 [7] 1, .write 1 [8] 1] twoOpenFs = .ok ([rx, ry], fsxy) ∧
    runCalls [.write 1 [8] 1, .write 0 [7] 1] twoOpenFs = .ok ([ry, rx], fsyx) := by
  have hfits : FitsMachine smallParams := by constructor <;> decide
  have hopen : OpenAt twoOpenFs 0 ⟨1, 0⟩ := by constructor <;> decide +kernel
  have hopen' : OpenAt twoOpenFs 1 ⟨2, 0⟩ := by constructor <;> decide +kernel
  have hfree : TwoFreeBlocks twoOpenFs := ⟨1, 2, by decide, by decide +kernel, by decide +kernel⟩
  have hx := twoOpenWrite_disciplined 0 7 fun _ _ hentry =>
    (congrArg Prod.snd (Option.some.inj hentry)).symm
  have hy := twoOpenWrite_disciplined 1 8 fun _ _ hentry =>
    (congrArg Prod.snd (Option.some.inj hentry)).symm
  rcases fileCalls_commute smallInit hfits twoOpenFs_run hopen hopen' (by decide) hfree hx hy with
    ⟨rx, ry, fsxy, fsyx, hrunxy, hrunyx, _⟩
  exact ⟨rx, ry, fsxy, fsyx, hrunxy, hrunyx⟩

end TecnicoFs
