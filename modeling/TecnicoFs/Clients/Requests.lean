import TecnicoFs.Broker.MainLoop
import TecnicoFs.Broker.Sessions

/-!
# Requests of the clients

The clients check the lengths of their arguments, put a slash before the name of the
box and join the fields with spaces.  The broker splits at any white space, and its
array for the name has no room for the slash.
-/

namespace TecnicoFs
namespace Clients

open Library
open Broker

/-!
## Encoding
-/

def registerPublisher : Int := 1

def registerSubscriber : Int := 2

def createBoxCode : Int := 3

def removeBoxCode : Int := 5

def listBoxCode : Int := 7

def pipenameTooBig : List UInt8 := ascii "ERROR: The pipe's name has too many characters\n"

def invalidBoxname : List UInt8 := ascii "ERROR: The box's name is invalid\n"

def invalidArguments : List UInt8 := ascii "ERROR: One of the arguments is invalid\n"

/-- `"/"` -/
def slash : CStr := ⟨[47], by decide⟩

/-- What a client prints when it does not accept the names of the pipes. -/
def checkPipes (registerPipe personalPipe : CStr) : Except (List UInt8) Unit :=
  if registerPipe.strlen >= pipeNameSize ∨ personalPipe.strlen >= pipeNameSize then
    .error pipenameTooBig
  else .ok ()

/-- The array {lit}`box_name` of a client, which has room for the slash. -/
def clientBox (boxName : CStr) : Except (List UInt8) CStr :=
  if boxName.strlen >= boxNameSize then .error invalidBoxname else .ok (slash.strcat boxName)

/-- The request of a publisher or a subscriber. -/
def registerRequest (code : Int) (registerPipe personalPipe boxName : CStr) :
    Except (List UInt8) (List UInt8) := do
  checkPipes registerPipe personalPipe
  let boxName <- clientBox boxName
  pure (serialize code personalPipe.bytes boxName.bytes)

def publisherRequest : CStr -> CStr -> CStr -> Except (List UInt8) (List UInt8) :=
  registerRequest registerPublisher

def subscriberRequest : CStr -> CStr -> CStr -> Except (List UInt8) (List UInt8) :=
  registerRequest registerSubscriber

/-- The request of a manager, with the name of a box or without one. -/
def managerRequest (registerPipe personalPipe : CStr) (command : List UInt8)
    (boxName : Option CStr) : Except (List UInt8) (List UInt8) := do
  checkPipes registerPipe personalPipe
  if command ≠ ascii "create" ∧ command ≠ ascii "remove" ∧ command ≠ ascii "list" then
    .error invalidArguments
  else do
    let boxName <-
      match boxName with
      | none => pure slash
      | some boxName => clientBox boxName
    if command = ascii "create" then
      pure (serialize createBoxCode personalPipe.bytes boxName.bytes)
    else if command = ascii "remove" then
      pure (serialize removeBoxCode personalPipe.bytes boxName.bytes)
    else
      pure (serialize listBoxCode personalPipe.bytes [])

/-- The clients whose requests name a box. -/
inductive Client where
  | publisher
  | subscriber
  | create
  | remove
deriving DecidableEq

def Client.code : Client -> Int
  | .publisher => registerPublisher
  | .subscriber => registerSubscriber
  | .create => createBoxCode
  | .remove => removeBoxCode

def Client.request (client : Client) (registerPipe personalPipe boxName : CStr) :
    Except (List UInt8) (List UInt8) :=
  match client with
  | .publisher => publisherRequest registerPipe personalPipe boxName
  | .subscriber => subscriberRequest registerPipe personalPipe boxName
  | .create => managerRequest registerPipe personalPipe (ascii "create") (some boxName)
  | .remove => managerRequest registerPipe personalPipe (ascii "remove") (some boxName)

/-- From every state of its main loop, the broker decodes the frame to the code and the
names, each in its array, and calls the handler for the code with them. -/
def Decodes (text : List UInt8) (code : Int) (clientPipe boxName : CStr) : Prop :=
  forall behind s, exists handler clientInput s',
    mainTurn (requestFrame text behind) s = .ok (some (handler, clientInput), s') ∧
      handlerOf code = some handler ∧ s'.code = code ∧ s'.clientInput = clientInput ∧
      clientInput.clientPipe.str = clientPipe ∧ clientInput.boxName.str = boxName

/-!
## Decoding
-/

section Requests

variable {client : Client} {registerPipe personalPipe boxName : CStr} {text : List UInt8}

/-- What the checks of a client leave of its arguments. -/
theorem Client.request_eq
    (h : client.request registerPipe personalPipe boxName = .ok text) :
    personalPipe.strlen < pipeNameSize ∧ boxName.strlen < boxNameSize ∧
      text = serialize client.code personalPipe.bytes (slash.strcat boxName).bytes := by
  have hchecked : forall {code : Int},
      registerRequest code registerPipe personalPipe boxName = .ok text ->
      personalPipe.strlen < pipeNameSize ∧ boxName.strlen < boxNameSize ∧
        text = serialize code personalPipe.bytes (slash.strcat boxName).bytes := by
    intro code h
    rcases bind_eq_ok.mp h with ⟨_, hpipes, h⟩
    rcases bind_eq_ok.mp h with ⟨box, hbox, h⟩
    rw [checkPipes] at hpipes
    rw [clientBox] at hbox
    split at hpipes
    · cases hpipes
    · rename_i hsmall
      split at hbox
      · cases hbox
      · rename_i hshort
        cases hbox
        cases h
        exact ⟨by omega, by omega, rfl⟩
  cases client with
  | publisher => exact hchecked h
  | subscriber => exact hchecked h
  | create => exact hchecked h
  | remove => exact hchecked h

theorem noSpace_slash (h : NoSpace boxName) : NoSpace (slash.strcat boxName) := by
  intro c hc
  rcases List.mem_append.mp hc with hslash | hc
  · rw [List.mem_singleton.mp hslash]
    decide
  · exact h c hc

theorem Client.code_range (client : Client) :
    -2147483648 <= client.code ∧ client.code < 2147483648 ∧
      (formatInt client.code).length <= 2 := by
  cases client <;> decide

theorem Client.handler (client : Client) :
    exists handler, handlerOf client.code = some handler := by
  cases client <;> exact ⟨_, rfl⟩

/-- What a client accepts fits its buffer for the request. -/
theorem serialize_length (client : Client) {clientPipe boxName : CStr}
    (hpipe : clientPipe.strlen < pipeNameSize) (hbox : boxName.strlen < boxNameSize) :
    (serialize client.code clientPipe.bytes (slash.strcat boxName).bytes).length < frameSize := by
  have hcode := client.code_range.right.right
  simp only [CStr.strlen, pipeNameSize, boxNameSize] at hpipe hbox
  simp only [serialize, CStr.strcat, slash, List.length_append, List.length_cons,
    List.length_nil, frameSize]
  omega

theorem decodes_request (hrequest : client.request registerPipe personalPipe boxName = .ok text)
    (hpipe : personalPipe.strlen ≠ 0) (hpipeWord : NoSpace personalPipe)
    (hboxWord : NoSpace boxName) (hshort : boxName.strlen < boxNameSize - 1) :
    Decodes text client.code personalPipe (slash.strcat boxName) := by
  intro behind s
  rcases client.request_eq hrequest with ⟨hpipeFits, hboxFits, htext⟩
  rcases client.handler with ⟨handler, hhandler⟩
  rcases client.code_range with ⟨hlow, hhigh, _⟩
  have hslash : (slash.strcat boxName).bytes ≠ [] := List.cons_ne_nil _ _
  have hne : personalPipe.bytes ≠ [] := fun hnil => hpipe (congrArg List.length hnil)
  have hslashFits : (slash.strcat boxName).strlen < boxNameSize := by
    simp only [CStr.strlen, CStr.strcat, slash, List.length_append, List.length_cons,
      List.length_nil, boxNameSize] at hshort ⊢
    omega
  let pipe : Word pipeNameSize := ⟨⟨personalPipe, hpipeFits⟩, hne, hpipeWord⟩
  let box : Word boxNameSize :=
    ⟨⟨slash.strcat boxName, hslashFits⟩, hslash, noSpace_slash hboxWord⟩
  rcases mainTurn_request s hlow hhigh pipe box behind with
    ⟨s1, hturn, hcode, hpipeStr, hboxStr⟩
  rw [htext]
  refine ⟨handler, s1.clientInput, s1, ?_, hhandler, hcode, rfl, hpipeStr, hboxStr⟩
  rw [hturn, callOf, hcode, hpipeStr]
  simp only [pipe, hpipe, or_self, if_false, hhandler, Option.map_some]

/-- A name that was not there before was scanned. -/
theorem noSpace_of_getD {found : Option CStr} {name : CStr}
    (hwords : forall word, found = some word -> word.strlen ≠ 0 ∧ NoSpace word)
    (h : name = found.getD emptyStr) (hne : name.strlen ≠ 0) : NoSpace name := by
  cases found with
  | none =>
      rw [h] at hne
      exact absurd rfl hne
  | some word =>
      rw [h]
      exact (hwords word rfl).right

/-- What is decoded was scanned, in words that fit their arrays. -/
theorem Decodes.words (hrequest : client.request registerPipe personalPipe boxName = .ok text)
    (hpipe : personalPipe.strlen ≠ 0)
    (h : Decodes text client.code personalPipe (slash.strcat boxName)) :
    NoSpace personalPipe ∧ NoSpace boxName ∧ boxName.strlen < boxNameSize - 1 := by
  rcases client.request_eq hrequest with ⟨hpipeFits, hboxFits, htext⟩
  have hnoNul := serialize_noNul client.code personalPipe (slash.strcat boxName)
  have hlength := serialize_length client hpipeFits hboxFits
  rw [← htext] at hnoNul hlength
  rcases requestFrame_own hnoNul hlength (fun _ => 0) with ⟨hbytes, hended, hown⟩
  -- From a state without names, the names can only come from the frame.
  rcases h (fun _ => 0) freshState with
    ⟨handler, clientInput, s', hturn, _, _, hinput, hpipeStr, hboxStr⟩
  rcases scanFields_vars ((mainTurn_own hbytes hended).mp hturn).left with ⟨_, hpipeVar, hboxVar⟩
  rcases scanRequest_words (CStr.ofBuffer (requestFrame text fun _ => 0).bytes) with
    ⟨hpipeWord, hboxWord⟩
  rw [hinput] at hpipeVar hboxVar
  rw [hpipeStr] at hpipeVar
  rw [hboxStr] at hboxVar
  have hslash : (slash.strcat boxName).strlen ≠ 0 := Nat.succ_ne_zero _
  have hslashWord := noSpace_of_getD hboxWord hboxVar hslash
  have hfits : (slash.strcat boxName).strlen < boxNameSize := hboxStr ▸ clientInput.boxName.fits
  refine ⟨noSpace_of_getD hpipeWord hpipeVar hpipe, ?_, ?_⟩
  · exact fun c hc => hslashWord c (List.mem_append_right _ hc)
  · simp only [CStr.strlen, CStr.strcat, slash, List.length_append, List.length_cons,
      List.length_nil, boxNameSize] at hfits ⊢
    omega

end Requests

/-- A request that a client sends is decoded to its fields exactly when its names hold no
white space and the name of the box leaves room for the slash. -/
theorem request_decoded_iff {client : Client} {registerPipe personalPipe boxName : CStr}
    {text : List UInt8}
    (hrequest : client.request registerPipe personalPipe boxName = .ok text)
    (hpipe : personalPipe.strlen ≠ 0) :
    Decodes text client.code personalPipe (slash.strcat boxName) <->
      NoSpace personalPipe ∧ NoSpace boxName ∧ boxName.strlen < boxNameSize - 1 := by
  constructor
  · intro h
    exact h.words hrequest hpipe
  · rintro ⟨hpipeWord, hboxWord, hshort⟩
    exact decodes_request hrequest hpipe hpipeWord hboxWord hshort

def pipeR : CStr := ⟨ascii "/r", by decide⟩

def pipeP : CStr := ⟨ascii "/p", by decide⟩

def nameC : CStr := ⟨ascii "c", by decide⟩

theorem request_decoded_c : exists text,
    Client.create.request pipeR pipeP nameC = .ok text ∧
      Decodes text Client.create.code pipeP (slash.strcat nameC) := by
  have hrequest : Client.create.request pipeR pipeP nameC = .ok (ascii "3 /p /c") := by
    decide +kernel
  refine ⟨ascii "3 /p /c", hrequest, (request_decoded_iff hrequest (by decide)).mpr ?_⟩
  exact ⟨noSpace_of_all (by decide), noSpace_of_all (by decide), by decide⟩

/-- The longest name of a box that the clients accept. -/
def longBox : CStr := ⟨List.replicate 31 97, by decide⟩

/-- With the slash it outgrows the broker's array. -/
theorem longBox_notDecoded : exists text,
    Client.create.request pipeR pipeP longBox = .ok text ∧
      ¬ Decodes text Client.create.code pipeP (slash.strcat longBox) := by
  have hrequest : Client.create.request pipeR pipeP longBox =
      .ok (serialize createBoxCode pipeP.bytes (slash.strcat longBox).bytes) := rfl
  refine ⟨_, hrequest, fun h => ?_⟩
  have hwords := Decodes.words hrequest (by decide) h
  exact absurd hwords.right.right (by decide)

end Clients
end TecnicoFs
