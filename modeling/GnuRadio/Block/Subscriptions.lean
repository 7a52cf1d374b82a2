import Mathlib.Data.Finset.Sort
import Mathlib.Data.String.Basic

/-! The messages that a block answers (`BlockBase::processMessages()` in Block.cpp), and the clients that subscribe to its
    properties. -/

namespace GnuRadio.Subscriptions

open Function

inductive Command
  | invalid | get | set | partial_ | final | ready | disconnect | subscribe | unsubscribe | notify | heartbeat
  deriving DecidableEq

structure Message (D : Type) where
  cmd : Command
  serviceName : String
  clientRequestID : String
  endpoint : String
  data : Except String D

/-- `state` is the rest of the block. -/
structure Block (σ : Type) where
  uniqueName : String
  name : String
  propertySubscriptions : String → Finset String
  state : σ

def kMaxSubscribersPerProperty : Nat := 64

/-- The properties whose callbacks take `Subscribe` and `Unsubscribe`. -/
def subscribable : List String :=
  ["Heartbeat", "LifecycleState", "Settings", "StagedSettings", "MetaInformation", "UiConstraints"]

/-- The keys of `propertyCallbacks`. -/
def properties : List String :=
  subscribable ++ ["Echo", "StoreDefaults", "ResetDefaults", "ActiveContext", "SettingsCtx", "SettingsContexts", "TagCouplings"]

section
variable {D σ : Type}

def subscribe (b : Block σ) (propertyName clientID : String) : Except String (Block σ) :=
  let subscribers := b.propertySubscriptions propertyName
  if clientID = "" then .ok b
  else if clientID ∉ subscribers ∧ kMaxSubscribersPerProperty ≤ subscribers.card then
    .error ("refused client " ++ clientID ++ ": property " ++ propertyName ++ " already notifies " ++
      toString kMaxSubscribersPerProperty ++ " clients, the cap kMaxSubscribersPerProperty")
  else .ok { b with propertySubscriptions := update b.propertySubscriptions propertyName (insert clientID subscribers) }

def unsubscribe (b : Block σ) (propertyName clientID : String) : Block σ :=
  { b with propertySubscriptions :=
      update b.propertySubscriptions propertyName ((b.propertySubscriptions propertyName).erase clientID) }

/-- What a callback does with the other commands to the name and the state, with a reply or what it throws. -/
abbrev Handle (D σ : Type) := Message D → String → σ → Except String (Option (Message D)) × String × σ

def propertyCallback (handle : Handle D σ) (b : Block σ) (message : Message D) :
    Except String (Option (Message D)) × Block σ :=
  if message.endpoint ∈ subscribable ∧ message.cmd = .subscribe then
    match subscribe b message.endpoint message.clientRequestID with
    | .ok b => (.ok none, b)
    | .error refused => (.error refused, b)
  else if message.endpoint ∈ subscribable ∧ message.cmd = .unsubscribe then
    (.ok none, unsubscribe b message.endpoint message.clientRequestID)
  else
    let (result, name, state) := handle message b.name b.state
    (result, { b with name, state })

/-- The body of the loop of `processMessages()`, with the reply. -/
def processMessage (handle : Handle D σ) (b : Block σ) (message : Message D) : Block σ × Option (Message D) :=
  if message.serviceName ∉ ["", b.uniqueName, b.name] ∨ message.endpoint ∉ properties then (b, none)
  else
    let (result, b) := propertyCallback handle b message
    let reply := match result with
      | .ok reply => reply
      | .error thrown => some { message with data := .error thrown }
    (b, reply.map fun reply => { reply with cmd := .final, serviceName := b.uniqueName })

def notifyListeners (b : Block σ) (endpoint : String) (data : D) : List (Message D) :=
  ((b.propertySubscriptions endpoint).sort (· ≤ ·)).map fun clientID => ⟨.notify, b.uniqueName, clientID, endpoint, .ok data⟩

end

end GnuRadio.Subscriptions
