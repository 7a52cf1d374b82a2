import GnuRadio.Library.BoundedDeque
import GnuRadio.Library.Transition

/-! The lists of messages that did not fit in a ring and are tried again: `forwardToChildren()` and `forwardToMsgOut()` of a
    scheduler (Scheduler.hpp), and `sendReply()` and `sendUnsentReplies()` of a block (Block.cpp). A ring is read at any
    pace between two calls, so each call is given the room that it finds. -/

namespace GnuRadio.RetryQueues

open Backlog (Queue)

variable {μ : Type}

/-- `_pendingMessagesToChildren`, `_unforwardedReplies` and `_unsentReplies`. -/
inductive Kept
  | pendingMessagesToChildren
  | unforwardedReplies
  | unsentReplies
  deriving DecidableEq, Repr

/-- The slots of the ring that each list is written to, and whether a message's command is `Notify`. -/
structure Config (μ : Type) where
  bufferSize : Kept → Nat
  isNotify : μ → Bool

/-- `available()` of the ring's writer, and the size of the span that `tryReserve()` grants at most. -/
structure Room where
  available : Nat
  granted : Nat
  deriving DecidableEq, Repr

/-- Each list with what went from it into its ring. -/
structure State (μ : Type) where
  queues : Kept → Queue μ
  droppedMessageCount : Nat

namespace State

variable (cfg : Config μ) (s : State μ) (k : Kept)

def setQueue (queue : Queue μ) : State μ :=
  { s with queues := Function.update s.queues k queue }

def setKept (kept : List μ) : State μ :=
  s.setQueue k { s.queues k with kept := kept }

def write (messages : List μ) : State μ :=
  s.setQueue k { s.queues k with written := (s.queues k).written ++ messages }

def accept (messages : List μ) : State μ :=
  s.setQueue k { s.queues k with accepted := (s.queues k).accepted ++ messages }

/-- Dropped messages are counted. -/
def drop (messages : List μ) : State μ :=
  let s := s.setQueue k { s.queues k with dropped := (s.queues k).dropped ++ messages }
  { s with droppedMessageCount := s.droppedMessageCount + messages.length }

/-- When the kept messages outnumber the ring's slots, the oldest are dropped. -/
def dropOverflow : State μ :=
  let kept := (s.queues k).kept
  let nOverflow := kept.length - cfg.bufferSize k
  (s.setKept k (kept.drop nOverflow)).drop k (kept.take nOverflow)

/-- What `forwardToChildren()` and `forwardToMsgOut()` share: the kept messages go first, then the new ones. Of the new
    ones that do not fit, those that `keeps` picks are kept. -/
def forward (keeps : μ → Bool) (room : Room) (messages : List μ) : State μ :=
  let kept := (s.queues k).kept
  let nToSend := min (kept.length + messages.length) room.available
  let nSent := min room.granted nToSend
  let nKept := min nSent kept.length
  let s := (s.accept k messages).write k (kept.take nKept ++ messages.take (nSent - nKept))
  let rest := messages.drop (nSent - nKept)
  let s := s.setKept k (kept.drop nKept ++ rest.filter keeps)
  (s.drop k (rest.filter fun message => !keeps message)).dropOverflow cfg k

def forwardToChildren (room : Room) (messages : List μ) : State μ :=
  s.forward cfg .pendingMessagesToChildren (fun _ => true) room messages

/-- A notification that does not fit is dropped. -/
def forwardToMsgOut (room : Room) (messages : List μ) : State μ :=
  s.forward cfg .unforwardedReplies (fun message => !cfg.isNotify message) room messages

def sendUnsentReplies (room : Room) : State μ :=
  let unsent := (s.queues .unsentReplies).kept
  if unsent = [] then s
  else
    let nFit := min unsent.length room.available
    if nFit = 0 then s
    else
      let nSent := min room.granted nFit
      (s.write .unsentReplies (unsent.take nSent)).setKept .unsentReplies (unsent.drop nSent)

/-- `granted` is the size of the span for the reply itself. -/
def sendReply (room : Room) (granted : Nat) (reply : μ) : State μ :=
  let s := (s.sendUnsentReplies room).accept .unsentReplies [reply]
  let unsent := (s.queues .unsentReplies).kept
  if unsent = [] ∧ granted ≠ 0 then s.write .unsentReplies [reply]
  else (s.setKept .unsentReplies (unsent ++ [reply])).dropOverflow cfg .unsentReplies

end State

inductive Call (μ : Type)
  | forwardToChildren (room : Room) (messages : List μ)
  | forwardToMsgOut (room : Room) (messages : List μ)
  | sendReply (room : Room) (granted : Nat) (reply : μ)
  | sendUnsentReplies (room : Room)

variable (cfg : Config μ)

def step (s : State μ) : Call μ → State μ
  | .forwardToChildren room messages => s.forwardToChildren cfg room messages
  | .forwardToMsgOut room messages => s.forwardToMsgOut cfg room messages
  | .sendReply room granted reply => s.sendReply cfg room granted reply
  | .sendUnsentReplies room => s.sendUnsentReplies room

def system : Transition.System (State μ) (Call μ) where
  start s := s = ⟨fun _ => ⟨[], [], [], []⟩, 0⟩
  step s call := some (step cfg s call)

end GnuRadio.RetryQueues
