import CMarmotta.Service.LevelDBService
import Mathlib.Logic.Relation

/-!
# `ClosableResponseStream.java`: reading the messages of a server

The transport hands over the messages of the server and at last its status to a listener, which puts
them into a buffer with two places. It delivers as many messages as the client has requested. The
thread that iterates takes them out again, keeps one in `last` until it is returned, and requests
the next one when it returns one. The constructor has requested the first.

The two threads share the buffer and the number of requested messages, so an access to one of these
is a step of its own. The iterating thread is not interrupted, and the call is not cancelled.
-/

namespace CMarmotta.Client

/-- What the buffer holds: a message, the stream itself for the end of the messages, or a status that
is not `OK`. -/
inductive Item (α : Type) where
  | message (value : α)
  | self
  | status (error : Status)

/-- What `onClose` puts into the buffer. -/
def endMark {α : Type} (status : Status) : Item α :=
  if status.code = .OK then .self else .status status

/-- The calls on an iteration. -/
inductive IteratorCall where
  | hasNext
  | next
  deriving DecidableEq

/-- How a call ends. -/
inductive Outcome (α : Type) where
  | answer (hasNext : Bool)
  | value (message : α)
  | noSuchElementException
  | sailException (status : Status)
  deriving DecidableEq

/-- The element that a call returns. -/
def Outcome.value? {α : Type} : Outcome α → Option α
  | .value message => some message
  | _ => none

/-- The call says that there are no more elements. -/
def Outcome.ends {α : Type} : Outcome α → Bool
  | .answer hasNext => !hasNext
  | .value _ => false
  | .noSuchElementException => true
  | .sailException _ => true

/-- How `hasNext` ends with this item in `last`. -/
def Item.hasNext {α : Type} : Item α → Outcome α
  | .message _ => .answer true
  | .self => .answer false
  | .status error => .sailException error

/-- How `next` ends with this item in `last`. A message is returned by later steps. -/
def Item.next? {α : Type} : Item α → Option (Outcome α)
  | .message _ => none
  | .self => some .noSuchElementException
  | .status error => some (.sailException error)

/-- Where the iterating thread is: outside of a call, at the line with `buffer.take()`, after it, at
`call.request(1)`, or after that. -/
inductive Consumer where
  | idle
  | take (c : IteratorCall)
  | test (c : IteratorCall)
  | request
  | finish
  deriving DecidableEq

/-- A stream, with the messages and the status that are still to come, the counts of flow control,
the calls that have ended, and whether the buffer was full when something was added. -/
structure ResponseStream (α : Type) where
  incoming : List α
  status : Status
  requested : Nat := 1
  delivered : Nat := 0
  done : Bool := false
  buffer : List (Item α) := []
  last : Option (Item α) := none
  consumer : Consumer := .idle
  calls : List IteratorCall := []
  outcomes : List (Outcome α) := []
  overflow : Bool := false

namespace ResponseStream

variable {α : Type}

/-- The call ends. -/
def ends (s : ResponseStream α) (c : IteratorCall) (o : Outcome α) : ResponseStream α :=
  { s with
    consumer := .idle
    calls := s.calls ++ [c]
    outcomes := s.outcomes ++ [o] }

/-- The callbacks of the transport. It delivers no more messages than requested, and the status once,
after all messages. `buffer.add` throws if the buffer is full. -/
inductive Transport (s : ResponseStream α) : ResponseStream α → Prop
  | onMessage {value : α} {rest : List α} (hdone : s.done = false)
      (hincoming : s.incoming = value :: rest) (hrequested : s.delivered < s.requested)
      (hroom : s.buffer.length < 2) :
      Transport s { s with
        incoming := rest
        delivered := s.delivered + 1
        buffer := s.buffer ++ [.message value] }
  | onMessageFull {value : α} {rest : List α} (hdone : s.done = false)
      (hincoming : s.incoming = value :: rest) (hrequested : s.delivered < s.requested)
      (hfull : 2 ≤ s.buffer.length) :
      Transport s { s with
        incoming := rest
        delivered := s.delivered + 1
        overflow := true }
  | onClose (hdone : s.done = false) (hincoming : s.incoming = []) (hroom : s.buffer.length < 2) :
      Transport s { s with
        buffer := s.buffer ++ [endMark s.status]
        done := true }
  | onCloseFull (hdone : s.done = false) (hincoming : s.incoming = [])
      (hfull : 2 ≤ s.buffer.length) :
      Transport s { s with overflow := true }

/-- The steps of the iterating thread. `next` starts with a call of `hasNext`. -/
inductive Iterate (s : ResponseStream α) : ResponseStream α → Prop
  | call (c : IteratorCall) (hc : s.consumer = .idle) : Iterate s { s with consumer := .take c }
  | keep {c : IteratorCall} {x : Item α} (hc : s.consumer = .take c) (hlast : s.last = some x) :
      Iterate s { s with consumer := .test c }
  | take {c : IteratorCall} {x : Item α} {rest : List (Item α)} (hc : s.consumer = .take c)
      (hlast : s.last = none) (hbuffer : s.buffer = x :: rest) :
      Iterate s { s with
        buffer := rest
        last := some x
        consumer := .test c }
  | hasNext {x : Item α} (hc : s.consumer = .test .hasNext) (hlast : s.last = some x) :
      Iterate s (s.ends .hasNext x.hasNext)
  | nextThrows {x : Item α} {o : Outcome α} (hc : s.consumer = .test .next)
      (hlast : s.last = some x) (ho : x.next? = some o) : Iterate s (s.ends .next o)
  | next {value : α} (hc : s.consumer = .test .next) (hlast : s.last = some (.message value)) :
      Iterate s { s with consumer := .request }
  | request (hc : s.consumer = .request) :
      Iterate s { s with
        requested := s.requested + 1
        consumer := .finish }
  | finish {value : α} (hc : s.consumer = .finish) (hlast : s.last = some (.message value)) :
      Iterate s { s.ends .next (.value value) with last := none }

/-- A step of one of the threads. -/
def Step (s s' : ResponseStream α) : Prop := Transport s s' ∨ Iterate s s'

/-- Some steps. -/
abbrev Reaches : ResponseStream α → ResponseStream α → Prop := Relation.ReflTransGen Step

/-- A new stream. -/
def start (messages : List α) (status : Status) : ResponseStream α where
  incoming := messages
  status := status

/-- The iterating thread waits for the buffer. -/
def Waits (s : ResponseStream α) : Prop :=
  (∃ c, s.consumer = .take c) ∧ s.last = none ∧ s.buffer = []

/-- The elements that `next` has returned. -/
def returned (s : ResponseStream α) : List α := s.outcomes.filterMap Outcome.value?

end ResponseStream

/-! ## A list with a status -/

/-- How a call on an iteration over a list ends that has a status at its end, and what is left of the
list. -/
def listCall {α : Type} (status : Status) : List α → IteratorCall → Outcome α × List α
  | [], .hasNext => (if status.code = .OK then .answer false else .sailException status, [])
  | [], .next => (if status.code = .OK then .noSuchElementException else .sailException status, [])
  | value :: rest, .hasNext => (.answer true, value :: rest)
  | value :: rest, .next => (.value value, rest)

/-- How some calls end, and what is left of the list. -/
def listCalls {α : Type} (status : Status) (messages : List α) (calls : List IteratorCall) :
    List (Outcome α) × List α :=
  calls.foldl (fun (outcomes, rest) c =>
    let (o, rest') := listCall status rest c
    (outcomes ++ [o], rest')) ([], messages)

end CMarmotta.Client
