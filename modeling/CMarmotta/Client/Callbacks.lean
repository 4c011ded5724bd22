import Mathlib.Data.List.Basic

/-!
# `CMarmottaSailConnection.java`: how a commit learns its outcome

All update streams of a connection share one `updateResponseObserver`. Its terminal callbacks,
which the server causes and another thread runs, set `finishFuture`, a field of the connection
that is replaced when a stream is opened. `commitInternal` completes the stream and waits for the
future. A rollback does not wait for the callback of its stream.

Streams are numbered in the order in which they are opened. `completes i` says whether the server
completes stream `i`, and then its callback is `onCompleted`; otherwise it is `onError`.
-/

namespace CMarmotta.Client

/-- `SettableFuture`. -/
inductive Future where
  | pending
  | done (completed : Bool)
  deriving DecidableEq

/-- `set` and `setException`: the first of them decides. -/
def Future.set (completed : Bool) : Future → Future
  | .pending => .done completed
  | .done c => .done c

/-- The fields of a connection, whether the client has completed the stream in use and waits for
the future, the streams whose callback has come, and what the commits have reported so far. -/
structure Commits where
  opened : Nat := 0
  updateRequestObserver : Option Nat := none
  completed : Bool := false
  finishFuture : Option Future := none
  waiting : Bool := false
  delivered : List Nat := []
  reports : List (Nat × Bool) := []

/-- The steps of the client and of the callbacks. -/
inductive CommitEvent where
  /-- `ensureTransaction`. -/
  | ensureTransaction
  /-- `commitInternal`, up to the wait. -/
  | commit
  /-- The wait ends, and `commitInternal` with it. -/
  | get
  /-- `rollbackInternal`. -/
  | rollback
  /-- The terminal callback of a stream. -/
  | deliver (i : Nat)

variable (completes : Nat → Bool)

/-- One step. The client makes no other call while it waits, and a stream has one terminal
callback. To complete a stream twice throws an exception, so that commit fails. -/
def Commits.step (s : Commits) : CommitEvent → Option Commits
  | .ensureTransaction =>
    if s.waiting then none
    else if s.updateRequestObserver.isNone then
      some { s with
        opened := s.opened + 1
        updateRequestObserver := some s.opened
        completed := false
        finishFuture := some .pending }
    else some s
  | .commit =>
    if s.waiting then none
    else match s.updateRequestObserver with
      | none => some s
      | some i =>
        if s.completed then some { s with reports := s.reports ++ [(i, false)] }
        else some { s with completed := true, waiting := true }
  | .get =>
    match s.waiting, s.updateRequestObserver, s.finishFuture with
    | true, some i, some (.done c) =>
      some { s with
        updateRequestObserver := if c then none else some i
        waiting := false
        reports := s.reports ++ [(i, c)] }
    | _, _, _ => none
  | .rollback => if s.waiting then none else some { s with updateRequestObserver := none }
  | .deliver i =>
    if i < s.opened ∧ i ∉ s.delivered then
      some { s with
        finishFuture := s.finishFuture.map (Future.set (completes i))
        delivered := s.delivered ++ [i] }
    else none

/-- The state after some steps. -/
def Commits.run (s : Commits) (events : List CommitEvent) : Option Commits :=
  events.foldlM (Commits.step completes) s

/-- While the future of a stream is not set, no callback of another stream comes that has the
other outcome. -/
def Undisturbed (s : Commits) : List CommitEvent → Prop
  | [] => True
  | e :: events =>
    (∀ i, e = .deliver i → s.finishFuture = some .pending →
      completes i = completes (s.opened - 1)) ∧
      ∀ s', s.step completes e = some s' → Undisturbed s' events

/-- The commits report the outcome of their own stream, and a commit that waits for a stream whose
callback has come can report it. -/
structure Commits.Right (s : Commits) : Prop where
  reports : ∀ i c, (i, c) ∈ s.reports → c = completes i
  ready : ∀ i, s.waiting = true → s.updateRequestObserver = some i → i ∈ s.delivered →
    s.finishFuture = some (.done (completes i))

end CMarmotta.Client
