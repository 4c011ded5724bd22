import CMarmotta.Sharding.Sharding

/-!
# The proxy when calls to the backends fail

Every call of the proxy to a backend may fail. The handlers that stream their input
(`AddNamespaces`, `AddStatements`, `Update`) finish each call and drop its status, the readers of
`GetStatements` never ask for it, and `Fanout` collects the statuses and returns the first that is
not OK.

A write to a stream fails only after its call has ended, and then `Finish` does not return OK. A
backend that loses its stream stores what has arrived, as it does for a stream that is completed.
-/

namespace CMarmotta

open Threads

/-- `Status::OK`. -/
def Status.ok : Status := ⟨.OK, ""⟩

/-- What becomes of the call to one backend: it succeeds and all messages of its stream arrive, or
it ends with another status after the first `delivered` messages. A request that is not a stream
is one message. -/
inductive CallResult where
  | ok
  | failed (status : Status) (h : status.code ≠ .OK) (delivered : Nat)

namespace CallResult

/-- What `Finish`, or the call itself, returns. -/
def status : CallResult → Status
  | .ok => .ok
  | .failed status _ _ => status

/-- The messages that arrive. -/
def arrive {α : Type} (messages : List α) : CallResult → List α
  | .ok => messages
  | .failed _ _ delivered => messages.take delivered

/-- A call with a stream of requests: the backend handles what arrives, and a failed call leaves the
response as it was created. -/
def stream {α β : Type} (handler : ServerReader α → Store × β) (unset : β) (messages : List α) :
    CallResult → Store × β
  | .ok => handler { messages }
  | .failed _ _ delivered =>
    ((handler { messages := messages.take delivered, cancelled := true }).1, unset)

/-- A call with one request. -/
def unary (handler : Store → Store × Nat) (σ : Store) : CallResult → Store × Nat
  | .ok => handler σ
  | .failed _ _ delivered => (if delivered = 0 then σ else (handler σ).1, 0)

end CallResult

/-- What fails while the proxy serves a request: the calls to the backends, and after how many
statements the stream to the client breaks, if it does. -/
structure Faults (n : Nat) where
  calls : Fin (n + 1) → CallResult
  capacity : Option Nat := none

namespace ShardingService

/-- The end of `Fanout`: the first status that is not OK. -/
def firstError : List Status → Status
  | [] => .ok
  | s :: statuses => if s.code ≠ .OK then s else firstError statuses

variable [Platform] {n : Nat}

/-- `ShardingService::AddNamespaces`. The statuses of the calls are dropped. -/
def addNamespacesWith (faults : Faults n) (shards : Shards n) (it : List Namespace) :
    Shards n × Nat × Status :=
  let writers := it.foldl Writers.writeAll fun _ => []
  let stats := fun i =>
    (faults.calls i).stream (LevelDBService.addNamespaces (shards i)) 0 (writers i)
  (fun i => (stats i).1, (stats ⟨0, n.succ_pos⟩).2, .ok)

/-- `ShardingService::AddStatements`. The statuses of the calls are dropped. -/
def addStatementsWith (faults : Faults n) (shards : Shards n) (it : List Statement) :
    Shards n × Nat × Status :=
  let writers : Writers n Statement :=
    it.foldl (fun writers stmt => writers.write (bucket n stmt) stmt) fun _ => []
  let responses := fun i =>
    (faults.calls i).stream (LevelDBService.addStatements (shards i)) 0 (writers i)
  (fun i => (responses i).1, sumResponses fun i => (responses i).2, .ok)

/-- `ShardingService::Update`. The statuses of the calls are dropped. -/
def updateWith (faults : Faults n) (shards : Shards n) (it : List UpdateRequest) :
    Shards n × UpdateResponse × Status :=
  let writers := it.foldl route fun _ => []
  let responses := fun i =>
    (faults.calls i).stream (LevelDBService.update (shards i)) {} (writers i)
  (fun i => (responses i).1, {
    addedNamespaces := sumResponses fun i => (responses i).2.addedNamespaces
    removedNamespaces := sumResponses fun i => (responses i).2.removedNamespaces
    addedStatements := sumResponses fun i => (responses i).2.addedStatements
    removedStatements := sumResponses fun i => (responses i).2.removedStatements }, .ok)

/-- What the threads of `Fanout` return for a call to all backends. -/
def fanoutWith (faults : Faults n) (handler : Store → Store × Nat) (shards : Shards n)
    (i : Fin (n + 1)) : Store × Nat :=
  (faults.calls i).unary handler (shards i)

/-- The status that `Fanout` returns. -/
def fanoutStatus (faults : Faults n) : Status :=
  firstError ((List.finRange (n + 1)).map fun i => (faults.calls i).status)

/-- The proxy serves a request, returning a status, while the given calls fail. -/
inductive HandlesWith (faults : Faults n) (shards : Shards n) :
    Exchange n → Status → Shards n → Prop
  | addNamespaces (it : List Namespace) :
      HandlesWith faults shards
        { request := .addNamespaces it, response := .count (addNamespacesWith faults shards it).2.1 }
        (addNamespacesWith faults shards it).2.2 (addNamespacesWith faults shards it).1
  | addStatements (it : List Statement) :
      HandlesWith faults shards
        { request := .addStatements it, response := .count (addStatementsWith faults shards it).2.1 }
        (addStatementsWith faults shards it).2.2 (addStatementsWith faults shards it).1
  | update (it : List UpdateRequest) :
      HandlesWith faults shards
        { request := .update it, response := .update (updateWith faults shards it).2.1 }
        (updateWith faults shards it).2.2 (updateWith faults shards it).1
  | getStatements (pattern : Statement) {result : List Statement}
      (h : Interleaves (fun i => (faults.calls i).arrive
        (LevelDBService.getStatements (shards i) pattern {}).written) result) :
      HandlesWith faults shards {
        request := .getStatements pattern
        response := .statements ((faults.capacity.map result.take).getD result) } .ok shards
  | removeStatements (pattern : Statement) {accesses : List (Access (Fin (n + 1)))} {r : Nat}
      (h : addAll (fun i => (fanoutWith faults
        (LevelDBService.removeStatements · pattern) shards i).2) accesses = some r) :
      HandlesWith faults shards
        { request := .removeStatements pattern, accesses, response := .count r }
        (fanoutStatus faults)
        fun i => (fanoutWith faults (LevelDBService.removeStatements · pattern) shards i).1
  | clear (contexts : ContextRequest) {accesses : List (Access (Fin (n + 1)))} {r : Nat}
      (h : addAll (fun i => (fanoutWith faults
        (LevelDBService.clear · contexts) shards i).2) accesses = some r) :
      HandlesWith faults shards { request := .clear contexts, accesses, response := .count r }
        (fanoutStatus faults)
        fun i => (fanoutWith faults (LevelDBService.clear · contexts) shards i).1
  | size (contexts : ContextRequest) {accesses : List (Access (Fin (n + 1)))} {r : Nat}
      (h : addAll (fun i => (fanoutWith faults
        (fun σ => (σ, LevelDBService.size σ contexts)) shards i).2) accesses = some r) :
      HandlesWith faults shards { request := .size contexts, accesses, response := .count r }
        (fanoutStatus faults)
        fun i => (fanoutWith faults (fun σ => (σ, LevelDBService.size σ contexts)) shards i).1

end ShardingService

/-- The requests the proxy sends to all backends, or to those that the messages of the stream
select. The others ask one backend for namespaces. -/
def Request.toAllBackends : Request → Bool
  | .getNamespace _ => false
  | .getNamespaces => false
  | _ => true

/-- The requests the proxy serves by `Fanout`. -/
def Request.isFanout : Request → Bool
  | .removeStatements _ => true
  | .clear _ => true
  | .size _ => true
  | _ => false

section Property

variable [Platform] {n : Nat}

open ShardingService

/-- If the proxy returns OK, all its calls to the backends returned OK, and it has done and answered
what it does and answers when nothing fails. -/
def NoSilentLoss (faults : Faults n) (shards : Shards n) (request : Request) : Prop :=
  ∀ e status shards', HandlesWith faults shards e status shards' → e.request = request →
    status.code = .OK → (∀ i, (faults.calls i).status.code = .OK) ∧ Handles shards e shards'

/-- The stream to the client does not break before all statements are written. -/
def Faults.reachesClient (faults : Faults n) (shards : Shards n) : Request → Prop
  | .getStatements pattern => ∀ capacity, faults.capacity = some capacity →
    (sumResponses fun i => (getStatements (shards i) pattern).length) ≤ capacity
  | _ => True

end Property

end CMarmotta
