import CMarmotta.Service.LevelDBService
import CMarmotta.Lib.Threads

/-!
# `sharding/sharding.cc`: the proxy over several backends

The proxy sends a new statement to the backend that the hash of the statement selects, and every
removal and every namespace to all backends. It asks all backends for statements, in parallel, and
one of them, picked at random, for namespaces. There are `n + 1` backends, each with a store of its
own, and all calls of the proxy to them succeed.

The parts of a request that depend on the scheduling of threads or on `rand` make its outcome a
relation: the readers of `GetStatements` write their results in any order, behind a lock, and the
threads of `Fanout` add their counts to one variable without a lock.
-/

namespace CMarmotta

open Threads

/-- The stores of the backends. -/
abbrev Shards (n : Nat) := Fin (n + 1) → Store

/-- The sum that a loop over the responses of all backends accumulates. -/
def sumResponses {n : Nat} (responses : Fin (n + 1) → Nat) : Nat :=
  (List.finRange (n + 1)).foldl (fun result i => result + responses i) 0

namespace ShardingService

variable [Platform] {n : Nat}

open Platform

/-- `std::hash<Statement>` modulo the number of backends. -/
def bucket (n : Nat) (stmt : Statement) : Fin (n + 1) :=
  ⟨stdHash (statementCodec.serialize stmt) % (n + 1), Nat.mod_lt _ (Nat.succ_pos n)⟩

/-- The streams to the backends, as lists of the messages written so far. -/
abbrev Writers (n : Nat) (α : Type) := Fin (n + 1) → List α

omit [Platform] in
/-- `writers[i]->Write(m)`. -/
def Writers.write {α : Type} (writers : Writers n α) (i : Fin (n + 1)) (m : α) : Writers n α :=
  Function.update writers i (writers i ++ [m])

omit [Platform] in
/-- `for (auto& w : writers) w->Write(m)`. -/
def Writers.writeAll {α : Type} (writers : Writers n α) (m : α) : Writers n α :=
  fun i => writers i ++ [m]

/-- `ShardingService::AddNamespaces`. -/
def addNamespaces (shards : Shards n) (it : List Namespace) : Shards n × Nat :=
  let writers := it.foldl Writers.writeAll fun _ => []
  let stats := fun i => LevelDBService.addNamespaces (shards i) { messages := writers i }
  (fun i => (stats i).1, (stats 0).2)

/-- `ShardingService::AddStatements`. -/
def addStatements (shards : Shards n) (it : List Statement) : Shards n × Nat :=
  let writers : Writers n Statement :=
    it.foldl (fun writers stmt => writers.write (bucket n stmt) stmt) fun _ => []
  let responses := fun i => LevelDBService.addStatements (shards i) { messages := writers i }
  (fun i => (responses i).1, sumResponses fun i => (responses i).2)

/-- What the loop of `ShardingService::Update` does with a request. -/
def route (writers : Writers n UpdateRequest) : UpdateRequest → Writers n UpdateRequest
  | .stmtAdded stmt => writers.write (bucket n stmt) (.stmtAdded stmt)
  | req => writers.writeAll req

/-- `ShardingService::Update`. -/
def update (shards : Shards n) (it : List UpdateRequest) : Shards n × UpdateResponse :=
  let writers := it.foldl route fun _ => []
  let responses := fun i => LevelDBService.update (shards i) { messages := writers i }
  (fun i => (responses i).1, {
    addedNamespaces := sumResponses fun i => (responses i).2.addedNamespaces
    removedNamespaces := sumResponses fun i => (responses i).2.removedNamespaces
    addedStatements := sumResponses fun i => (responses i).2.addedStatements
    removedStatements := sumResponses fun i => (responses i).2.removedStatements })

/-- A request, how the threads of its fan-out access their sum, and the answer. -/
structure Exchange (n : Nat) where
  request : Request
  accesses : List (Access (Fin (n + 1))) := []
  response : Response

/-- The proxy serves a request. -/
inductive Handles (shards : Shards n) : Exchange n → Shards n → Prop
  | addNamespaces (it : List Namespace) :
      Handles shards
        { request := .addNamespaces it, response := .count (addNamespaces shards it).2 }
        (addNamespaces shards it).1
  | addStatements (it : List Statement) :
      Handles shards
        { request := .addStatements it, response := .count (addStatements shards it).2 }
        (addStatements shards it).1
  | update (it : List UpdateRequest) :
      Handles shards { request := .update it, response := .update (update shards it).2 }
        (update shards it).1
  | getNamespace (pattern : Namespace) (rand : Nat) :
      Handles shards {
        request := .getNamespace pattern
        response := .namespace (LevelDBService.getNamespace
          (shards ⟨rand % (n + 1), Nat.mod_lt _ (Nat.succ_pos n)⟩) pattern) } shards
  | getNamespaces (rand : Nat) :
      Handles shards {
        request := .getNamespaces
        response := .namespaces (LevelDBService.getNamespaces
          (shards ⟨rand % (n + 1), Nat.mod_lt _ (Nat.succ_pos n)⟩) {}).written } shards
  | getStatements (pattern : Statement) {result : List Statement}
      (h : Interleaves
        (fun i => (LevelDBService.getStatements (shards i) pattern {}).written) result) :
      Handles shards
        { request := .getStatements pattern, response := .statements result } shards
  | removeStatements (pattern : Statement) {accesses : List (Access (Fin (n + 1)))} {r : Nat}
      (h : addAll (fun i => (LevelDBService.removeStatements (shards i) pattern).2) accesses =
        some r) :
      Handles shards { request := .removeStatements pattern, accesses, response := .count r }
        fun i => (LevelDBService.removeStatements (shards i) pattern).1
  | clear (contexts : ContextRequest) {accesses : List (Access (Fin (n + 1)))} {r : Nat}
      (h : addAll (fun i => (LevelDBService.clear (shards i) contexts).2) accesses = some r) :
      Handles shards { request := .clear contexts, accesses, response := .count r }
        fun i => (LevelDBService.clear (shards i) contexts).1
  | size (contexts : ContextRequest) {accesses : List (Access (Fin (n + 1)))} {r : Nat}
      (h : addAll (fun i => LevelDBService.size (shards i) contexts) accesses = some r) :
      Handles shards { request := .size contexts, accesses, response := .count r } shards

/-- The proxy serves requests one after another. -/
inductive Run : Shards n → List (Exchange n) → Shards n → Prop
  | nil (shards : Shards n) : Run shards [] shards
  | cons {shards shards' shards'' : Shards n} {e : Exchange n} {trace : List (Exchange n)}
      (h : Handles shards e shards') (hrun : Run shards' trace shards'') :
      Run shards (e :: trace) shards''

end ShardingService

/-- The answer of the proxy is that of a single backend, up to the order of statements. The counts of
an `Update` are not compared. -/
def Response.Matches (single : Response) : Response → Prop
  | .statements l => ∃ l', single = .statements l' ∧ l.Perm l'
  | .update _ => ∃ u, single = .update u
  | r => single = r

end CMarmotta
