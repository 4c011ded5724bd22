import CMarmotta.Model.Operators
import CMarmotta.Persistence.LevelDB

/-!
# `persistence/leveldb_service.cc`: the service of one backend

The service reads the streams of its clients through an iterator, hands them to the persistence
layer and writes back what it returns. A stream of requests ends when the client half-closes it or
cancels the call; `Read` returns false in both cases, and only the server context, which the service
does not ask, tells them apart.
-/

namespace CMarmotta

/-- `grpc::StatusCode`. -/
inductive StatusCode where
  | OK
  | CANCELLED
  | UNKNOWN
  | INVALID_ARGUMENT
  | DEADLINE_EXCEEDED
  | NOT_FOUND
  | ALREADY_EXISTS
  | PERMISSION_DENIED
  | UNAUTHENTICATED
  | RESOURCE_EXHAUSTED
  | FAILED_PRECONDITION
  | ABORTED
  | OUT_OF_RANGE
  | UNIMPLEMENTED
  | INTERNAL
  | UNAVAILABLE
  | DATA_LOSS
  deriving DecidableEq

/-- `grpc::Status`. -/
structure Status where
  code : StatusCode
  message : String := ""
  deriving DecidableEq

/-! ## Streams -/

/-- `grpc::ServerReader`: the messages that still arrive, and whether the client then cancels the
call instead of half-closing it. -/
structure ServerReader (α : Type) where
  messages : List α
  cancelled : Bool := false

/-- `ServerReader::Read`: the next message, or false. -/
def ServerReader.read {α : Type} (r : ServerReader α) : Option (α × ServerReader α) :=
  match r.messages with
  | [] => none
  | m :: rest => some (m, { r with messages := rest })

/-- `class ReaderIterator`. -/
structure ReaderIterator (α : Type) where
  reader : ServerReader α
  buffer : α
  finished : Bool

namespace ReaderIterator

variable {α : Type}

/-- `operator++`. -/
def next (it : ReaderIterator α) : ReaderIterator α :=
  if !it.finished then
    match it.reader.read with
    | some (m, r) => { it with reader := r, buffer := m }
    | none => { it with finished := true }
  else it

/-- The constructor, which moves to the first element. -/
def ofReader [Inhabited α] (r : ServerReader α) : ReaderIterator α :=
  next { reader := r, buffer := default, finished := false }

/-- `hasNext`. -/
def hasNext (it : ReaderIterator α) : Bool := !it.finished

/-- What is left to do for a loop over the iterator. -/
def remaining (it : ReaderIterator α) : Nat :=
  it.reader.messages.length + if it.finished then 0 else 1

theorem remaining_next_lt (it : ReaderIterator α) (h : it.hasNext = true) :
    it.next.remaining < it.remaining := by
  obtain ⟨⟨messages, cancelled⟩, buffer, finished⟩ := it
  obtain rfl : finished = false := by simpa [hasNext] using h
  cases messages <;> simp [next, ServerReader.read, remaining]

/-- The elements that a loop `for (; it.hasNext(); ++it)` goes through. -/
def toList (it : ReaderIterator α) : List α :=
  if _h : it.hasNext then it.buffer :: it.next.toList else []
termination_by it.remaining
decreasing_by exact it.remaining_next_lt _h

end ReaderIterator

/-- `grpc::ServerWriter`: the messages written, and after how many more the stream breaks, if it
does. -/
structure ServerWriter (α : Type) where
  written : List α := []
  capacity : Option Nat := none

/-- `ServerWriter::Write`. -/
def ServerWriter.write {α : Type} (w : ServerWriter α) (m : α) : ServerWriter α × Bool :=
  if w.capacity = some 0 then (w, false)
  else ({ written := w.written ++ [m], capacity := w.capacity.map (· - 1) }, true)

/-! ## Sets of contexts -/

/-- `contexts.insert(r)` on a `std::unordered_set<Resource>`. Equal resources have equal hashes. -/
def insertContext (contexts : List Resource) (r : Resource) : List Resource :=
  if contexts.any (Resource.equal r) then contexts else contexts ++ [r]

/-! ## Calls -/

namespace LevelDBService

variable [Platform]

/-- `LevelDBService::AddNamespaces`. -/
def addNamespaces (σ : Store) (reader : ServerReader Namespace) : Store × Nat :=
  CMarmotta.addNamespaces σ (ReaderIterator.ofReader reader).toList

/-- `LevelDBService::GetNamespace`: the last namespace the callback is called with. -/
def getNamespace (σ : Store) (pattern : Namespace) : Except Status Namespace :=
  forEach (fun _ r => (.ok r, true)) (.error ⟨.NOT_FOUND, "Namespace not found"⟩)
    (CMarmotta.getNamespaces σ pattern)

/-- `LevelDBService::GetNamespaces`. -/
def getNamespaces (σ : Store) (result : ServerWriter Namespace) : ServerWriter Namespace :=
  forEach ServerWriter.write result (CMarmotta.getNamespaces σ ⟨"", ""⟩)

/-- `LevelDBService::AddStatements`. -/
def addStatements (σ : Store) (reader : ServerReader Statement) : Store × Nat :=
  CMarmotta.addStatements σ (ReaderIterator.ofReader reader).toList

/-- `LevelDBService::GetStatements`. -/
def getStatements (σ : Store) (pattern : Statement) (result : ServerWriter Statement) :
    ServerWriter Statement :=
  forEach ServerWriter.write result (CMarmotta.getStatements σ pattern)

/-- `LevelDBService::RemoveStatements`. -/
def removeStatements (σ : Store) (pattern : Statement) : Store × Nat :=
  CMarmotta.removeStatements σ pattern

/-- The loop of `LevelDBService::Clear` over the contexts, with one pattern message for all. -/
def clearLoop (σ : Store) (pattern : Statement) (count : Nat) : ContextRequest → Store × Nat
  | [] => (σ, count)
  | r :: contexts =>
    let pattern := { pattern with context := some r }
    let (σ', removed) := CMarmotta.removeStatements σ pattern
    clearLoop σ' pattern (count + removed) contexts

/-- `LevelDBService::Clear`. -/
def clear (σ : Store) (contexts : ContextRequest) : Store × Nat :=
  if contexts.length > 0 then clearLoop σ {} 0 contexts
  else
    let (σ', removed) := CMarmotta.removeStatements σ {}
    (σ', 0 + removed)

/-- The loop of `LevelDBService::Size` over the contexts. -/
def sizeLoop (σ : Store) (pattern : Statement) (count : Nat) : ContextRequest → Nat
  | [] => count
  | r :: contexts =>
    let pattern := { pattern with context := some r }
    let count := forEach (fun count _ => (count + 1, true)) count (CMarmotta.getStatements σ pattern)
    sizeLoop σ pattern count contexts

/-- `LevelDBService::Size`. -/
def size (σ : Store) (contexts : ContextRequest) : Nat :=
  if contexts.length > 0 then sizeLoop σ {} 0 contexts else CMarmotta.size σ

/-- `LevelDBService::GetContexts`: the contexts it writes, in some order. -/
def getContexts (σ : Store) : List Resource :=
  forEach (fun contexts stmt =>
    (match stmt.context with
      | some c => insertContext contexts c
      | none => contexts, true)) [] (CMarmotta.getStatements σ {})

/-- `LevelDBService::Update`. -/
def update (σ : Store) (reader : ServerReader UpdateRequest) : Store × UpdateResponse :=
  let (σ', stats) := CMarmotta.update σ (ReaderIterator.ofReader reader).toList
  (σ', {
    addedNamespaces := stats.addedNs
    removedNamespaces := stats.removedNs
    addedStatements := stats.addedStmts
    removedStatements := stats.removedStmts })

end LevelDBService

/-! ## Requests -/

/-- The requests a client can send, with the messages of its streams. -/
inductive Request where
  | addNamespaces (it : List Namespace)
  | getNamespace (pattern : Namespace)
  | getNamespaces
  | addStatements (it : List Statement)
  | getStatements (pattern : Statement)
  | removeStatements (pattern : Statement)
  | clear (contexts : ContextRequest)
  | size (contexts : ContextRequest)
  | update (it : List UpdateRequest)

/-- The answers to the requests. -/
inductive Response where
  | count (value : Nat)
  | namespace (result : Except Status Namespace)
  | namespaces (result : List Namespace)
  | statements (result : List Statement)
  | update (result : UpdateResponse)

section Serve

variable [Platform]

/-- The store and the answer after a request, when the streams of the client are completed. -/
def LevelDBService.handle (σ : Store) : Request → Store × Response
  | .addNamespaces it =>
    let (σ', count) := addNamespaces σ { messages := it }
    (σ', .count count)
  | .getNamespace pattern => (σ, .namespace (getNamespace σ pattern))
  | .getNamespaces => (σ, .namespaces (getNamespaces σ {}).written)
  | .addStatements it =>
    let (σ', count) := addStatements σ { messages := it }
    (σ', .count count)
  | .getStatements pattern => (σ, .statements (getStatements σ pattern {}).written)
  | .removeStatements pattern =>
    let (σ', count) := removeStatements σ pattern
    (σ', .count count)
  | .clear contexts =>
    let (σ', count) := clear σ contexts
    (σ', .count count)
  | .size contexts => (σ, .count (size σ contexts))
  | .update it =>
    let (σ', response) := update σ { messages := it }
    (σ', .update response)

/-- Requests served one after another: the store at the end and the answers. -/
def LevelDBService.serve (σ : Store) : List Request → Store × List Response
  | [] => (σ, [])
  | request :: requests =>
    let (σ', response) := handle σ request
    let (σ'', responses) := serve σ' requests
    (σ'', response :: responses)

end Serve

/-- The statements a request adds. -/
def Request.added : Request → List Statement
  | .addStatements it => it
  | .update it => it.flatMap UpdateRequest.added
  | _ => []

end CMarmotta
