import CMarmotta.Client.Values
import CMarmotta.Service.LevelDBService

/-!
# `CMarmottaSailConnection.java`: the update stream of a connection

The updates of a transaction go to the server over one stream, which the first of them opens.
Queries and removals first commit what the stream holds: the client completes the stream and waits
for the server. `updateRequestObserver` is the stream in use, or `null`.

The base class of the connection calls the methods here in program order and knows whether a
transaction is active. The server applies a stream when the client completes it, unless the stream
ends with an error; then the server discards it, and the client learns of the error when it
commits. A message or a second completion on a stream that the client has ended raises an
`IllegalStateException`.
-/

namespace CMarmotta.Client

/-- The calls of the client on an update stream. -/
inductive StreamCall where
  | onNext (u : UpdateRequest)
  | onCompleted
  | onError (message : String)
  deriving DecidableEq

/-- The client ends the stream. -/
def StreamCall.ends : StreamCall → Bool
  | .onNext _ => false
  | .onCompleted => true
  | .onError _ => true

/-- An update stream: the calls of the client on it. -/
abbrev Stream := List StreamCall

/-- The client has ended the stream. -/
def Stream.ended (stream : Stream) : Bool := List.any stream StreamCall.ends

/-- The requests the client has sent over the stream. -/
def Stream.requests (stream : Stream) : List UpdateRequest :=
  List.filterMap (fun
    | .onNext u => some u
    | .onCompleted => none
    | .onError _ => none) stream

/-- The exceptions that leave a method. -/
inductive Throwable where
  | sailException (message : String)
  | illegalStateException
  | nullPointerException
  deriving DecidableEq

/-- A connection and its server: the streams the connection has given up, the stream in use, and
the store of the server. -/
structure Session where
  closed : List Stream := []
  updateRequestObserver : Option Stream := none
  server : Store

/-- A method, with the exception that leaves it. -/
abbrev Method := Session → Session × Option Throwable

/-- One method after another, unless the first throws. -/
def Method.andThen (m m' : Method) : Method := fun s =>
  match m s with
  | (s', none) => m' s'
  | (s', some e) => (s', some e)

/-- A call on `updateRequestObserver`. -/
def call (c : StreamCall) : Method := fun s =>
  match s.updateRequestObserver with
  | none => (s, some .nullPointerException)
  | some stream =>
    ({ s with updateRequestObserver := some (stream ++ [c]) },
      match c with
      | .onError _ => none
      | _ => if stream.ended then some .illegalStateException else none)

/-- `updateRequestObserver.onNext(u)` for some requests. -/
def onNextAll : List UpdateRequest → Method
  | [] => fun s => (s, none)
  | u :: requests => (call (.onNext u)).andThen (onNextAll requests)

/-- `updateRequestObserver = null`. -/
def Session.drop (s : Session) : Session :=
  { s with
    closed := s.closed ++ s.updateRequestObserver.toList
    updateRequestObserver := none }

/-- What the base class and the server decide about a call: whether a transaction is active, and
whether the server completes the stream if the call commits it. -/
structure Env where
  active : Bool
  completes : Bool

/-- A transaction is active, and the server completes the stream. -/
def Env.good : Env := ⟨true, true⟩

/-! ## Methods -/

/-- `ensureTransaction`. -/
def ensureTransaction : Method := fun s =>
  if s.updateRequestObserver.isNone then ({ s with updateRequestObserver := some [] }, none)
  else (s, none)

section Methods

variable [Platform]

/-- `finishFuture.get()`: the server has applied the stream, or the stream has ended with an
error. -/
def awaitFinish (env : Env) : Method := fun s =>
  if env.completes then
    ({ s with server := (LevelDBService.update s.server {
        messages := (s.updateRequestObserver.getD []).requests }).1 }, none)
  else (s, some (.sailException "Error while writing to server"))

/-- `commitInternal`. -/
def commitInternal (env : Env) : Method := fun s =>
  if s.updateRequestObserver.isSome then
    ((call .onCompleted).andThen <| (awaitFinish env).andThen fun s => (s.drop, none)) s
  else (s, none)

/-- `commitForQuery`. -/
def commitForQuery (env : Env) : Method := fun s =>
  if env.active then commitInternal env s else (s, none)

omit [Platform] in
/-- `rollbackInternal`. -/
def rollbackInternal : Method :=
  (call (.onError "transaction rollback")).andThen fun s => (s.drop, none)

omit [Platform] in
/-- What the methods do that add something. -/
def addition (requests : List UpdateRequest) : Method :=
  ensureTransaction.andThen (onNextAll requests)

/-- What the methods do that remove something. -/
def removal (env : Env) (requests : List UpdateRequest) : Method :=
  (commitForQuery env).andThen <| ensureTransaction.andThen (onNextAll requests)

omit [Platform] in
/-- `addStatementInternal`. -/
def addStatementInternal (subj : Option JResource) (pred : Option JURI) (obj : Option JValue)
    (contexts : List (Option JResource)) : Method :=
  addition ((patterns subj pred obj contexts).map .stmtAdded)

/-- `removeStatementsInternal`. -/
def removeStatementsInternal (env : Env) (subj : Option JResource) (pred : Option JURI)
    (obj : Option JValue) (contexts : List (Option JResource)) : Method :=
  removal env ((patterns subj pred obj contexts).map .stmtRemoved)

/-- `clearInternal`. -/
def clearInternal (env : Env) (contexts : List (Option JResource)) : Method :=
  removal env ((patterns none none none contexts).map .stmtRemoved)

omit [Platform] in
/-- `setNamespaceInternal`. -/
def setNamespaceInternal (nsPrefix name : String) : Method :=
  addition [.nsAdded (protoNamespace nsPrefix name)]

/-- `removeNamespaceInternal`. -/
def removeNamespaceInternal (env : Env) (nsPrefix : String) : Method :=
  removal env [.nsRemoved ⟨nsPrefix, ""⟩]

/-- `clearNamespacesInternal`. -/
def clearNamespacesInternal (env : Env) : Method := removal env [.nsRemoved ⟨"", ""⟩]

end Methods

/-! ## Calls -/

/-- The updates of a connection. -/
inductive Update where
  | addStatement (subj : Option JResource) (pred : Option JURI) (obj : Option JValue)
      (contexts : List (Option JResource))
  | removeStatements (subj : Option JResource) (pred : Option JURI) (obj : Option JValue)
      (contexts : List (Option JResource))
  | clear (contexts : List (Option JResource))
  | setNamespace (nsPrefix name : String)
  | removeNamespace (nsPrefix : String)
  | clearNamespaces

/-- The requests that an update sends. -/
def Update.requests : Update → List UpdateRequest
  | .addStatement subj pred obj contexts => (patterns subj pred obj contexts).map .stmtAdded
  | .removeStatements subj pred obj contexts => (patterns subj pred obj contexts).map .stmtRemoved
  | .clear contexts => (patterns none none none contexts).map .stmtRemoved
  | .setNamespace nsPrefix name => [.nsAdded (protoNamespace nsPrefix name)]
  | .removeNamespace nsPrefix => [.nsRemoved ⟨nsPrefix, ""⟩]
  | .clearNamespaces => [.nsRemoved ⟨"", ""⟩]

/-- The updates that commit the stream first. -/
def Update.isRemoval : Update → Bool
  | .addStatement _ _ _ _ => false
  | .removeStatements _ _ _ _ => true
  | .clear _ => true
  | .setNamespace _ _ => false
  | .removeNamespace _ => true
  | .clearNamespaces => true

/-- The queries of a connection. `evaluateInternal` is not among them: it evaluates the query in
the client, with one call of `getStatements` after another. -/
inductive Query where
  | getStatements (subj : Option JResource) (pred : Option JURI) (obj : Option JValue)
      (contexts : List (Option JResource))
  | size (contexts : List (Option JResource))
  | getContextIDs
  | getNamespaces
  | getNamespace (nsPrefix : String)
  | directTupleQuery (query : String)

/-- The answers to queries, with `ρ` for the rows of a query in SPARQL. -/
inductive Answer (ρ : Type) where
  | statements (result : List Statement)
  | size (result : Nat)
  | contextIDs (result : List (Option JResource))
  | namespaces (result : List Namespace)
  | namespace (result : Except Throwable (Option String))
  | rows (result : ρ)

/-- `convert` of `wrapResourceIterator`. -/
def convertResource : Resource → Option JResource
  | .uri u => some (.protoURI u)
  | .bnode b => some (.protoBNode b)
  | .notSet => none

/-- The calls of a client in a transaction. -/
inductive Operation where
  | update (u : Update)
  | query (q : Query)

/-- The calls of a client. -/
inductive Call where
  | operation (op : Operation)
  | commit
  | rollback
  | close

/-- The operation writes to the stream in use or completes it, if there is one. -/
def Operation.usesStream (env : Env) : Operation → Bool
  | .update _ => true
  | .query _ => env.active

/-- The same for calls. A rollback ends the stream with an error. -/
def Call.usesStream (env : Env) : Call → Bool
  | .operation op => op.usesStream env
  | .commit => env.active
  | .rollback => false
  | .close => env.active

section Calls

variable [Platform] {ρ : Type}

/-- The method of an update. -/
def Update.method (env : Env) : Update → Method
  | .addStatement subj pred obj contexts => addStatementInternal subj pred obj contexts
  | .removeStatements subj pred obj contexts => removeStatementsInternal env subj pred obj contexts
  | .clear contexts => clearInternal env contexts
  | .setNamespace nsPrefix name => setNamespaceInternal nsPrefix name
  | .removeNamespace nsPrefix => removeNamespaceInternal env nsPrefix
  | .clearNamespaces => clearNamespacesInternal env

/-- What the server answers to a query when its store is `σ`, all results being read at once. The
evaluation of queries in SPARQL is a parameter. -/
def Query.answer (tupleQuery : Store → String → ρ) (σ : Store) : Query → Answer ρ
  | .getStatements subj pred obj contexts =>
    .statements ((patterns subj pred obj contexts).flatMap fun pattern =>
      (LevelDBService.getStatements σ pattern {}).written)
  | .size contexts => .size (LevelDBService.size σ (contextRequest contexts))
  | .getContextIDs => .contextIDs ((LevelDBService.getContexts σ).map convertResource)
  | .getNamespaces => .namespaces (LevelDBService.getNamespaces σ {}).written
  | .getNamespace nsPrefix =>
    .namespace (match LevelDBService.getNamespace σ ⟨nsPrefix, ""⟩ with
      | .ok ns => .ok (some ns.uri)
      | .error status =>
        if status.code = .NOT_FOUND then .ok none else .error (.sailException status.message))
  | .directTupleQuery query => .rows (tupleQuery σ query)

/-- How a call ends: with an exception, or with the answer if it is a query. -/
inductive Result (ρ : Type) where
  | throws (e : Throwable)
  | returns
  | answers (a : Answer ρ)

/-- The method of an update, or what a query does before it asks the server. -/
def Operation.method (env : Env) : Operation → Method
  | .update u => u.method env
  | .query _ => commitForQuery env

/-- An update or a query, with the way it ends. -/
def Operation.run (tupleQuery : Store → String → ρ) (env : Env) (s : Session) (op : Operation) :
    Session × Result ρ :=
  let (s', thrown) := op.method env s
  (s', match thrown, op with
    | some e, _ => .throws e
    | none, .update _ => .returns
    | none, .query q => .answers (q.answer tupleQuery s'.server))

/-- Updates and queries one after another. Exceptions go to the client, which may go on. -/
def runOperations (tupleQuery : Store → String → ρ) (s : Session) :
    List (Env × Operation) → Session × List (Result ρ)
  | [] => (s, [])
  | (env, op) :: ops =>
    let (s', result) := op.run tupleQuery env s
    let (s'', results) := runOperations tupleQuery s' ops
    (s'', result :: results)

/-- A transaction: updates and queries, and then a commit. -/
def runTransaction (tupleQuery : Store → String → ρ) (s : Session) (ops : List (Env × Operation))
    (env : Env) : Session × List (Result ρ) × Option Throwable :=
  let (s', results) := runOperations tupleQuery s ops
  let (s'', thrown) := commitInternal env s'
  (s'', results, thrown)

/-- The session after a call. `commit` and `rollback` of the base class call the methods here if a
transaction is active, and `closeInternal` calls `commit`. -/
def Call.next (env : Env) (s : Session) : Call → Session
  | .operation op => (op.method env s).1
  | .commit => if env.active then (commitInternal env s).1 else s
  | .rollback => if env.active then (rollbackInternal s).1 else s
  | .close => if env.active then (commitInternal env s).1 else s

/-- The session after calls on a new connection. -/
def sessionAfter (σ : Store) (calls : List (Env × Call)) : Session :=
  calls.foldl (fun s c => c.2.next c.1 s) { server := σ }

/-! ## Discipline on streams -/

omit [Platform] in
/-- The client sends nothing over the stream and does not complete it once it has ended it. -/
def Stream.Disciplined (stream : Stream) : Prop :=
  ∀ pre c post, stream = pre ++ c :: post → (∀ message, c ≠ .onError message) →
    Stream.ended pre = false

omit [Platform] in
/-- The streams that the connection has opened. -/
def Session.streams (s : Session) : List Stream := s.closed ++ s.updateRequestObserver.toList

omit [Platform] in
/-- The call commits the stream in use, if there is one and a transaction is active. -/
def Call.commits : Call → Bool
  | .operation (.update u) => u.isRemoval
  | .operation (.query _) => true
  | .commit => true
  | .rollback => false
  | .close => true

omit [Platform] in
/-- The call makes a commit that fails. -/
def FailsCommit (s : Session) (c : Env × Call) : Prop :=
  c.1.active = true ∧ c.2.commits = true ∧ s.updateRequestObserver ≠ none ∧ c.1.completes = false

omit [Platform] in
/-- The call is a rollback that takes place. -/
def RollsBack (c : Env × Call) : Prop := c.2 = .rollback ∧ c.1.active = true

omit [Platform] in
/-- The call is an update. -/
def IsUpdate (c : Env × Call) : Prop := ∃ u, c.2 = .operation (.update u)

/-- All streams are used with discipline, and the first update after a failed commit opens a
stream of its own. -/
structure StreamDiscipline (σ : Store) (calls : List (Env × Call)) : Prop where
  streams : ∀ stream ∈ (sessionAfter σ calls).streams, stream.Disciplined
  fresh : ∀ pre c mid env u post, calls = pre ++ c :: (mid ++ (env, .operation (.update u)) :: post) →
    FailsCommit (sessionAfter σ pre) c → (∀ m ∈ mid, ¬ IsUpdate m) →
    (sessionAfter σ (pre ++ c :: mid ++ [(env, .operation (.update u))])).updateRequestObserver =
      some (u.requests.map .onNext)

/-- After a failed commit the client does not use the stream before it has rolled back. -/
def RollsBackFirst (σ : Store) (calls : List (Env × Call)) : Prop :=
  ∀ pre c mid d post, calls = pre ++ c :: (mid ++ d :: post) → FailsCommit (sessionAfter σ pre) c →
    (∀ m ∈ mid, ¬ RollsBack m) → d.2.usesStream d.1 = false

/-! ## What a transaction means -/

/-- The same calls on a store, each of them taking effect at once: `apply` sends the requests of
an update to the server. -/
def runInOrder (tupleQuery : Store → String → ρ) (apply : Store → List UpdateRequest → Store)
    (σ : Store) :
    List Operation → Store × List (Result ρ)
  | [] => (σ, [])
  | .update u :: ops =>
    let (σ', results) := runInOrder tupleQuery apply (apply σ u.requests) ops
    (σ', .returns :: results)
  | .query q :: ops =>
    let (σ', results) := runInOrder tupleQuery apply σ ops
    (σ', .answers (q.answer tupleQuery σ) :: results)

/-- The store after updates that are sent in an update call each. -/
def storeAfter (σ : Store) (updates : List Update) : Store :=
  updates.foldl (fun σ u => (CMarmotta.update σ u.requests).1) σ

omit [Platform] in
/-- The updates of a transaction that are committed at its end, if a stream is open then. The
operations come with the outcome of the commits they make, and `pending` are the updates in the
open stream, if there is one. A query and a removal commit it; after a commit that fails nothing
more is committed, and the stream stays. -/
def committedBefore : Option (List Update) → List (Bool × Operation) → Option (List Update)
  | none, [] => none
  | some _, [] => some []
  | none, (_, .query _) :: ops => committedBefore none ops
  | none, (_, .update u) :: ops => committedBefore (some [u]) ops
  | some pending, (completes, .query _) :: ops =>
    if completes then (committedBefore none ops).map (pending ++ ·) else some []
  | some pending, (completes, .update u) :: ops =>
    if !u.isRemoval then committedBefore (some (pending ++ [u])) ops
    else if completes then (committedBefore (some [u]) ops).map (pending ++ ·)
    else some []

/-- A transaction that is rolled back: the session at its end, and the exception of the rollback. -/
def runRolledBack (tupleQuery : Store → String → ρ) (s : Session) (ops : List (Bool × Operation)) :
    Session × Option Throwable :=
  rollbackInternal (runOperations tupleQuery s (ops.map fun op => (⟨true, op.1⟩, op.2))).1

end Calls

end CMarmotta.Client
