import CMarmotta.Client.Connection
import CMarmotta.Service.Dataset

/-!
# Several connections to one server

Each client sends its updates over a stream of its own. The requests of a stream arrive at the server
one after another, each at a moment of its own, and the loop of `Update` treats a request when it
arrives: a removal scans the databases as they are then. What it collects is written when the client
completes the stream. `rollbackInternal` cancels the stream instead. To the loop the stream has then
ended, at some later moment, and `Update` writes what it has collected so far.

The calls of the clients come one after another in any order, with the arrivals between them. A
call that commits stands for the moment when the server writes, and the server completes the
stream; that the six databases are written one after another is not in this model.

The specification has one dataset for all clients, and for each client the requests that are not
committed yet, those that have arrived with the dataset they have found.
-/

namespace CMarmotta.Client

/-! ## The system -/

/-- The way a method ends that returns nothing. -/
def Result.ofThrown {ρ : Type} : Option Throwable → Result ρ
  | none => .returns
  | some e => .throws e

/-- An update stream: what the loop of `Update` has collected from the requests that have arrived, and
the requests that are still on their way. -/
structure UpdateStream where
  batches : UpdateState := {}
  sent : List UpdateRequest := []

/-- The writes at the end of `Update`. -/
def writeUpdate (σ : Store) (u : UpdateState) : Store := (σ.writeStmts u.stmts).writeNs u.ns

/-- The connections of the clients that `ι` names. The streams in `cancelled` are those that a client
has cancelled and that have not ended for the server yet. -/
structure Connections (ι : Type) where
  server : Store
  updateRequestObserver : ι → Option UpdateStream := fun _ => none
  cancelled : List UpdateStream := []

/-- What happens next: a call of a client; the next request arrives, of the stream of a client or of a
cancelled stream; or a cancelled stream ends for the server. -/
inductive Action (ι : Type) where
  | call (i : ι) (c : Call)
  | arrive (i : ι)
  | arriveCancelled (k : Nat)
  | endCancelled (k : Nat)

section System

variable [Platform] {ι ρ : Type} [DecidableEq ι]

/-- A call on a connection of its own, with the way it ends. -/
def Call.run (tupleQuery : Store → String → ρ) (env : Env) (s : Session) :
    Call → Session × Result ρ
  | .operation op => op.run tupleQuery env s
  | .commit =>
    let (s', thrown) := if env.active then commitInternal env s else (s, none)
    (s', .ofThrown thrown)
  | .rollback =>
    let (s', thrown) := if env.active then rollbackInternal s else (s, none)
    (s', .ofThrown thrown)
  | .close =>
    let (s', thrown) := if env.active then commitInternal env s else (s, none)
    (s', .ofThrown thrown)

namespace UpdateStream

/-- The next request arrives while the server has the databases `σ`. -/
def arrive (σ : Store) (stream : UpdateStream) : UpdateStream :=
  match stream.sent with
  | [] => stream
  | r :: rest => { batches := updateStep σ stream.batches r, sent := rest }

/-- The stream is completed: what is still on its way arrives, and the server writes. -/
def complete (σ : Store) (stream : UpdateStream) : Store :=
  writeUpdate σ (stream.sent.foldl (updateStep σ) stream.batches)

end UpdateStream

namespace Connections

omit [Platform] in
/-- The connections with another stream for a client. -/
def setStream (c : Connections ι) (i : ι) (stream : Option UpdateStream) : Connections ι :=
  { c with updateRequestObserver := Function.update c.updateRequestObserver i stream }

/-- `commitInternal`, in a transaction whose stream the server completes. -/
def commitInternal (c : Connections ι) (i : ι) : Connections ι :=
  match c.updateRequestObserver i with
  | none => c
  | some stream => { c.setStream i none with server := stream.complete c.server }

omit [Platform] in
/-- `ensureTransaction`, and `onNext` for some requests. -/
def send (c : Connections ι) (i : ι) (requests : List UpdateRequest) : Connections ι :=
  let stream := (c.updateRequestObserver i).getD {}
  c.setStream i (some { stream with sent := stream.sent ++ requests })

omit [Platform] in
/-- `rollbackInternal`. -/
def rollbackInternal (c : Connections ι) (i : ι) : Connections ι × Option Throwable :=
  match c.updateRequestObserver i with
  | none => (c, some .nullPointerException)
  | some stream => ({ c.setStream i none with cancelled := c.cancelled ++ [stream] }, none)

/-- A call of a client, with the way it ends. Removals and queries commit first. -/
def call (tupleQuery : Store → String → ρ) (c : Connections ι) (i : ι) :
    Call → Connections ι × Result ρ
  | .operation (.update u) =>
    ((if u.isRemoval then c.commitInternal i else c).send i u.requests, .returns)
  | .operation (.query q) =>
    let c' := c.commitInternal i
    (c', .answers (q.answer tupleQuery c'.server))
  | .commit => (c.commitInternal i, .returns)
  | .rollback =>
    let (c', thrown) := c.rollbackInternal i
    (c', .ofThrown thrown)
  | .close => (c.commitInternal i, .returns)

/-- What happens next, with the way a call ends. -/
def act (tupleQuery : Store → String → ρ) (c : Connections ι) :
    Action ι → Connections ι × Option (Result ρ)
  | .call i call =>
    let (c', result) := c.call tupleQuery i call
    (c', some result)
  | .arrive i =>
    (c.setStream i ((c.updateRequestObserver i).map (UpdateStream.arrive c.server)), none)
  | .arriveCancelled k =>
    ({ c with cancelled := c.cancelled.modify k (UpdateStream.arrive c.server) }, none)
  | .endCancelled k =>
    match c.cancelled[k]? with
    | none => (c, none)
    | some stream =>
      ({ c with
        server := writeUpdate c.server stream.batches
        cancelled := c.cancelled.eraseIdx k }, none)

end Connections

end System

/-! ## The specification -/

/-- The dataset `D` after an update that has found the dataset `seen`: a removal takes away what agrees
with its pattern there. -/
def applySeen (seen D : Dataset) : UpdateRequest → Dataset
  | .stmtAdded s => { D with statements := insert s D.statements }
  | .stmtRemoved pattern =>
    { D with statements := D.statements \ seen.statements.filter fun s => s.Agrees pattern }
  | .nsAdded ns => { D with prefixes := Function.update D.prefixes ns.nsPrefix (some ns.uri) }
  | .nsRemoved pattern =>
    { D with prefixes := fun p =>
        if (seen.prefixes p).any fun uri => Namespace.Agrees ⟨p, uri⟩ pattern then none
        else D.prefixes p }
  | .notSet => D

/-- What a client has asked for since it last committed: the requests that have arrived, each with
the committed dataset at its moment, and those that have not. -/
structure Pending where
  arrived : List (Dataset × UpdateRequest) := []
  sent : List UpdateRequest := []

namespace Pending

/-- The next request arrives while the dataset `D` is committed. -/
def arrive (D : Dataset) (p : Pending) : Pending :=
  match p.sent with
  | [] => p
  | r :: rest => { arrived := p.arrived ++ [(D, r)], sent := rest }

/-- What has arrived takes effect on a dataset. -/
def takeEffect (p : Pending) (D : Dataset) : Dataset :=
  p.arrived.foldl (fun D e => applySeen e.1 D e.2) D

/-- Everything arrives and takes effect on the committed dataset. -/
def complete (D : Dataset) (p : Pending) : Dataset :=
  p.sent.foldl (applySeen D) (p.takeEffect D)

end Pending

/-- A dataset, and what the clients have asked for since they last committed. -/
structure Transactions (ι : Type) where
  committed : Dataset
  pending : ι → Option Pending := fun _ => none
  cancelled : List Pending := []

namespace Transactions

variable {ι ρ : Type} [DecidableEq ι]

/-- What a client has asked for, or not any more. -/
def setPending (T : Transactions ι) (i : ι) (p : Option Pending) : Transactions ι :=
  { T with pending := Function.update T.pending i p }

/-- The requests of a client are committed. -/
def flush (T : Transactions ι) (i : ι) : Transactions ι :=
  match T.pending i with
  | none => T
  | some p => { T.setPending i none with committed := p.complete T.committed }

/-- A client asks for more. -/
def ask (T : Transactions ι) (i : ι) (requests : List UpdateRequest) : Transactions ι :=
  let p := (T.pending i).getD {}
  T.setPending i (some { p with sent := p.sent ++ requests })

/-- The state after an action. Removals and queries commit what the client has asked for. -/
def next (T : Transactions ι) : Action ι → Transactions ι
  | .call i (.operation (.update u)) => (if u.isRemoval then T.flush i else T).ask i u.requests
  | .call i .rollback =>
    { T.setPending i none with cancelled := T.cancelled ++ (T.pending i).toList }
  | .call i _ => T.flush i
  | .arrive i => T.setPending i ((T.pending i).map (Pending.arrive T.committed))
  | .arriveCancelled k =>
    { T with cancelled := T.cancelled.modify k (Pending.arrive T.committed) }
  | .endCancelled k =>
    match T.cancelled[k]? with
    | none => T
    | some p =>
      { T with
        committed := p.takeEffect T.committed
        cancelled := T.cancelled.eraseIdx k }

end Transactions

section Answers

variable {ρ : Type}

/-- What a query may be answered with, where `Holds` says that a store holds a dataset. With several
contexts `getStatements` yields what there is in one after the other. -/
inductive Query.Answered (Holds : Store → Dataset → Prop) (tupleQuery : Store → String → ρ)
    (D : Dataset) : Query → Answer ρ → Prop
  | getStatements {subj : Option JResource} {pred : Option JURI} {obj : Option JValue}
      {contexts : List (Option JResource)} {parts : List (List Statement)}
      (h : List.Forall₂ (fun pattern l => D.Answers (.getStatements pattern) (.statements l))
        (patterns subj pred obj contexts) parts) :
      Answered Holds tupleQuery D (.getStatements subj pred obj contexts)
        (.statements parts.flatten)
  | size {contexts : List (Option JResource)} {n : Nat}
      (h : D.Answers (.size (contextRequest contexts)) (.count n)) :
      Answered Holds tupleQuery D (.size contexts) (.size n)
  | getContextIDs {contexts : List Resource} (hnodup : contexts.Nodup)
      (h : ∀ c, c ∈ contexts ↔ ∃ s ∈ D.statements, s.context = some c) :
      Answered Holds tupleQuery D .getContextIDs (.contextIDs (contexts.map convertResource))
  | getNamespaces {l : List Namespace} (h : D.Answers .getNamespaces (.namespaces l)) :
      Answered Holds tupleQuery D .getNamespaces (.namespaces l)
  | getNamespace {nsPrefix : String} {ns : Namespace}
      (h : D.Answers (.getNamespace ⟨nsPrefix, ""⟩) (.namespace (.ok ns))) :
      Answered Holds tupleQuery D (.getNamespace nsPrefix) (.namespace (.ok (some ns.uri)))
  | noNamespace {nsPrefix : String} {status : Status}
      (h : D.Answers (.getNamespace ⟨nsPrefix, ""⟩) (.namespace (.error status))) :
      Answered Holds tupleQuery D (.getNamespace nsPrefix) (.namespace (.ok none))
  | directTupleQuery {σ : Store} (h : Holds σ D) (query : String) :
      Answered Holds tupleQuery D (.directTupleQuery query) (.rows (tupleQuery σ query))

variable {ι : Type} [DecidableEq ι]

/-- How a call may end. A query sees what is committed, and what its own client has asked for. -/
inductive Transactions.Permits (Holds : Store → Dataset → Prop) (tupleQuery : Store → String → ρ)
    (T : Transactions ι) : Action ι → Option (Result ρ) → Prop
  | update (i : ι) (u : Update) :
      Permits Holds tupleQuery T (.call i (.operation (.update u))) (some .returns)
  | query {i : ι} {q : Query} {a : Answer ρ} (h : q.Answered Holds tupleQuery (T.flush i).committed a) :
      Permits Holds tupleQuery T (.call i (.operation (.query q))) (some (.answers a))
  | commit (i : ι) : Permits Holds tupleQuery T (.call i .commit) (some .returns)
  | close (i : ι) : Permits Holds tupleQuery T (.call i .close) (some .returns)
  | rollback {i : ι} (h : T.pending i ≠ none) :
      Permits Holds tupleQuery T (.call i .rollback) (some .returns)
  | nothingToRollback {i : ι} (h : T.pending i = none) :
      Permits Holds tupleQuery T (.call i .rollback) (some (.throws .nullPointerException))
  | arrive (i : ι) : Permits Holds tupleQuery T (.arrive i) none
  | arriveCancelled (k : Nat) : Permits Holds tupleQuery T (.arriveCancelled k) none
  | endCancelled (k : Nat) : Permits Holds tupleQuery T (.endCancelled k) none

/-- The specification of the connections. -/
def Transactions.spec (Holds : Store → Dataset → Prop) (tupleQuery : Store → String → ρ) :
    Refinement.Spec (Transactions ι) (Action ι × Option (Result ρ)) where
  Permits T e := T.Permits Holds tupleQuery e.1 e.2
  next T e := T.next e.1

end Answers

/-! ## Regular calls -/

section Regular

variable [Platform]

/-- A regular query, where `K` are the statements that clients add. -/
def Query.Regular (K : List Statement) : Query → Prop
  | .getStatements subj pred obj contexts =>
    ∀ pattern ∈ patterns subj pred obj contexts, pattern.Scans K
  | .size contexts => ContextsScan K (contextRequest contexts) ∧ (contextRequest contexts).Nodup
  | _ => True

/-- A regular action. -/
def Action.Regular {ι : Type} (K : List Statement) : Action ι → Prop
  | .call _ (.operation (.update u)) => ∀ r ∈ u.requests, r.Regular K
  | .call _ (.operation (.query q)) => q.Regular K
  | _ => True

end Regular

end CMarmotta.Client
