import CMarmotta.Parser.RdfParser
import CMarmotta.Serializer.SerializerProto
import CMarmotta.Service.LevelDBService
import CMarmotta.Persistence.Concurrent

/-!
# `client/client.cc`: the command line client

Each command of the client is one call of the service, an import is two at the same time. The
connection may break during a call: some of the messages of a stream have then arrived, and the
client gets a status with an error message. The service treats what has arrived as if the stream was
complete.
-/

namespace CMarmotta.MarmottaClient

/-! ## Calls -/

/-- What becomes of a call. A request that is one message, or its answer, is lost when no message
arrives. -/
inductive Link where
  | holds
  | breaks (arrived : Nat) (message : String)

namespace Link

/-- The messages of a stream that arrive. -/
def arrived {α : Type} : Link → List α → List α
  | .holds, messages => messages
  | .breaks n _, messages => messages.take n

/-- `Status::ok`. -/
def ok : Link → Bool
  | .holds => true
  | .breaks _ _ => false

/-- `Status::error_message`. -/
def errorMessage : Link → String
  | .holds => ""
  | .breaks _ message => message

end Link

/-- `class ClientReaderIterator`, where `reader` holds the messages that still arrive. -/
structure ClientReaderIterator (Proto T : Type) where
  reader : List Proto
  buffer : Proto
  current : T
  finished : Bool

namespace ClientReaderIterator

variable {Proto T : Type}

/-- `operator++`, where `convert` is the constructor of `T`. At the end the iterator converts the
last message once more. -/
def next (convert : Proto → T) (it : ClientReaderIterator Proto T) : ClientReaderIterator Proto T :=
  if !it.finished then
    match it.reader with
    | m :: rest => { reader := rest, buffer := m, current := convert m, finished := false }
    | [] => { it with current := convert it.buffer, finished := true }
  else it

/-- The constructor, which moves to the first element. -/
def ofReader [Inhabited Proto] [Inhabited T] (convert : Proto → T) (reader : List Proto) :
    ClientReaderIterator Proto T :=
  next convert { reader := reader, buffer := default, current := default, finished := false }

/-- `hasNext`. -/
def hasNext (it : ClientReaderIterator Proto T) : Bool := !it.finished

/-- What is left to do for a loop over the iterator. -/
def remaining (it : ClientReaderIterator Proto T) : Nat :=
  it.reader.length + if it.finished then 0 else 1

theorem remaining_next_lt (convert : Proto → T) (it : ClientReaderIterator Proto T)
    (h : it.hasNext = true) : (it.next convert).remaining < it.remaining := by
  obtain ⟨reader, buffer, current, finished⟩ := it
  obtain rfl : finished = false := by simpa [hasNext] using h
  cases reader <;> simp [next, remaining]

/-- The elements that a loop `for (; it.hasNext(); ++it)` goes through. -/
def toList (convert : Proto → T) (it : ClientReaderIterator Proto T) : List T :=
  if _h : it.hasNext then it.current :: (it.next convert).toList convert else []
termination_by it.remaining
decreasing_by exact it.remaining_next_lt convert _h

end ClientReaderIterator

/-! ## The parser of an import -/

/-- The callbacks that raptor calls while it parses a file. -/
inductive Callback where
  | statement (statement : Raptor.Statement)
  | nspace (nspace : Raptor.Namespace)

/-- What is written to the two streams of an import. -/
structure Written where
  namespaces : List Namespace := []
  statements : List Statement := []

/-- The handlers of the parser with those that `importDataset` sets. -/
def callback (w : Written) : Callback → Except Parser.Fault Written
  | .statement statement => do
    let stmt ← Parser.raptorStmtHandler statement
    return { w with statements := w.statements ++ [stmt] }
  | .nspace nspace => do
    let ns ← Parser.raptorNsHandler nspace
    return { w with namespaces := w.namespaces ++ [ns] }

/-- `p.parse(in)`: what is written when the file ends or a handler throws. -/
def parse (w : Written) : List Callback → Written × Option Parser.Fault
  | [] => (w, none)
  | c :: callbacks =>
    match callback w c with
    | .ok w' => parse w' callbacks
    | .error fault => (w, some fault)

/-! ## Commands -/

/-- What a command prints or writes to its file. An exception of a handler ends the program, after what
it has printed. -/
inductive Output where
  | cout (text : String)
  | cerr (text : String)
  | out (bytes : Bytes)
  | terminated (printed : String) (fault : Parser.Fault)

/-- The report of an import. -/
def addedReport (nsstats stmtstats : Nat) : String :=
  s!"Added {nsstats} namespaces and {stmtstats} statements\n"

/-- The line that `main` prints before an import. -/
def importingLine (file : String) : String := s!"Importing {file} ... \n"

/-- The line that `main` prints when `importDataset` has returned. -/
def finishedLine : String := "Finished!\n"

section Commands

variable [Platform]

/-- The batches of the two calls of an import. -/
def importBatches (arrived : Written) : UpdateState where
  stmts := arrived.statements.foldl (fun b stmt => addStatement stmt b) {}
  ns := arrived.namespaces.foldl (fun b ns => addNamespace ns b) {}

/-- The store after `AddNamespaces` and `AddStatements` have run at the same time, where `order` is
the order in which their threads write the databases. -/
def importStore (σ : Store) (arrived : Written) (order : List Database) : Store :=
  order.foldl (fun σ db => σ.writeDatabase (importBatches arrived) db) σ

/-- `MarmottaClient::importDataset`, with what it prints. -/
def importDataset (σ : Store) (callbacks : List Callback) (nsLink stmtLink : Link)
    (order : List Database) : Store × Except Parser.Fault String :=
  let (written, fault) := parse {} callbacks
  let arrived : Written :=
    ⟨nsLink.arrived written.namespaces, stmtLink.arrived written.statements⟩
  (importStore σ arrived order,
    match fault with
    | some fault => .error fault
    | none =>
      if nsLink.ok && stmtLink.ok then
        .ok (addedReport arrived.namespaces.length arrived.statements.length)
      else .ok s!"Failed writing data to server: {stmtLink.errorMessage}\n")

/-- `MarmottaClient::patternQuery` in the format `PROTO`. -/
def patternQuery (σ : Store) (pattern : Statement) (link : Link) : Output :=
  let reader := link.arrived (LevelDBService.getStatements σ pattern {}).written
  let it := (ClientReaderIterator.ofReader id reader).toList id
  .out (ProtoSerializer.performAll {} (fun _ => []) [.all it ()] ())

/-- `MarmottaClient::patternDelete`. -/
def patternDelete (σ : Store) (pattern : Statement) (link : Link) : Store × Output :=
  let (σ', removed) :=
    if link.arrived [pattern] = [] then (σ, 0) else LevelDBService.removeStatements σ pattern
  (σ', if link.ok then .cout s!"Deleted {removed} statements.\n"
    else .cerr s!"Failed deleting statements: {link.errorMessage}\n")

/-- `MarmottaClient::size`, and what `main` prints of it. -/
def size (σ : Store) (r : ContextRequest) (link : Link) : Output :=
  let value : Int := if link.ok then LevelDBService.size σ r else -1
  .cout s!"Size: {value}\n"

/-- The line of a namespace. -/
def namespaceLine (ns : Namespace) : String := s!"{ns.nsPrefix} = {ns.uri}\n"

/-- `MarmottaClient::listNamespaces`. -/
def listNamespaces (σ : Store) (link : Link) : Output :=
  let reader := link.arrived (LevelDBService.getNamespaces σ {}).written
  let it := (ClientReaderIterator.ofReader id reader).toList id
  .cout (String.join (it.map namespaceLine))

/-- The commands, with what becomes of their calls. -/
inductive Command where
  | import (file : String) (callbacks : List Callback) (nsLink stmtLink : Link)
      (order : List Database)
  | select (pattern : Statement) (link : Link)
  | delete (pattern : Statement) (link : Link)
  | size (r : ContextRequest) (link : Link)
  | namespaces (link : Link)

/-- `main`: the databases of the service and the output after a command. An import that has failed
is finished like any other, unless an exception ends the program. -/
def main (σ : Store) : Command → Store × Output
  | .import file callbacks nsLink stmtLink order =>
    let (σ', report) := importDataset σ callbacks nsLink stmtLink order
    (σ', match report with
      | .ok text => .cout (importingLine file ++ text ++ finishedLine)
      | .error fault => .terminated (importingLine file) fault)
  | .select pattern link => (σ, patternQuery σ pattern link)
  | .delete pattern link => patternDelete σ pattern link
  | .size r link => (σ, size σ r link)
  | .namespaces link => (σ, listNamespaces σ link)

end Commands

end CMarmotta.MarmottaClient
