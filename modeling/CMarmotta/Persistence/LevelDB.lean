import CMarmotta.Persistence.Proofs.KeyOrderProofs
import CMarmotta.Lib.KeyValue
import CMarmotta.Model.Operators

/-!
# `persistence/leveldb_persistence.cc`: the store

Four databases hold the statements under differently ordered keys, two hold the namespaces by prefix
and by uri. Every operation collects its changes in write batches and then writes the batches, one
to each database; the writer threads are joined before the operation returns, and they write
different databases. Iterators over the input are lists, counters are natural numbers. The database
for metadata is never used and is left out.
-/

namespace CMarmotta

open KV

/-- A statement database, ordered by `KeyComparator`. -/
abbrev StmtDB := DB Key Bytes keyCompare

/-- A namespace database, ordered by the default comparator. -/
abbrev NsDB := DB Bytes Bytes sliceCompare

/-- The databases of a `LevelDBPersistence`. -/
structure Store where
  dbSpoc : StmtDB := ∅
  dbCspo : StmtDB := ∅
  dbOpsc : StmtDB := ∅
  dbPcos : StmtDB := ∅
  dbNsPrefix : NsDB := ∅
  dbNsUrl : NsDB := ∅
  deriving DecidableEq

/-- The databases of a new store. -/
def Store.empty : Store := {}

/-- The statement database of an index. -/
def Store.index (σ : Store) : IndexType → StmtDB
  | .SPOC => σ.dbSpoc
  | .CSPO => σ.dbCspo
  | .OPSC => σ.dbOpsc
  | .PCOS => σ.dbPcos

/-- The write batches of the four statement databases. -/
structure StmtBatches where
  spoc : WriteBatch Key Bytes := []
  cspo : WriteBatch Key Bytes := []
  opsc : WriteBatch Key Bytes := []
  pcos : WriteBatch Key Bytes := []

/-- The batch of an index. -/
def StmtBatches.index (b : StmtBatches) : IndexType → WriteBatch Key Bytes
  | .SPOC => b.spoc
  | .CSPO => b.cspo
  | .OPSC => b.opsc
  | .PCOS => b.pcos

/-- The write batches of the two namespace databases. -/
structure NsBatches where
  nsPrefix : WriteBatch Bytes Bytes := []
  nsUrl : WriteBatch Bytes Bytes := []

/-- The two namespace databases. -/
inductive NsTable where
  | byPrefix
  | byUrl
  deriving DecidableEq

/-- The database of a namespace table. -/
def Store.nsTable (σ : Store) : NsTable → NsDB
  | .byPrefix => σ.dbNsPrefix
  | .byUrl => σ.dbNsUrl

/-- The batch of a namespace table. -/
def NsBatches.table (b : NsBatches) : NsTable → WriteBatch Bytes Bytes
  | .byPrefix => b.nsPrefix
  | .byUrl => b.nsUrl

/-- `struct UpdateStatistics`. -/
structure UpdateStatistics where
  addedStmts : Nat := 0
  removedStmts : Nat := 0
  addedNs : Nat := 0
  removedNs : Nat := 0
  deriving DecidableEq

namespace Store

/-- The four writer threads. -/
def writeStmts (σ : Store) (b : StmtBatches) : Store :=
  { σ with
    dbSpoc := write σ.dbSpoc b.spoc
    dbCspo := write σ.dbCspo b.cspo
    dbOpsc := write σ.dbOpsc b.opsc
    dbPcos := write σ.dbPcos b.pcos }

/-- The two writes of the namespace databases. -/
def writeNs (σ : Store) (b : NsBatches) : Store :=
  { σ with
    dbNsPrefix := write σ.dbNsPrefix b.nsPrefix
    dbNsUrl := write σ.dbNsUrl b.nsUrl }

end Store

/-- The loops `for (it = ...; cbsuccess && it->hasNext(); ++it) cbsuccess = callback(*it)`: call the
callback, which threads a state, until the elements end or it returns false. -/
def forEach {α β : Type} (callback : β → α → β × Bool) (b : β) : List α → β
  | [] => b
  | a :: rest =>
    let (b', cbsuccess) := callback b a
    if cbsuccess then forEach callback b' rest else b'

/-- `matches`: a statement agrees with a pattern, by the equality operators. Nothing calls it. -/
def matchesPattern (stmt pattern : Statement) : Bool :=
  if pattern.context.any fun c => stmt.getContext.notEqual c then false
  else if pattern.subject.any fun s => stmt.getSubject.notEqual s then false
  else if pattern.predicate.any fun p => stmt.getPredicate.notEqual p then false
  else if pattern.object.any fun o => stmt.getObject.notEqual o then false
  else true

section Operations

variable [Platform]

open Platform

/-! ## Queries -/

/-- `StatementRangeIterator`: seek the lower key, and go on while the key is at most the upper one. -/
def rangeIterator (db : StmtDB) (loKey hiKey : Key) : List (Key × Bytes) :=
  (seek db loKey).takeWhile fun e => (sliceCompare e.1.bytes hiKey.bytes).isLE

/-- `LevelDBPersistence::GetStatements`: the statements the iterator delivers. -/
def getStatements (σ : Store) (pattern : Statement) : List Statement :=
  let query := patternQuery pattern
  (rangeIterator (σ.index query.type) query.minKey query.maxKey).map fun e =>
    statementCodec.parse e.2

/-- `LevelDBPersistence::GetNamespaces`: the namespaces the iterator delivers. -/
def getNamespaces (σ : Store) (pattern : Namespace) : List Namespace :=
  if pattern.nsPrefix ≠ "" then
    (σ.dbNsPrefix[utf8 pattern.nsPrefix]?.map namespaceCodec.parse).toList
  else if pattern.uri ≠ "" then
    (σ.dbNsUrl[utf8 pattern.uri]?.map namespaceCodec.parse).toList
  else
    σ.dbNsPrefix.toList.map fun e => namespaceCodec.parse e.2

/-- `LevelDBPersistence::Size`: the entries of `db_cspo`, counted. -/
def size (σ : Store) : Nat := σ.dbCspo.toList.foldl (fun count _ => count + 1) 0

/-! ## Collecting changes in batches -/

/-- `LevelDBPersistence::AddNamespace`. -/
def addNamespace (ns : Namespace) (b : NsBatches) : NsBatches :=
  let buffer := namespaceCodec.serialize ns
  { nsPrefix := b.nsPrefix ++ [.put (utf8 ns.nsPrefix) buffer]
    nsUrl := b.nsUrl ++ [.put (utf8 ns.uri) buffer] }

/-- `LevelDBPersistence::RemoveNamespace`. -/
def removeNamespace (σ : Store) (pattern : Namespace) (b : NsBatches) : NsBatches :=
  forEach (fun b ns =>
    ({ nsPrefix := b.nsPrefix ++ [.delete (utf8 ns.nsPrefix)]
       nsUrl := b.nsUrl ++ [.delete (utf8 ns.uri)] }, true)) b (getNamespaces σ pattern)

/-- `LevelDBPersistence::AddStatement`. -/
def addStatement (stmt : Statement) (b : StmtBatches) : StmtBatches :=
  let buffer := statementCodec.serialize stmt
  let bufs := resourceCodec.serialize stmt.getSubject
  let bufp := uriCodec.serialize stmt.getPredicate
  let bufo := valueCodec.serialize stmt.getObject
  let bufc := resourceCodec.serialize stmt.getContext
  let kSpoc := computeKey (some bufs) (some bufp) (some bufo) (some bufc) (Key.fill 0)
  let kCspo := orderKey (Key.fill 0) kSpoc .C .S .P .O
  let kOpsc := orderKey (Key.fill 0) kSpoc .O .P .S .C
  let kPcos := orderKey (Key.fill 0) kSpoc .P .C .O .S
  { spoc := b.spoc ++ [.put kSpoc buffer]
    cspo := b.cspo ++ [.put kCspo buffer]
    opsc := b.opsc ++ [.put kOpsc buffer]
    pcos := b.pcos ++ [.put kPcos buffer] }

/-- The callback of `LevelDBPersistence::RemoveStatements`: the deletes of one statement. -/
def removeStatement (stmt : Statement) (b : StmtBatches) : StmtBatches :=
  let bufs := resourceCodec.serialize stmt.getSubject
  let bufp := uriCodec.serialize stmt.getPredicate
  let bufo := valueCodec.serialize stmt.getObject
  let bufc := resourceCodec.serialize stmt.getContext
  let kSpoc := computeKey (some bufs) (some bufp) (some bufo) (some bufc) (Key.fill 0)
  let kCspo := orderKey (Key.fill 0) kSpoc .C .S .P .O
  let kOpsc := orderKey (Key.fill 0) kSpoc .O .P .S .C
  let kPcos := orderKey (Key.fill 0) kSpoc .P .C .O .S
  { spoc := b.spoc ++ [.delete kSpoc]
    cspo := b.cspo ++ [.delete kCspo]
    opsc := b.opsc ++ [.delete kOpsc]
    pcos := b.pcos ++ [.delete kPcos] }

/-- `LevelDBPersistence::RemoveStatements` into batches, with the number of statements removed. -/
def removeStatementsBatch (σ : Store) (pattern : Statement) (b : StmtBatches) : StmtBatches × Nat :=
  forEach (fun (b, count) stmt => ((removeStatement stmt b, count + 1), true)) (b, 0)
    (getStatements σ pattern)

/-! ## Operations -/

/-- `LevelDBPersistence::AddNamespaces`. -/
def addNamespaces (σ : Store) (it : List Namespace) : Store × Nat :=
  let (b, count) := it.foldl (fun (b, count) ns => (addNamespace ns b, count + 1)) ({}, 0)
  (σ.writeNs b, count)

/-- `LevelDBPersistence::AddStatements`. -/
def addStatements (σ : Store) (it : List Statement) : Store × Nat :=
  let (b, count) := it.foldl (fun (b, count) stmt => (addStatement stmt b, count + 1)) ({}, 0)
  (σ.writeStmts b, count)

/-- `LevelDBPersistence::RemoveStatements`. -/
def removeStatements (σ : Store) (pattern : Statement) : Store × Nat :=
  let (b, count) := removeStatementsBatch σ pattern {}
  (σ.writeStmts b, count)

/-- What the loop of `LevelDBPersistence::Update` carries. -/
structure UpdateState where
  stmts : StmtBatches := {}
  ns : NsBatches := {}
  stats : UpdateStatistics := {}

/-- The body of the loop of `LevelDBPersistence::Update`. The removals query the databases, which
the loop does not write. -/
def updateStep (σ : Store) (u : UpdateState) : UpdateRequest → UpdateState
  | .stmtAdded stmt =>
    { u with
      stmts := addStatement stmt u.stmts
      stats := { u.stats with addedStmts := u.stats.addedStmts + 1 } }
  | .stmtRemoved pattern =>
    let (b, count) := removeStatementsBatch σ pattern u.stmts
    { u with
      stmts := b
      stats := { u.stats with removedStmts := u.stats.removedStmts + count } }
  | .nsAdded ns =>
    { u with
      ns := addNamespace ns u.ns
      stats := { u.stats with addedNs := u.stats.addedNs + 1 } }
  | .nsRemoved pattern => { u with ns := removeNamespace σ pattern u.ns }
  | .notSet => u

/-- The loop of `LevelDBPersistence::Update`. -/
def updateLoop (σ : Store) (it : List UpdateRequest) : UpdateState :=
  it.foldl (updateStep σ) {}

/-- `LevelDBPersistence::Update`. -/
def update (σ : Store) (it : List UpdateRequest) : Store × UpdateStatistics :=
  let u := updateLoop σ it
  ((σ.writeStmts u.stmts).writeNs u.ns, u.stats)

/-! ## Runs -/

/-- The calls that change a store. -/
inductive Op where
  | addNamespaces (it : List Namespace)
  | addStatements (it : List Statement)
  | removeStatements (pattern : Statement)
  | update (it : List UpdateRequest)

/-- The store after a call. -/
def Op.apply (σ : Store) : Op → Store
  | .addNamespaces it => (CMarmotta.addNamespaces σ it).1
  | .addStatements it => (CMarmotta.addStatements σ it).1
  | .removeStatements pattern => (CMarmotta.removeStatements σ pattern).1
  | .update it => (CMarmotta.update σ it).1

/-- The store after calls executed one after another from empty databases. -/
def run (ops : List Op) : Store := ops.foldl Op.apply Store.empty

end Operations

/-- The statements a request adds. -/
def UpdateRequest.added : UpdateRequest → List Statement
  | .stmtAdded stmt => [stmt]
  | _ => []

/-- The statements a call adds. -/
def Op.added : Op → List Statement
  | .addStatements it => it
  | .update it => it.flatMap UpdateRequest.added
  | _ => []

/-- The statements the calls of a run add. -/
def added (ops : List Op) : List Statement := ops.flatMap Op.added

end CMarmotta
