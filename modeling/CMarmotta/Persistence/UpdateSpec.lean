import CMarmotta.Persistence.Spec

/-!
# What a stream of update requests means

`Update` collects the changes of a whole stream in batches, and its removals query the databases as
they were before the call. This file says what each request makes of each key, when a stream leaves
a database as it is, and what the stream does when it is applied request by request.
-/

namespace CMarmotta

open KV

/-- The field of a namespace that is its key in a table. -/
def NsTable.key : NsTable → Namespace → Bytes
  | .byPrefix, ns => utf8 ns.nsPrefix
  | .byUrl, ns => utf8 ns.uri

/-- The two namespace tables as functions of the keys. -/
abbrev NsTables := NsTable → Bytes → Option Namespace

section Spec

variable [Platform]

open Platform

/-! ## Namespaces -/

/-- The namespaces of a store. -/
def nsTables (σ : Store) : NsTables := fun t k => (σ.nsTable t)[k]?.map namespaceCodec.parse

/-- The pattern finds the namespace: by its prefix, else by its uri, else it finds all those in the
prefix table. -/
def NsTables.Finds (T : NsTables) (pattern ns : Namespace) : Prop :=
  if pattern.nsPrefix ≠ "" then T .byPrefix (utf8 pattern.nsPrefix) = some ns
  else if pattern.uri ≠ "" then T .byUrl (utf8 pattern.uri) = some ns
  else ∃ k, T .byPrefix k = some ns

/-- What a request makes of a key of a table when its removals query the tables `T`. -/
noncomputable def nsEffect (T : NsTables) (t : NsTable) (k : Bytes) :
    UpdateRequest → Option (Option Namespace)
  | .nsAdded ns => if t.key ns = k then some (some ns) else none
  | .nsRemoved pattern =>
    open Classical in
    if ∃ ns, T.Finds pattern ns ∧ t.key ns = k then some none else none
  | _ => none

/-- The tables after one request. -/
noncomputable def NsTables.apply (T : NsTables) (r : UpdateRequest) : NsTables :=
  fun t k => (nsEffect T t k r).getD (T t k)

/-- Each request of a stream together with the tables that the requests before it leave. -/
noncomputable def timeline (T : NsTables) : List UpdateRequest → List (NsTables × UpdateRequest)
  | [] => []
  | r :: it => (T, r) :: timeline (T.apply r) it

/-- After the last request that adds a namespace under a key, or from the start on if the key is in
use, some removal deletes the key in the tables before the stream exactly when some removal deletes
it in the tables that the requests before that removal leave. -/
def NsRemovalsInOrder (T : NsTables) (it : List UpdateRequest) : Prop :=
  ∀ t k pre post, timeline T it = pre ++ post →
    (∀ e ∈ post, ∀ ns, nsEffect T t k e.2 ≠ some (some ns)) →
    (pre = [] ∧ T t k ≠ none ∨
      ∃ pre' e ns, pre = pre' ++ [e] ∧ nsEffect T t k e.2 = some (some ns)) →
    ((∃ e ∈ post, nsEffect T t k e.2 = some none) ↔ ∃ e ∈ post, nsEffect e.1 t k e.2 = some none)

/-- What the last request about a key of the table leaves there is what the key holds. -/
def KeepsNs (σ : Store) (t : NsTable) (it : List UpdateRequest) : Prop :=
  ∀ pre r post k o, it = pre ++ r :: post → nsEffect (nsTables σ) t k r = some o →
    (∀ r' ∈ post, nsEffect (nsTables σ) t k r' = none) →
    (σ.nsTable t)[k]? = o.map namespaceCodec.serialize

/-- The two tables are about the same namespaces: what is under a uri is what is under its prefix,
and the uri of what is under a prefix is in use. -/
structure NsTables.Agree (T : NsTables) : Prop where
  byUrl : ∀ k ns, T .byUrl k = some ns → T .byPrefix (utf8 ns.nsPrefix) = some ns
  byPrefix : ∀ k ns, T .byPrefix k = some ns → T .byUrl (utf8 ns.uri) ≠ none

/-- A stream does not part the tables. If the last request about the uri of a namespace adds the
namespace, or there is none and the namespace is under its uri, then the last request about the
prefix adds the same namespace, or there is none. And if the last request about the prefix adds
the namespace, or there is none and the namespace is under its prefix, then the last request about
the uri is not a removal. -/
structure NsTables.Keeps (T : NsTables) (it : List UpdateRequest) : Prop where
  bound : ∀ ns, (lastWrite (nsEffect T .byUrl (utf8 ns.uri)) it = some (some ns) ∨
      lastWrite (nsEffect T .byUrl (utf8 ns.uri)) it = none ∧ T .byUrl (utf8 ns.uri) = some ns) →
    lastWrite (nsEffect T .byPrefix (utf8 ns.nsPrefix)) it = some (some ns) ∨
      lastWrite (nsEffect T .byPrefix (utf8 ns.nsPrefix)) it = none
  used : ∀ ns, (lastWrite (nsEffect T .byPrefix (utf8 ns.nsPrefix)) it = some (some ns) ∨
      lastWrite (nsEffect T .byPrefix (utf8 ns.nsPrefix)) it = none ∧
        T .byPrefix (utf8 ns.nsPrefix) = some ns) →
    lastWrite (nsEffect T .byUrl (utf8 ns.uri)) it ≠ some none

/-- The namespace is bound: its prefix has it. The last request about a prefix decides what the
prefix has. -/
def NsTables.Bound (T : NsTables) (ns : Namespace) : Prop :=
  T .byPrefix (utf8 ns.nsPrefix) = some ns

/-- The namespace agrees with the pattern on every field that is not empty. -/
def Namespace.Agrees (ns pattern : Namespace) : Prop :=
  (pattern.nsPrefix = "" ∨ ns.nsPrefix = pattern.nsPrefix) ∧
    (pattern.uri = "" ∨ ns.uri = pattern.uri)

/-- The query for a pattern delivers each bound namespace that agrees with the pattern once, and
nothing else. -/
def NsQueryExact (σ : Store) (pattern : Namespace) : Prop :=
  (getNamespaces σ pattern).Nodup ∧
    ∀ ns, ns ∈ getNamespaces σ pattern ↔ (nsTables σ).Bound ns ∧ ns.Agrees pattern

/-- A uri has the namespaces that are bound to it. -/
def NsTables.Paired (T : NsTables) (uri : String) : Prop :=
  ∀ ns, ns.uri = uri → (T .byUrl (utf8 uri) = some ns ↔ T.Bound ns)

/-- A stream treats a uri and the prefixes bound to it alike. The last request about the uri adds a
namespace exactly if the last request about its prefix does; and of a namespace that is bound to
the uri, there are requests about the uri exactly if there are requests about the prefix. -/
structure NsTables.KeepsUri (T : NsTables) (uri : String) (it : List UpdateRequest) : Prop where
  added : ∀ ns, ns.uri = uri → (lastWrite (nsEffect T .byUrl (utf8 uri)) it = some (some ns) ↔
    lastWrite (nsEffect T .byPrefix (utf8 ns.nsPrefix)) it = some (some ns))
  bound : ∀ ns, ns.uri = uri → T.Bound ns → (lastWrite (nsEffect T .byUrl (utf8 uri)) it = none ↔
    lastWrite (nsEffect T .byPrefix (utf8 ns.nsPrefix)) it = none)

/-! ## Statements -/

/-- What a request makes of a key of an index when its removals scan the store. -/
def stmtEffect (σ : Store) (idx : IndexType) (k : Key) :
    UpdateRequest → Option (Option Statement)
  | .stmtAdded s => if stmtKey idx s = k then some (some s) else none
  | .stmtRemoved pattern =>
    if ∃ s ∈ getStatements σ pattern, stmtKey idx s = k then some none else none
  | _ => none

/-- What the last request about a key of the index leaves there is what the key holds. -/
def KeepsIndex (σ : Store) (idx : IndexType) (it : List UpdateRequest) : Prop :=
  ∀ pre r post k o, it = pre ++ r :: post → stmtEffect σ idx k r = some o →
    (∀ r' ∈ post, stmtEffect σ idx k r' = none) →
    (σ.index idx)[k]? = o.map statementCodec.serialize

/-- What a request makes of the key of the statement `s` when its removals find whatever they
select: an addition under the key puts its statement there, a removal that selects the key empties
it. -/
def keyEffect (s : Statement) : UpdateRequest → Option (Option Statement)
  | .stmtAdded t => if stmtKey .SPOC t = stmtKey .SPOC s then some (some t) else none
  | .stmtRemoved pattern => if Selects pattern s then some none else none
  | _ => none

/-- No removal selects a statement that an earlier request adds, unless the key of the statement is
in use before the stream or a later request adds to the same key. -/
def StmtRemovalsInOrder (σ : Store) (it : List UpdateRequest) : Prop :=
  ∀ pre pattern post s, it = pre ++ .stmtRemoved pattern :: post → .stmtAdded s ∈ pre →
    Selects pattern s →
    (∃ t ∈ contents σ, stmtKey .SPOC t = stmtKey .SPOC s) ∨
      ∃ t, .stmtAdded t ∈ post ∧ stmtKey .SPOC t = stmtKey .SPOC s

/-! ## One request at a time -/

/-- The requests that make the changes of a call. -/
def Op.requests : Op → List UpdateRequest
  | .addNamespaces it => it.map .nsAdded
  | .addStatements it => it.map .stmtAdded
  | .removeStatements pattern => [.stmtRemoved pattern]
  | .update it => it

/-- The store after one call of `Update` for each request of the stream. -/
def updateInOrder (σ : Store) (it : List UpdateRequest) : Store :=
  it.foldl (fun σ r => (update σ [r]).1) σ

end Spec

end CMarmotta
