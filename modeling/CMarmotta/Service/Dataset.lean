import CMarmotta.Service.LevelDBService
import CMarmotta.Persistence.UpdateSpec
import CMarmotta.Lib.Refinement
import Mathlib.Data.Finset.Card

/-!
# What the service is for

An RDF dataset is a set of statements, and prefixes are bound to uris. A request adds or removes
statements and bindings or asks for those that agree with a pattern. This is the specification of
the service; the databases, their keys and the batches are not in it.

The requests it speaks of are the regular ones. Patterns are such that the scan of an index finds
what agrees with them, namespaces are looked up by prefix, and no stream of updates removes what it
has added before.
-/

namespace CMarmotta

instance (ns pattern : Namespace) : Decidable (ns.Agrees pattern) :=
  inferInstanceAs (Decidable (_ ∧ _))

/-- A set of statements, and the uris that prefixes are bound to. -/
structure Dataset where
  statements : Finset Statement
  prefixes : String → Option String

namespace Dataset

/-- The dataset of a new store. -/
def empty : Dataset := ⟨∅, fun _ => none⟩

/-- The prefix of the namespace is bound to its uri. -/
def Binds (D : Dataset) (ns : Namespace) : Prop := D.prefixes ns.nsPrefix = some ns.uri

/-- The statement is in one of the contexts; no contexts stand for all. -/
def InContexts (contexts : List Resource) (s : Statement) : Prop :=
  contexts = [] ∨ ∃ c ∈ contexts, s.context = some c

instance (contexts : List Resource) (s : Statement) : Decidable (InContexts contexts s) :=
  inferInstanceAs (Decidable (_ ∨ _))

/-- The dataset after one update. -/
def apply (D : Dataset) : UpdateRequest → Dataset
  | .stmtAdded s => { D with statements := insert s D.statements }
  | .stmtRemoved pattern =>
    { D with statements := D.statements.filter fun s => ¬ s.Agrees pattern }
  | .nsAdded ns => { D with prefixes := Function.update D.prefixes ns.nsPrefix (some ns.uri) }
  | .nsRemoved pattern =>
    { D with prefixes := fun p =>
        (D.prefixes p).filter fun uri => !decide (Namespace.Agrees ⟨p, uri⟩ pattern) }
  | .notSet => D

/-- The dataset after a request. -/
def next (D : Dataset) : Request → Dataset
  | .addNamespaces it => (it.map .nsAdded).foldl apply D
  | .addStatements it => (it.map .stmtAdded).foldl apply D
  | .removeStatements pattern => D.apply (.stmtRemoved pattern)
  | .clear contexts =>
    { D with statements := D.statements.filter fun s => ¬ InContexts contexts s }
  | .update it => it.foldl apply D
  | _ => D

/-- What a request may be answered with. The order of the answers is left open, and so are the counts
of an `Update`. -/
inductive Answers (D : Dataset) : Request → Response → Prop
  | addNamespaces (it : List Namespace) : Answers D (.addNamespaces it) (.count it.length)
  | addStatements (it : List Statement) : Answers D (.addStatements it) (.count it.length)
  | update (it : List UpdateRequest) (r : UpdateResponse) : Answers D (.update it) (.update r)
  | removeStatements (pattern : Statement) :
      Answers D (.removeStatements pattern)
        (.count (D.statements.filter fun s => s.Agrees pattern).card)
  | clear (contexts : ContextRequest) :
      Answers D (.clear contexts) (.count (D.statements.filter (InContexts contexts)).card)
  | size (contexts : ContextRequest) :
      Answers D (.size contexts) (.count (D.statements.filter (InContexts contexts)).card)
  | getStatements (pattern : Statement) {l : List Statement} (hnodup : l.Nodup)
      (h : ∀ s, s ∈ l ↔ s ∈ D.statements ∧ s.Agrees pattern) :
      Answers D (.getStatements pattern) (.statements l)
  | getNamespaces {l : List Namespace} (hnodup : l.Nodup) (h : ∀ ns, ns ∈ l ↔ D.Binds ns) :
      Answers D .getNamespaces (.namespaces l)
  | getNamespace {pattern ns : Namespace} (h : D.Binds ns) (hagrees : ns.Agrees pattern) :
      Answers D (.getNamespace pattern) (.namespace (.ok ns))
  | namespaceNotFound {pattern : Namespace} (h : ∀ ns, D.Binds ns → ¬ ns.Agrees pattern) :
      Answers D (.getNamespace pattern)
        (.namespace (.error ⟨.NOT_FOUND, "Namespace not found"⟩))

/-- The specification of the service. -/
def spec : Refinement.Spec Dataset (Request × Response) where
  Permits D e := D.Answers e.1 e.2
  next D e := D.next e.1

end Dataset

/-! ## Regular requests -/

/-- The second request removes what the first one adds. -/
def UpdateRequest.Undone : UpdateRequest → UpdateRequest → Prop
  | .stmtAdded s, .stmtRemoved pattern => s.Agrees pattern
  | .nsAdded ns, .nsRemoved pattern => ns.Agrees pattern
  | _, _ => False

section Regular

variable [Platform]

/-- The statements that requests add hold terms, and the hash tells their parts apart. -/
structure Known (K : List Statement) : Prop where
  wellFormed : ∀ s ∈ K, s.WellFormed
  collisionFree : CollisionFree K

/-- A scan finds what agrees with the pattern: the fields it sets are the leading ones of an index,
they are not empty, and the hash tells them apart from the parts of the statements. -/
structure Statement.Scans (K : List Statement) (pattern : Statement) : Prop where
  onlyLeading : pattern.onlyLeading = true
  context : pattern.context ≠ some .notSet
  collisionFree : CollisionFreePattern pattern K

/-- The contexts are terms that the hash tells apart from those of the statements. -/
def ContextsScan (K : List Statement) (contexts : List Resource) : Prop :=
  ∀ c ∈ contexts, c.isTerm = true ∧ CollisionFreePattern { context := some c } K

/-- A regular update. -/
def UpdateRequest.Regular (K : List Statement) : UpdateRequest → Prop
  | .stmtAdded s => s ∈ K
  | .stmtRemoved pattern => pattern.Scans K
  | .nsRemoved pattern => pattern.uri = ""
  | _ => True

/-- A regular request, where `K` are the statements that requests add. -/
def Request.Regular (K : List Statement) : Request → Prop
  | .addStatements it => ∀ s ∈ it, s ∈ K
  | .getStatements pattern => pattern.Scans K
  | .removeStatements pattern => pattern.Scans K
  | .clear contexts => ContextsScan K contexts
  | .size contexts => ContextsScan K contexts ∧ contexts.Nodup
  | .getNamespace pattern => pattern.uri = ""
  | .update it => (∀ r ∈ it, r.Regular K) ∧ it.Pairwise fun r r' => ¬ r.Undone r'
  | _ => True

end Regular

end CMarmotta
