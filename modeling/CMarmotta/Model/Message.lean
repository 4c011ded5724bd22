import Mathlib.Data.List.Basic

/-!
# The messages of `model/model.proto` and `service/sail.proto`

A singular message field is present or absent and is an `Option` here; a `oneof` is an inductive
type with a constructor `notSet` for the case that no alternative is set; a `string` field is never
absent, its default being the empty string. The getters of the generated code return the default
instance for an absent field (`getSubject` and so on).
-/

namespace CMarmotta

/-- `message Namespace`. -/
structure Namespace where
  nsPrefix : String
  uri : String
  deriving DecidableEq, Inhabited

/-- `message URI`. -/
structure URI where
  uri : String
  deriving DecidableEq

/-- `message BNode`. -/
structure BNode where
  id : String
  deriving DecidableEq

/-- `message Resource`: either a URI or a blank node. -/
inductive Resource where
  | notSet
  | uri (u : URI)
  | bnode (b : BNode)
  deriving DecidableEq

/-- `message StringLiteral`. -/
structure StringLiteral where
  content : String
  language : String
  deriving DecidableEq

/-- `message DatatypeLiteral`. -/
structure DatatypeLiteral where
  content : String
  datatype : Option URI
  deriving DecidableEq

/-- `message Literal`. -/
inductive Literal where
  | notSet
  | stringliteral (l : StringLiteral)
  | dataliteral (l : DatatypeLiteral)
  deriving DecidableEq

/-- `message Value`: a resource or a literal. -/
inductive Value where
  | notSet
  | resource (r : Resource)
  | literal (l : Literal)
  deriving DecidableEq

/-- `message Statement`. Also used for patterns, where an absent field is a wildcard. -/
structure Statement where
  subject : Option Resource := none
  predicate : Option URI := none
  object : Option Value := none
  context : Option Resource := none
  deriving DecidableEq, Inhabited

namespace Statement

/-- The statement made of three URIs and, if given, a URI as context. -/
def ofUris (s p o : String) (c : Option String := none) : Statement where
  subject := some (.uri ⟨s⟩)
  predicate := some ⟨p⟩
  object := some (.resource (.uri ⟨o⟩))
  context := c.map fun c => .uri ⟨c⟩

/-- `subject()`: the default instance when the field is absent. -/
def getSubject (s : Statement) : Resource := s.subject.getD .notSet

/-- `predicate()`. -/
def getPredicate (s : Statement) : URI := s.predicate.getD ⟨""⟩

/-- `object()`. -/
def getObject (s : Statement) : Value := s.object.getD .notSet

/-- `context()`. -/
def getContext (s : Statement) : Resource := s.context.getD .notSet

end Statement

/-- `message ContextRequest`: a list of contexts. -/
abbrev ContextRequest := List Resource

/-- `message UpdateRequest`: a `oneof` of the four kinds of update. -/
inductive UpdateRequest where
  | notSet
  | stmtAdded (stmt : Statement)
  | stmtRemoved (pattern : Statement)
  | nsAdded (ns : Namespace)
  | nsRemoved (pattern : Namespace)
  deriving DecidableEq, Inhabited

/-- `message UpdateResponse`. -/
structure UpdateResponse where
  addedStatements : Nat := 0
  removedStatements : Nat := 0
  addedNamespaces : Nat := 0
  removedNamespaces : Nat := 0
  deriving DecidableEq

/-! ## Well-formed statements -/

/-- A resource that holds one of its alternatives. -/
def Resource.isTerm : Resource → Bool
  | .notSet => false
  | .uri _ => true
  | .bnode _ => true

/-- A literal that holds one of its alternatives. -/
def Literal.isTerm : Literal → Bool
  | .notSet => false
  | .stringliteral _ => true
  | .dataliteral _ => true

/-- A value that holds one of its alternatives, down to the leaves. -/
def Value.isTerm : Value → Bool
  | .notSet => false
  | .resource r => r.isTerm
  | .literal l => l.isTerm

/-- A statement as the parser and the Java client build it: subject, predicate and object are set
and hold a term, and the context is absent or holds a term. -/
structure Statement.WellFormed (s : Statement) : Prop where
  subject : s.subject.any Resource.isTerm = true
  predicate : s.predicate.isSome = true
  object : s.object.any Value.isTerm = true
  context : s.context.all Resource.isTerm = true

instance (s : Statement) : Decidable s.WellFormed :=
  decidable_of_iff (s.subject.any Resource.isTerm = true ∧ s.predicate.isSome = true ∧
      s.object.any Value.isTerm = true ∧ s.context.all Resource.isTerm = true)
    ⟨fun ⟨hs, hp, ho, hc⟩ => ⟨hs, hp, ho, hc⟩, fun ⟨hs, hp, ho, hc⟩ => ⟨hs, hp, ho, hc⟩⟩

end CMarmotta
