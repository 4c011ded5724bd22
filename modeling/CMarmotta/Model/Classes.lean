import CMarmotta.Model.Message
import CMarmotta.Lib.Merge

/-!
# `model/rdf_model.h` and `model/rdf_model.cc`: the classes over the messages

A `URI`, a `BNode`, a `StringLiteral`, a `DatatypeLiteral` and a `Statement` hold their message and
nothing else, and they are their message here; a `Value` and a `Resource` also keep the kind of term
they hold. Copy assignments and setters merge the new message into the old one, move assignments
swap the two messages. The assignments of a `Value` to a `Value` and of a `Resource` to a `Resource`
are the ones the compiler generates.
-/

namespace CMarmotta

open Merge

/-! ## `MergeFrom` of the messages -/

instance : Merge URI where
  empty := ⟨""⟩
  merge old new := ⟨scalar "" old.uri new.uri⟩
  Overwritten old new := ScalarOverwritten "" old.uri new.uri
  merge_eq_iff {old new} := by
    obtain ⟨u⟩ := new
    rw [URI.mk.injEq]
    exact scalar_eq_iff
  empty_overwritten _ _ := rfl

instance : Merge BNode where
  empty := ⟨""⟩
  merge old new := ⟨scalar "" old.id new.id⟩
  Overwritten old new := ScalarOverwritten "" old.id new.id
  merge_eq_iff {old new} := by
    obtain ⟨x⟩ := new
    rw [BNode.mk.injEq]
    exact scalar_eq_iff
  empty_overwritten _ _ := rfl

instance : Merge StringLiteral where
  empty := ⟨"", ""⟩
  merge old new := ⟨scalar "" old.content new.content, scalar "" old.language new.language⟩
  Overwritten old new :=
    ScalarOverwritten "" old.content new.content ∧ ScalarOverwritten "" old.language new.language
  merge_eq_iff {old new} := by
    obtain ⟨c, l⟩ := new
    rw [StringLiteral.mk.injEq]
    exact and_congr scalar_eq_iff scalar_eq_iff
  empty_overwritten _ := ⟨fun _ => rfl, fun _ => rfl⟩

instance : Merge DatatypeLiteral where
  empty := ⟨"", none⟩
  merge old new := ⟨scalar "" old.content new.content, field old.datatype new.datatype⟩
  Overwritten old new :=
    ScalarOverwritten "" old.content new.content ∧ FieldOverwritten old.datatype new.datatype
  merge_eq_iff {old new} := by
    obtain ⟨c, d⟩ := new
    rw [DatatypeLiteral.mk.injEq]
    exact and_congr scalar_eq_iff field_eq_iff
  empty_overwritten new := ⟨fun _ => rfl, none_fieldOverwritten new.datatype⟩

/-! ### Alternatives

`mutable_uri()` and its like clear the alternative that is set if it is another one, and so start
from an empty message then. -/

namespace Resource

/-- `mutable_uri()`. -/
def mutableUri : Resource → URI
  | .uri u => u
  | _ => empty

/-- `mutable_bnode()`. -/
def mutableBNode : Resource → BNode
  | .bnode b => b
  | _ => empty

end Resource

instance : Merge Resource where
  empty := .notSet
  merge old
    | .notSet => old
    | .uri u => .uri (merge old.mutableUri u)
    | .bnode b => .bnode (merge old.mutableBNode b)
  Overwritten old
    | .notSet => old = .notSet
    | .uri u => Overwritten old.mutableUri u
    | .bnode b => Overwritten old.mutableBNode b
  merge_eq_iff {old new} := by
    cases new with
    | notSet => exact Iff.rfl
    | uri u =>
      show Resource.uri (merge old.mutableUri u) = .uri u ↔ _
      rw [Resource.uri.injEq]
      exact merge_eq_iff
    | bnode b =>
      show Resource.bnode (merge old.mutableBNode b) = .bnode b ↔ _
      rw [Resource.bnode.injEq]
      exact merge_eq_iff
  empty_overwritten new := by
    cases new with
    | notSet => rfl
    | uri u => exact empty_overwritten u
    | bnode b => exact empty_overwritten b

namespace Literal

/-- `mutable_stringliteral()`. -/
def mutableStringliteral : Literal → StringLiteral
  | .stringliteral l => l
  | _ => empty

/-- `mutable_dataliteral()`. -/
def mutableDataliteral : Literal → DatatypeLiteral
  | .dataliteral l => l
  | _ => empty

end Literal

instance : Merge Literal where
  empty := .notSet
  merge old
    | .notSet => old
    | .stringliteral l => .stringliteral (merge old.mutableStringliteral l)
    | .dataliteral l => .dataliteral (merge old.mutableDataliteral l)
  Overwritten old
    | .notSet => old = .notSet
    | .stringliteral l => Overwritten old.mutableStringliteral l
    | .dataliteral l => Overwritten old.mutableDataliteral l
  merge_eq_iff {old new} := by
    cases new with
    | notSet => exact Iff.rfl
    | stringliteral l =>
      show Literal.stringliteral (merge old.mutableStringliteral l) = .stringliteral l ↔ _
      rw [Literal.stringliteral.injEq]
      exact merge_eq_iff
    | dataliteral l =>
      show Literal.dataliteral (merge old.mutableDataliteral l) = .dataliteral l ↔ _
      rw [Literal.dataliteral.injEq]
      exact merge_eq_iff
  empty_overwritten new := by
    cases new with
    | notSet => rfl
    | stringliteral l => exact empty_overwritten l
    | dataliteral l => exact empty_overwritten l

namespace Value

/-- `mutable_resource()`. -/
def mutableResource : Value → Resource
  | .resource r => r
  | _ => empty

/-- `mutable_literal()`. -/
def mutableLiteral : Value → Literal
  | .literal l => l
  | _ => empty

end Value

instance : Merge Value where
  empty := .notSet
  merge old
    | .notSet => old
    | .resource r => .resource (merge old.mutableResource r)
    | .literal l => .literal (merge old.mutableLiteral l)
  Overwritten old
    | .notSet => old = .notSet
    | .resource r => Overwritten old.mutableResource r
    | .literal l => Overwritten old.mutableLiteral l
  merge_eq_iff {old new} := by
    cases new with
    | notSet => exact Iff.rfl
    | resource r =>
      show Value.resource (merge old.mutableResource r) = .resource r ↔ _
      rw [Value.resource.injEq]
      exact merge_eq_iff
    | literal l =>
      show Value.literal (merge old.mutableLiteral l) = .literal l ↔ _
      rw [Value.literal.injEq]
      exact merge_eq_iff
  empty_overwritten new := by
    cases new with
    | notSet => rfl
    | resource r => exact empty_overwritten r
    | literal l => exact empty_overwritten l

instance : Merge Statement where
  empty := {}
  merge old new :=
    { subject := field old.subject new.subject
      predicate := field old.predicate new.predicate
      object := field old.object new.object
      context := field old.context new.context }
  Overwritten old new :=
    FieldOverwritten old.subject new.subject ∧ FieldOverwritten old.predicate new.predicate ∧
      FieldOverwritten old.object new.object ∧ FieldOverwritten old.context new.context
  merge_eq_iff {old new} := by
    obtain ⟨s, p, o, c⟩ := new
    rw [Statement.mk.injEq]
    exact and_congr field_eq_iff
      (and_congr field_eq_iff (and_congr field_eq_iff field_eq_iff))
  empty_overwritten new :=
    ⟨none_fieldOverwritten new.subject, none_fieldOverwritten new.predicate,
      none_fieldOverwritten new.object, none_fieldOverwritten new.context⟩

/-! ## Assignment -/

/-- `Swap`: the messages of the two sides afterwards. -/
def swap {M : Type} (self other : M) : M × M := (other, self)

/-- `URI::operator=(const URI&)`. -/
def URI.assign (self other : URI) : URI := merge self other

/-- `URI::operator=(URI&&)` and `URI::operator=(proto::URI&&)`. -/
def URI.moveAssign (self other : URI) : URI × URI := swap self other

/-- `BNode::operator=(const BNode&)`. -/
def BNode.assign (self other : BNode) : BNode := merge self other

/-- `BNode::operator=(BNode&&)` and `BNode::operator=(proto::BNode&&)`. -/
def BNode.moveAssign (self other : BNode) : BNode × BNode := swap self other

/-- `StringLiteral::operator=(const StringLiteral&)`. -/
def StringLiteral.assign (self other : StringLiteral) : StringLiteral := merge self other

/-- `StringLiteral::operator=(StringLiteral&&)` and the same for the message. -/
def StringLiteral.moveAssign (self other : StringLiteral) : StringLiteral × StringLiteral :=
  swap self other

/-- `DatatypeLiteral::operator=(const DatatypeLiteral&)`. -/
def DatatypeLiteral.assign (self other : DatatypeLiteral) : DatatypeLiteral := merge self other

/-- `DatatypeLiteral::operator=(DatatypeLiteral&&)` and the same for the message. -/
def DatatypeLiteral.moveAssign (self other : DatatypeLiteral) :
    DatatypeLiteral × DatatypeLiteral :=
  swap self other

/-- `Statement::operator=(const Statement&)` and `Statement::operator=(const proto::Statement&)`. -/
def Statement.assign (self other : Statement) : Statement := merge self other

/-- `Statement::operator=(Statement&&)` and `Statement::operator=(proto::Statement&&)`. -/
def Statement.moveAssign (self other : Statement) : Statement × Statement := swap self other

namespace Rdf

/-- The `type` of a `Value`. -/
inductive ValueType where
  | URI
  | BNODE
  | STRING_LITERAL
  | DATATYPE_LITERAL
  | NONE
  deriving DecidableEq

/-- `class Value`. -/
structure Value where
  type : ValueType
  internal : CMarmotta.Value
  deriving DecidableEq

/-- The `type` of a `Resource`. -/
inductive ResourceType where
  | URI
  | BNODE
  | NONE
  deriving DecidableEq

/-- `class Resource`. -/
structure Resource where
  type : ResourceType
  internal : CMarmotta.Resource
  deriving DecidableEq

namespace Value

/-- `Value()`. -/
def new : Value where
  type := .NONE
  internal := .notSet

/-- `Value(const proto::Value&)`. -/
def ofMessage (v : CMarmotta.Value) : Value where
  type := match v with
    | .resource (.uri _) => .URI
    | .resource _ => .BNODE
    | .literal (.stringliteral _) => .STRING_LITERAL
    | .literal _ => .DATATYPE_LITERAL
    | .notSet => .NONE
  internal := v

/-- `Value::operator=(const URI&)`. -/
def assignUri (self : Value) (uri : URI) : Value where
  type := .URI
  internal := .resource (.uri (merge self.internal.mutableResource.mutableUri uri))

/-- `Value::operator=(const BNode&)`. -/
def assignBNode (self : Value) (bnode : BNode) : Value where
  type := .BNODE
  internal := .resource (.bnode (merge self.internal.mutableResource.mutableBNode bnode))

/-- `Value::operator=(const StringLiteral&)`. -/
def assignStringLiteral (self : Value) (literal : StringLiteral) : Value where
  type := .STRING_LITERAL
  internal :=
    .literal (.stringliteral (merge self.internal.mutableLiteral.mutableStringliteral literal))

/-- `Value::operator=(const DatatypeLiteral&)`. -/
def assignDatatypeLiteral (self : Value) (literal : DatatypeLiteral) : Value where
  type := .DATATYPE_LITERAL
  internal :=
    .literal (.dataliteral (merge self.internal.mutableLiteral.mutableDataliteral literal))

/-- `Value::operator=(URI&&)`. -/
def moveUri (self : Value) (uri : URI) : Value × URI :=
  let (mine, other) := swap self.internal.mutableResource.mutableUri uri
  ({ type := .URI, internal := .resource (.uri mine) }, other)

/-- `Value::operator=(BNode&&)`. -/
def moveBNode (self : Value) (bnode : BNode) : Value × BNode :=
  let (mine, other) := swap self.internal.mutableResource.mutableBNode bnode
  ({ type := .BNODE, internal := .resource (.bnode mine) }, other)

/-- `Value::operator=(StringLiteral&&)`. -/
def moveStringLiteral (self : Value) (literal : StringLiteral) : Value × StringLiteral :=
  let (mine, other) := swap self.internal.mutableLiteral.mutableStringliteral literal
  ({ type := .STRING_LITERAL, internal := .literal (.stringliteral mine) }, other)

/-- `Value::operator=(DatatypeLiteral&&)`. -/
def moveDatatypeLiteral (self : Value) (literal : DatatypeLiteral) : Value × DatatypeLiteral :=
  let (mine, other) := swap self.internal.mutableLiteral.mutableDataliteral literal
  ({ type := .DATATYPE_LITERAL, internal := .literal (.dataliteral mine) }, other)

/-- `Value::operator=(const Value&)` and, for the left side, `Value::operator=(Value&&)`, as the
compiler generates them: member by member. -/
def assign (self other : Value) : Value :=
  { self with type := other.type, internal := other.internal }

end Value

namespace Resource

/-- `Resource()`. -/
def new : Resource where
  type := .NONE
  internal := .notSet

/-- `Resource(const proto::Resource&)`. -/
def ofMessage (v : CMarmotta.Resource) : Resource where
  type := match v with
    | .uri _ => .URI
    | .bnode _ => .BNODE
    | .notSet => .NONE
  internal := v

/-- `Resource::operator=(const URI&)`. -/
def assignUri (self : Resource) (uri : URI) : Resource where
  type := .URI
  internal := .uri (merge self.internal.mutableUri uri)

/-- `Resource::operator=(const BNode&)`. -/
def assignBNode (self : Resource) (bnode : BNode) : Resource where
  type := .BNODE
  internal := .bnode (merge self.internal.mutableBNode bnode)

/-- `Resource::operator=(URI&&)`. -/
def moveUri (self : Resource) (uri : URI) : Resource × URI :=
  let (mine, other) := swap self.internal.mutableUri uri
  ({ type := .URI, internal := .uri mine }, other)

/-- `Resource::operator=(BNode&&)`. -/
def moveBNode (self : Resource) (bnode : BNode) : Resource × BNode :=
  let (mine, other) := swap self.internal.mutableBNode bnode
  ({ type := .BNODE, internal := .bnode mine }, other)

/-- `Resource::operator=(const Resource&)` and, for the left side,
`Resource::operator=(Resource&&)`, as the compiler generates them. -/
def assign (self other : Resource) : Resource :=
  { self with type := other.type, internal := other.internal }

end Resource

/-! ## `class Statement` -/

namespace Statement

/-- `Statement(const Resource&, const URI&, const Value&, const Resource&)`. -/
def ofQuad (subject : Resource) (predicate : URI) (object : Value) (context : Resource) :
    Statement where
  subject := some (merge empty subject.internal)
  predicate := some (merge empty predicate)
  object := some (merge empty object.internal)
  context := some (merge empty context.internal)

variable (self : Statement)

/-- `Statement::getSubject`. -/
def getSubject : Resource := .ofMessage self.getSubject

/-- `Statement::setSubject`. -/
def setSubject (subject : Resource) : Statement :=
  { self with subject := some (merge (self.subject.getD empty) subject.internal) }

/-- `Statement::getPredicate`. -/
def getPredicate : URI := self.getPredicate

/-- `Statement::setPredicate`. -/
def setPredicate (predicate : URI) : Statement :=
  { self with predicate := some (merge (self.predicate.getD empty) predicate) }

/-- `Statement::getObject`. -/
def getObject : Value := .ofMessage self.getObject

/-- `Statement::setObject`. -/
def setObject (object : Value) : Statement :=
  { self with object := some (merge (self.object.getD empty) object.internal) }

/-- `Statement::getContext`. -/
def getContext : Resource := .ofMessage self.getContext

/-- `Statement::setContext`. -/
def setContext (context : Resource) : Statement :=
  { self with context := some (merge (self.context.getD empty) context.internal) }

end Statement

end Rdf

end CMarmotta
