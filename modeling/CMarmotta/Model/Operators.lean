import CMarmotta.Model.Platform

/-!
# `model/rdf_operators.h` and `model/rdf_operators.cc`: equality and hashes of messages

Two messages are compared by the strings in them, one alternative after the other; where no pair of
alternatives matches, the answer is false. The hash of a URI, of a blank node and of a resource is
the hash of its string, and that of every other message is the hash of its serialization.
-/

namespace CMarmotta

/-- `datatype()`: the default instance when the field is absent. -/
def DatatypeLiteral.getDatatype (l : DatatypeLiteral) : URI := l.datatype.getD ⟨""⟩

/-! ## `operator==` -/

/-- `operator==(const Namespace&, const Namespace&)`: the prefix is not compared. -/
def Namespace.equal (lhs rhs : Namespace) : Bool := lhs.uri = rhs.uri

/-- `operator==(const URI&, const URI&)`. -/
def URI.equal (lhs rhs : URI) : Bool := lhs.uri = rhs.uri

/-- `operator==(const BNode&, const BNode&)`. -/
def BNode.equal (lhs rhs : BNode) : Bool := lhs.id = rhs.id

/-- `operator==(const StringLiteral&, const StringLiteral&)`. -/
def StringLiteral.equal (lhs rhs : StringLiteral) : Bool :=
  lhs.content = rhs.content && lhs.language = rhs.language

/-- `operator==(const DatatypeLiteral&, const DatatypeLiteral&)`. -/
def DatatypeLiteral.equal (lhs rhs : DatatypeLiteral) : Bool :=
  lhs.content = rhs.content && lhs.getDatatype.uri = rhs.getDatatype.uri

/-- `operator==(const Value&, const Value&)`. -/
def Value.equal : Value → Value → Bool
  | .resource (.uri lhs), .resource (.uri rhs) => lhs.equal rhs
  | .resource (.bnode lhs), .resource (.bnode rhs) => lhs.equal rhs
  | .literal (.stringliteral lhs), .literal (.stringliteral rhs) => lhs.equal rhs
  | .literal (.dataliteral lhs), .literal (.dataliteral rhs) => lhs.equal rhs
  | _, _ => false

/-- `operator==(const Resource&, const Resource&)`. An empty resource is not equal to itself. -/
def Resource.equal : Resource → Resource → Bool
  | .uri lhs, .uri rhs => lhs.uri = rhs.uri
  | .bnode lhs, .bnode rhs => lhs.id = rhs.id
  | _, _ => false

/-- `operator==(const Statement&, const Statement&)`. -/
def Statement.equal (lhs rhs : Statement) : Bool :=
  lhs.getSubject.equal rhs.getSubject && lhs.getPredicate.equal rhs.getPredicate &&
    lhs.getObject.equal rhs.getObject && lhs.getContext.equal rhs.getContext

/-! ## `operator!=` -/

/-- `operator!=(const URI&, const URI&)`. -/
def URI.notEqual (lhs rhs : URI) : Bool := lhs.uri ≠ rhs.uri

/-- `operator!=(const Value&, const Value&)`. -/
def Value.notEqual (lhs rhs : Value) : Bool := !lhs.equal rhs

/-- `operator!=(const Resource&, const Resource&)`. -/
def Resource.notEqual (lhs rhs : Resource) : Bool := !lhs.equal rhs

/-- `operator!=(const Statement&, const Statement&)`. -/
def Statement.notEqual (lhs rhs : Statement) : Bool := !lhs.equal rhs

/-! ## `std::hash` -/

/-- `SerializeToString` and `ParseFromString` of the messages that are hashed by their bytes. -/
structure Serialization where
  resource : Codec Resource
  stringLiteral : Codec StringLiteral
  datatypeLiteral : Codec DatatypeLiteral
  value : Codec Value
  statement : Codec Statement
  ns : Codec Namespace

section Hash

-- `std::hash<std::string>`.
variable (stringHash : Bytes → Nat)

/-- `std::hash<google::protobuf::Message>`: the hash of the serialization. -/
def messageHash {M : Type} (codec : Codec M) (k : M) : Nat := stringHash (codec.serialize k)

/-- `std::hash<URI>`. -/
def URI.hash (k : URI) : Nat := stringHash (utf8 k.uri)

/-- `std::hash<BNode>`. -/
def BNode.hash (k : BNode) : Nat := stringHash (utf8 k.id)

/-- `std::hash<Resource>`. -/
def Resource.hash (codec : Codec Resource) : Resource → Nat
  | .uri u => u.hash stringHash
  | .bnode b => b.hash stringHash
  | .notSet => messageHash stringHash codec .notSet

/-- `std::hash<Value>`. -/
def Value.hash (codec : Codec Value) (k : Value) : Nat := messageHash stringHash codec k

/-- `std::hash<StringLiteral>`. -/
def StringLiteral.hash (codec : Codec StringLiteral) (k : StringLiteral) : Nat :=
  messageHash stringHash codec k

/-- `std::hash<DatatypeLiteral>`. -/
def DatatypeLiteral.hash (codec : Codec DatatypeLiteral) (k : DatatypeLiteral) : Nat :=
  messageHash stringHash codec k

/-- `std::hash<Statement>`. -/
def Statement.hash (codec : Codec Statement) (k : Statement) : Nat := messageHash stringHash codec k

/-- `std::hash<Namespace>`. -/
def Namespace.hash (codec : Codec Namespace) (k : Namespace) : Nat := messageHash stringHash codec k

end Hash

end CMarmotta
