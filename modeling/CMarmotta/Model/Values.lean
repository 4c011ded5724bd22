import CMarmotta.Model.Classes

/-!
# `model/rdf_model.h` and `model/rdf_model.cc`: building and printing a `Value` and a `Resource`

Both classes keep a tag besides their message. The constructors and assignments set the tag by hand,
and set the alternative of the message by calling `mutable_uri()` and its like. `stringValue` goes
by the tag, `as_turtle` by the message.
-/

namespace CMarmotta

open Merge

/-! ## Turtle -/

/-- `as_turtle_(const proto::URI&)`. -/
def URI.asTurtle (uri : URI) : String := "<" ++ uri.uri ++ ">"

/-- `as_turtle_(const proto::BNode&)`. -/
def BNode.asTurtle (bnode : BNode) : String := "_:" ++ bnode.id

/-- `as_turtle_(const proto::StringLiteral&)`. -/
def StringLiteral.asTurtle (literal : StringLiteral) : String :=
  if literal.language = "" then "\"" ++ literal.content ++ "\""
  else "\"" ++ literal.content ++ "\"@" ++ literal.language

/-- `as_turtle_(const proto::DatatypeLiteral&)`. -/
def DatatypeLiteral.asTurtle (literal : DatatypeLiteral) : String :=
  "\"" ++ literal.content ++ "\"^^" ++ (literal.datatype.getD empty).asTurtle

/-- `as_turtle_(const proto::Resource&)`. -/
def Resource.asTurtle : Resource → String
  | .uri u => u.asTurtle
  | .bnode b => b.asTurtle
  | .notSet => ""

/-- `as_turtle_(const proto::Value&)`. -/
def Value.asTurtle : Value → String
  | .resource (.uri u) => u.asTurtle
  | .resource (.bnode b) => b.asTurtle
  | .literal (.stringliteral l) => l.asTurtle
  | .literal (.dataliteral l) => l.asTurtle
  | _ => ""

namespace Rdf

/-! ## `class Value` -/

namespace Value

/-- `Value(proto::Value&&)`: the tag is read off before the messages are swapped. -/
def ofMovedMessage (v : CMarmotta.Value) : Value × CMarmotta.Value :=
  let (mine, other) := swap empty v
  ({ type := (ofMessage v).type, internal := mine }, other)

/-- `Value(const URI&)`. -/
def ofUri (uri : URI) : Value where
  type := .URI
  internal := .resource (.uri (merge new.internal.mutableResource.mutableUri uri))

/-- `Value(URI&&)`. -/
def ofMovedUri (uri : URI) : Value × URI :=
  let (mine, other) := swap new.internal.mutableResource.mutableUri uri
  ({ type := .URI, internal := .resource (.uri mine) }, other)

/-- `Value(const BNode&)`. -/
def ofBNode (bnode : BNode) : Value where
  type := .BNODE
  internal := .resource (.bnode (merge new.internal.mutableResource.mutableBNode bnode))

/-- `Value(BNode&&)`. -/
def ofMovedBNode (bnode : BNode) : Value × BNode :=
  let (mine, other) := swap new.internal.mutableResource.mutableBNode bnode
  ({ type := .BNODE, internal := .resource (.bnode mine) }, other)

/-- `Value(const StringLiteral&)`. -/
def ofStringLiteral (literal : StringLiteral) : Value where
  type := .STRING_LITERAL
  internal :=
    .literal (.stringliteral (merge new.internal.mutableLiteral.mutableStringliteral literal))

/-- `Value(StringLiteral&&)`. -/
def ofMovedStringLiteral (literal : StringLiteral) : Value × StringLiteral :=
  let (mine, other) := swap new.internal.mutableLiteral.mutableStringliteral literal
  ({ type := .STRING_LITERAL, internal := .literal (.stringliteral mine) }, other)

/-- `Value(const DatatypeLiteral&)`. -/
def ofDatatypeLiteral (literal : DatatypeLiteral) : Value where
  type := .DATATYPE_LITERAL
  internal :=
    .literal (.dataliteral (merge new.internal.mutableLiteral.mutableDataliteral literal))

/-- `Value(DatatypeLiteral&&)`. -/
def ofMovedDatatypeLiteral (literal : DatatypeLiteral) : Value × DatatypeLiteral :=
  let (mine, other) := swap new.internal.mutableLiteral.mutableDataliteral literal
  ({ type := .DATATYPE_LITERAL, internal := .literal (.dataliteral mine) }, other)

/-- `Value(const std::string&)` and `Value(const char*)`. -/
def ofString (literal : String) : Value where
  type := .STRING_LITERAL
  internal := .literal (.stringliteral
    { new.internal.mutableLiteral.mutableStringliteral with content := literal })

/-- `Value::stringValue`. -/
def stringValue (v : Value) : String :=
  match v.type with
  | .URI => v.internal.mutableResource.mutableUri.uri
  | .BNODE => v.internal.mutableResource.mutableBNode.id
  | .STRING_LITERAL => v.internal.mutableLiteral.mutableStringliteral.content
  | .DATATYPE_LITERAL => v.internal.mutableLiteral.mutableDataliteral.content
  | .NONE => ""

/-- `Value::as_turtle`. -/
def asTurtle (v : Value) : String := v.internal.asTurtle

/-- The objects that constructors and assignments give. A message they are made of is empty or
filled down to a leaf; a `Value` is copied and moved member by member. -/
inductive Built : Value → Prop
  | new : Built new
  | ofMessage (v : CMarmotta.Value) (h : v = .notSet ∨ v.isTerm = true) : Built (ofMessage v)
  | ofMovedMessage (v : CMarmotta.Value) (h : v = .notSet ∨ v.isTerm = true) :
      Built (ofMovedMessage v).1
  | ofUri (uri : URI) : Built (ofUri uri)
  | ofMovedUri (uri : URI) : Built (ofMovedUri uri).1
  | ofBNode (bnode : BNode) : Built (ofBNode bnode)
  | ofMovedBNode (bnode : BNode) : Built (ofMovedBNode bnode).1
  | ofStringLiteral (literal : StringLiteral) : Built (ofStringLiteral literal)
  | ofMovedStringLiteral (literal : StringLiteral) : Built (ofMovedStringLiteral literal).1
  | ofDatatypeLiteral (literal : DatatypeLiteral) : Built (ofDatatypeLiteral literal)
  | ofMovedDatatypeLiteral (literal : DatatypeLiteral) : Built (ofMovedDatatypeLiteral literal).1
  | ofString (literal : String) : Built (ofString literal)
  | assignUri {self : Value} (h : Built self) (uri : URI) : Built (self.assignUri uri)
  | assignBNode {self : Value} (h : Built self) (bnode : BNode) : Built (self.assignBNode bnode)
  | assignStringLiteral {self : Value} (h : Built self) (literal : StringLiteral) :
      Built (self.assignStringLiteral literal)
  | assignDatatypeLiteral {self : Value} (h : Built self) (literal : DatatypeLiteral) :
      Built (self.assignDatatypeLiteral literal)
  | moveUri {self : Value} (h : Built self) (uri : URI) : Built (self.moveUri uri).1
  | moveBNode {self : Value} (h : Built self) (bnode : BNode) : Built (self.moveBNode bnode).1
  | moveStringLiteral {self : Value} (h : Built self) (literal : StringLiteral) :
      Built (self.moveStringLiteral literal).1
  | moveDatatypeLiteral {self : Value} (h : Built self) (literal : DatatypeLiteral) :
      Built (self.moveDatatypeLiteral literal).1
  | assign {self other : Value} (h : Built self) (hother : Built other) : Built (self.assign other)

end Value

/-! ## `class Resource` -/

namespace Resource

/-- `Resource(proto::Resource&&)`. -/
def ofMovedMessage (v : CMarmotta.Resource) : Resource × CMarmotta.Resource :=
  let (mine, other) := swap empty v
  ({ type := (ofMessage v).type, internal := mine }, other)

/-- `Resource(const std::string&)` and `Resource(const char*)`. -/
def ofString (uri : String) : Resource where
  type := .URI
  internal := .uri { new.internal.mutableUri with uri := uri }

/-- `Resource(const URI&)`. -/
def ofUri (uri : URI) : Resource where
  type := .URI
  internal := .uri (merge new.internal.mutableUri uri)

/-- `Resource(const BNode&)`. -/
def ofBNode (bnode : BNode) : Resource where
  type := .BNODE
  internal := .bnode (merge new.internal.mutableBNode bnode)

/-- `Resource(URI&&)`. -/
def ofMovedUri (uri : URI) : Resource × URI :=
  let (mine, other) := swap new.internal.mutableUri uri
  ({ type := .URI, internal := .uri mine }, other)

/-- `Resource(BNode&&)`. -/
def ofMovedBNode (bnode : BNode) : Resource × BNode :=
  let (mine, other) := swap new.internal.mutableBNode bnode
  ({ type := .BNODE, internal := .bnode mine }, other)

/-- `Resource::stringValue`. -/
def stringValue (r : Resource) : String :=
  match r.type with
  | .URI => r.internal.mutableUri.uri
  | .BNODE => r.internal.mutableBNode.id
  | .NONE => ""

/-- `Resource::as_turtle`. -/
def asTurtle (r : Resource) : String := r.internal.asTurtle

/-- The objects that constructors and assignments give. -/
inductive Built : Resource → Prop
  | new : Built new
  | ofMessage (v : CMarmotta.Resource) : Built (ofMessage v)
  | ofMovedMessage (v : CMarmotta.Resource) : Built (ofMovedMessage v).1
  | ofString (uri : String) : Built (ofString uri)
  | ofUri (uri : URI) : Built (ofUri uri)
  | ofBNode (bnode : BNode) : Built (ofBNode bnode)
  | ofMovedUri (uri : URI) : Built (ofMovedUri uri).1
  | ofMovedBNode (bnode : BNode) : Built (ofMovedBNode bnode).1
  | assignUri {self : Resource} (h : Built self) (uri : URI) : Built (self.assignUri uri)
  | assignBNode {self : Resource} (h : Built self) (bnode : BNode) : Built (self.assignBNode bnode)
  | moveUri {self : Resource} (h : Built self) (uri : URI) : Built (self.moveUri uri).1
  | moveBNode {self : Resource} (h : Built self) (bnode : BNode) : Built (self.moveBNode bnode).1
  | assign {self other : Resource} (h : Built self) (hother : Built other) :
      Built (self.assign other)

end Resource

end Rdf

end CMarmotta
