import CMarmotta.Model.Message

/-!
# The Java client: terms and the messages built from them

The methods of a connection take Sesame's terms, which may be `null`. A term is one of the
client's own, with a message inside, or an implementation of somebody else's, of which the client
uses the strings. `null` is `none`.
-/

namespace CMarmotta.Client

/-- Sesame's `Resource`, which is a `URI` or a `BNode`. -/
inductive JResource where
  | protoURI (message : URI)
  | protoBNode (message : BNode)
  | uri (stringValue : String)
  | bnode (stringValue : String)
  deriving DecidableEq

/-- Sesame's `URI`. -/
inductive JURI where
  | protoURI (message : URI)
  | uri (stringValue : String)
  deriving DecidableEq

/-- Sesame's `Literal`. -/
inductive JLiteral where
  | protoStringLiteral (message : StringLiteral)
  | protoDatatypeLiteral (message : DatatypeLiteral)
  | literal (stringValue : String) (datatype language : Option String)
  deriving DecidableEq

/-- Sesame's `Value`. -/
inductive JValue where
  | literal (l : JLiteral)
  | resource (r : JResource)
  deriving DecidableEq

/-- The branches of the constructor of `ProtoStatement` for a subject or a context. -/
def JResource.message : JResource → Resource
  | .protoURI message => .uri message
  | .protoBNode message => .bnode message
  | .uri stringValue => .uri ⟨stringValue⟩
  | .bnode stringValue => .bnode ⟨stringValue⟩

/-- The branches for a predicate. -/
def JURI.message : JURI → URI
  | .protoURI message => message
  | .uri stringValue => ⟨stringValue⟩

/-- The branches for a literal. A literal with a datatype has no language. -/
def JLiteral.message : JLiteral → Literal
  | .protoStringLiteral message => .stringliteral message
  | .protoDatatypeLiteral message => .dataliteral message
  | .literal stringValue (some datatype) _ => .dataliteral ⟨stringValue, some ⟨datatype⟩⟩
  | .literal stringValue none (some language) => .stringliteral ⟨stringValue, language⟩
  | .literal stringValue none none => .stringliteral ⟨stringValue, ""⟩

/-- The branches for an object. -/
def JValue.message : JValue → Value
  | .literal l => .literal l.message
  | .resource r => .resource r.message

/-- The message of `ProtoStatement(subject, predicate, object, context)`. A field is set if the
argument is not `null`. -/
def protoStatement (subject : Option JResource) (predicate : Option JURI) (object : Option JValue)
    (context : Option JResource) : Statement where
  subject := subject.map JResource.message
  predicate := predicate.map JURI.message
  object := object.map JValue.message
  context := context.map JResource.message

/-- `ProtoStatement.getContext()`. A context that is set and empty is `null`, like one that is not
set. -/
def getContext (message : Statement) : Option JResource :=
  match message.context with
  | none => none
  | some (.uri u) => some (.protoURI u)
  | some (.bnode b) => some (.protoBNode b)
  | some .notSet => none

/-- `stringValue()` of a resource. -/
def JResource.stringValue : JResource → String
  | .protoURI message => message.uri
  | .protoBNode message => message.id
  | .uri stringValue => stringValue
  | .bnode stringValue => stringValue

/-- The message of `ProtoNamespace(prefix, uri)`. -/
def protoNamespace (nsPrefix uri : String) : Namespace where
  nsPrefix := nsPrefix
  uri := uri

/-- The case distinction of `sizeInternal` on a context. `null` is neither a `URI` nor a `BNode`
and adds nothing to the request. -/
def contextRequest (contexts : List (Option JResource)) : ContextRequest :=
  contexts.filterMap fun
    | some (.protoURI message) => some (.uri ⟨(JResource.protoURI message).stringValue⟩)
    | some (.uri stringValue) => some (.uri ⟨(JResource.uri stringValue).stringValue⟩)
    | some (.protoBNode message) => some (.bnode ⟨(JResource.protoBNode message).stringValue⟩)
    | some (.bnode stringValue) => some (.bnode ⟨(JResource.bnode stringValue).stringValue⟩)
    | none => none

/-- The patterns of the loops over the contexts: one for each context, and one with a `null`
context if no context is given. -/
def patterns (subj : Option JResource) (pred : Option JURI) (obj : Option JValue)
    (contexts : List (Option JResource)) : List Statement :=
  if contexts.length > 0 then contexts.map fun ctx => protoStatement subj pred obj ctx
  else [protoStatement subj pred obj none]

end CMarmotta.Client
