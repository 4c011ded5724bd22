import CMarmotta.Client.Values

/-!
# The Java client: reading messages, and equality of terms

The getters of `ProtoStatement` and `directTupleQuery` turn the alternatives of a message back into
the client's own classes, `ProtoURI`, `ProtoBNode`, `ProtoStringLiteral` and `ProtoDatatypeLiteral`.
A `switch` without `break` goes on with the next case, and the accessor of an alternative that is
not set returns the default message. The classes define `equals` and `hashCode` by the strings in
their messages; their test `this == o` only leaves out a comparison that has the same result.
-/

namespace CMarmotta.Client

/-! ## The client's own terms -/

/-- A `ProtoURI` or a `ProtoBNode`. -/
inductive ProtoResource where
  | protoURI (message : URI)
  | protoBNode (message : BNode)
  deriving DecidableEq

/-- A `ProtoStringLiteral` or a `ProtoDatatypeLiteral`. -/
inductive ProtoLiteral where
  | protoStringLiteral (message : StringLiteral)
  | protoDatatypeLiteral (message : DatatypeLiteral)
  deriving DecidableEq

/-- A value of the client's own. -/
inductive ProtoValue where
  | resource (r : ProtoResource)
  | literal (l : ProtoLiteral)
  deriving DecidableEq

/-- The resource as one of Sesame's. -/
def ProtoResource.toJ : ProtoResource → JResource
  | .protoURI message => .protoURI message
  | .protoBNode message => .protoBNode message

/-- The literal as one of Sesame's. -/
def ProtoLiteral.toJ : ProtoLiteral → JLiteral
  | .protoStringLiteral message => .protoStringLiteral message
  | .protoDatatypeLiteral message => .protoDatatypeLiteral message

/-- The value as one of Sesame's. -/
def ProtoValue.toJ : ProtoValue → JValue
  | .resource r => .resource r.toJ
  | .literal l => .literal l.toJ

/-- `getLabel()`. -/
def JLiteral.getLabel : JLiteral → String
  | .protoStringLiteral message => message.content
  | .protoDatatypeLiteral message => message.content
  | .literal stringValue _ _ => stringValue

/-- A text, unless it is empty. -/
def nonEmpty (text : String) : Option String := if text = "" then none else some text

/-- `getLanguage()`. A message without a language has an empty one. -/
def JLiteral.getLanguage : JLiteral → Option String
  | .protoStringLiteral message => nonEmpty message.language
  | .protoDatatypeLiteral _ => none
  | .literal _ _ language => language

/-- `getDatatype()`, by its string. -/
def JLiteral.getDatatype : JLiteral → Option String
  | .protoStringLiteral _ => none
  | .protoDatatypeLiteral message => message.datatype.map URI.uri
  | .literal _ datatype _ => datatype

/-! ## What a term shows -/

/-- What the interfaces of Sesame show of a term: its kind, its text, and the language and the
datatype of a literal. -/
inductive Term where
  | uri (stringValue : String)
  | bnode (stringValue : String)
  | literal (label : String) (language datatype : Option String)
  deriving DecidableEq

/-- What a resource shows. -/
def JResource.term : JResource → Term
  | .protoURI message => .uri message.uri
  | .protoBNode message => .bnode message.id
  | .uri stringValue => .uri stringValue
  | .bnode stringValue => .bnode stringValue

/-- What a URI shows. -/
def JURI.term : JURI → Term
  | .protoURI message => .uri message.uri
  | .uri stringValue => .uri stringValue

/-- What a value shows. An empty language is none. -/
def JValue.term : JValue → Term
  | .resource r => r.term
  | .literal l => .literal l.getLabel (l.getLanguage.bind nonEmpty) l.getDatatype

/-- The value is not a literal with both a datatype and a language that is not empty. -/
def JValue.isTerm : JValue → Bool
  | .resource _ => true
  | .literal l => l.getDatatype = none || l.getLanguage.bind nonEmpty = none

/-- The value is a `ProtoDatatypeLiteral` without a datatype. -/
def JValue.isUntyped : JValue → Bool
  | .literal (.protoDatatypeLiteral message) => message.datatype = none
  | _ => false

/-! ## Getters of `ProtoStatement` -/

/-- `getSubject()`. -/
def getSubject (message : Statement) : Option ProtoResource :=
  match message.subject with
  | none => none
  | some (.uri u) => some (.protoURI u)
  | some (.bnode b) => some (.protoBNode b)
  | some .notSet => none

/-- `getPredicate()`, a `ProtoURI`, by its message. -/
def getPredicate (message : Statement) : Option URI := message.predicate

/-- `getLiteral()` of a value message. -/
def getLiteral : Value → Literal
  | .literal l => l
  | _ => .notSet

/-- The case `LITERAL` of `getObject()`. -/
def getObjectLiteral (value : Value) : Option ProtoValue :=
  match getLiteral value with
  | .stringliteral l => some (.literal (.protoStringLiteral l))
  | .dataliteral l => some (.literal (.protoDatatypeLiteral l))
  | .notSet => none

/-- `getObject()`. -/
def getObject (message : Statement) : Option ProtoValue :=
  match message.object with
  | none => none
  | some (.resource (.uri u)) => some (.resource (.protoURI u))
  | some (.resource (.bnode b)) => some (.resource (.protoBNode b))
  | some value@(.resource .notSet) => getObjectLiteral value
  | some value@(.literal _) => getObjectLiteral value
  | some .notSet => none

/-- The getters of `ProtoStatement(subject, predicate, object, context)` return terms that show the
same as the arguments, and `null` for `null`. -/
structure Lossless (subject : Option JResource) (predicate : Option JURI) (object : Option JValue)
    (context : Option JResource) : Prop where
  subject_eq : (getSubject (protoStatement subject predicate object context)).map (·.toJ.term) =
    subject.map JResource.term
  predicate_eq : (getPredicate (protoStatement subject predicate object context)).map
    (Term.uri ·.uri) = predicate.map JURI.term
  object_eq : (getObject (protoStatement subject predicate object context)).map (·.toJ.term) =
    object.map JValue.term
  context_eq : (getContext (protoStatement subject predicate object context)).map JResource.term =
    context.map JResource.term

/-! ## Bindings of `directTupleQuery` -/

/-- `getBnode()` of a resource message. -/
def getBnode : Resource → BNode
  | .bnode b => b
  | _ => ⟨""⟩

/-- `getDataliteral()` of a literal message. -/
def getDataliteral : Literal → DatatypeLiteral
  | .dataliteral l => l
  | _ => ⟨"", none⟩

/-- What the `switch` on the resource leaves in `v`. The case `URI` goes on with the case `BNODE`. -/
def switchResource (r : Resource) (v : Option ProtoValue) : Option ProtoValue :=
  let caseBnode := some (ProtoValue.resource (.protoBNode (getBnode r)))
  match r with
  | .uri _ => caseBnode
  | .bnode _ => caseBnode
  | .notSet => v

/-- What the `switch` on the literal leaves in `v`. The case `STRINGLITERAL` goes on with the case
`DATALITERAL`. -/
def switchLiteral (l : Literal) (v : Option ProtoValue) : Option ProtoValue :=
  let caseDataliteral := some (ProtoValue.literal (.protoDatatypeLiteral (getDataliteral l)))
  match l with
  | .stringliteral _ => caseDataliteral
  | .dataliteral _ => caseDataliteral
  | .notSet => v

/-- The value that `directTupleQuery` makes of a value message. The case `RESOURCE` goes on with the
case `LITERAL`. -/
def convertValue (value : Value) : Option ProtoValue :=
  match value with
  | .resource r => switchLiteral (getLiteral value) (switchResource r none)
  | .literal l => switchLiteral l none
  | .notSet => none

/-- `convert` of `directTupleQuery`: the calls `result.addBinding(variable, v)` for the bindings of a
row. -/
def convertRow (row : List (String × Value)) : List (String × Option ProtoValue) :=
  row.map fun b => (b.1, convertValue b.2)

/-! ## `equals` and `hashCode` -/

/-- `equals` of `ProtoURI` and `ProtoBNode`. -/
def ProtoResource.equals (this : ProtoResource) (o : Option JValue) : Bool :=
  match this, o with
  | .protoURI message, some (.resource (.protoURI that)) => message.uri = that.uri
  | .protoURI message, some (.resource (.uri stringValue)) => message.uri = stringValue
  | .protoBNode message, some (.resource (.protoBNode that)) => message.id = that.id
  | .protoBNode message, some (.resource (.bnode stringValue)) => message.id = stringValue
  | _, _ => false

/-- `ProtoLiteralBase.equals`. -/
def ProtoLiteral.equals (this : ProtoLiteral) (o : Option JValue) : Bool :=
  match o with
  | some (.literal that) =>
    if this.toJ.getLabel ≠ that.getLabel then false
    else if this.toJ.getLanguage ≠ none ∧ this.toJ.getLanguage ≠ that.getLanguage then false
    else if this.toJ.getDatatype = none ∧ that.getDatatype ≠ none then false
    else if this.toJ.getDatatype ≠ none ∧ this.toJ.getDatatype ≠ that.getDatatype then false
    else true
  | _ => false

/-- `equals` of a value. -/
def ProtoValue.equals (this : ProtoValue) (o : Option JValue) : Bool :=
  match this with
  | .resource r => r.equals o
  | .literal l => l.equals o

/-- `ProtoStatement.equals` on another `ProtoStatement`, or `none` for a `NullPointerException`. -/
def statementEquals (this triple : Statement) : Option Bool := do
  let object ← getObject this
  if !object.equals ((getObject triple).map ProtoValue.toJ) then return false
  let predicate ← getPredicate this
  if !(ProtoResource.protoURI predicate).equals
      ((getPredicate triple).map fun p => .resource (.protoURI p)) then return false
  let subject ← getSubject this
  return subject.equals ((getSubject triple).map fun r => .resource r.toJ)

/-- The code units of a character in UTF-16. -/
def codeUnits (c : Char) : List (BitVec 32) :=
  let n := c.toNat
  if n < 0x10000 then [BitVec.ofNat 32 n]
  else [BitVec.ofNat 32 (0xD800 + (n - 0x10000) / 0x400),
    BitVec.ofNat 32 (0xDC00 + (n - 0x10000) % 0x400)]

/-- `String.hashCode()`, in the arithmetic of `int`. -/
def stringHashCode (s : String) : BitVec 32 :=
  (s.toList.flatMap codeUnits).foldl (fun h c => 31 * h + c) 0

/-- `hashCode()` of `ProtoURI` and `ProtoBNode`. -/
def ProtoResource.hashCode : ProtoResource → BitVec 32
  | .protoURI message => stringHashCode message.uri
  | .protoBNode message => stringHashCode message.id

/-- `ProtoLiteralBase.hashCode()`. -/
def ProtoLiteral.hashCode (l : ProtoLiteral) : BitVec 32 := stringHashCode l.toJ.getLabel

/-- `hashCode()` of a value. -/
def ProtoValue.hashCode : ProtoValue → BitVec 32
  | .resource r => r.hashCode
  | .literal l => l.hashCode

/-- `ProtoStatement.hashCode()`, or `none` for a `NullPointerException`. -/
def statementHashCode (message : Statement) : Option (BitVec 32) := do
  let subject ← getSubject message
  let predicate ← getPredicate message
  let object ← getObject message
  return 961 * subject.hashCode + 31 * (ProtoResource.protoURI predicate).hashCode +
    object.hashCode

end CMarmotta.Client
