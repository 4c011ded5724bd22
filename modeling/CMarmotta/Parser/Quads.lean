import CMarmotta.Client.Values
import CMarmotta.Parser.RdfParser

/-!
# One RDF statement in two libraries

The command line client receives a statement as terms of raptor, the Java client as terms of
Sesame, which may be its own or somebody else's. A `Quad` is the statement both stand for.
-/

namespace CMarmotta

/-- An IRI or a blank node. -/
inductive Node where
  | iri (iri : CString)
  | blank (id : String)
  deriving DecidableEq

/-- A literal without or with a language, or with a datatype. -/
inductive LiteralTerm where
  | plain (content : String)
  | tagged (content language : String)
  | typed (content : String) (datatype : CString)
  deriving DecidableEq

/-- What can be the object of a statement. -/
inductive ObjectTerm where
  | node (n : Node)
  | literal (l : LiteralTerm)
  deriving DecidableEq

/-- An RDF statement, in the default graph if `graph` is absent. -/
structure Quad where
  subject : Node
  predicate : CString
  object : ObjectTerm
  graph : Option Node
  deriving DecidableEq

/-! ## Terms of raptor -/

/-- The term raptor makes for a node. -/
def Node.raptor : Node → Raptor.Term
  | .iri ref => .uri ref
  | .blank id => .blank id

/-- The term raptor makes for a literal. -/
def LiteralTerm.raptor : LiteralTerm → Raptor.Term
  | .plain content => .literal content none none
  | .tagged content language => .literal content none (some language)
  | .typed content datatype => .literal content (some datatype) none

/-- The term raptor makes for an object. -/
def ObjectTerm.raptor : ObjectTerm → Raptor.Term
  | .node n => n.raptor
  | .literal l => l.raptor

/-- The statement raptor hands to the parser. -/
def Quad.raptor (q : Quad) : Raptor.Statement where
  subject := some q.subject.raptor
  predicate := some (.uri q.predicate)
  object := some q.object.raptor
  graph := q.graph.map Node.raptor

/-! ## Terms of Sesame -/

namespace Client

/-- The Java object stands for the node. -/
def JResource.Denotes : JResource → Node → Prop
  | .protoURI message, .iri iri => message = ⟨iri.text⟩
  | .uri stringValue, .iri iri => stringValue = iri.text
  | .protoBNode message, .blank id => message = ⟨id⟩
  | .bnode stringValue, .blank id => stringValue = id
  | _, _ => False

/-- The Java object stands for the IRI. -/
def JURI.Denotes : JURI → CString → Prop
  | .protoURI message, iri => message = ⟨iri.text⟩
  | .uri stringValue, iri => stringValue = iri.text

/-- The Java object stands for the literal: `getDatatype` and `getLanguage` return `null` where the
literal has none. -/
def JLiteral.Denotes : JLiteral → LiteralTerm → Prop
  | .protoStringLiteral message, .plain content => message = ⟨content, ""⟩
  | .protoStringLiteral message, .tagged content language => message = ⟨content, language⟩
  | .protoDatatypeLiteral message, .typed content datatype =>
    message = ⟨content, some ⟨datatype.text⟩⟩
  | .literal stringValue none none, .plain content => stringValue = content
  | .literal stringValue none (some language), .tagged content language' =>
    stringValue = content ∧ language = language'
  | .literal stringValue (some datatype) none, .typed content datatype' =>
    stringValue = content ∧ datatype = datatype'.text
  | _, _ => False

/-- The Java object stands for the object of a statement. -/
def JValue.Denotes : JValue → ObjectTerm → Prop
  | .resource r, .node n => r.Denotes n
  | .literal l, .literal t => l.Denotes t
  | _, _ => False

/-- The Java objects stand for the parts of the statement; `null` stands for the default graph. -/
structure DenoteQuad (subject : JResource) (predicate : JURI) (object : JValue)
    (context : Option JResource) (q : Quad) : Prop where
  subject : subject.Denotes q.subject
  predicate : predicate.Denotes q.predicate
  object : object.Denotes q.object
  context : Option.Rel JResource.Denotes context q.graph

end Client

end CMarmotta
