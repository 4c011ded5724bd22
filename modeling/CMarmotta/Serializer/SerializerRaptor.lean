import CMarmotta.Parser.RdfParser

/-!
# `serializer/serializer_raptor.cc`: statements to raptor

URIs and the identifiers of blank nodes are handed to raptor as C strings, the strings of literals
with their lengths. Of raptor the model takes that its terms carry the strings they are made from,
that there is no term and no URI for an empty URI string, and that an empty language is none.
-/

namespace CMarmotta

namespace Raptor

/-- `raptor_new_uri`. -/
def newUri (uriString : CString) : Option CString :=
  if uriString.text = "" then none else some uriString

/-- `raptor_new_term_from_uri_string`. -/
def newTermFromUriString (uriString : CString) : Option Term := (newUri uriString).map .uri

/-- `raptor_new_term_from_blank`. -/
def newTermFromBlank (blank : CString) : Option Term := some (.blank blank.text)

/-- `raptor_new_term_from_counted_literal`. -/
def newTermFromCountedLiteral (literal : String) (datatype : Option CString) (language : String) :
    Option Term :=
  some (.literal literal datatype (if language = "" then none else some language))

end Raptor

namespace RaptorSerializer

/-- `SerializationError`. -/
structure SerializationError where
  message : String
  deriving DecidableEq

/-- The branches for a subject or a context. -/
def resourceTerm (message : String) : Resource → Except SerializationError (Option Raptor.Term)
  | .uri u => .ok (Raptor.newTermFromUriString (.ofString u.uri))
  | .bnode b => .ok (Raptor.newTermFromBlank (.ofString b.id))
  | .notSet => .error ⟨message⟩

/-- The branches for an object. -/
def objectTerm : Value → Except SerializationError (Option Raptor.Term)
  | .resource r => resourceTerm "invalid object resource type" r
  | .literal (.stringliteral l) => .ok (Raptor.newTermFromCountedLiteral l.content none l.language)
  | .literal (.dataliteral l) =>
    .ok (Raptor.newTermFromCountedLiteral l.content
      (Raptor.newUri (.ofString (l.datatype.getD ⟨""⟩).uri)) "")
  | .literal .notSet => .error ⟨"invalid object literal type"⟩
  | .notSet => .error ⟨"invalid object type"⟩

/-- `RaptorSerializer::serialize`: the statement passed on to raptor's serializer. -/
def serialize (stmt : Statement) : Except SerializationError Raptor.Statement := do
  let subject ← resourceTerm "invalid subject type" stmt.getSubject
  let predicate := Raptor.newTermFromUriString (.ofString stmt.getPredicate.uri)
  let object ← objectTerm stmt.getObject
  let graph ← resourceTerm "invalid context type" stmt.getContext
  return { subject := subject, predicate := predicate, object := object, graph := graph }

end RaptorSerializer

end CMarmotta
