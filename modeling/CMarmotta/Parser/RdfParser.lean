import CMarmotta.Lib.CString
import CMarmotta.Model.Classes

/-!
# `parser/rdf_parser.cc`: statements from raptor

Raptor hands the statements it reads to `raptor_stmt_handler`. A URI is a C string to it; the
strings of blank nodes and literals come with their lengths. A literal has a language, a datatype
or neither, and the graph of a statement may be missing.
-/

namespace CMarmotta

namespace Raptor

/-- `raptor_term`, by its type. -/
inductive Term where
  | unknown
  | uri (uri : CString)
  | literal (string : String) (datatype : Option CString) (language : Option String)
  | blank (string : String)
  deriving DecidableEq

/-- `raptor_statement`. The terms are pointers, and a null pointer is `none`. -/
structure Statement where
  subject : Option Term
  predicate : Option Term
  object : Option Term
  graph : Option Term
  deriving DecidableEq

/-- `raptor_namespace`, by its getters: the default namespace has no prefix, and one that takes a
declaration back has no URI. -/
structure Namespace where
  nsPrefix : Option CString
  uri : Option CString
  deriving DecidableEq

end Raptor

namespace Parser

/-- How a handler fails: by a `ParseError` or by reading through a null pointer. -/
inductive Fault where
  | parseError (message : String)
  | nullDereference
  deriving DecidableEq

/-- `*p`. -/
def deref {α : Type} : Option α → Except Fault α
  | some a => .ok a
  | none => .error .nullDereference

/-- The `switch` over the type of a term that is to be a resource. The terms made in it are
temporaries, so that they are moved into the variable. -/
def readResource (message : String) : Raptor.Term → Except Fault Rdf.Resource
  | .uri uri => .ok (Rdf.Resource.new.moveUri ⟨uri.text⟩).1
  | .blank string => .ok (Rdf.Resource.new.moveBNode ⟨string⟩).1
  | _ => .error (.parseError message)

/-- The `switch` over the type of the predicate. -/
def readPredicate : Raptor.Term → Except Fault URI
  | .uri uri => .ok (URI.moveAssign ⟨""⟩ ⟨uri.text⟩).1
  | _ => .error (.parseError "invalid predicate term type")

/-- The `switch` over the type of the object. -/
def readObject : Raptor.Term → Except Fault Rdf.Value
  | .uri uri => .ok (Rdf.Value.new.moveUri ⟨uri.text⟩).1
  | .blank string => .ok (Rdf.Value.new.moveBNode ⟨string⟩).1
  | .literal string _ (some language) =>
    .ok (Rdf.Value.new.moveStringLiteral ⟨string, language⟩).1
  | .literal string (some datatype) none =>
    .ok (Rdf.Value.new.moveDatatypeLiteral ⟨string, some ⟨datatype.text⟩⟩).1
  | .literal string none none => .ok (Rdf.Value.new.moveStringLiteral ⟨string, ""⟩).1
  | .unknown => .error (.parseError "invalid object term type")

/-- The graph of a statement: the empty URI if there is none. -/
def readGraph : Option Raptor.Term → Except Fault Rdf.Resource
  | some graph => readResource "invalid graph term type" graph
  | none => .ok (Rdf.Resource.new.moveUri ⟨""⟩).1

/-- `Parser::raptor_stmt_handler`: the statement passed on to the handler of the parser. -/
def raptorStmtHandler (statement : Raptor.Statement) : Except Fault Statement := do
  let subject ← deref statement.subject >>= readResource "invalid subject term type"
  let predicate ← deref statement.predicate >>= readPredicate
  let object ← deref statement.object >>= readObject
  let context ← readGraph statement.graph
  return Rdf.Statement.ofQuad subject predicate object context

/-- `Parser::raptor_ns_handler`: the namespace passed on to the handler of the parser. The constructor
of `rdf::Namespace` leaves out a prefix that is a null pointer, but not a URI. -/
def raptorNsHandler (nspace : Raptor.Namespace) : Except Fault Namespace := do
  let uri ← deref nspace.uri
  return ⟨(nspace.nsPrefix.map CString.text).getD "", uri.text⟩

end Parser

end CMarmotta
