import CMarmotta.Parser.Quads
import CMarmotta.Model.Proofs.ClassesProofs
import CMarmotta.Persistence.Spec

/-!
# The importer and the Java client encode alike in a graph

Both map the terms of a statement to the same messages, and both set the context of a statement in a
graph to the graph. The importer takes the empty URI for the default graph, the Java client leaves
the context of such a statement unset (`importer_encodes_like_java`).
-/

namespace CMarmotta

open Client

/-! ## Terms -/

/-- The message for a node. -/
def Node.message : Node → Resource
  | .iri ref => .uri ⟨ref.text⟩
  | .blank id => .bnode ⟨id⟩

/-- The message for a literal. -/
def LiteralTerm.message : LiteralTerm → Literal
  | .plain content => .stringliteral ⟨content, ""⟩
  | .tagged content language => .stringliteral ⟨content, language⟩
  | .typed content datatype => .dataliteral ⟨content, some ⟨datatype.text⟩⟩

/-- The message for an object. -/
def ObjectTerm.message : ObjectTerm → Value
  | .node n => .resource n.message
  | .literal l => .literal l.message

namespace Parser

theorem readResource_raptor (message : String) (n : Node) :
    ∃ r, readResource message n.raptor = .ok r ∧ r.internal = n.message := by
  cases n with
  | iri iri => exact ⟨_, rfl, rfl⟩
  | blank id => exact ⟨_, rfl, rfl⟩

theorem readObject_raptor (o : ObjectTerm) :
    ∃ v, readObject o.raptor = .ok v ∧ v.internal = o.message := by
  rcases o with n | l
  · cases n with
    | iri iri => exact ⟨_, rfl, rfl⟩
    | blank id => exact ⟨_, rfl, rfl⟩
  · cases l with
    | plain content => exact ⟨_, rfl, rfl⟩
    | tagged content language => exact ⟨_, rfl, rfl⟩
    | typed content datatype => exact ⟨_, rfl, rfl⟩

theorem readGraph_raptor (graph : Option Node) :
    ∃ r, readGraph (graph.map Node.raptor) = .ok r ∧
      r.internal = (graph.map Node.message).getD (.uri ⟨""⟩) := by
  cases graph with
  | none => exact ⟨_, rfl, rfl⟩
  | some n => exact readResource_raptor _ n

/-- The message the importer builds. -/
theorem raptorStmtHandler_raptor (q : Quad) :
    raptorStmtHandler q.raptor = .ok
      { subject := some q.subject.message
        predicate := some ⟨q.predicate.text⟩
        object := some q.object.message
        context := some ((q.graph.map Node.message).getD (.uri ⟨""⟩)) } := by
  obtain ⟨s, hs, hs'⟩ := readResource_raptor "invalid subject term type" q.subject
  obtain ⟨o, ho, ho'⟩ := readObject_raptor q.object
  obtain ⟨g, hg, hg'⟩ := readGraph_raptor q.graph
  have hq : raptorStmtHandler q.raptor =
      .ok (Rdf.Statement.ofQuad s ⟨q.predicate.text⟩ o g) := by
    simp only [raptorStmtHandler, Quad.raptor, deref, bind, Except.bind, hs, ho, hg]
    rfl
  rw [hq, Rdf.Statement.ofQuad_eq, hs', ho', hg']

end Parser

namespace Client

theorem JResource.Denotes.message_eq {r : JResource} {n : Node} (h : r.Denotes n) :
    r.message = n.message := by
  cases r <;> cases n <;> simp_all [JResource.Denotes, JResource.message, Node.message]

theorem JURI.Denotes.message_eq {u : JURI} {iri : CString} (h : u.Denotes iri) :
    u.message = ⟨iri.text⟩ := by
  cases u with
  | protoURI message => exact h
  | uri stringValue => exact congrArg URI.mk h

theorem JLiteral.Denotes.message_eq {l : JLiteral} {t : LiteralTerm} (h : l.Denotes t) :
    l.message = t.message := by
  rcases l with m | m | ⟨s, _ | d, _ | g⟩ <;> cases t <;>
    simp_all [JLiteral.Denotes, JLiteral.message, LiteralTerm.message]

theorem JValue.Denotes.message_eq {v : JValue} {o : ObjectTerm} (h : v.Denotes o) :
    v.message = o.message := by
  rcases v with l | r <;> rcases o with n | t
  · exact h.elim
  · exact congrArg Value.literal (JLiteral.Denotes.message_eq h)
  · exact congrArg Value.resource (JResource.Denotes.message_eq h)
  · exact h.elim

/-- The message the Java client builds. -/
theorem protoStatement_eq {s : JResource} {p : JURI} {o : JValue} {c : Option JResource} {q : Quad}
    (h : DenoteQuad s p o c q) :
    protoStatement (some s) (some p) (some o) c =
      { subject := some q.subject.message
        predicate := some ⟨q.predicate.text⟩
        object := some q.object.message
        context := q.graph.map Node.message } := by
  have hc : c.map JResource.message = q.graph.map Node.message := by
    have hrel := h.context
    revert hrel
    generalize q.graph = g
    rintro (hr | _)
    · exact congrArg some (JResource.Denotes.message_eq hr)
    · rfl
  simp [protoStatement, h.subject.message_eq, h.predicate.message_eq, h.object.message_eq, hc]

end Client

/-- For a statement in a graph the importer and the Java client build the same message. For a
statement in the default graph they build messages with the same subject, predicate and object: the
importer sets the context to the empty URI and the Java client leaves it unset, so that the messages
are different, while a pattern that leaves the context open selects both or none. -/
theorem importer_encodes_like_java {s : JResource} {p : JURI} {o : JValue} {c : Option JResource}
    {q : Quad} (h : DenoteQuad s p o c q) :
    (q.graph ≠ none →
      Parser.raptorStmtHandler q.raptor = .ok (protoStatement (some s) (some p) (some o) c)) ∧
    (q.graph = none →
      (protoStatement (some s) (some p) (some o) c).context = none ∧
      ∃ imported, Parser.raptorStmtHandler q.raptor = .ok imported ∧
        imported =
          { protoStatement (some s) (some p) (some o) c with context := some (.uri ⟨""⟩) } ∧
        ∀ pattern : Statement, pattern.context = none →
          (imported.Agrees pattern ↔
            (protoStatement (some s) (some p) (some o) c).Agrees pattern)) := by
  rw [Parser.raptorStmtHandler_raptor, protoStatement_eq h]
  constructor
  · intro hg
    obtain ⟨n, hn⟩ := Option.ne_none_iff_exists'.mp hg
    rw [hn]
    rfl
  · intro hg
    rw [hg]
    refine ⟨rfl, _, rfl, rfl, ?_⟩
    intro pattern hpattern
    constructor
    · rintro ⟨hs, hp, ho, -⟩
      exact ⟨hs, hp, ho, by simp [hpattern]⟩
    · rintro ⟨hs, hp, ho, -⟩
      exact ⟨hs, hp, ho, by simp [hpattern]⟩

/-- A literal with a language, in a graph. -/
theorem importer_encodes_like_java_tagged :
    let q : Quad :=
      { subject := .blank "b1", predicate := .ofString "http://ex.org/p"
        object := .literal (.tagged "hello" "en")
        graph := some (.iri (.ofString "http://ex.org/g")) }
    let java := protoStatement (some (.protoBNode ⟨"b1"⟩)) (some (.uri "http://ex.org/p"))
      (some (.literal (.literal "hello" none (some "en")))) (some (.protoURI ⟨"http://ex.org/g"⟩))
    Parser.raptorStmtHandler q.raptor = .ok java := by
  intro q java
  have hp : "http://ex.org/p" = (CString.ofString "http://ex.org/p").text := by decide
  have hg : "http://ex.org/g" = (CString.ofString "http://ex.org/g").text := by decide
  have h : DenoteQuad (.protoBNode ⟨"b1"⟩) (.uri "http://ex.org/p")
      (.literal (.literal "hello" none (some "en"))) (some (.protoURI ⟨"http://ex.org/g"⟩)) q :=
    ⟨rfl, hp, ⟨rfl, rfl⟩, .some (congrArg URI.mk hg)⟩
  exact (importer_encodes_like_java h).1 (Option.some_ne_none _)

/-- The messages for one statement in the default graph are different. -/
theorem importer_differs_in_default_graph :
    let q : Quad :=
      { subject := .blank "b1", predicate := .ofString "http://ex.org/p"
        object := .literal (.plain "hello"), graph := none }
    let java := protoStatement (some (.bnode "b1")) (some (.uri "http://ex.org/p"))
      (some (.literal (.literal "hello" none none))) none
    DenoteQuad (.bnode "b1") (.uri "http://ex.org/p") (.literal (.literal "hello" none none)) none
        q ∧
      Parser.raptorStmtHandler q.raptor = .ok { java with context := some (.uri ⟨""⟩) } ∧
      Parser.raptorStmtHandler q.raptor ≠ .ok java := by
  intro q java
  have hp : "http://ex.org/p" = (CString.ofString "http://ex.org/p").text := by decide
  exact ⟨⟨rfl, hp, rfl, .none⟩, by decide, by decide⟩

end CMarmotta
