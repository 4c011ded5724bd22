import CMarmotta.Model.Classes

/-!
# When assignments and setters replace

A copy assignment and a setter leave what the new term does not overwrite. So they replace the old
term exactly if there is nothing of that kind (`assignments_and_setters_replace_iff`): no string
that the new term leaves empty and no part that it leaves unset, where terms of another kind have no
part in common. Move assignments and the assignments generated by the compiler always replace.
-/

namespace CMarmotta

open Merge

/-! ## Constructors -/

namespace Rdf

theorem Statement.ofQuad_eq (subject : Resource) (predicate : URI) (object : Value)
    (context : Resource) :
    Statement.ofQuad subject predicate object context =
      ⟨some subject.internal, some predicate, some object.internal, some context.internal⟩ := by
  simp [Statement.ofQuad]

/-! ## Assignment to a polymorphic object -/

namespace Value

@[simp] theorem moveUri_internal (a : Value) (b : URI) :
    (a.moveUri b).1.internal = .resource (.uri b) := rfl

@[simp] theorem moveBNode_internal (a : Value) (b : BNode) :
    (a.moveBNode b).1.internal = .resource (.bnode b) := rfl

@[simp] theorem moveStringLiteral_internal (a : Value) (b : StringLiteral) :
    (a.moveStringLiteral b).1.internal = .literal (.stringliteral b) := rfl

@[simp] theorem moveDatatypeLiteral_internal (a : Value) (b : DatatypeLiteral) :
    (a.moveDatatypeLiteral b).1.internal = .literal (.dataliteral b) := rfl

theorem assignUri_iff {a : Value} {b : URI} :
    (a.assignUri b).internal = .resource (.uri b) ↔
      Overwritten a.internal.mutableResource.mutableUri b := by
  rw [assignUri, Value.resource.injEq, Resource.uri.injEq]
  exact merge_eq_iff

theorem assignBNode_iff {a : Value} {b : BNode} :
    (a.assignBNode b).internal = .resource (.bnode b) ↔
      Overwritten a.internal.mutableResource.mutableBNode b := by
  rw [assignBNode, Value.resource.injEq, Resource.bnode.injEq]
  exact merge_eq_iff

theorem assignStringLiteral_iff {a : Value} {b : StringLiteral} :
    (a.assignStringLiteral b).internal = .literal (.stringliteral b) ↔
      Overwritten a.internal.mutableLiteral.mutableStringliteral b := by
  rw [assignStringLiteral, Value.literal.injEq, Literal.stringliteral.injEq]
  exact merge_eq_iff

theorem assignDatatypeLiteral_iff {a : Value} {b : DatatypeLiteral} :
    (a.assignDatatypeLiteral b).internal = .literal (.dataliteral b) ↔
      Overwritten a.internal.mutableLiteral.mutableDataliteral b := by
  rw [assignDatatypeLiteral, Value.literal.injEq, Literal.dataliteral.injEq]
  exact merge_eq_iff

end Value

namespace Resource

@[simp] theorem moveUri_internal (a : Resource) (b : URI) :
    (a.moveUri b).1.internal = .uri b := rfl

@[simp] theorem moveBNode_internal (a : Resource) (b : BNode) :
    (a.moveBNode b).1.internal = .bnode b := rfl

theorem assignUri_iff {a : Resource} {b : URI} :
    (a.assignUri b).internal = .uri b ↔ Overwritten a.internal.mutableUri b := by
  rw [assignUri, Resource.uri.injEq]
  exact merge_eq_iff

theorem assignBNode_iff {a : Resource} {b : BNode} :
    (a.assignBNode b).internal = .bnode b ↔ Overwritten a.internal.mutableBNode b := by
  rw [assignBNode, Resource.bnode.injEq]
  exact merge_eq_iff

end Resource

/-! ## Setters -/

namespace Statement

theorem setSubject_iff {st : Statement} {t : Resource} :
    ((getSubject (setSubject st t)).internal = t.internal ∧
      (setSubject st t).predicate = st.predicate ∧ (setSubject st t).object = st.object ∧
      (setSubject st t).context = st.context) ↔
      Overwritten (getSubject st).internal t.internal := by
  refine ⟨fun h => merge_eq_iff.mp h.1, fun h => ⟨merge_eq_iff.mpr h, rfl, rfl, rfl⟩⟩

theorem setPredicate_iff {st : Statement} {t : URI} :
    (getPredicate (setPredicate st t) = t ∧
      (setPredicate st t).subject = st.subject ∧ (setPredicate st t).object = st.object ∧
      (setPredicate st t).context = st.context) ↔
      Overwritten (getPredicate st) t := by
  refine ⟨fun h => merge_eq_iff.mp h.1, fun h => ⟨merge_eq_iff.mpr h, rfl, rfl, rfl⟩⟩

theorem setObject_iff {st : Statement} {t : Value} :
    ((getObject (setObject st t)).internal = t.internal ∧
      (setObject st t).subject = st.subject ∧ (setObject st t).predicate = st.predicate ∧
      (setObject st t).context = st.context) ↔
      Overwritten (getObject st).internal t.internal := by
  refine ⟨fun h => merge_eq_iff.mp h.1, fun h => ⟨merge_eq_iff.mpr h, rfl, rfl, rfl⟩⟩

theorem setContext_iff {st : Statement} {t : Resource} :
    ((getContext (setContext st t)).internal = t.internal ∧
      (setContext st t).subject = st.subject ∧ (setContext st t).predicate = st.predicate ∧
      (setContext st t).object = st.object) ↔
      Overwritten (getContext st).internal t.internal := by
  refine ⟨fun h => merge_eq_iff.mp h.1, fun h => ⟨merge_eq_iff.mpr h, rfl, rfl, rfl⟩⟩

end Statement

end Rdf

/-- After a copy assignment the left side holds the message of the right side, and after a setter
the getter returns the new term and the other fields are as before, if and only if the new message
overwrites the old one in that place; after a move assignment, and after an assignment between two
values or two resources, the left side always holds the message the right side had. -/
theorem assignments_and_setters_replace_iff (u u' : URI) (b b' : BNode) (l l' : StringLiteral)
    (d d' : DatatypeLiteral) (v v' : Rdf.Value) (r r' : Rdf.Resource) (st st' : Statement) :
    -- copy assignment
    ((u.assign u' = u' ↔ Overwritten u u') ∧
      (b.assign b' = b' ↔ Overwritten b b') ∧
      (l.assign l' = l' ↔ Overwritten l l') ∧
      (d.assign d' = d' ↔ Overwritten d d') ∧
      (st.assign st' = st' ↔ Overwritten st st') ∧
      ((v.assignUri u').internal = .resource (.uri u') ↔
        Overwritten v.internal.mutableResource.mutableUri u') ∧
      ((v.assignBNode b').internal = .resource (.bnode b') ↔
        Overwritten v.internal.mutableResource.mutableBNode b') ∧
      ((v.assignStringLiteral l').internal = .literal (.stringliteral l') ↔
        Overwritten v.internal.mutableLiteral.mutableStringliteral l') ∧
      ((v.assignDatatypeLiteral d').internal = .literal (.dataliteral d') ↔
        Overwritten v.internal.mutableLiteral.mutableDataliteral d') ∧
      ((r.assignUri u').internal = .uri u' ↔ Overwritten r.internal.mutableUri u') ∧
      ((r.assignBNode b').internal = .bnode b' ↔ Overwritten r.internal.mutableBNode b') ∧
      (v.assign v').internal = v'.internal ∧
      (r.assign r').internal = r'.internal) ∧
    -- move assignment
    ((u.moveAssign u').1 = u' ∧ (b.moveAssign b').1 = b' ∧ (l.moveAssign l').1 = l' ∧
      (d.moveAssign d').1 = d' ∧ (st.moveAssign st').1 = st' ∧
      (v.moveUri u').1.internal = .resource (.uri u') ∧
      (v.moveBNode b').1.internal = .resource (.bnode b') ∧
      (v.moveStringLiteral l').1.internal = .literal (.stringliteral l') ∧
      (v.moveDatatypeLiteral d').1.internal = .literal (.dataliteral d') ∧
      (r.moveUri u').1.internal = .uri u' ∧ (r.moveBNode b').1.internal = .bnode b') ∧
    -- setters
    ((((Rdf.Statement.getSubject (Rdf.Statement.setSubject st r')).internal = r'.internal ∧
          (Rdf.Statement.setSubject st r').predicate = st.predicate ∧
          (Rdf.Statement.setSubject st r').object = st.object ∧
          (Rdf.Statement.setSubject st r').context = st.context) ↔
        Overwritten (Rdf.Statement.getSubject st).internal r'.internal) ∧
      ((Rdf.Statement.getPredicate (Rdf.Statement.setPredicate st u') = u' ∧
          (Rdf.Statement.setPredicate st u').subject = st.subject ∧
          (Rdf.Statement.setPredicate st u').object = st.object ∧
          (Rdf.Statement.setPredicate st u').context = st.context) ↔
        Overwritten (Rdf.Statement.getPredicate st) u') ∧
      (((Rdf.Statement.getObject (Rdf.Statement.setObject st v')).internal = v'.internal ∧
          (Rdf.Statement.setObject st v').subject = st.subject ∧
          (Rdf.Statement.setObject st v').predicate = st.predicate ∧
          (Rdf.Statement.setObject st v').context = st.context) ↔
        Overwritten (Rdf.Statement.getObject st).internal v'.internal) ∧
      (((Rdf.Statement.getContext (Rdf.Statement.setContext st r')).internal = r'.internal ∧
          (Rdf.Statement.setContext st r').subject = st.subject ∧
          (Rdf.Statement.setContext st r').predicate = st.predicate ∧
          (Rdf.Statement.setContext st r').object = st.object) ↔
        Overwritten (Rdf.Statement.getContext st).internal r'.internal)) := by
  refine ⟨⟨?_, ?_, ?_, ?_, ?_, ?_, ?_, ?_, ?_, ?_, ?_, rfl, rfl⟩, ?_, ?_⟩
  · exact merge_eq_iff
  · exact merge_eq_iff
  · exact merge_eq_iff
  · exact merge_eq_iff
  · exact merge_eq_iff
  · exact Rdf.Value.assignUri_iff
  · exact Rdf.Value.assignBNode_iff
  · exact Rdf.Value.assignStringLiteral_iff
  · exact Rdf.Value.assignDatatypeLiteral_iff
  · exact Rdf.Resource.assignUri_iff
  · exact Rdf.Resource.assignBNode_iff
  · exact ⟨rfl, rfl, rfl, rfl, rfl, Rdf.Value.moveUri_internal v u',
      Rdf.Value.moveBNode_internal v b', Rdf.Value.moveStringLiteral_internal v l',
      Rdf.Value.moveDatatypeLiteral_internal v d', Rdf.Resource.moveUri_internal r u',
      Rdf.Resource.moveBNode_internal r b'⟩
  · refine ⟨?_, ?_, ?_, ?_⟩
    · exact Rdf.Statement.setSubject_iff
    · exact Rdf.Statement.setPredicate_iff
    · exact Rdf.Statement.setObject_iff
    · exact Rdf.Statement.setContext_iff

/-- A literal without a language keeps the language of the literal it is assigned to, and a
statement keeps the language of its old object. -/
theorem assignment_keeps_old_language :
    (StringLiteral.mk "a" "en").assign ⟨"b", ""⟩ ≠ ⟨"b", ""⟩ ∧
      (StringLiteral.mk "a" "en").assign ⟨"b", ""⟩ = ⟨"b", "en"⟩ ∧
      (Rdf.Statement.getObject (Rdf.Statement.setObject
        { object := some (.literal (.stringliteral ⟨"a", "en"⟩)) }
        (.ofMessage (.literal (.stringliteral ⟨"b", ""⟩))))).internal =
          .literal (.stringliteral ⟨"b", "en"⟩) := by
  decide

end CMarmotta
