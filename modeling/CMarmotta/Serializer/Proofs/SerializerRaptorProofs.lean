import CMarmotta.Serializer.SerializerRaptor
import CMarmotta.Model.Proofs.ClassesProofs

/-!
# Export and import

A statement is exported as terms of raptor and imported from them again. Each part of it makes the
round trip on its own (`subject_roundTrip` and so on): strings that go through raptor as C strings
come back whole if they have no zero character, and a context has to be there to be exported
(`export_then_import_iff`).
-/

namespace CMarmotta

/-! ## Statements and their strings -/

/-- A blank node, or a URI that is not the empty string. -/
def Resource.Named : Resource → Prop
  | .uri u => u.uri ≠ ""
  | .bnode _ => True
  | .notSet => False

/-- A named resource, a string literal, or a literal with a datatype that is not the empty
string. -/
def Value.Named : Value → Prop
  | .resource r => r.Named
  | .literal (.stringliteral _) => True
  | .literal (.dataliteral l) => ∃ d, l.datatype = some d ∧ d.uri ≠ ""
  | .literal .notSet => False
  | .notSet => False

/-- The statements a store returns: all terms are set and have names, and the context, which may be
absent, is a URI, the empty one of the default graph included, or a blank node. -/
structure Statement.Exportable (s : Statement) : Prop where
  subject : ∃ r, s.subject = some r ∧ r.Named
  predicate : ∃ u, s.predicate = some u ∧ u.uri ≠ ""
  object : ∃ v, s.object = some v ∧ v.Named
  context : ∀ c ∈ s.context, c.isTerm = true

/-- No zero character in the URI or the identifier. -/
def Resource.NulFree : Resource → Prop
  | .uri u => CString.NulFree u.uri
  | .bnode b => CString.NulFree b.id
  | .notSet => True

/-- No zero character in the resource or the datatype. -/
def Value.NulFree : Value → Prop
  | .resource r => r.NulFree
  | .literal (.dataliteral l) => ∀ d ∈ l.datatype, CString.NulFree d.uri
  | _ => True

/-- No zero character in a URI or in the identifier of a blank node of the statement. -/
structure Statement.NulFree (s : Statement) : Prop where
  subject : s.getSubject.NulFree
  predicate : CString.NulFree s.getPredicate.uri
  object : s.getObject.NulFree
  context : s.getContext.NulFree

/-- Equality of statements with the empty URI for a context that is absent. -/
structure Statement.SameQuad (a b : Statement) : Prop where
  subject : a.subject = b.subject
  predicate : a.predicate = b.predicate
  object : a.object = b.object
  context : a.context.getD (.uri ⟨""⟩) = b.context.getD (.uri ⟨""⟩)

/-! ## What the two directions do with a statement -/

open RaptorSerializer CMarmotta.Parser CString

/-- A computation in two steps succeeds exactly if both steps do. -/
theorem bind_eq_ok_iff {ε α β : Type} {x : Except ε α} {f : α → Except ε β} {b : β} :
    (x >>= f) = .ok b ↔ ∃ a, x = .ok a ∧ f a = .ok b := by
  cases x with
  | error e => simp [bind, Except.bind]
  | ok a => simp [bind, Except.bind]

theorem RaptorSerializer.serialize_eq_ok_iff {stmt : Statement} {triple : Raptor.Statement} :
    serialize stmt = .ok triple ↔
      resourceTerm "invalid subject type" stmt.getSubject = .ok triple.subject ∧
      triple.predicate = Raptor.newTermFromUriString (.ofString stmt.getPredicate.uri) ∧
      objectTerm stmt.getObject = .ok triple.object ∧
      resourceTerm "invalid context type" stmt.getContext = .ok triple.graph := by
  unfold serialize
  simp only [bind_eq_ok_iff, pure, Except.pure, Except.ok.injEq]
  constructor
  · rintro ⟨s, hs, o, ho, g, hg, rfl⟩
    exact ⟨hs, rfl, ho, hg⟩
  · rintro ⟨hs, hp, ho, hg⟩
    exact ⟨_, hs, _, ho, _, hg, by rw [← hp]⟩

theorem Parser.raptorStmtHandler_eq_ok_iff {statement : Raptor.Statement} {st : Statement} :
    raptorStmtHandler statement = .ok st ↔
      ∃ s p o g, (deref statement.subject >>= readResource "invalid subject term type") = .ok s ∧
        (deref statement.predicate >>= readPredicate) = .ok p ∧
        (deref statement.object >>= readObject) = .ok o ∧
        readGraph statement.graph = .ok g ∧
        st = ⟨some s.internal, some p, some o.internal, some g.internal⟩ := by
  unfold raptorStmtHandler
  rw [bind_eq_ok_iff]
  refine exists_congr fun s => ?_
  simp only [bind_eq_ok_iff, pure, Except.pure, Except.ok.injEq, Rdf.Statement.ofQuad_eq]
  constructor
  · rintro ⟨hs, p, hp, o, ho, g, hg, rfl⟩
    exact ⟨p, o, g, hs, hp, ho, hg, rfl⟩
  · rintro ⟨p, o, g, hs, hp, ho, hg, rfl⟩
    exact ⟨hs, p, hp, o, ho, g, hg, rfl⟩

@[simp] theorem Parser.deref_some_bind {α β : Type} (a : α) (f : α → Except Fault β) :
    (deref (some a) >>= f) = f a := rfl

@[simp] theorem Parser.deref_none_bind {α β : Type} (f : α → Except Fault β) :
    (deref none >>= f) = .error .nullDereference := rfl

/-! ## The round trip of the parts -/

theorem newTermFromUriString_eq (u : CString) :
    Raptor.newTermFromUriString u = if u.text = "" then none else some (.uri u) := by
  unfold Raptor.newTermFromUriString Raptor.newUri
  split_ifs
  · rfl
  · rfl

/-- A string that is not empty and is cut to the empty string has a zero character. -/
theorem not_nulFree_of_cut {u : String} (hu : u ≠ "") (h : (CString.ofString u).text = "") :
    ¬ NulFree u := by
  rw [nulFree_iff, h]
  exact hu.symm

/-- A resource, exported and read where a term is required. -/
theorem resource_roundTrip {r : Resource} (hr : r.Named) (message message' : String) :
    (∃ t, resourceTerm message r = .ok t ∧
      ∃ r', (deref t >>= readResource message') = .ok r' ∧ r'.internal = r) ↔ r.NulFree := by
  cases r with
  | notSet => exact hr.elim
  | uri u =>
    obtain ⟨u⟩ := u
    by_cases h : (CString.ofString u).text = ""
    · refine iff_of_false ?_ (not_nulFree_of_cut hr h)
      simp [resourceTerm, newTermFromUriString_eq, h]
    · simp [resourceTerm, newTermFromUriString_eq, h, readResource, Resource.NulFree, nulFree_iff]
  | bnode b =>
    obtain ⟨b⟩ := b
    simp [resourceTerm, Raptor.newTermFromBlank, readResource, Resource.NulFree, nulFree_iff]

theorem predicate_roundTrip {u : URI} (hu : u.uri ≠ "") :
    (∃ u', (deref (Raptor.newTermFromUriString (.ofString u.uri)) >>= readPredicate) = .ok u' ∧
      u' = u) ↔ NulFree u.uri := by
  obtain ⟨u⟩ := u
  by_cases h : (CString.ofString u).text = ""
  · refine iff_of_false ?_ (not_nulFree_of_cut hu h)
    simp [newTermFromUriString_eq, h]
  · simp [newTermFromUriString_eq, h, readPredicate, URI.moveAssign, swap, nulFree_iff]

theorem object_roundTrip {v : Value} (hv : v.Named) :
    (∃ t, objectTerm v = .ok t ∧
      ∃ v', (deref t >>= readObject) = .ok v' ∧ v'.internal = v) ↔ v.NulFree := by
  rcases v with _ | (_ | ⟨⟨u⟩⟩ | ⟨⟨b⟩⟩) | (_ | ⟨⟨c, l⟩⟩ | ⟨⟨c, d⟩⟩)
  · exact hv.elim
  · exact hv.elim
  · by_cases h : (CString.ofString u).text = ""
    · refine iff_of_false ?_ (not_nulFree_of_cut hv h)
      simp [objectTerm, resourceTerm, newTermFromUriString_eq, h]
    · simp [objectTerm, resourceTerm, newTermFromUriString_eq, h, readObject, Value.NulFree,
        Resource.NulFree, nulFree_iff]
  · simp [objectTerm, resourceTerm, Raptor.newTermFromBlank, readObject, Value.NulFree,
      Resource.NulFree, nulFree_iff]
  · exact hv.elim
  · -- an empty language is read back as a missing one, and that as an empty one
    by_cases hl : l = ""
    · simp [objectTerm, Raptor.newTermFromCountedLiteral, hl, readObject, Value.NulFree]
    · simp [objectTerm, Raptor.newTermFromCountedLiteral, hl, readObject, Value.NulFree]
  · obtain ⟨⟨u⟩, hd, hu⟩ := hv
    have hd' : d = some ⟨u⟩ := hd
    subst hd'
    by_cases h : (CString.ofString u).text = ""
    · -- a datatype that is cut to nothing gives a plain literal
      refine iff_of_false ?_ ?_
      · simp [objectTerm, Raptor.newTermFromCountedLiteral, Raptor.newUri, h, readObject]
      · intro hfree
        exact not_nulFree_of_cut hu h (hfree ⟨u⟩ rfl)
    · simp [objectTerm, Raptor.newTermFromCountedLiteral, Raptor.newUri, h, readObject,
        Value.NulFree, nulFree_iff]

/-- A context is exported if it is there. The empty URI is exported as no graph at all and read back
as the empty URI. -/
theorem context_roundTrip {c : Option Resource} (hc : ∀ r ∈ c, r.isTerm = true) (message : String) :
    (∃ t, resourceTerm message (c.getD .notSet) = .ok t ∧
      ∃ r, readGraph t = .ok r ∧ r.internal = c.getD (.uri ⟨""⟩)) ↔
      c.isSome = true ∧ (c.getD .notSet).NulFree := by
  rcases c with _ | _ | ⟨⟨u⟩⟩ | ⟨⟨b⟩⟩
  · simp [resourceTerm]
  · exact absurd (hc _ rfl) (by decide)
  · by_cases h : (CString.ofString u).text = ""
    · simp [resourceTerm, newTermFromUriString_eq, h, readGraph, Resource.NulFree, nulFree_iff]
    · simp [resourceTerm, newTermFromUriString_eq, h, readGraph, readResource, Resource.NulFree,
        nulFree_iff]
  · simp [resourceTerm, Raptor.newTermFromBlank, readGraph, readResource, Resource.NulFree,
      nulFree_iff]

/-! ## The round trip of a statement -/

/-- A statement of the store is exported without an error and imported as the same statement if and
only if its context is set and no URI and no identifier of a blank node in it has a zero
character. -/
theorem export_then_import_iff {st : Statement} (hst : st.Exportable) :
    (∃ triple, serialize st = .ok triple ∧
      ∃ st', raptorStmtHandler triple = .ok st' ∧ st.SameQuad st') ↔
    st.context.isSome = true ∧ st.NulFree := by
  obtain ⟨⟨r, hsubj, hr⟩, ⟨u, hpred, hu⟩, ⟨v, hobj, hv⟩, hc⟩ := hst
  have hgs : st.getSubject = r := by rw [Statement.getSubject, hsubj]; rfl
  have hgp : st.getPredicate = u := by rw [Statement.getPredicate, hpred]; rfl
  have hgo : st.getObject = v := by rw [Statement.getObject, hobj]; rfl
  constructor
  · rintro ⟨triple, hser, st', hread, hsame⟩
    obtain ⟨hs, hp, ho, hg⟩ := serialize_eq_ok_iff.mp hser
    obtain ⟨s', p', o', g', hs', hp', ho', hg', rfl⟩ := raptorStmtHandler_eq_ok_iff.mp hread
    have es : s'.internal = r := Option.some.inj (hsame.subject.symm.trans hsubj)
    have ep : p' = u := Option.some.inj (hsame.predicate.symm.trans hpred)
    have eo : o'.internal = v := Option.some.inj (hsame.object.symm.trans hobj)
    rw [hgs] at hs
    rw [hp, hgp] at hp'
    rw [hgo] at ho
    have ctx := (context_roundTrip hc _).mp ⟨_, hg, g', hg', hsame.context.symm⟩
    refine ⟨ctx.1, ?_, ?_, ?_, ctx.2⟩
    · rw [hgs]
      exact (resource_roundTrip hr _ _).mp ⟨_, hs, s', hs', es⟩
    · rw [hgp]
      exact (predicate_roundTrip hu).mp ⟨p', hp', ep⟩
    · rw [hgo]
      exact (object_roundTrip hv).mp ⟨_, ho, o', ho', eo⟩
  · rintro ⟨hsome, hfree⟩
    obtain ⟨ts, hs, s', hs', es⟩ :=
      (resource_roundTrip hr "invalid subject type" "invalid subject term type").mpr
        (hgs ▸ hfree.subject)
    obtain ⟨p', hp', ep⟩ := (predicate_roundTrip hu).mpr (hgp ▸ hfree.predicate)
    obtain ⟨tv, ho, o', ho', eo⟩ := (object_roundTrip hv).mpr (hgo ▸ hfree.object)
    obtain ⟨tg, hg, g', hg', eg⟩ :=
      (context_roundTrip hc "invalid context type").mpr ⟨hsome, hfree.context⟩
    refine ⟨⟨ts, Raptor.newTermFromUriString (.ofString u.uri), tv, tg⟩, ?_, _,
      raptorStmtHandler_eq_ok_iff.mpr ⟨s', p', o', g', hs', hp', ho', hg', rfl⟩, ?_⟩
    · rw [serialize_eq_ok_iff, hgs, hgp, hgo]
      exact ⟨hs, rfl, ho, hg⟩
    · rw [← es] at hsubj
      rw [← ep] at hpred
      rw [← eo] at hobj
      exact ⟨hsubj, hpred, hobj, eg.symm⟩

/-- A literal with a datatype in a graph makes the round trip. -/
theorem export_then_import_typed :
    let st : Statement :=
      { subject := some (.bnode ⟨"b1"⟩), predicate := some ⟨"http://ex.org/p"⟩
        object := some (.literal (.dataliteral ⟨"1", some ⟨"http://ex.org/int"⟩⟩))
        context := some (.uri ⟨"http://ex.org/g"⟩) }
    ∃ triple, serialize st = .ok triple ∧
      ∃ st', raptorStmtHandler triple = .ok st' ∧ st.SameQuad st' := by
  intro st
  have hst : st.Exportable :=
    ⟨⟨_, rfl, trivial⟩, ⟨_, rfl, by decide⟩, ⟨_, rfl, _, rfl, by decide⟩,
      by simp [st, Resource.isTerm]⟩
  refine (export_then_import_iff hst).mpr ⟨rfl, ?_, ?_, ?_, ?_⟩
  · show NulFree "b1"
    decide
  · show NulFree "http://ex.org/p"
    decide
  · intro d hd
    obtain rfl := Option.some.inj hd
    show NulFree "http://ex.org/int"
    decide
  · show NulFree "http://ex.org/g"
    decide

/-- A statement without a context is not exported. -/
theorem export_without_context_fails :
    (Statement.ofUris "http://ex.org/s" "http://ex.org/p" "http://ex.org/o").Exportable ∧
      serialize (Statement.ofUris "http://ex.org/s" "http://ex.org/p" "http://ex.org/o") =
        .error ⟨"invalid context type"⟩ := by
  refine ⟨⟨⟨_, rfl, ?_⟩, ⟨_, rfl, ?_⟩, ⟨_, rfl, ?_⟩, ?_⟩, ?_⟩
  · show "http://ex.org/s" ≠ ""
    decide
  · decide
  · show "http://ex.org/o" ≠ ""
    decide
  · intro c hc
    exact absurd hc (Option.not_mem_none c)
  · decide

end CMarmotta
