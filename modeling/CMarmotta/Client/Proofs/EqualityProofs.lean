import CMarmotta.Client.Proofs.TermsProofs
import Mathlib.Data.Set.Basic

/-!
# `equals` and `hashCode` of the client's terms

`ProtoLiteralBase.equals` asks the other literal for its language only if it has one itself. So a
literal without a language equals one with a language and not the other way round. Apart from that,
`equals` compares parts of its arguments, and `hashCode` is computed from these parts
(`equals_contract_iff`).
-/

namespace CMarmotta.Client

/-! ## Comparisons that look at a part from one side only -/

/-- The contract of `equals` and `hashCode` for the objects of a set. -/
structure EqualsContract {α η : Type} (equals : α → α → Prop) (hashCode : α → η) (M : Set α) :
    Prop where
  refl : ∀ x ∈ M, equals x x
  symm : ∀ x ∈ M, ∀ y ∈ M, equals x y → equals y x
  trans : ∀ x ∈ M, ∀ y ∈ M, ∀ z ∈ M, equals x y → equals y z → equals x z
  hash : ∀ x ∈ M, ∀ y ∈ M, equals x y → hashCode x = hashCode y

/-- A comparison of `f`, and of `g` if the left side has it, keeps the contract exactly where `f`
decides whether there is a `g`. -/
theorem equalsContract_iff {α β γ η : Type} {equals : α → α → Prop} {hashCode : α → η} {f : α → β}
    {g : α → Option γ} (heq : ∀ x y, equals x y ↔ f x = f y ∧ (g x = none ∨ g x = g y))
    (hhash : ∀ x y, f x = f y → hashCode x = hashCode y) (M : Set α) :
    EqualsContract equals hashCode M ↔ ∀ x ∈ M, ∀ y ∈ M, f x = f y → g x = none → g y = none := by
  constructor
  · intro h x hx y hy hf hg
    have hyx := h.symm x hx y hy ((heq x y).mpr ⟨hf, Or.inl hg⟩)
    rcases ((heq y x).mp hyx).2 with hnone | hsame
    · exact hnone
    · exact hsame.trans hg
  · intro h
    refine ⟨?_, ?_, ?_, ?_⟩
    · intro x _
      exact (heq x x).mpr ⟨rfl, Or.inr rfl⟩
    · intro x hx y hy hxy
      obtain ⟨hf, hg⟩ := (heq x y).mp hxy
      refine (heq y x).mpr ⟨hf.symm, ?_⟩
      rcases hg with hnone | hsame
      · exact Or.inl (h x hx y hy hf hnone)
      · exact Or.inr hsame.symm
    · intro x _ y _ z _ hxy hyz
      obtain ⟨hf, hg⟩ := (heq x y).mp hxy
      obtain ⟨hf', hg'⟩ := (heq y z).mp hyz
      refine (heq x z).mpr ⟨hf.trans hf', ?_⟩
      rcases hg with hnone | hsame
      · exact Or.inl hnone
      · rw [hsame]
        exact hg'
    · intro x _ y _ hxy
      exact hhash x y ((heq x y).mp hxy).1

/-! ## Literals -/

/-- What two literals must have in common. -/
def ProtoLiteral.key (l : ProtoLiteral) : String × Option String :=
  (l.toJ.getLabel, l.toJ.getDatatype)

theorem ProtoLiteral.equals_iff (l l' : ProtoLiteral) :
    l.equals (some (.literal l'.toJ)) = true ↔
      l.key = l'.key ∧ (l.toJ.getLanguage = none ∨ l.toJ.getLanguage = l'.toJ.getLanguage) := by
  rw [equals, key, key, Prod.mk.injEq]
  generalize l.toJ.getLabel = label
  generalize l'.toJ.getLabel = label'
  generalize l.toJ.getLanguage = language
  generalize l'.toJ.getLanguage = language'
  generalize l.toJ.getDatatype = datatype
  generalize l'.toJ.getDatatype = datatype'
  by_cases hlabel : label = label'
  · by_cases hdatatype : datatype = datatype'
    · subst hdatatype
      cases language <;> simp [hlabel]
    · cases datatype <;> simp_all [eq_comm]
  · simp [hlabel]

/-- The literals have the same label and no datatype, and only the second one has a language. -/
structure ProtoLiteral.OnlySecondTagged (l l' : ProtoLiteral) : Prop where
  label : l.toJ.getLabel = l'.toJ.getLabel
  left : l.toJ.getDatatype = none ∧ l.toJ.getLanguage = none
  right : l'.toJ.getDatatype = none ∧ l'.toJ.getLanguage ≠ none

theorem ProtoLiteral.getDatatype_of_language {l : ProtoLiteral} (h : l.toJ.getLanguage ≠ none) :
    l.toJ.getDatatype = none := by
  cases l with
  | protoStringLiteral message => rfl
  | protoDatatypeLiteral message => exact absurd rfl h

theorem ProtoLiteral.not_onlySecondTagged_iff {l l' : ProtoLiteral} :
    ¬ l.OnlySecondTagged l' ↔
      (l.key = l'.key → l.toJ.getLanguage = none → l'.toJ.getLanguage = none) := by
  constructor
  · intro h hkey hl
    by_contra hl'
    obtain ⟨hlabel, hdatatype⟩ := Prod.mk.inj hkey
    have hnone := getDatatype_of_language hl'
    exact h ⟨hlabel, ⟨hdatatype.trans hnone, hl⟩, hnone, hl'⟩
  · rintro h ⟨hlabel, ⟨hd, hl⟩, hd', hl'⟩
    exact hl' (h (Prod.ext hlabel (hd.trans hd'.symm)) hl)

/-! ## Values and statements -/

theorem ProtoResource.equals_iff (r r' : ProtoResource) :
    r.equals (some (.resource r'.toJ)) = true ↔ r = r' := by
  rcases r with ⟨⟨u⟩⟩ | ⟨⟨b⟩⟩ <;> rcases r' with ⟨⟨u'⟩⟩ | ⟨⟨b'⟩⟩ <;>
    simp [ProtoResource.equals, ProtoResource.toJ]

namespace ProtoValue

/-- What two values must have in common. -/
def key : ProtoValue → ProtoResource ⊕ (String × Option String)
  | .resource r => .inl r
  | .literal l => .inr l.key

/-- The language of a value. -/
def language : ProtoValue → Option String
  | .resource _ => none
  | .literal l => l.toJ.getLanguage

theorem equals_iff (v v' : ProtoValue) :
    v.equals (some v'.toJ) = true ↔
      v.key = v'.key ∧ (v.language = none ∨ v.language = v'.language) := by
  cases v with
  | resource r =>
    cases v' with
    | resource r' => simp [equals, toJ, key, language, ProtoResource.equals_iff]
    | literal l' => cases r <;> simp [equals, toJ, key, ProtoResource.equals]
  | literal l =>
    cases v' with
    | resource r' => simp [equals, toJ, key, ProtoLiteral.equals]
    | literal l' => simp [equals, toJ, key, language, ProtoLiteral.equals_iff]

theorem hashCode_eq_of_key_eq {v v' : ProtoValue} (h : v.key = v'.key) :
    v.hashCode = v'.hashCode := by
  cases v with
  | resource r =>
    cases v' with
    | resource r' => exact congrArg ProtoResource.hashCode (Sum.inl.inj h)
    | literal l' => cases h
  | literal l =>
    cases v' with
    | resource r' => cases h
    | literal l' =>
      have hlabel : l.toJ.getLabel = l'.toJ.getLabel := congrArg Prod.fst (Sum.inr.inj h)
      exact congrArg stringHashCode hlabel

end ProtoValue

/-- The terms that a `ProtoStatement` is built from, of which only the context may be `null`. -/
structure StatementTerms where
  subject : ProtoResource
  predicate : URI
  object : ProtoValue
  context : Option ProtoResource

namespace StatementTerms

/-- The `ProtoStatement`. -/
def message (t : StatementTerms) : Statement :=
  protoStatement (some t.subject.toJ) (some (.protoURI t.predicate)) (some t.object.toJ)
    (t.context.map ProtoResource.toJ)

theorem getSubject_message (t : StatementTerms) : getSubject t.message = some t.subject := by
  obtain ⟨subject, predicate, object, context⟩ := t
  cases subject <;> rfl

theorem getObject_message (t : StatementTerms) : getObject t.message = some t.object := by
  obtain ⟨subject, predicate, (r | l), context⟩ := t
  · cases r <;> rfl
  · cases l <;> rfl

/-- What two statements must have in common. The context is not compared. -/
def key (t : StatementTerms) : ProtoResource × URI × (ProtoResource ⊕ (String × Option String)) :=
  (t.subject, t.predicate, t.object.key)

theorem statementEquals_iff (t t' : StatementTerms) :
    statementEquals t.message t'.message = some true ↔
      t.key = t'.key ∧ (t.object.language = none ∨ t.object.language = t'.object.language) := by
  have hpredicate : ∀ t : StatementTerms, getPredicate t.message = some t.predicate := fun _ => rfl
  have hequals : statementEquals t.message t'.message = some true ↔
      t.object.equals (some t'.object.toJ) = true ∧
        (ProtoResource.protoURI t.predicate).equals
          (some (.resource (.protoURI t'.predicate))) = true ∧
        t.subject.equals (some (.resource t'.subject.toJ)) = true := by
    simp only [statementEquals, getObject_message, hpredicate, getSubject_message,
      Option.map_some, Option.bind_eq_bind, Option.bind_some]
    cases t.object.equals (some t'.object.toJ) with
    | false => simp
    | true =>
      cases (ProtoResource.protoURI t.predicate).equals
          (some (.resource (.protoURI t'.predicate))) <;> simp
  have huri := ProtoResource.equals_iff (.protoURI t.predicate) (.protoURI t'.predicate)
  rw [ProtoResource.protoURI.injEq] at huri
  rw [hequals, ProtoValue.equals_iff, ProtoResource.equals_iff, key, key, Prod.mk.injEq,
    Prod.mk.injEq]
  constructor
  · rintro ⟨⟨hobject, hlanguage⟩, huri', hsubject⟩
    exact ⟨⟨hsubject, huri.mp huri', hobject⟩, hlanguage⟩
  · rintro ⟨⟨hsubject, hpredicate', hobject⟩, hlanguage⟩
    exact ⟨⟨hobject, hlanguage⟩, huri.mpr hpredicate', hsubject⟩

theorem statementHashCode_eq_of_key_eq {t t' : StatementTerms} (h : t.key = t'.key) :
    statementHashCode t.message = statementHashCode t'.message := by
  have hcode : ∀ t : StatementTerms, statementHashCode t.message =
      some (961 * t.subject.hashCode + 31 * (ProtoResource.protoURI t.predicate).hashCode +
        t.object.hashCode) := by
    intro t
    simp only [statementHashCode, getSubject_message, getObject_message]
    rfl
  obtain ⟨hsubject, hpredicate, hobject⟩ : t.subject = t'.subject ∧ t.predicate = t'.predicate ∧
      t.object.key = t'.object.key := by simpa [key] using h
  rw [hcode, hcode, hsubject, hpredicate, ProtoValue.hashCode_eq_of_key_eq hobject]

/-- The statements have the same subject and predicate, and their objects are literals of which only
the second one has a language. -/
def OnlySecondTagged (t t' : StatementTerms) : Prop :=
  t.subject = t'.subject ∧ t.predicate = t'.predicate ∧
    ∃ l l', t.object = .literal l ∧ t'.object = .literal l' ∧ l.OnlySecondTagged l'

theorem not_onlySecondTagged_iff {t t' : StatementTerms} :
    ¬ t.OnlySecondTagged t' ↔
      (t.key = t'.key → t.object.language = none → t'.object.language = none) := by
  obtain ⟨subject, predicate, object, context⟩ := t
  obtain ⟨subject', predicate', object', context'⟩ := t'
  simp only [OnlySecondTagged, key, Prod.mk.injEq]
  constructor
  · rintro h ⟨hsubject, hpredicate, hobject⟩ hlanguage
    cases object' with
    | resource r' => rfl
    | literal l' =>
      cases object with
      | resource r => cases hobject
      | literal l =>
        have hnot : ¬ l.OnlySecondTagged l' := fun htagged =>
          h ⟨hsubject, hpredicate, l, l', rfl, rfl, htagged⟩
        exact ProtoLiteral.not_onlySecondTagged_iff.mp hnot (Sum.inr.inj hobject) hlanguage
  · rintro h ⟨hsubject, hpredicate, l, l', rfl, rfl, htagged⟩
    refine absurd htagged (ProtoLiteral.not_onlySecondTagged_iff.mpr fun hkey hlanguage => ?_)
    exact h ⟨hsubject, hpredicate, congrArg Sum.inr hkey⟩ hlanguage

end StatementTerms

/-- `equals` and `hashCode` keep their contract on a set of literals exactly if no two of them have
the same label, no datatype, and a language only in one of them; and on a set of statements exactly
if no two of them have such objects besides the same subject and predicate. -/
theorem equals_contract_iff (L : Set ProtoLiteral) (M : Set StatementTerms) :
    (EqualsContract (fun l l' => l.equals (some (.literal l'.toJ)) = true) ProtoLiteral.hashCode L ↔
      ∀ l ∈ L, ∀ l' ∈ L, ¬ l.OnlySecondTagged l') ∧
    (EqualsContract (fun t t' => statementEquals t.message t'.message = some true)
        (fun t => statementHashCode t.message) M ↔
      ∀ t ∈ M, ∀ t' ∈ M, ¬ t.OnlySecondTagged t') := by
  constructor
  · simp only [ProtoLiteral.not_onlySecondTagged_iff]
    refine equalsContract_iff ProtoLiteral.equals_iff (fun l l' hkey => ?_) L
    exact congrArg stringHashCode (congrArg Prod.fst hkey)
  · simp only [StatementTerms.not_onlySecondTagged_iff]
    exact equalsContract_iff StatementTerms.statementEquals_iff
      (fun t t' => StatementTerms.statementHashCode_eq_of_key_eq) M

/-- A plain literal equals a literal with a language, which does not equal it. -/
theorem equals_not_symmetric :
    (ProtoLiteral.protoStringLiteral ⟨"a", ""⟩).equals
        (some (.literal (.protoStringLiteral ⟨"a", "en"⟩))) = true ∧
      (ProtoLiteral.protoStringLiteral ⟨"a", "en"⟩).equals
        (some (.literal (.protoStringLiteral ⟨"a", ""⟩))) = false ∧
      ¬ EqualsContract (fun l l' => l.equals (some (.literal l'.toJ)) = true)
        ProtoLiteral.hashCode Set.univ := by
  refine ⟨by decide, by decide, fun h => ?_⟩
  have hsymm := h.symm (.protoStringLiteral ⟨"a", ""⟩) (Set.mem_univ _)
    (.protoStringLiteral ⟨"a", "en"⟩) (Set.mem_univ _) (by decide)
  revert hsymm
  decide

end CMarmotta.Client
