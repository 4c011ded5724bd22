import CMarmotta.Client.Terms

/-!
# Encoding and decoding terms

The getters of `ProtoStatement` give back what the constructor was given. Terms that show the same
give the same message, except for a `ProtoDatatypeLiteral` without a datatype, which the constructor
keeps apart from other plain literals (`protoStatement_eq_iff`). `directTupleQuery` decodes blank
nodes and datatype literals as `getObject` does, but takes URIs for blank nodes and string literals
for datatype literals (`convertRow_decodes_iff`).
-/

namespace CMarmotta.Client

/-! ## Bindings -/

/-- `directTupleQuery` decodes a value as `getObject` does exactly if the value is neither a URI nor
a string literal. -/
theorem convertValue_eq_iff {value : Value} {message : Statement}
    (h : message.object = some value) :
    convertValue value = getObject message ↔
      (∀ u, value ≠ .resource (.uri u)) ∧ ∀ l, value ≠ .literal (.stringliteral l) := by
  rw [getObject, h]
  rcases value with _ | (_ | u | b) | (_ | l | l) <;>
    simp [convertValue, switchResource, switchLiteral, getLiteral, getObjectLiteral, getBnode,
      getDataliteral]

/-- A row is decoded as `getObject` decodes its values exactly if no value in it is a URI or a string
literal. -/
theorem convertRow_decodes_iff (row : List (String × Value)) :
    (∀ (i : Nat) (b : String × Value), row[i]? = some b → ∀ message : Statement,
        message.object = some b.2 → (convertRow row)[i]? = some (b.1, getObject message)) ↔
      ∀ b ∈ row, (∀ u, b.2 ≠ .resource (.uri u)) ∧ ∀ l, b.2 ≠ .literal (.stringliteral l) := by
  have hget : ∀ (i : Nat) (b : String × Value), row[i]? = some b → ∀ message : Statement,
      ((convertRow row)[i]? = some (b.1, getObject message) ↔
        convertValue b.2 = getObject message) := by
    intro i b hb message
    rw [convertRow, List.getElem?_map, hb]
    simp
  constructor
  · intro h b hb
    obtain ⟨i, hi⟩ := List.mem_iff_getElem?.mp hb
    have hdecode := (hget i b hi { object := some b.2 }).mp (h i b hi _ rfl)
    exact (convertValue_eq_iff rfl).mp hdecode
  · intro h i b hi message hobject
    rw [hget i b hi, convertValue_eq_iff hobject]
    exact h b (List.mem_of_getElem? hi)

/-- A URI in a row becomes a blank node without a name, and a string literal an empty datatype
literal. -/
theorem convertRow_of_uri_and_string :
    convertRow [("x", .resource (.uri ⟨"http://a/"⟩)), ("y", .literal (.stringliteral ⟨"a", "en"⟩))] =
        [("x", some (.resource (.protoBNode ⟨""⟩))),
          ("y", some (.literal (.protoDatatypeLiteral ⟨"", none⟩)))] ∧
      getObject { object := some (.resource (.uri ⟨"http://a/"⟩)) } =
        some (.resource (.protoURI ⟨"http://a/"⟩)) ∧
      getObject { object := some (.literal (.stringliteral ⟨"a", "en"⟩)) } =
        some (.literal (.protoStringLiteral ⟨"a", "en"⟩)) := by
  decide

/-! ## Statements -/

/-- The message of a value that shows the term, as the constructor builds it from foreign terms. -/
def Term.message : Term → Value
  | .uri stringValue => .resource (.uri ⟨stringValue⟩)
  | .bnode stringValue => .resource (.bnode ⟨stringValue⟩)
  | .literal label _ (some datatype) => .literal (.dataliteral ⟨label, some ⟨datatype⟩⟩)
  | .literal label language none => .literal (.stringliteral ⟨label, language.getD ""⟩)

theorem JResource.message_eq (r : JResource) : Value.resource r.message = r.term.message := by
  cases r <;> rfl

theorem JResource.message_eq_of_term_eq {r r' : JResource} (h : r.term = r'.term) :
    r.message = r'.message := by
  have hvalue := r.message_eq.trans ((congrArg Term.message h).trans r'.message_eq.symm)
  exact Value.resource.inj hvalue

theorem JURI.message_eq_of_term_eq {u u' : JURI} (h : u.term = u'.term) : u.message = u'.message := by
  rcases u with ⟨⟨u⟩⟩ | u <;> rcases u' with ⟨⟨u'⟩⟩ | u' <;> simpa [JURI.message, JURI.term] using h

@[simp] theorem getD_nonEmpty (text : String) : (nonEmpty text).getD "" = text := by
  by_cases h : text = "" <;> simp [nonEmpty, h]

@[simp] theorem bind_nonEmpty (text : String) : (nonEmpty text).bind nonEmpty = nonEmpty text := by
  by_cases h : text = "" <;> simp [nonEmpty, h]

/-- Except for a `ProtoDatatypeLiteral` without a datatype, the message depends only on what the
value shows. -/
theorem JValue.message_eq {v : JValue} (huntyped : v.isUntyped = false) :
    v.message = v.term.message := by
  rcases v with (⟨⟨content, language⟩⟩ | ⟨⟨content, _ | ⟨datatype⟩⟩⟩ |
    ⟨label, _ | datatype, language⟩) | r
  · simp [JValue.message, JLiteral.message, JValue.term, Term.message, JLiteral.getLabel,
      JLiteral.getLanguage, JLiteral.getDatatype]
  · simp [JValue.isUntyped] at huntyped
  · rfl
  · cases language with
    | none => rfl
    | some language =>
      simp [JValue.message, JLiteral.message, JValue.term, Term.message, JLiteral.getLabel,
        JLiteral.getLanguage, JLiteral.getDatatype]
  · rfl
  · exact r.message_eq

/-- Such a literal has no language and no datatype, and its message is a datatype literal. -/
theorem JValue.message_of_untyped {v : JValue} (huntyped : v.isUntyped = true) :
    ∃ label, v.term = .literal label none none ∧
      v.message = .literal (.dataliteral ⟨label, none⟩) := by
  rcases v with (⟨⟨content, language⟩⟩ | ⟨⟨content, _ | ⟨datatype⟩⟩⟩ |
    ⟨label, datatype, language⟩) | r
  · simp [JValue.isUntyped] at huntyped
  · exact ⟨content, rfl, rfl⟩
  · simp [JValue.isUntyped] at huntyped
  · simp [JValue.isUntyped] at huntyped
  · simp [JValue.isUntyped] at huntyped

theorem JValue.message_eq_iff {v v' : JValue} (h : v.term = v'.term) :
    v.message = v'.message ↔ v.isUntyped = v'.isUntyped := by
  -- A datatype literal without a datatype differs from every other message of a plain literal.
  have hmixed : ∀ {v v' : JValue}, v.term = v'.term → v.isUntyped = true → v'.isUntyped = false →
      v.message ≠ v'.message := by
    intro v v' h hv hv'
    obtain ⟨label, hterm, hmessage⟩ := message_of_untyped hv
    rw [hmessage, message_eq hv', ← h, hterm]
    simp [Term.message]
  cases hv : v.isUntyped <;> cases hv' : v'.isUntyped
  · rw [message_eq hv, message_eq hv', h]
    simp
  · simpa using (hmixed h.symm hv' hv).symm
  · simpa using hmixed h hv hv'
  · obtain ⟨label, hterm, hmessage⟩ := message_of_untyped hv
    obtain ⟨label', hterm', hmessage'⟩ := message_of_untyped hv'
    rw [hterm, hterm'] at h
    rw [hmessage, hmessage']
    simpa using h

theorem map_eq_of_map_eq {α β γ : Type} {f : α → β} {g : α → γ} (h : ∀ {a b}, f a = f b → g a = g b)
    {x y : Option α} (hxy : x.map f = y.map f) : x.map g = y.map g := by
  cases x <;> cases y
  · rfl
  · cases hxy
  · cases hxy
  · exact congrArg some (h (Option.some.inj hxy))

section Statements

variable {subject subject' context context' : Option JResource}
  {predicate predicate' : Option JURI} {object object' : Option JValue}

/-- Decoding the message of a value gives a value that shows the same. -/
theorem getObject_term {v : JValue} (hterm : v.isTerm = true) {message : Statement}
    (h : message.object = some v.message) :
    (getObject message).map (·.toJ.term) = some v.term := by
  rw [getObject, h]
  rcases v with (⟨⟨content, language⟩⟩ | ⟨⟨content, datatype⟩⟩ | ⟨label, _ | datatype, language⟩) | r
  · rfl
  · rfl
  · cases language with
    | none => rfl
    | some language =>
      simp [JValue.message, JLiteral.message, getObjectLiteral, getLiteral, ProtoValue.toJ,
        ProtoLiteral.toJ, JValue.term, JLiteral.getLabel, JLiteral.getLanguage,
        JLiteral.getDatatype]
  · have hlanguage : language.bind nonEmpty = none := by
      simpa [JValue.isTerm, JLiteral.getDatatype, JLiteral.getLanguage] using hterm
    simp [JValue.message, JLiteral.message, getObjectLiteral, getLiteral, ProtoValue.toJ,
      ProtoLiteral.toJ, JValue.term, JLiteral.getLabel, JLiteral.getLanguage,
      JLiteral.getDatatype, hlanguage]
  · cases r <;> rfl

theorem lossless (hobject : object.all JValue.isTerm = true) :
    Lossless subject predicate object context where
  subject_eq := by rcases subject with _ | ⟨u | b | u | b⟩ <;> rfl
  predicate_eq := by rcases predicate with _ | ⟨u | u⟩ <;> rfl
  object_eq := by
    cases object with
    | none => rfl
    | some v => exact getObject_term hobject rfl
  context_eq := by rcases context with _ | ⟨u | b | u | b⟩ <;> rfl

/-- What `ProtoStatement` is built from can be read back. Two choices of objects for the same terms
give the same message exactly if both or neither of the objects are a `ProtoDatatypeLiteral` without
a datatype. -/
theorem protoStatement_eq_iff (hobject : object.all JValue.isTerm = true)
    (hs : subject.map JResource.term = subject'.map JResource.term)
    (hp : predicate.map JURI.term = predicate'.map JURI.term)
    (ho : object.map JValue.term = object'.map JValue.term)
    (hc : context.map JResource.term = context'.map JResource.term) :
    (Lossless subject predicate object context ∧
      protoStatement subject predicate object context =
        protoStatement subject' predicate' object' context') ↔
    (object.any JValue.isUntyped = object'.any JValue.isUntyped) := by
  have hsubject : subject.map JResource.message = subject'.map JResource.message :=
    map_eq_of_map_eq JResource.message_eq_of_term_eq hs
  have hpredicate : predicate.map JURI.message = predicate'.map JURI.message :=
    map_eq_of_map_eq JURI.message_eq_of_term_eq hp
  have hcontext : context.map JResource.message = context'.map JResource.message :=
    map_eq_of_map_eq JResource.message_eq_of_term_eq hc
  have hmessage : object.map JValue.message = object'.map JValue.message ↔
      object.any JValue.isUntyped = object'.any JValue.isUntyped := by
    cases object <;> cases object'
    · exact iff_of_true rfl rfl
    · cases ho
    · cases ho
    · rw [Option.map_some, Option.map_some, Option.some.injEq]
      exact JValue.message_eq_iff (Option.some.inj ho)
  rw [and_iff_right (lossless hobject), ← hmessage]
  simp only [protoStatement, Statement.mk.injEq, hsubject, hpredicate, hcontext, true_and, and_true]

end Statements

/-- A statement built from the client's own terms and from foreign ones. -/
theorem protoStatement_eq_of_foreign :
    protoStatement (some (.protoBNode ⟨"1234"⟩)) (some (.protoURI ⟨"http://apache.org/example/P1"⟩))
        (some (.literal (.protoStringLiteral ⟨"Hello, World", "en"⟩)))
        (some (.protoURI ⟨"http://apache.org/example/C1"⟩)) =
      protoStatement (some (.bnode "1234")) (some (.uri "http://apache.org/example/P1"))
        (some (.literal (.literal "Hello, World" none (some "en"))))
        (some (.uri "http://apache.org/example/C1")) :=
  ((protoStatement_eq_iff rfl rfl rfl rfl rfl).mpr rfl).2

/-- A `ProtoDatatypeLiteral` without a datatype shows the same as a foreign literal with a label
only, and gives another message. -/
theorem protoStatement_ne_of_untyped :
    (JValue.literal (.protoDatatypeLiteral ⟨"a", none⟩)).term =
        (JValue.literal (.literal "a" none none)).term ∧
      protoStatement none none (some (.literal (.protoDatatypeLiteral ⟨"a", none⟩))) none ≠
        protoStatement none none (some (.literal (.literal "a" none none))) none := by
  decide

end CMarmotta.Client
