import CMarmotta.Model.Values

/-!
# The tags match the messages

Every constructor and every assignment leaves a tag that names the alternative set in the message,
whatever was there before (`Value.Built.names`, `Resource.Built.names`). So the string of an object
is the text inside its Turtle form (`types_match_messages`).
-/

namespace CMarmotta.Rdf

/-! ## What a tag and a text say -/

/-- The tag of a `Value` names the alternative that is set in a message. -/
def ValueType.Names : ValueType → CMarmotta.Value → Prop
  | .URI, v => ∃ u, v = .resource (.uri u)
  | .BNODE, v => ∃ b, v = .resource (.bnode b)
  | .STRING_LITERAL, v => ∃ l, v = .literal (.stringliteral l)
  | .DATATYPE_LITERAL, v => ∃ l, v = .literal (.dataliteral l)
  | .NONE, v => v = .notSet

/-- The tag of a `Resource` names the alternative that is set in a message. -/
def ResourceType.Names : ResourceType → CMarmotta.Resource → Prop
  | .URI, r => ∃ u, r = .uri u
  | .BNODE, r => ∃ b, r = .bnode b
  | .NONE, r => r = .notSet

/-- The text is that of the term set in the message, and the Turtle form is made of the text and, for a
literal, of the language or the datatype in the message. -/
def ValueType.Prints : ValueType → CMarmotta.Value → String → String → Prop
  | .URI, v, text, turtle => ∃ u, v = .resource (.uri u) ∧ text = u.uri ∧
      turtle = "<" ++ text ++ ">"
  | .BNODE, v, text, turtle => ∃ b, v = .resource (.bnode b) ∧ text = b.id ∧
      turtle = "_:" ++ text
  | .STRING_LITERAL, v, text, turtle => ∃ l, v = .literal (.stringliteral l) ∧ text = l.content ∧
      turtle = "\"" ++ text ++ "\"" ++ if l.language = "" then "" else "@" ++ l.language
  | .DATATYPE_LITERAL, v, text, turtle => ∃ l, v = .literal (.dataliteral l) ∧ text = l.content ∧
      turtle = "\"" ++ text ++ "\"^^<" ++ ((l.datatype.map URI.uri).getD "") ++ ">"
  | .NONE, v, text, turtle => v = .notSet ∧ text = "" ∧ turtle = ""

/-- The same for the message of a `Resource`. -/
def ResourceType.Prints : ResourceType → CMarmotta.Resource → String → String → Prop
  | .URI, r, text, turtle => ∃ u, r = .uri u ∧ text = u.uri ∧ turtle = "<" ++ text ++ ">"
  | .BNODE, r, text, turtle => ∃ b, r = .bnode b ∧ text = b.id ∧ turtle = "_:" ++ text
  | .NONE, r, text, turtle => r = .notSet ∧ text = "" ∧ turtle = ""

theorem asTurtle_stringLiteral (l : StringLiteral) :
    l.asTurtle = "\"" ++ l.content ++ "\"" ++ if l.language = "" then "" else "@" ++ l.language := by
  unfold StringLiteral.asTurtle
  split
  · rw [String.append_empty]
  · have hquote : "\"@" = "\"" ++ "@" := rfl
    simp only [hquote, String.append_assoc]

theorem asTurtle_datatypeLiteral (l : DatatypeLiteral) :
    l.asTurtle = "\"" ++ l.content ++ "\"^^<" ++ ((l.datatype.map URI.uri).getD "") ++ ">" := by
  have huri : (l.datatype.getD Merge.empty).uri = (l.datatype.map URI.uri).getD "" := by
    cases l.datatype <;> rfl
  have hquote : "\"^^<" = "\"^^" ++ "<" := rfl
  unfold DatatypeLiteral.asTurtle URI.asTurtle
  simp only [huri, hquote, String.append_assoc]

/-! ## Values -/

namespace Value

variable {v : Value}

/-- The tag read off a message. -/
theorem names_ofMessage {m : CMarmotta.Value} (h : m = .notSet ∨ m.isTerm = true) :
    (ofMessage m).type.Names m := by
  rcases h with rfl | hterm
  · rfl
  · rcases m with _ | (_ | u | b) | (_ | l | l)
    · cases hterm
    · cases hterm
    · exact ⟨u, rfl⟩
    · exact ⟨b, rfl⟩
    · cases hterm
    · exact ⟨l, rfl⟩
    · exact ⟨l, rfl⟩

theorem Built.names (h : Built v) : v.type.Names v.internal := by
  induction h with
  | new => rfl
  | ofMessage m hm => exact names_ofMessage hm
  | ofMovedMessage m hm => exact names_ofMessage hm
  | assign _ _ _ hother => exact hother
  | ofUri | ofMovedUri | assignUri | moveUri => exact ⟨_, rfl⟩
  | ofBNode | ofMovedBNode | assignBNode | moveBNode => exact ⟨_, rfl⟩
  | ofStringLiteral | ofMovedStringLiteral | ofString => exact ⟨_, rfl⟩
  | assignStringLiteral | moveStringLiteral => exact ⟨_, rfl⟩
  | ofDatatypeLiteral | ofMovedDatatypeLiteral => exact ⟨_, rfl⟩
  | assignDatatypeLiteral | moveDatatypeLiteral => exact ⟨_, rfl⟩

/-- A tag that names the alternative says whether one is set. -/
theorem type_eq_none_iff (h : v.type.Names v.internal) : v.type = .NONE ↔ v.internal = .notSet := by
  obtain ⟨type, internal⟩ := v
  cases type with
  | NONE => exact iff_of_true rfl h
  | URI | BNODE | STRING_LITERAL | DATATYPE_LITERAL =>
    obtain ⟨x, rfl⟩ := h
    exact iff_of_false nofun nofun

theorem prints_of_names (h : v.type.Names v.internal) :
    v.type.Prints v.internal v.stringValue v.asTurtle := by
  obtain ⟨type, internal⟩ := v
  cases type with
  | URI =>
    obtain ⟨u, rfl⟩ := h
    exact ⟨u, rfl, rfl, rfl⟩
  | BNODE =>
    obtain ⟨b, rfl⟩ := h
    exact ⟨b, rfl, rfl, rfl⟩
  | STRING_LITERAL =>
    obtain ⟨l, rfl⟩ := h
    exact ⟨l, rfl, rfl, asTurtle_stringLiteral l⟩
  | DATATYPE_LITERAL =>
    obtain ⟨l, rfl⟩ := h
    exact ⟨l, rfl, rfl, asTurtle_datatypeLiteral l⟩
  | NONE =>
    obtain rfl := h
    exact ⟨rfl, rfl, rfl⟩

end Value

/-! ## Resources -/

namespace Resource

variable {r : Resource}

theorem names_ofMessage (m : CMarmotta.Resource) : (ofMessage m).type.Names m := by
  cases m with
  | notSet => rfl
  | uri u => exact ⟨u, rfl⟩
  | bnode b => exact ⟨b, rfl⟩

theorem Built.names (h : Built r) : r.type.Names r.internal := by
  induction h with
  | new => rfl
  | ofMessage m => exact names_ofMessage m
  | ofMovedMessage m => exact names_ofMessage m
  | assign _ _ _ hother => exact hother
  | ofString | ofUri | ofMovedUri | assignUri | moveUri => exact ⟨_, rfl⟩
  | ofBNode | ofMovedBNode | assignBNode | moveBNode => exact ⟨_, rfl⟩

theorem type_eq_none_iff (h : r.type.Names r.internal) : r.type = .NONE ↔ r.internal = .notSet := by
  obtain ⟨type, internal⟩ := r
  cases type with
  | NONE => exact iff_of_true rfl h
  | URI | BNODE =>
    obtain ⟨x, rfl⟩ := h
    exact iff_of_false nofun nofun

theorem prints_of_names (h : r.type.Names r.internal) :
    r.type.Prints r.internal r.stringValue r.asTurtle := by
  obtain ⟨type, internal⟩ := r
  cases type with
  | URI =>
    obtain ⟨u, rfl⟩ := h
    exact ⟨u, rfl, rfl, rfl⟩
  | BNODE =>
    obtain ⟨b, rfl⟩ := h
    exact ⟨b, rfl, rfl, rfl⟩
  | NONE =>
    obtain rfl := h
    exact ⟨rfl, rfl, rfl⟩

end Resource

/-- The tag of every `Value` and `Resource` that constructors and assignments give names the
alternative set in its message, and is `NONE` exactly if none is set; its string is the text of the
term that its Turtle form prints. -/
theorem types_match_messages :
    (∀ v : Value, v.Built → v.type.Names v.internal ∧ (v.type = .NONE ↔ v.internal = .notSet) ∧
      v.type.Prints v.internal v.stringValue v.asTurtle) ∧
    (∀ r : Resource, r.Built → r.type.Names r.internal ∧
      (r.type = .NONE ↔ r.internal = .notSet) ∧
      r.type.Prints r.internal r.stringValue r.asTurtle) := by
  constructor
  · intro v hv
    exact ⟨hv.names, Value.type_eq_none_iff hv.names, Value.prints_of_names hv.names⟩
  · intro r hr
    exact ⟨hr.names, Resource.type_eq_none_iff hr.names, Resource.prints_of_names hr.names⟩

end CMarmotta.Rdf
