import CMarmotta.Sparql.RasqalModel

/-!
# Terms through rasqal

A term is handed to rasqal as C strings and read back by the type rasqal gives to it. It survives
exactly if its strings arrive whole, rasqal has a type for its datatype that `ConvertValue` knows,
and the value is printed as it was written (`convertValue_asLiteral`).
-/

namespace CMarmotta

open CString Rasqal RasqalModel

variable [Rasqal]

/-- The content of a literal is how `ConvertValue` prints its native value. An `xsd:string` is kept
unless it has a zero character, a literal of an unknown datatype never. -/
def Native.Keeps (content : String) : Native → Prop
  | .xsdString => NulFree content
  | .boolean value => content = if value = 0 then "false" else "true"
  | .integer value => content = toString value
  | .float printed => content = printed.text
  | .double printed => content = printed.text
  | .decimal printed => content = printed.text
  | .datetime printed => content = printed.text
  | .date printed => content = printed.text
  | .udt => False

/-- The literal has a datatype without a zero character, and rasqal makes a literal of it that keeps
its content. -/
def DatatypeLiteral.Survives (l : DatatypeLiteral) : Prop :=
  ∃ d, l.datatype = some d ∧ d.uri ≠ "" ∧ NulFree d.uri ∧
    ∃ n, native (.ofString d.uri) (.ofString l.content) = some n ∧ n.Keeps l.content

/-- The condition under which a term makes the way through rasqal. -/
def Value.Survives : Value → Prop
  | .resource (.uri u) => u.uri ≠ "" ∧ CString.NulFree u.uri
  | .resource (.bnode b) => CString.NulFree b.id
  | .literal (.stringliteral l) => CString.NulFree l.content ∧ CString.NulFree l.language
  | .literal (.dataliteral l) => l.Survives
  | _ => False

/-! ## The kinds of terms -/

omit [Rasqal] in
theorem newUri_eq (u : CString) :
    Raptor.newUri u = if u.text = "" then none else some u := rfl

omit [Rasqal] in
/-- A URI string gives a URI literal with the same string exactly if it is not empty and has no zero
character. -/
theorem newUri_ofString_iff {u : String} {i : CString} :
    (Raptor.newUri (.ofString u) = some i ∧ i.text = u) ↔
      (u ≠ "" ∧ NulFree u) ∧ i = .ofString u := by
  rw [newUri_eq, nulFree_iff]
  split_ifs with h
  · constructor
    · rintro ⟨hi, -⟩
      cases hi
    · rintro ⟨⟨hu, hfree⟩, -⟩
      exact absurd (hfree.symm.trans h) hu
  · constructor
    · rintro ⟨hi, hu⟩
      obtain rfl := Option.some.inj hi
      exact ⟨⟨fun hempty => h (hu.trans hempty), hu⟩, rfl⟩
    · rintro ⟨⟨-, hfree⟩, rfl⟩
      exact ⟨rfl, hfree⟩

theorem survives_uri {u : URI} :
    (asLiteral (.ofMessage (.resource (.uri u)))).map convertValue =
      some (.ofMessage (.resource (.uri u))) ↔ u.uri ≠ "" ∧ NulFree u.uri := by
  obtain ⟨u⟩ := u
  show ((Raptor.newUri (.ofString u)).map RasqalLiteral.uri).map convertValue = _ ↔ _
  constructor
  · intro h
    obtain ⟨l, hl, hconv⟩ := Option.map_eq_some_iff.mp h
    obtain ⟨i, hi, rfl⟩ := Option.map_eq_some_iff.mp hl
    have htext : i.text = u := by simpa [convertValue, Rdf.Value.ofMessage] using hconv
    exact (newUri_ofString_iff.mp ⟨hi, htext⟩).1
  · intro h
    obtain ⟨hi, htext⟩ := newUri_ofString_iff.mpr ⟨h, rfl⟩
    rw [hi]
    simp [convertValue, htext]

theorem survives_bnode {b : BNode} :
    (asLiteral (.ofMessage (.resource (.bnode b)))).map convertValue =
      some (.ofMessage (.resource (.bnode b))) ↔ NulFree b.id := by
  obtain ⟨b⟩ := b
  rw [nulFree_iff]
  simp [asLiteral, Rdf.Value.ofMessage, Rdf.Value.stringValue, Value.mutableResource,
    Resource.mutableBNode, convertValue]

theorem survives_stringLiteral {l : StringLiteral} :
    (asLiteral (.ofMessage (.literal (.stringliteral l)))).map convertValue =
      some (.ofMessage (.literal (.stringliteral l))) ↔
      NulFree l.content ∧ NulFree l.language := by
  obtain ⟨c, g⟩ := l
  rw [nulFree_iff, nulFree_iff]
  simp [asLiteral, Rdf.Value.ofMessage, asStringLiteral, Value.mutableLiteral,
    Literal.mutableStringliteral, newStringLiteral, convertValue]

omit [Rasqal] in
theorem contentOf_eq_some_iff {c : String} {n : Native} :
    contentOf (ofString c).text n = some c ↔ n.Keeps c := by
  cases n with
  | xsdString =>
    rw [Native.Keeps, nulFree_iff]
    exact Option.some_inj
  | udt => exact iff_of_false (by simp [contentOf]) id
  | boolean value => exact Option.some_inj.trans eq_comm
  | integer value => exact Option.some_inj.trans eq_comm
  | float printed => exact Option.some_inj.trans eq_comm
  | double printed => exact Option.some_inj.trans eq_comm
  | decimal printed => exact Option.some_inj.trans eq_comm
  | datetime printed => exact Option.some_inj.trans eq_comm
  | date printed => exact Option.some_inj.trans eq_comm

omit [Rasqal] in
/-- What comes back for a literal whose datatype rasqal has made a URI of. -/
theorem convertValue_typed_iff {string datatype : CString} {n : Native} {l : DatatypeLiteral} :
    convertValue (.typed string datatype n) = .ofMessage (.literal (.dataliteral l)) ↔
      contentOf string.text n = some l.content ∧ l.datatype = some ⟨datatype.text⟩ := by
  obtain ⟨c, d⟩ := l
  cases h : contentOf string.text n with
  | none => simp [convertValue, h, Rdf.Value.new, Rdf.Value.ofMessage]
  | some label => simp [convertValue, h, Rdf.Value.ofMessage, eq_comm]

theorem survives_datatypeLiteral {l : DatatypeLiteral} :
    (asLiteral (.ofMessage (.literal (.dataliteral l)))).map convertValue =
      some (.ofMessage (.literal (.dataliteral l))) ↔ l.Survives := by
  show (newStringLiteral (.ofString l.content) none
    (Raptor.newUri (.ofString (l.datatype.getD ⟨""⟩).uri))).map convertValue = _ ↔ _
  cases huri : Raptor.newUri (.ofString (l.datatype.getD ⟨""⟩).uri) with
  | none =>
    -- without a datatype rasqal makes a plain literal
    refine iff_of_false ?_ ?_
    · simp [newStringLiteral, convertValue, Rdf.Value.ofMessage]
    · rintro ⟨d, hd, hne, hfree, -⟩
      rw [hd] at huri
      have := (newUri_ofString_iff.mpr ⟨⟨hne, hfree⟩, rfl⟩).1
      rw [Option.getD_some, this] at huri
      cases huri
  | some i =>
    have hmap : (newStringLiteral (.ofString l.content) none (some i)).map convertValue =
        some (.ofMessage (.literal (.dataliteral l))) ↔
        ∃ n, native i (.ofString l.content) = some n ∧ n.Keeps l.content ∧
          l.datatype = some ⟨i.text⟩ := by
      simp only [newStringLiteral, Option.map_eq_some_iff, exists_exists_and_eq_and,
        convertValue_typed_iff, contentOf_eq_some_iff]
    rw [hmap]
    constructor
    · rintro ⟨n, hn, hcontent, hd⟩
      rw [hd, Option.getD_some] at huri
      obtain ⟨⟨hne, hfree⟩, hi⟩ := newUri_ofString_iff.mp ⟨huri, rfl⟩
      exact ⟨_, hd, hne, hfree, n, hi ▸ hn, hcontent⟩
    · rintro ⟨d, hd, hne, hfree, n, hn, hcontent⟩
      rw [hd, Option.getD_some] at huri
      obtain ⟨hi, htext⟩ := newUri_ofString_iff.mpr ⟨⟨hne, hfree⟩, rfl⟩
      obtain rfl := Option.some.inj (huri.symm.trans hi)
      exact ⟨n, hn, hcontent, by rw [hd, htext]⟩

theorem convertValue_asLiteral {v : Value} :
    (asLiteral (.ofMessage v)).map convertValue = some (.ofMessage v) ↔ v.Survives := by
  rcases v with _ | (_ | u | b) | (_ | l | l)
  · exact iff_of_false (by simp [asLiteral, Rdf.Value.ofMessage]) id
  · exact iff_of_false (by simp [asLiteral, Rdf.Value.ofMessage, convertValue]) id
  · exact survives_uri
  · exact survives_bnode
  · -- a literal message without an alternative is handled as one with an empty datatype
    refine iff_of_false ?_ id
    have hempty : (CString.ofString "").text = "" := by decide
    simp [asLiteral, Rdf.Value.ofMessage, asDatatypeLiteral, Value.mutableLiteral,
      Literal.mutableDataliteral, Merge.empty, newUri_eq, hempty, newStringLiteral, convertValue]
  · exact survives_stringLiteral
  · exact survives_datatypeLiteral

end CMarmotta
