import CMarmotta.Model.Operators
import CMarmotta.Model.X64
import Mathlib.Data.Set.Basic

/-!
# Equality and hashes of messages

Every `operator==` below compares what `plain` leaves of two messages, after it has asked that their
alternatives are set (`Value.equal_iff`, `Statement.equal_iff`). So it is symmetric and transitive,
and it is reflexive on the messages whose alternatives are set and on no others
(`equality_is_equivalence_iff`). The hashes are over more than `plain`, and
`equal_messages_hash_alike_iff` says where the difference shows.
-/

namespace CMarmotta

/-! ## Relations that compare a part of their arguments -/

/-- `eq` and `ne` are an equivalence on `M` and its negation. -/
structure EquivalenceOn {α : Type} (eq ne : α → α → Bool) (M : Set α) : Prop where
  refl : ∀ x ∈ M, eq x x = true
  symm : ∀ x ∈ M, ∀ y ∈ M, eq x y = true → eq y x = true
  trans : ∀ x ∈ M, ∀ y ∈ M, ∀ z ∈ M, eq x y = true → eq y z = true → eq x z = true
  ne_eq : ∀ x ∈ M, ∀ y ∈ M, ne x y = !eq x y

/-- A comparison of `f` on the elements where `T` holds is an equivalence exactly where `T` holds
throughout. -/
theorem equivalenceOn_iff {α β : Type} {eq ne : α → α → Bool} {T : α → Prop} {f : α → β}
    (heq : ∀ x y, eq x y = true ↔ T x ∧ f x = f y) (hT : ∀ x y, f x = f y → T x → T y)
    (hne : ∀ x y, ne x y = !eq x y) (M : Set α) :
    EquivalenceOn eq ne M ↔ ∀ x ∈ M, T x := by
  constructor
  · intro h x hx
    exact ((heq x x).mp (h.refl x hx)).1
  · intro h
    refine ⟨?_, ?_, ?_, ?_⟩
    · intro x hx
      exact (heq x x).mpr ⟨h x hx, rfl⟩
    · intro x _ y _ hxy
      obtain ⟨hx, hf⟩ := (heq x y).mp hxy
      exact (heq y x).mpr ⟨hT x y hf hx, hf.symm⟩
    · intro x _ y _ z _ hxy hyz
      obtain ⟨hx, hf⟩ := (heq x y).mp hxy
      obtain ⟨-, hg⟩ := (heq y z).mp hyz
      exact (heq x z).mpr ⟨hx, hf.trans hg⟩
    · intro x _ y _
      exact hne x y

/-! ## What the comparisons look at -/

theorem URI.equal_iff {a b : URI} : a.equal b = true ↔ a = b := by
  obtain ⟨a⟩ := a
  obtain ⟨b⟩ := b
  simp [URI.equal]

theorem BNode.equal_iff {a b : BNode} : a.equal b = true ↔ a = b := by
  obtain ⟨a⟩ := a
  obtain ⟨b⟩ := b
  simp [BNode.equal]

theorem StringLiteral.equal_iff {a b : StringLiteral} : a.equal b = true ↔ a = b := by
  obtain ⟨a, la⟩ := a
  obtain ⟨b, lb⟩ := b
  simp [StringLiteral.equal]

/-- A literal with an absent datatype replaced by the empty one. -/
def DatatypeLiteral.plain (l : DatatypeLiteral) : DatatypeLiteral :=
  { l with datatype := some l.getDatatype }

theorem DatatypeLiteral.equal_iff {a b : DatatypeLiteral} :
    a.equal b = true ↔ a.plain = b.plain := by
  have huri : ∀ u v : URI, u.uri = v.uri ↔ u = v := by
    rintro ⟨u⟩ ⟨v⟩
    simp
  simp [DatatypeLiteral.equal, DatatypeLiteral.plain, huri]

/-- A value with an absent datatype replaced by the empty one. -/
def Value.plain : Value → Value
  | .literal (.dataliteral l) => .literal (.dataliteral l.plain)
  | v => v

theorem Resource.equal_iff {a b : Resource} : a.equal b = true ↔ a = b ∧ a ≠ .notSet := by
  cases a with
  | notSet => simp [Resource.equal]
  | uri u =>
    obtain ⟨u⟩ := u
    rcases b with _ | ⟨⟨v⟩⟩ | _ <;> simp [Resource.equal]
  | bnode x =>
    obtain ⟨x⟩ := x
    rcases b with _ | _ | ⟨⟨y⟩⟩ <;> simp [Resource.equal]

theorem Resource.isTerm_iff {r : Resource} : r.isTerm = true ↔ r ≠ .notSet := by
  cases r <;> simp [Resource.isTerm]

theorem Value.equal_iff {a b : Value} :
    a.equal b = true ↔ a.isTerm = true ∧ a.plain = b.plain := by
  rcases a with _ | (_ | u | x) | (_ | l | l) <;> rcases b with _ | (_ | v | y) | (_ | m | m) <;>
    simp [Value.equal, Value.isTerm, Resource.isTerm, Literal.isTerm, Value.plain, URI.equal_iff,
      BNode.equal_iff, StringLiteral.equal_iff, DatatypeLiteral.equal_iff]

theorem Value.isTerm_plain (v : Value) : v.plain.isTerm = v.isTerm := by
  rcases v with _ | _ | (_ | _ | _) <;> rfl

/-- The alternatives of a statement are set, the one of its context included. -/
def Statement.AllSet (s : Statement) : Prop :=
  s.getSubject.isTerm = true ∧ s.getObject.isTerm = true ∧ s.getContext.isTerm = true

/-- What the comparison of two statements looks at. -/
def Statement.plain (s : Statement) : Resource × URI × Value × Resource :=
  (s.getSubject, s.getPredicate, s.getObject.plain, s.getContext)

theorem Statement.equal_iff {a b : Statement} :
    a.equal b = true ↔ a.AllSet ∧ a.plain = b.plain := by
  simp only [Statement.equal, Bool.and_eq_true, Resource.equal_iff, URI.equal_iff, Value.equal_iff,
    Statement.AllSet, Statement.plain, Resource.isTerm_iff, Prod.mk.injEq]
  tauto

theorem Statement.allSet_of_plain_eq {a b : Statement} (h : a.plain = b.plain) (ha : a.AllSet) :
    b.AllSet := by
  obtain ⟨hs, ho, hc⟩ := ha
  simp only [Statement.plain, Prod.mk.injEq] at h
  obtain ⟨hs', -, ho', hc'⟩ := h
  refine ⟨hs' ▸ hs, ?_, hc' ▸ hc⟩
  rw [← Value.isTerm_plain, ← ho', Value.isTerm_plain]
  exact ho

/-! ## Equality as an equivalence -/

theorem Resource.equivalenceOn_iff (M : Set Resource) :
    EquivalenceOn Resource.equal Resource.notEqual M ↔ ∀ r ∈ M, r.isTerm = true := by
  refine CMarmotta.equivalenceOn_iff (f := id) ?_ ?_ (fun _ _ => rfl) M
  · intro a b
    rw [Resource.equal_iff, Resource.isTerm_iff]
    exact and_comm
  · rintro a b (rfl : a = b) h
    exact h

theorem Value.equivalenceOn_iff (M : Set Value) :
    EquivalenceOn Value.equal Value.notEqual M ↔ ∀ v ∈ M, v.isTerm = true := by
  refine CMarmotta.equivalenceOn_iff (f := Value.plain) ?_ ?_ (fun _ _ => rfl) M
  · intro a b
    exact Value.equal_iff
  · intro a b h ha
    rw [← Value.isTerm_plain, ← h, Value.isTerm_plain]
    exact ha

theorem Statement.equivalenceOn_iff (M : Set Statement) :
    EquivalenceOn Statement.equal Statement.notEqual M ↔ ∀ s ∈ M, s.AllSet := by
  refine CMarmotta.equivalenceOn_iff (f := Statement.plain) ?_ ?_ (fun _ _ => rfl) M
  · intro a b
    exact Statement.equal_iff
  · intro a b h ha
    exact Statement.allSet_of_plain_eq h ha

/-- On a set of resources, of values or of statements, `operator==` is an equivalence with negation
`operator!=` if and only if the alternatives of all messages of the set are set; a statement then
has a context. -/
theorem equality_is_equivalence_iff (R : Set Resource) (V : Set Value) (T : Set Statement) :
    (EquivalenceOn Resource.equal Resource.notEqual R ↔ ∀ r ∈ R, r.isTerm = true) ∧
    (EquivalenceOn Value.equal Value.notEqual V ↔ ∀ v ∈ V, v.isTerm = true) ∧
    (EquivalenceOn Statement.equal Statement.notEqual T ↔
      ∀ s ∈ T, s.getSubject.isTerm = true ∧ s.getObject.isTerm = true ∧
        s.getContext.isTerm = true) :=
  ⟨Resource.equivalenceOn_iff R, Value.equivalenceOn_iff V, Statement.equivalenceOn_iff T⟩

/-- A statement without a context is not equal to itself. -/
theorem equality_not_reflexive_without_context :
    ¬ EquivalenceOn Statement.equal Statement.notEqual Set.univ ∧
      (Statement.ofUris "http://ex.org/s" "http://ex.org/p" "http://ex.org/o").equal
        (Statement.ofUris "http://ex.org/s" "http://ex.org/p" "http://ex.org/o") = false := by
  have hself : (Statement.ofUris "http://ex.org/s" "http://ex.org/p" "http://ex.org/o").equal
      (Statement.ofUris "http://ex.org/s" "http://ex.org/p" "http://ex.org/o") = false := by
    decide
  refine ⟨?_, hself⟩
  intro h
  have := h.refl _ (Set.mem_univ
    (Statement.ofUris "http://ex.org/s" "http://ex.org/p" "http://ex.org/o"))
  rw [hself] at this
  exact Bool.false_ne_true this

/-! ## Hashes of equal messages -/

/-- The two literals agree in whether their datatype is present. -/
def DatatypeLiteral.SamePresence (a b : DatatypeLiteral) : Prop :=
  a.datatype.isSome = b.datatype.isSome

/-- Two datatype literals agree in whether their datatype is present. -/
def Value.SamePresence : Value → Value → Prop
  | .literal (.dataliteral a), .literal (.dataliteral b) => a.SamePresence b
  | _, _ => True

/-- The two statements agree in whether their predicate is present, and so do their objects. -/
def Statement.SamePresence (a b : Statement) : Prop :=
  a.predicate.isSome = b.predicate.isSome ∧ a.getObject.SamePresence b.getObject

theorem eq_of_isSome_eq_of_getD_eq {α : Type} {x y : Option α} {d : α}
    (hs : x.isSome = y.isSome) (h : x.getD d = y.getD d) : x = y := by
  cases x <;> cases y <;> simp_all

theorem isSome_of_getD {α : Type} {p : α → Bool} {d : α} (hd : p d = false) {x : Option α}
    (hx : p (x.getD d) = true) : x.isSome = true := by
  cases x with
  | none => exact hd.symm.trans hx
  | some a => rfl

theorem DatatypeLiteral.eq_iff_of_equal {a b : DatatypeLiteral} (h : a.equal b = true) :
    a = b ↔ a.SamePresence b := by
  refine ⟨fun hab => hab ▸ rfl, fun hp => ?_⟩
  obtain ⟨ca, da⟩ := a
  obtain ⟨cb, db⟩ := b
  have hplain := DatatypeLiteral.equal_iff.mp h
  simp only [DatatypeLiteral.plain, DatatypeLiteral.getDatatype, DatatypeLiteral.mk.injEq,
    Option.some.injEq] at hplain
  obtain ⟨hc, hd⟩ := hplain
  have hdt : da = db := eq_of_isSome_eq_of_getD_eq hp hd
  rw [hc, hdt]

theorem Value.eq_iff_of_equal {a b : Value} (h : a.equal b = true) :
    a = b ↔ a.SamePresence b := by
  rcases a with _ | (_ | u | x) | (_ | l | l) <;> rcases b with _ | (_ | v | y) | (_ | m | m) <;>
    simp_all [Value.equal, Value.SamePresence, URI.equal_iff, BNode.equal_iff,
      StringLiteral.equal_iff, DatatypeLiteral.eq_iff_of_equal]

theorem Statement.eq_iff_of_equal {a b : Statement} (h : a.equal b = true) :
    a = b ↔ a.SamePresence b := by
  obtain ⟨⟨hs, ho, hc⟩, hplain⟩ := Statement.equal_iff.mp h
  obtain ⟨hs', ho', hc'⟩ := Statement.allSet_of_plain_eq hplain ⟨hs, ho, hc⟩
  simp only [Statement.equal, Bool.and_eq_true] at h
  obtain ⟨⟨⟨-, -⟩, hobj⟩, -⟩ := h
  simp only [Statement.plain, Prod.mk.injEq] at hplain
  obtain ⟨hS, hP, -, hC⟩ := hplain
  -- an absent subject, object or context reads as an alternative that is not set
  have hresource : ∀ {x : Option Resource}, (x.getD .notSet).isTerm = true → x.isSome = true :=
    isSome_of_getD rfl
  have hvalue : ∀ {x : Option Value}, (x.getD .notSet).isTerm = true → x.isSome = true :=
    isSome_of_getD rfl
  constructor
  · intro hab
    subst hab
    exact ⟨rfl, (Value.eq_iff_of_equal hobj).mp rfl⟩
  · rintro ⟨hp, hv⟩
    obtain ⟨sa, pa, oa, ca⟩ := a
    obtain ⟨sb, pb, ob, cb⟩ := b
    have hO := (Value.eq_iff_of_equal hobj).mpr hv
    rw [Statement.mk.injEq]
    exact ⟨eq_of_isSome_eq_of_getD_eq ((hresource hs).trans (hresource hs').symm) hS,
      eq_of_isSome_eq_of_getD_eq hp hP,
      eq_of_isSome_eq_of_getD_eq ((hvalue ho).trans (hvalue ho').symm) hO,
      eq_of_isSome_eq_of_getD_eq ((hresource hc).trans (hresource hc').symm) hC⟩

theorem Namespace.eq_iff_of_equal {a b : Namespace} (h : a.equal b = true) :
    a = b ↔ a.nsPrefix = b.nsPrefix := by
  obtain ⟨pa, ua⟩ := a
  obtain ⟨pb, ub⟩ := b
  simp only [Namespace.equal, decide_eq_true_eq] at h
  simp [h]

/-- Messages hash alike under every hash of strings exactly if they are the same message. -/
theorem messageHash_eq_iff {M : Type} (codec : Codec M) {a b : M} :
    (∀ stringHash, messageHash stringHash codec a = messageHash stringHash codec b) ↔ a = b := by
  constructor
  · intro h
    by_contra hab
    have hne : codec.serialize b ≠ codec.serialize a := fun he =>
      hab (codec.serialize_injective he).symm
    have h01 := h fun bytes => if bytes = codec.serialize a then 0 else 1
    rw [messageHash, messageHash, if_pos rfl, if_neg hne] at h01
    exact Nat.zero_ne_one h01
  · intro h stringHash
    rw [h]

/-- Where the serialization is hashed, equality carries over to hashes exactly if it separates the
messages that `same` separates. -/
theorem hash_alike_iff {M : Type} (codec : Codec M) {equal : M → M → Bool} {same : M → M → Prop}
    (hsame : ∀ {a b}, equal a b = true → (a = b ↔ same a b)) (a b : M) :
    (∀ stringHash, equal a b = true →
      messageHash stringHash codec a = messageHash stringHash codec b) ↔
      (equal a b = true → same a b) := by
  rw [forall_comm]
  exact forall_congr' fun h => (messageHash_eq_iff codec).trans (hsame h)

/-- Equal messages have equal hashes, whatever `std::hash<std::string>` is, for URIs, blank nodes,
resources and string literals; for the other messages this holds of two equal messages if and only
if they agree in what equality does not look at: the presence of the datatype of a literal and of
the predicate of a statement, and the prefix of a namespace. -/
theorem equal_messages_hash_alike_iff (σ : Serialization) :
    (∀ (stringHash : Bytes → Nat) (x y : URI), x.equal y = true →
      x.hash stringHash = y.hash stringHash) ∧
    (∀ (stringHash : Bytes → Nat) (x y : BNode), x.equal y = true →
      x.hash stringHash = y.hash stringHash) ∧
    (∀ (stringHash : Bytes → Nat) (x y : Resource), x.equal y = true →
      x.hash stringHash σ.resource = y.hash stringHash σ.resource) ∧
    (∀ (stringHash : Bytes → Nat) (x y : StringLiteral), x.equal y = true →
      x.hash stringHash σ.stringLiteral = y.hash stringHash σ.stringLiteral) ∧
    (∀ x y : DatatypeLiteral,
      (∀ stringHash, x.equal y = true →
        x.hash stringHash σ.datatypeLiteral = y.hash stringHash σ.datatypeLiteral) ↔
      (x.equal y = true → x.SamePresence y)) ∧
    (∀ x y : Value,
      (∀ stringHash, x.equal y = true →
        x.hash stringHash σ.value = y.hash stringHash σ.value) ↔
      (x.equal y = true → x.SamePresence y)) ∧
    (∀ x y : Statement,
      (∀ stringHash, x.equal y = true →
        x.hash stringHash σ.statement = y.hash stringHash σ.statement) ↔
      (x.equal y = true → x.SamePresence y)) ∧
    (∀ x y : Namespace,
      (∀ stringHash, x.equal y = true → x.hash stringHash σ.ns = y.hash stringHash σ.ns) ↔
      (x.equal y = true → x.nsPrefix = y.nsPrefix)) := by
  refine ⟨?_, ?_, ?_, ?_, ?_, ?_, ?_, ?_⟩
  · intro stringHash x y h
    rw [URI.equal_iff.mp h]
  · intro stringHash x y h
    rw [BNode.equal_iff.mp h]
  · intro stringHash x y h
    rw [(Resource.equal_iff.mp h).1]
  · intro stringHash x y h
    rw [StringLiteral.equal_iff.mp h]
  · exact hash_alike_iff σ.datatypeLiteral DatatypeLiteral.eq_iff_of_equal
  · exact hash_alike_iff σ.value Value.eq_iff_of_equal
  · exact hash_alike_iff σ.statement Statement.eq_iff_of_equal
  · exact hash_alike_iff σ.ns Namespace.eq_iff_of_equal

/-- The encodings of the 64-bit x86 platform. -/
def X64.serialization : Serialization where
  resource := X64.resourceCodec
  stringLiteral := X64.stringLiteralCodec
  datatypeLiteral := X64.datatypeLiteralCodec
  value := X64.valueCodec
  statement := X64.statementCodec
  ns := X64.namespaceCodec

/-- The object of the first statement has no datatype, that of the second an empty one. The
statements are equal and so are the namespaces, and their hashes are different. -/
theorem equal_messages_hash_apart :
    let st (datatype : Option URI) : Statement :=
      { subject := some (.uri ⟨"s"⟩), predicate := some ⟨"p"⟩,
        object := some (.literal (.dataliteral ⟨"1", datatype⟩)), context := some (.uri ⟨"c"⟩) }
    (st none).equal (st (some ⟨""⟩)) = true ∧
      (st none).hash X64.stdHash X64.serialization.statement ≠
        (st (some ⟨""⟩)).hash X64.stdHash X64.serialization.statement ∧
      (Namespace.mk "a" "http://ex.org/").equal (Namespace.mk "b" "http://ex.org/") = true ∧
      (Namespace.mk "a" "http://ex.org/").hash X64.stdHash X64.serialization.ns ≠
        (Namespace.mk "b" "http://ex.org/").hash X64.stdHash X64.serialization.ns := by
  refine ⟨by decide, by decide +kernel, by decide, by decide +kernel⟩

end CMarmotta
