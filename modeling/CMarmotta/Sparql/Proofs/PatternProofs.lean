import CMarmotta.Sparql.Proofs.RasqalModelProofs
import CMarmotta.Sparql.RasqalAdapter

/-!
# What a triple pattern selects

`init_triples_match` passes a constant of the pattern, and the value of a bound variable, to the
triple source in the form of its position: as a resource, as a URI or as a value. Position by
position this asks for the term that the literal stands for, as long as it is possible there
(`termAt_eq_iff`). So a variable that a term of an earlier statement is bound to selects the
statements with that term exactly if the term survives the way through rasqal
(`convertValue_asLiteral_iff`).
-/

namespace CMarmotta

open RasqalModel

theorem TripleSource.ofList_exact {statements : List Statement} (h : statements.Nodup) :
    (TripleSource.ofList statements).Exact statements.toFinset := by
  intro args
  refine ⟨h.filter _, fun st => ?_⟩
  simp [TripleSource.ofList]

theorem TripleSource.ofList_coherent (statements : List Statement) :
    (TripleSource.ofList statements).Coherent := by
  intro args
  simp [TripleSource.ofList]

namespace RasqalAdapter

/-! ## Terms and positions -/

/-- The term of a statement at a position. -/
def termAt (st : Statement) : Position → Option Value
  | .S => st.subject.map .resource
  | .P => st.predicate.map fun u => .resource (.uri u)
  | .O => st.object
  | .C => st.context.map .resource

/-- The constant at a position of a pattern, or the value of the variable there. -/
def fixedAt (vars : Variables) (t : Triple) (pos : Position) : Option RasqalLiteral :=
  (t.part pos).bind (argument id vars)

/-- A literal that stands for a term that is possible at the position: a URI or a blank node as
subject and as origin, a URI as predicate. -/
def Fits : Position → RasqalLiteral → Prop
  | .S, .uri _ => True
  | .S, .blank _ => True
  | .S, _ => False
  | .P, .uri _ => True
  | .P, _ => False
  | .O, _ => True
  | .C, .uri _ => True
  | .C, .blank _ => True
  | .C, _ => False

theorem argument_eq {α : Type} (convert : RasqalLiteral → α) (vars : Variables)
    (l : RasqalLiteral) : argument convert vars l = (argument id vars l).map convert := by
  unfold argument
  cases asVariable l with
  | none => rfl
  | some x => simp

/-- The statement agrees with what `init_triples_match` passes for a literal. -/
def AgreesAt (st : Statement) : Position → RasqalLiteral → Prop
  | .S, l => st.subject = some (convertResource l).internal
  | .P, l => st.predicate = some (convertURI l)
  | .O, l => st.object = some (convertValue l).internal
  | .C, l => st.context = some (convertResource l).internal

theorem agrees_arguments_iff {vars : Variables} {t : Triple} {st : Statement} :
    st.Agrees (arguments vars t).pattern ↔
      ∀ pos l, fixedAt vars t pos = some l → AgreesAt st pos l := by
  have hs : (arguments vars t).pattern.subject =
      (fixedAt vars t .S).map fun l => (convertResource l).internal := by
    simp [Arguments.pattern, arguments, fixedAt, Triple.part, argument_eq convertResource,
      Function.comp_def]
  have hp : (arguments vars t).pattern.predicate = (fixedAt vars t .P).map convertURI := by
    simp [Arguments.pattern, arguments, fixedAt, Triple.part, argument_eq convertURI]
  have ho : (arguments vars t).pattern.object =
      (fixedAt vars t .O).map fun l => (convertValue l).internal := by
    simp [Arguments.pattern, arguments, fixedAt, Triple.part, argument_eq convertValue,
      Function.comp_def]
  have hc : (arguments vars t).pattern.context =
      (fixedAt vars t .C).map fun l => (convertResource l).internal := by
    cases horigin : t.origin <;>
      simp [Arguments.pattern, arguments, fixedAt, Triple.part, horigin,
        argument_eq convertResource, Function.comp_def]
  constructor
  · intro h pos l hl
    cases pos with
    | S => exact h.subject _ (by rw [hs, hl]; rfl)
    | P => exact h.predicate _ (by rw [hp, hl]; rfl)
    | O => exact h.object _ (by rw [ho, hl]; rfl)
    | C => exact h.context _ (by rw [hc, hl]; rfl)
  · intro h
    refine ⟨?_, ?_, ?_, ?_⟩
    · intro r hr
      rw [hs] at hr
      obtain ⟨l, hl, rfl⟩ := Option.map_eq_some_iff.mp hr
      exact h .S l hl
    · intro u hu
      rw [hp] at hu
      obtain ⟨l, hl, rfl⟩ := Option.map_eq_some_iff.mp hu
      exact h .P l hl
    · intro v hv
      rw [ho] at hv
      obtain ⟨l, hl, rfl⟩ := Option.map_eq_some_iff.mp hv
      exact h .O l hl
    · intro r hr
      rw [hc] at hr
      obtain ⟨l, hl, rfl⟩ := Option.map_eq_some_iff.mp hr
      exact h .C l hl

/-- A literal converts to a resource exactly if it is possible as a subject. -/
theorem resource_eq_convertValue_iff {r : Resource} {l : RasqalLiteral} :
    Value.resource r = (convertValue l).internal ↔
      Fits .S l ∧ r = (convertResource l).internal := by
  rcases l with u | b | ⟨s, _ | g⟩ | ⟨s, d, n⟩ | x | _
  case typed =>
    cases h : contentOf s.text n <;>
      simp [convertValue, h, Rdf.Value.new, Rdf.Value.ofMessage, Fits]
  all_goals
    simp [Fits, convertValue, convertResource, Rdf.Value.ofMessage, Rdf.Value.new,
      Rdf.Resource.ofMessage]

theorem fits_C_iff {l : RasqalLiteral} : Fits .C l ↔ Fits .S l := by
  cases l <;> exact Iff.rfl

/-- A statement has the term of a literal at a position exactly if the literal is possible there and
the statement agrees with the argument made of it. -/
theorem termAt_eq_iff {st : Statement} {pos : Position} {l : RasqalLiteral} :
    termAt st pos = some (convertValue l).internal ↔ Fits pos l ∧ AgreesAt st pos l := by
  cases pos with
  | S =>
    simp only [termAt, AgreesAt, Option.map_eq_some_iff, resource_eq_convertValue_iff]
    exact ⟨fun ⟨r, hr, hfit, e⟩ => ⟨hfit, e ▸ hr⟩, fun ⟨hfit, h⟩ => ⟨_, h, hfit, rfl⟩⟩
  | P =>
    simp only [termAt, AgreesAt, Option.map_eq_some_iff, resource_eq_convertValue_iff]
    rcases l with u | b | _ | _ | _ | _ <;>
      simp [Fits, convertResource, convertURI, Rdf.Resource.ofMessage]
  | O => simp [termAt, AgreesAt, Fits]
  | C =>
    simp only [termAt, AgreesAt, fits_C_iff, Option.map_eq_some_iff, resource_eq_convertValue_iff]
    exact ⟨fun ⟨r, hr, hfit, e⟩ => ⟨hfit, e ▸ hr⟩, fun ⟨hfit, h⟩ => ⟨_, h, hfit, rfl⟩⟩

theorem fixedAt_of_bindings {vars : Variables} {t : Triple} {pos : Position} {x : String}
    (h : bindings t pos = some x) : fixedAt vars t pos = vars x := by
  obtain ⟨l, hl, hx⟩ := Option.bind_eq_some_iff.mp h
  rw [fixedAt, hl, Option.bind_some, argument, hx]
  exact Option.map_id_apply

theorem mem_initTriplesMatch_iff {source : TripleSource} {S : Finset Statement}
    (hsource : source.Exact S) {vars : Variables} {t : Triple} {st : Statement} :
    st ∈ (initTriplesMatch source vars t).iterator ↔
      st ∈ S ∧ ∀ pos l, fixedAt vars t pos = some l → AgreesAt st pos l := by
  rw [← agrees_arguments_iff]
  exact (hsource (arguments vars t)).2 st

/-! ## The term of a bound variable -/

/-- The term can stand at the position. -/
def PossibleAt (v : Value) : Position → Prop
  | .S => ∃ r, v = .resource r
  | .P => ∃ u, v = .resource (.uri u)
  | .O => True
  | .C => ∃ r, v = .resource r

/-- In every pattern, over every source, a variable with the value `value` selects exactly the
statements that have the term `v` at its positions and agree with the rest of the pattern. -/
def SelectsTerm (value : Option RasqalLiteral) (v : Value) : Prop :=
  ∀ (source : TripleSource) (S : Finset Statement), source.Exact S →
    ∀ (vars : Variables) (t : Triple) (x : String), vars x = value →
      (∀ pos, bindings t pos = some x → PossibleAt v pos) →
      ∀ st, st ∈ (initTriplesMatch source vars t).iterator ↔
        st ∈ S ∧ (∀ pos, bindings t pos = some x → termAt st pos = some v) ∧
          ∀ pos l, bindings t pos ≠ some x → fixedAt vars t pos = some l → AgreesAt st pos l

theorem convertValue_eq_ofMessage (l : RasqalLiteral) :
    convertValue l = .ofMessage (convertValue l).internal := by
  rcases l with u | b | ⟨s, _ | g⟩ | ⟨s, d, n⟩ | x | _
  · rfl
  · rfl
  · rfl
  · rfl
  · cases h : contentOf s.text n with
    | none => simp [convertValue, h, Rdf.Value.new, Rdf.Value.ofMessage]
    | some label => simp [convertValue, h, Rdf.Value.ofMessage]
  · rfl
  · rfl

/-- A literal for a term is possible where the term is. -/
theorem PossibleAt.fits {v : Value} {l : RasqalLiteral} {pos : Position} (h : PossibleAt v pos)
    (hl : (convertValue l).internal = v) : Fits pos l := by
  cases pos with
  | S =>
    obtain ⟨r, rfl⟩ := h
    exact (resource_eq_convertValue_iff.mp hl.symm).1
  | P =>
    obtain ⟨u, rfl⟩ := h
    obtain ⟨hfit, hu⟩ := resource_eq_convertValue_iff.mp hl.symm
    -- of the literals for a resource only one for a blank node is not possible here
    rcases l with i | b | _ | _ | _ | _
    · exact trivial
    · cases hu
    all_goals exact hfit.elim
  | O => exact trivial
  | C =>
    obtain ⟨r, rfl⟩ := h
    exact fits_C_iff.mpr (resource_eq_convertValue_iff.mp hl.symm).1

/-- The pattern of two free variables and the variable `o`. -/
def objectPattern : Triple where
  subject := .variable "s"
  predicate := .variable "p"
  object := .variable "o"
  origin := none
  flags pos := pos ≠ .C

theorem bindings_objectPattern {pos : Position} :
    bindings objectPattern pos = some "o" ↔ pos = .O := by
  cases pos <;> decide

/-- The variable selects too much without a value, and without the statement with the object `v` if
its value stands for another term. -/
theorem SelectsTerm.converts {value : Option RasqalLiteral} {v : Value}
    (h : SelectsTerm value v) : value.map convertValue = some (.ofMessage v) := by
  let vars : Variables := fun x => if x = "o" then value else none
  have hobject : fixedAt vars objectPattern .O = value :=
    fixedAt_of_bindings (bindings_objectPattern.mpr rfl)
  have hfree : ∀ pos, pos ≠ .O → fixedAt vars objectPattern pos = none := by
    intro pos hpos
    cases pos with
    | S => rfl
    | P => rfl
    | O => exact absurd rfl hpos
    | C => rfl
  have hexact := TripleSource.ofList_exact
    (show [{ object := some v }, ({} : Statement)].Nodup by simp)
  have hselects := h _ _ hexact vars objectPattern "o" rfl fun pos hpos => by
    rw [bindings_objectPattern.mp hpos]
    exact trivial
  have hiff := fun st => (mem_initTriplesMatch_iff hexact).symm.trans (hselects st)
  cases hvalue : value with
  | none =>
    have hempty := ((hiff {}).mp ⟨by simp, fun pos l hl => ?_⟩).2.1 .O
      (bindings_objectPattern.mpr rfl)
    · exact absurd hempty.symm (Option.some_ne_none v)
    · by_cases hpos : pos = .O
      · rw [hpos, hobject, hvalue] at hl
        cases hl
      · rw [hfree pos hpos] at hl
        cases hl
  | some l =>
    have hv := ((hiff { object := some v }).mpr
      ⟨by simp, fun pos hpos => ?_, fun pos l' hpos hl' => ?_⟩).2 .O l (hobject.trans hvalue)
    · rw [Option.map_some, convertValue_eq_ofMessage l, ← Option.some.inj hv]
    · rw [bindings_objectPattern.mp hpos]
      rfl
    · rw [hfree pos (mt bindings_objectPattern.mpr hpos)] at hl'
      cases hl'

theorem selectsTerm_of_converts {value : Option RasqalLiteral} {v : Value}
    (h : value.map convertValue = some (.ofMessage v)) : SelectsTerm value v := by
  obtain ⟨l, rfl, hl⟩ := Option.map_eq_some_iff.mp h
  have hv : (convertValue l).internal = v := by rw [hl]; rfl
  intro source S hsource vars t x hx hpossible st
  have hfixed : ∀ {pos}, bindings t pos = some x → fixedAt vars t pos = some l := fun hpos =>
    (fixedAt_of_bindings hpos).trans hx
  rw [mem_initTriplesMatch_iff hsource]
  refine and_congr_right fun _ => ?_
  constructor
  · intro hall
    refine ⟨fun pos hpos => ?_, fun pos l' _ hl' => hall pos l' hl'⟩
    rw [← hv]
    exact termAt_eq_iff.mpr ⟨(hpossible pos hpos).fits hv, hall pos l (hfixed hpos)⟩
  · rintro ⟨hterm, hrest⟩ pos l' hl'
    by_cases hpos : bindings t pos = some x
    · obtain rfl : l = l' := Option.some.inj ((hfixed hpos).symm.trans hl')
      have hst := hterm pos hpos
      rw [← hv] at hst
      exact (termAt_eq_iff.mp hst).2
    · exact hrest pos l' hpos hl'

end RasqalAdapter

open RasqalAdapter

/-- A term comes back from rasqal as it was, and a variable that holds it selects in every pattern
exactly the statements with that term, if and only if the term survives: its strings have no zero
character, a URI is not empty, and a literal with a datatype is of a datatype rasqal knows and its
content is how the value is printed. -/
theorem convertValue_asLiteral_iff [Rasqal] (v : Value) :
    ((asLiteral (.ofMessage v)).map convertValue = some (.ofMessage v) ↔ v.Survives) ∧
    (SelectsTerm (asLiteral (.ofMessage v)) v ↔ v.Survives) := by
  refine ⟨convertValue_asLiteral, ?_⟩
  rw [← convertValue_asLiteral]
  constructor
  · intro h
    exact h.converts
  · intro h
    exact selectsTerm_of_converts h

/-- An integer written with a leading zero comes back without it. -/
theorem convertValue_asLiteral_integer :
    let term (content : String) : Value :=
      .literal (.dataliteral ⟨content, some ⟨"http://www.w3.org/2001/XMLSchema#integer"⟩⟩)
    ((@asLiteral Rasqal.basic (.ofMessage (term "01"))).map convertValue =
        some (.ofMessage (term "1"))) ∧
      (@asLiteral Rasqal.basic (.ofMessage (term "01"))).map convertValue ≠
        some (.ofMessage (term "01")) := by
  intro term
  have hback : (@asLiteral Rasqal.basic (.ofMessage (term "01"))).map convertValue =
      some (.ofMessage (term "1")) := by
    decide +kernel
  refine ⟨hback, ?_⟩
  rw [hback]
  decide +kernel

end CMarmotta
