import CMarmotta.Lib.NestedLoops
import CMarmotta.Sparql.GraphPattern
import CMarmotta.Sparql.Proofs.LevelDBSparqlProofs
import CMarmotta.Sparql.Proofs.RasqalAdapterProofs

/-!
# The solutions of a basic graph pattern

A solution of a basic graph pattern gives terms to its variables and names, for each triple that is
matched, a statement that the triple then is; a triple that is only looked up is some statement. If
rasqal takes the triples one after another, its rows are the solutions over the statements in the
databases, one row for each (`evaluate_solutions`). The pattern has to avoid what goes wrong for
single triples: a variable twice in the triple that binds it, terms that do not survive the way
through rasqal, arguments that are not the leading ones of an index, and an origin that the flags of
an exact triple do not tell.
-/

namespace CMarmotta.RasqalAdapter

open RasqalModel NestedLoops

/-! ## What a solution is -/

/-- Terms for variables. -/
abbrev Assignment := String → Option Value

/-- The terms that the variables of rasqal stand for. -/
def terms (vars : Variables) : Assignment := fun x => (vars x).map fun l => (convertValue l).internal

/-- The term of a literal of a pattern. -/
def Assignment.term (θ : Assignment) (l : RasqalLiteral) : Option Value :=
  match asVariable l with
  | some x => θ x
  | none => some (convertValue l).internal

/-- The triple is the statement if its variables stand for these terms. -/
def IsInstance (θ : Assignment) (t : Triple) (st : Statement) : Prop :=
  ∀ pos l, t.part pos = some l → ∃ v, termAt st pos = some v ∧ θ.term l = some v

/-- What is chosen for a triple: a statement of `S` that the triple is, or nothing for an exact
triple, which only has to be some statement. -/
def IsChoice (S : Finset Statement) (θ : Assignment) (t : Triple) : Option Statement → Prop
  | none => t.isExact = true ∧ ∃ st ∈ S, IsInstance θ t st
  | some st => t.isExact = false ∧ st ∈ S ∧ IsInstance θ t st

theorem IsChoice.exists_isInstance {S : Finset Statement} {θ : Assignment} {t : Triple}
    {c : Option Statement} (h : IsChoice S θ t c) : ∃ st, IsInstance θ t st := by
  cases c with
  | none =>
    obtain ⟨-, st, -, hinstance⟩ := h
    exact ⟨st, hinstance⟩
  | some st => exact ⟨st, h.2.2⟩

/-- A solution that extends an assignment: the triples are statements of `S`, and only their variables
get new terms. -/
structure SolvesFrom (S : Finset Statement) (θ₀ : Assignment) (ts : List Triple)
    (sts : List (Option Statement)) (θ : Assignment) : Prop where
  instances : List.Forall₂ (IsChoice S θ) ts sts
  keeps : ∀ x v, θ₀ x = some v → θ x = some v
  adds : ∀ x, θ x ≠ none → θ₀ x ≠ none ∨ ∃ t ∈ ts, x ∈ t.varNames

/-- A solution of a basic graph pattern over the statements `S`. -/
def Solves (S : Finset Statement) (ts : List Triple) (sts : List (Option Statement))
    (θ : Assignment) : Prop :=
  SolvesFrom S (fun _ => none) ts sts θ

/-! ## Regular patterns -/

section Regular

variable [Rasqal]

/-- A triple that can be matched when the variables in `bound` have values: its constants are
possible at their positions, no other variable stands in it twice, and the terms of the statements
`K` at the positions of its variables survive the way through rasqal. If the triple is exact, its
origin is no variable, and the flags tell whether there is one. -/
structure Triple.Regular (K : List Statement) (bound : List String) (t : Triple) : Prop where
  fits : ∀ pos l, t.part pos = some l → asVariable l = none → Fits pos l
  once : ∀ pos pos' x, bindings t pos = some x → bindings t pos' = some x → x ∉ bound → pos = pos'
  survives : ∀ st ∈ K, ∀ pos, bindings t pos ≠ none → ∃ v, termAt st pos = some v ∧ v.Survives
  leading : t.fixesLeading bound = true
  exact : t.isExact = true → bindings t .C = none ∧ t.flags .C = t.origin.isSome

/-- All triples of a pattern can be matched, one after another. -/
def RegularFrom (K : List Statement) : List String → List Triple → Prop
  | _, [] => True
  | bound, t :: ts => t.Regular K bound ∧ RegularFrom K (bound ++ t.varNames) ts

variable [Platform]

open Platform

/-- The bytes that a literal is looked up with at a position. -/
def literalPart (l : RasqalLiteral) : Position → Bytes
  | .S => resourceCodec.serialize (convertResource l).internal
  | .P => uriCodec.serialize (convertURI l)
  | .O => valueCodec.serialize (convertValue l).internal
  | .C => resourceCodec.serialize (convertResource l).internal

/-- The literals of statements. -/
def literals (K : List Statement) : List RasqalLiteral :=
  K.flatMap fun st => [Position.S, .P, .O, .C].filterMap (literalAt st)

/-- A regular pattern over statements among `K`. The hash tells its constants and the terms of the
statements apart, at any position, and no graph variable stands as an object. -/
structure RegularPattern (K : List Statement) (ts : List Triple) : Prop where
  triples : RegularFrom K [] ts
  graphs : ∀ t ∈ ts, ∀ t' ∈ ts, ∀ x, bindings t .C = some x → bindings t' .O ≠ some x
  apart : ∀ l ∈ ts.flatMap Triple.constants ++ literals K, ∀ st ∈ K, ∀ pos,
    murmur3 (literalPart l pos) = stmtHash st pos → literalPart l pos = st.part pos

end Regular

theorem mem_positions (pos : Position) : pos ∈ [Position.S, .P, .O, .C] := by
  cases pos <;> decide

theorem Triple.mem_varNames {t : Triple} {x : String} :
    x ∈ t.varNames ↔ ∃ pos, bindings t pos = some x := by
  rw [varNames, List.mem_filterMap]
  exact ⟨fun ⟨pos, _, h⟩ => ⟨pos, h⟩, fun ⟨pos, h⟩ => ⟨pos, mem_positions pos, h⟩⟩

theorem Triple.Regular.bindings_of_isExact [Rasqal] {K : List Statement} {bound : List String}
    {t : Triple} (h : t.Regular K bound) (hexact : t.isExact = true) (pos : Position) :
    bindings t pos = none := by
  have hparts := List.all_eq_true.mp hexact
  cases pos with
  | S => exact Option.isNone_iff_eq_none.mp (hparts .S (by decide))
  | P => exact Option.isNone_iff_eq_none.mp (hparts .P (by decide))
  | O => exact Option.isNone_iff_eq_none.mp (hparts .O (by decide))
  | C => exact (h.exact hexact).1

theorem Triple.Regular.varNames_of_isExact [Rasqal] {K : List Statement} {bound : List String}
    {t : Triple} (h : t.Regular K bound) (hexact : t.isExact = true) : t.varNames = [] := by
  rw [List.eq_nil_iff_forall_not_mem]
  intro x hx
  obtain ⟨pos, hpos⟩ := mem_varNames.mp hx
  rw [h.bindings_of_isExact hexact pos] at hpos
  cases hpos

theorem RegularFrom.varNames_of_isExact [Rasqal] {K : List Statement} {bound : List String}
    {ts : List Triple} (h : RegularFrom K bound ts) :
    ∀ t ∈ ts, t.isExact = true → t.varNames = [] := by
  induction ts generalizing bound with
  | nil => exact fun t ht => absurd ht List.not_mem_nil
  | cons t ts ih => exact List.forall_mem_cons.mpr ⟨h.1.varNames_of_isExact, ih h.2⟩

/-! ## Extending an assignment by a triple -/

section Assignments

variable {S : Finset Statement} {θ θ' θ₁ θ₂ : Assignment} {t : Triple} {st : Statement}

/-- The triple is the statement, and only the variables of the triple get new terms. -/
structure Extends (θ : Assignment) (t : Triple) (st : Statement) (θ' : Assignment) : Prop where
  isInstance : IsInstance θ' t st
  keeps : ∀ x v, θ x = some v → θ' x = some v
  adds : ∀ x, θ' x ≠ none → θ x ≠ none ∨ x ∈ t.varNames

theorem part_of_bindings {pos : Position} {x : String} (h : bindings t pos = some x) :
    ∃ l, t.part pos = some l ∧ asVariable l = some x := Option.bind_eq_some_iff.mp h

theorem IsInstance.apply (h : IsInstance θ t st) {pos : Position} {x : String}
    (hx : bindings t pos = some x) : θ x = termAt st pos := by
  obtain ⟨l, hl, hvar⟩ := part_of_bindings hx
  obtain ⟨v, hv, hterm⟩ := h pos l hl
  rw [Assignment.term, hvar] at hterm
  rw [hv]
  exact hterm

theorem IsInstance.mono (h : IsInstance θ t st) (hle : ∀ x v, θ x = some v → θ' x = some v) :
    IsInstance θ' t st := by
  intro pos l hl
  obtain ⟨v, hv, hterm⟩ := h pos l hl
  refine ⟨v, hv, ?_⟩
  rw [Assignment.term] at hterm ⊢
  cases hvar : asVariable l with
  | none =>
    rw [hvar] at hterm
    exact hterm
  | some x =>
    rw [hvar] at hterm
    exact hle x v hterm

/-- The terms that are known after a triple. -/
def Assignment.upTo (θ θ' : Assignment) (t : Triple) : Assignment :=
  fun x => open Classical in if θ x ≠ none ∨ x ∈ t.varNames then θ' x else none

theorem upTo_of_known {x : String} (h : θ x ≠ none ∨ x ∈ t.varNames) : θ.upTo θ' t x = θ' x :=
  if_pos h

theorem eq_of_upTo {x : String} {v : Value} (h : θ.upTo θ' t x = some v) : θ' x = some v := by
  by_cases hknown : θ x ≠ none ∨ x ∈ t.varNames
  · rwa [upTo_of_known hknown] at h
  · exact absurd ((if_neg hknown).symm.trans h) (Option.some_ne_none v).symm

theorem IsInstance.extends_upTo (h : IsInstance θ' t st)
    (hkeeps : ∀ x v, θ x = some v → θ' x = some v) : Extends θ t st (θ.upTo θ' t) := by
  refine ⟨?_, ?_, ?_⟩
  · intro pos l hl
    obtain ⟨v, hv, hterm⟩ := h pos l hl
    refine ⟨v, hv, ?_⟩
    rw [Assignment.term] at hterm ⊢
    cases hvar : asVariable l with
    | none =>
      rw [hvar] at hterm
      exact hterm
    | some x =>
      rw [hvar] at hterm
      have hname : x ∈ t.varNames :=
        Triple.mem_varNames.mpr ⟨pos, Option.bind_eq_some_iff.mpr ⟨l, hl, hvar⟩⟩
      exact (upTo_of_known (Or.inr hname)).trans hterm
  · intro x v hx
    exact (upTo_of_known (Or.inl (hx ▸ Option.some_ne_none v))).trans (hkeeps x v hx)
  · intro x hx
    by_contra hknown
    exact hx (if_neg hknown)

/-- A choice for a triple, with the terms that it adds. -/
def Takes (S : Finset Statement) (θ : Assignment) (t : Triple) :
    Option Statement → Assignment → Prop
  | none, θ' => t.isExact = true ∧ ∃ st ∈ S, Extends θ t st θ'
  | some st, θ' => t.isExact = false ∧ st ∈ S ∧ Extends θ t st θ'

theorem IsChoice.takes_upTo {c : Option Statement} (h : IsChoice S θ' t c)
    (hkeeps : ∀ x v, θ x = some v → θ' x = some v) : Takes S θ t c (θ.upTo θ' t) := by
  cases c with
  | none =>
    obtain ⟨hexact, st, hst, hinstance⟩ := h
    exact ⟨hexact, st, hst, hinstance.extends_upTo hkeeps⟩
  | some st => exact ⟨h.1, h.2.1, h.2.2.extends_upTo hkeeps⟩

theorem Takes.exists_extends {c : Option Statement} (h : Takes S θ t c θ') :
    ∃ st ∈ S, Extends θ t st θ' := by
  cases c with
  | none => exact h.2
  | some st => exact ⟨st, h.2⟩

theorem Takes.isChoice {c : Option Statement} (h : Takes S θ t c θ₁)
    (hle : ∀ x v, θ₁ x = some v → θ' x = some v) : IsChoice S θ' t c := by
  cases c with
  | none =>
    obtain ⟨hexact, st, hst, hextends⟩ := h
    exact ⟨hexact, st, hst, hextends.isInstance.mono hle⟩
  | some st => exact ⟨h.1, h.2.1, h.2.2.isInstance.mono hle⟩

/-- A solution of a pattern is one of its first triple, extended to one of the others. -/
theorem solvesFrom_cons_iff {ts : List Triple} {c : Option Statement}
    {sts : List (Option Statement)} :
    SolvesFrom S θ (t :: ts) (c :: sts) θ' ↔
      ∃ θ₁, Takes S θ t c θ₁ ∧ SolvesFrom S θ₁ ts sts θ' := by
  constructor
  · rintro ⟨hinstances, hkeeps, hadds⟩
    obtain ⟨hchoice, hrest⟩ := List.forall₂_cons.mp hinstances
    refine ⟨θ.upTo θ' t, hchoice.takes_upTo hkeeps, hrest, fun x v => eq_of_upTo, ?_⟩
    intro x hx
    by_cases hknown : θ x ≠ none ∨ x ∈ t.varNames
    · exact Or.inl (by rwa [upTo_of_known hknown])
    · refine Or.inr ?_
      rcases hadds x hx with h | ⟨t', ht', hname⟩
      · exact absurd (Or.inl h) hknown
      · rcases List.mem_cons.mp ht' with rfl | ht'
        · exact absurd (Or.inr hname) hknown
        · exact ⟨t', ht', hname⟩
  · rintro ⟨θ₁, htakes, hrest, hkeeps, hadds⟩
    obtain ⟨st, -, -, hkeeps₁, hadds₁⟩ := htakes.exists_extends
    refine ⟨.cons (htakes.isChoice hkeeps) hrest, ?_, ?_⟩
    · intro x v hx
      exact hkeeps x v (hkeeps₁ x v hx)
    · intro x hx
      rcases hadds x hx with h | ⟨t', ht', hname⟩
      · exact (hadds₁ x h).imp_right fun hname => ⟨t, List.mem_cons_self, hname⟩
      · exact Or.inr ⟨t', List.mem_cons_of_mem t ht', hname⟩

theorem Extends.unique (h₁ : Extends θ t st θ₁) (h₂ : Extends θ t st θ₂) : θ₁ = θ₂ := by
  funext x
  cases hx : θ x with
  | some v => rw [h₁.keeps x v hx, h₂.keeps x v hx]
  | none =>
    by_cases hname : x ∈ t.varNames
    · obtain ⟨pos, hpos⟩ := Triple.mem_varNames.mp hname
      rw [h₁.isInstance.apply hpos, h₂.isInstance.apply hpos]
    · have hnone : ∀ {θ' : Assignment}, Extends θ t st θ' → θ' x = none := by
        intro θ' h
        by_contra hsome
        exact (h.adds x hsome).elim (fun hne => hne hx) hname
      rw [hnone h₁, hnone h₂]

/-- A triple without variables adds no terms. -/
theorem Extends.eq_self (h : Extends θ t st θ') (hnames : t.varNames = []) : θ' = θ := by
  funext x
  cases hx : θ x with
  | some v => exact h.keeps x v hx
  | none =>
    by_contra hsome
    rcases h.adds x hsome with hne | hname
    · exact hne hx
    · rw [hnames] at hname
      exact List.not_mem_nil hname

theorem Takes.unique {c : Option Statement} (hexact : t.isExact = true → t.varNames = [])
    (h₁ : Takes S θ t c θ₁) (h₂ : Takes S θ t c θ₂) : θ₁ = θ₂ := by
  cases c with
  | none =>
    obtain ⟨htrue, st₁, -, hextends₁⟩ := h₁
    obtain ⟨-, st₂, -, hextends₂⟩ := h₂
    rw [hextends₁.eq_self (hexact htrue), hextends₂.eq_self (hexact htrue)]
  | some st => exact h₁.2.2.unique h₂.2.2

/-- The choices decide the terms. -/
theorem SolvesFrom.unique {ts : List Triple} {sts : List (Option Statement)}
    (hexact : ∀ t ∈ ts, t.isExact = true → t.varNames = []) (h₁ : SolvesFrom S θ ts sts θ₁)
    (h₂ : SolvesFrom S θ ts sts θ₂) : θ₁ = θ₂ := by
  induction ts generalizing θ sts with
  | nil =>
    have hsame : ∀ {θ' : Assignment}, SolvesFrom S θ [] sts θ' → θ' = θ := by
      intro θ' h
      funext x
      cases hx : θ x with
      | some v => exact h.keeps x v hx
      | none =>
        by_contra hsome
        rcases h.adds x hsome with hne | ⟨t, ht, -⟩
        · exact hne hx
        · exact absurd ht List.not_mem_nil
    rw [hsame h₁, hsame h₂]
  | cons t ts ih =>
    obtain ⟨c, sts, -, -, rfl⟩ := List.forall₂_cons_left_iff.mp h₁.instances
    obtain ⟨θ', htakes, hrest₁⟩ := solvesFrom_cons_iff.mp h₁
    obtain ⟨θ'', htakes', hrest₂⟩ := solvesFrom_cons_iff.mp h₂
    obtain ⟨ht, hts⟩ := List.forall_mem_cons.mp hexact
    obtain rfl := htakes.unique ht htakes'
    exact ih hts hrest₁ hrest₂

/-- The solutions do not depend on the order of the triples. -/
theorem exists_reorder_solves {ts ts' : List Triple} (h : ts.Perm ts') (S : Finset Statement) :
    ∃ f : List (Option Statement) → List (Option Statement),
      (∀ sts θ, Solves S ts sts θ → Solves S ts' (f sts) θ) ∧
      ∀ sts sts' θ θ', Solves S ts sts θ → Solves S ts sts' θ' → f sts = f sts' → sts = sts' := by
  obtain ⟨f, -, hinj, hforall⟩ := exists_reorder h
  refine ⟨f, fun sts θ hsolves => ⟨hforall _ _ hsolves.instances, hsolves.keeps, fun x hx => ?_⟩, ?_⟩
  · refine (hsolves.adds x hx).imp_right fun ⟨t, ht, hname⟩ => ⟨t, h.mem_iff.mp ht, hname⟩
  · intro sts sts' θ θ' hsolves hsolves' heq
    have hlength := hsolves.instances.length_eq
    have hlength' := hsolves'.instances.length_eq
    exact hinj sts sts' hlength.symm hlength'.symm heq

end Assignments

/-! ## Matching one triple -/

section Matches

variable [Rasqal] {K : List Statement} {bound : List String} {vars row : Variables} {t : Triple}
  {st : Statement}

/-- The literal of a statement at a position is that of its term. -/
theorem literalAt_eq {pos : Position} {v : Value} (h : termAt st pos = some v)
    (hsurvives : v.Survives) : literalAt st pos = asLiteral (.ofMessage v) := by
  obtain ⟨s, p, o, c⟩ := st
  have hresource : ∀ r : Resource, v = .resource r →
      asLiteralResource (.ofMessage r) = asLiteral (.ofMessage v) := by
    rintro (_ | u | b) rfl
    · exact hsurvives.elim
    · rfl
    · rfl
  cases pos with
  | S =>
    obtain ⟨r, rfl, hr⟩ := Option.map_eq_some_iff.mp h
    exact hresource r hr.symm
  | P =>
    obtain ⟨u, rfl, rfl⟩ := Option.map_eq_some_iff.mp h
    rfl
  | O =>
    obtain rfl : o = some v := h
    rfl
  | C =>
    obtain ⟨r, rfl, hr⟩ := Option.map_eq_some_iff.mp h
    exact hresource r hr.symm

/-- A term that survives is bound to a literal that stands for it. -/
theorem exists_literalAt {pos : Position} {v : Value} (h : termAt st pos = some v)
    (hsurvives : v.Survives) :
    ∃ l, literalAt st pos = some l ∧ (convertValue l).internal = v := by
  have hconvert := convertValue_asLiteral.mpr hsurvives
  rw [← literalAt_eq h hsurvives] at hconvert
  obtain ⟨l, hl, hv⟩ := Option.map_eq_some_iff.mp hconvert
  refine ⟨l, hl, ?_⟩
  rw [hv]
  rfl

/-- What a statement with a term agrees with is possible at the position. -/
theorem fits_of_agreesAt {pos : Position} {v : Value} {l : RasqalLiteral}
    (hagrees : AgreesAt st pos l) (hterm : termAt st pos = some v) (hsurvives : v.Survives) :
    Fits pos l := by
  have hresource : ∀ r : Resource, r = (convertResource l).internal → v = .resource r →
      Fits .S l := by
    rintro r hr rfl
    rcases l with u | b | _ | _ | _ | _
    · exact trivial
    · exact trivial
    all_goals
      obtain rfl : r = .notSet := hr
      exact hsurvives.elim
  cases pos with
  | S =>
    obtain ⟨r, hr, rfl⟩ := Option.map_eq_some_iff.mp hterm
    exact hresource r (Option.some.inj (hr.symm.trans hagrees)) rfl
  | P =>
    obtain ⟨u, hu, rfl⟩ := Option.map_eq_some_iff.mp hterm
    have hurl : u = convertURI l := Option.some.inj (hu.symm.trans hagrees)
    rcases l with u' | _ | _ | _ | _ | _
    · exact trivial
    all_goals
      obtain rfl : u = ⟨""⟩ := hurl
      exact absurd rfl hsurvives.1
  | O => exact trivial
  | C =>
    obtain ⟨r, hr, rfl⟩ := Option.map_eq_some_iff.mp hterm
    exact fits_C_iff.mpr (hresource r (Option.some.inj (hr.symm.trans hagrees)) rfl)

namespace Triple.Regular

variable (h : t.Regular K bound) (hst : st ∈ K)

include h hst

/-- The literal of a statement at the position of a variable. -/
theorem exists_literalAt {pos : Position} {x : String} (hpos : bindings t pos = some x) :
    ∃ v l, termAt st pos = some v ∧ literalAt st pos = some l ∧ (convertValue l).internal = v := by
  obtain ⟨v, hv, hsurvives⟩ := h.survives st hst pos (hpos ▸ Option.some_ne_none x)
  obtain ⟨l, hl, hlv⟩ := RasqalAdapter.exists_literalAt hv hsurvives
  exact ⟨v, l, hv, hl, hlv⟩

theorem consistent (hbound : ∀ x, vars x ≠ none ↔ x ∈ bound) : Consistent vars t st := by
  intro x hx
  have hfree : x ∉ bound := fun hmem => (hbound x).mpr hmem hx
  by_cases hname : x ∈ t.varNames
  · obtain ⟨pos, hpos⟩ := Triple.mem_varNames.mp hname
    obtain ⟨v, l, -, hl, -⟩ := h.exists_literalAt hst hpos
    refine ⟨l, fun pos' hpos' => ?_⟩
    rw [← h.once pos pos' x hpos hpos' hfree]
    exact hl
  · refine ⟨.other, fun pos hpos => ?_⟩
    exact absurd (Triple.mem_varNames.mpr ⟨pos, hpos⟩) hname

/-- The statements that the arguments select match the triple. -/
theorem matches_of_agrees (hbound : ∀ x, vars x ≠ none ↔ x ∈ bound)
    (hagrees : st.Agrees (arguments vars t).pattern) : Matches vars t st := by
  refine matches_iff.mpr ⟨hagrees, h.consistent hst hbound, fun pos l hl => ?_⟩
  have hat := agrees_arguments_iff.mp hagrees pos l hl
  obtain ⟨part, hpart, hargument⟩ := Option.bind_eq_some_iff.mp hl
  cases hvar : asVariable part with
  | none =>
    rw [argument, hvar] at hargument
    obtain rfl : part = l := Option.some.inj hargument
    exact h.fits pos part hpart hvar
  | some x =>
    have hpos : bindings t pos ≠ none := by
      rw [show bindings t pos = some x from Option.bind_eq_some_iff.mpr ⟨part, hpart, hvar⟩]
      exact Option.some_ne_none x
    obtain ⟨v, hv, hsurvives⟩ := h.survives st hst pos hpos
    exact fits_of_agreesAt hat hv hsurvives

/-- The row of a statement extends the terms of the variables. -/
theorem extends_of_solution (hmatches : Matches vars t st) (hsolution : Solution vars t st row) :
    Extends (terms vars) t st (terms row) := by
  have hkeeps : ∀ x, vars x ≠ none → row x = vars x :=
    fun x hx => hsolution.keeps x fun _ _ => hx
  refine ⟨fun pos l hl => ?_, fun x v hx => ?_, fun x hx => ?_⟩
  · rw [Assignment.term]
    cases hvar : asVariable l with
    | none =>
      have hfixed : fixedAt vars t pos = some l := by
        rw [fixedAt, hl, Option.bind_some, argument, hvar]
        rfl
      exact ⟨_, hmatches.fixed pos l hfixed, rfl⟩
    | some x =>
      have hpos : bindings t pos = some x := Option.bind_eq_some_iff.mpr ⟨l, hl, hvar⟩
      cases hx : vars x with
      | some l' =>
        have hfixed : fixedAt vars t pos = some l' := (fixedAt_of_bindings hpos).trans hx
        refine ⟨_, hmatches.fixed pos l' hfixed, ?_⟩
        show terms row x = _
        rw [terms, hkeeps x (hx ▸ Option.some_ne_none l'), hx, Option.map_some]
      | none =>
        obtain ⟨v, l', hv, hl', hlv⟩ := h.exists_literalAt hst hpos
        refine ⟨v, hv, ?_⟩
        show terms row x = _
        rw [terms, hsolution.holds pos x hpos hx, hl', Option.map_some, hlv]
  · obtain ⟨l, hl, rfl⟩ := Option.map_eq_some_iff.mp hx
    rw [terms, hkeeps x (hl ▸ Option.some_ne_none l), hl, Option.map_some]
  · by_cases hname : x ∈ t.varNames
    · exact Or.inr hname
    · have hold : row x = vars x := by
        refine hsolution.keeps x fun pos hpos => ?_
        exact absurd (Triple.mem_varNames.mpr ⟨pos, hpos⟩) hname
      rw [terms, hold] at hx
      exact Or.inl hx

/-- A statement that the triple is, under terms that extend those of the variables, matches. -/
theorem matches_of_extends (hbound : ∀ x, vars x ≠ none ↔ x ∈ bound) {θ : Assignment}
    (hextends : Extends (terms vars) t st θ) : Matches vars t st := by
  refine ⟨fun pos l hl => ?_, h.consistent hst hbound⟩
  obtain ⟨part, hpart, hargument⟩ := Option.bind_eq_some_iff.mp hl
  obtain ⟨v, hv, hterm⟩ := hextends.isInstance pos part hpart
  rw [Assignment.term] at hterm
  rw [argument] at hargument
  cases hvar : asVariable part with
  | none =>
    rw [hvar] at hterm hargument
    obtain rfl : part = l := Option.some.inj hargument
    rw [hv, ← hterm]
  | some x =>
    rw [hvar] at hterm hargument
    have hx : vars x = some l := by simpa using hargument
    have hkept := hextends.keeps x (convertValue l).internal (by rw [terms, hx, Option.map_some])
    rw [hv, ← hterm]
    exact hkept

/-- After the triple its variables have values too. -/
theorem bound_of_solution (hbound : ∀ x, vars x ≠ none ↔ x ∈ bound)
    (hsolution : Solution vars t st row) (x : String) :
    row x ≠ none ↔ x ∈ bound ++ t.varNames := by
  rw [List.mem_append, ← hbound]
  by_cases hx : vars x = none
  · by_cases hname : x ∈ t.varNames
    · obtain ⟨pos, hpos⟩ := Triple.mem_varNames.mp hname
      obtain ⟨v, l, -, hl, -⟩ := h.exists_literalAt hst hpos
      rw [hsolution.holds pos x hpos hx, hl]
      exact iff_of_true (Option.some_ne_none l) (Or.inr hname)
    · have hold : row x = vars x := by
        refine hsolution.keeps x fun pos hpos => ?_
        exact absurd (Triple.mem_varNames.mpr ⟨pos, hpos⟩) hname
      rw [hold]
      exact ⟨Or.inl, fun hor => hor.resolve_right hname⟩
  · rw [hsolution.keeps x fun _ _ => hx]
    exact iff_of_true hx (Or.inl hx)

end Triple.Regular

/-- What one loop does with a statement that the triple matches, or for an exact triple if there is
such a statement. -/
def Binds (S : Finset Statement) (vars : Variables) (t : Triple) :
    Option Statement → Variables → Prop
  | none, row => t.isExact = true ∧ (∃ st ∈ S, Matches vars t st) ∧ row = vars
  | some st, row => t.isExact = false ∧ (st ∈ S ∧ Matches vars t st) ∧ Solution vars t st row

theorem exists_solution (hconsistent : Consistent vars t st) : ∃ row, Solution vars t st row := by
  have hstart : Untouched vars t vars := fun _ _ => rfl
  obtain ⟨row, -, -, hrow⟩ := bindMatch_spec st [] hstart
  exact ⟨row, hrow hconsistent⟩

theorem Solution.unique {row' : Variables} (h : Solution vars t st row)
    (h' : Solution vars t st row') : row = row' := by
  funext x
  by_cases hfree : ∃ pos, bindings t pos = some x ∧ vars x = none
  · obtain ⟨pos, hpos, hx⟩ := hfree
    rw [h.holds pos x hpos hx, h'.holds pos x hpos hx]
  · have hkept : ∀ pos, bindings t pos = some x → vars x ≠ none :=
      fun pos hpos hx => hfree ⟨pos, hpos, hx⟩
    rw [h.keeps x hkept, h'.keeps x hkept]

/-- One loop goes through the matching statements, if the source delivers what agrees with the
arguments of the triple. -/
theorem matchTriple_enumerates {source : TripleSource} {S : Finset Statement}
    (hnodup : (source.getStatements (arguments vars t)).Nodup)
    (hmem : ∀ st, st ∈ source.getStatements (arguments vars t) ↔
      st ∈ S ∧ st.Agrees (arguments vars t).pattern)
    (hmatches : ∀ st ∈ S, st.Agrees (arguments vars t).pattern → Matches vars t st) :
    ∃ rows, matchTriple source vars t = some rows ∧
      Enumerates (fun st row => (st ∈ S ∧ Matches vars t st) ∧ Solution vars t st row) rows := by
  -- The triple asks the source once, so that a list of the answer serves as well.
  have hanswer : (TripleSource.ofList (source.getStatements (arguments vars t))).getStatements
      (arguments vars t) = source.getStatements (arguments vars t) :=
    List.filter_eq_self.mpr fun st hst => decide_eq_true ((hmem st).mp hst).2
  have hsame : matchTriple source vars t =
      matchTriple (.ofList (source.getStatements (arguments vars t))) vars t := by
    rw [matchTriple, matchTriple, initTriplesMatch, initTriplesMatch, hanswer]
  have hselected : ∀ st, st ∈ (source.getStatements (arguments vars t)).toFinset ↔
      st ∈ S ∧ st.Agrees (arguments vars t).pattern := fun st => List.mem_toFinset.trans (hmem st)
  obtain ⟨rows, hrows, matching, hmatching, hiff, hforall⟩ :=
    deliversSolutions_of_all_match (TripleSource.ofList_exact hnodup) fun st hst hagrees =>
      hmatches st ((hselected st).mp hst).1 hagrees
  have hboth : ∀ st, st ∈ matching ↔ st ∈ S ∧ Matches vars t st := by
    intro st
    rw [hiff, hselected]
    exact ⟨fun h => ⟨h.1.1, h.2⟩, fun h => ⟨⟨h.1, (matches_iff.mp h.2).1⟩, h.2⟩⟩
  refine ⟨rows, hsame.trans hrows, matching, hmatching, fun st => (hboth st).trans ⟨?_, ?_⟩, ?_⟩
  · intro h
    obtain ⟨row, hrow⟩ := exists_solution h.2.consistent
    exact ⟨row, h, hrow⟩
  · rintro ⟨row, h, -⟩
    exact h
  · exact (List.forall₂_and_left _ _).mpr ⟨fun st hst => (hboth st).mp hst, hforall⟩

section Exact

variable {S : Finset Statement} {c : Option Statement}

/-- A triple without variables sets none. -/
theorem solution_of_isExact (h : t.Regular K bound) (hexact : t.isExact = true) :
    Solution vars t st vars := by
  refine ⟨fun pos x hpos _ => ?_, fun _ _ => rfl⟩
  rw [h.bindings_of_isExact hexact pos] at hpos
  cases hpos

/-- There is a statement behind each choice of a loop. -/
theorem Binds.exists_solution (h : Binds S vars t c row) (hregular : t.Regular K bound) :
    ∃ st ∈ S, Matches vars t st ∧ Solution vars t st row := by
  cases c with
  | none =>
    obtain ⟨hexact, ⟨st, hst, hmatches⟩, rfl⟩ := h
    exact ⟨st, hst, hmatches, solution_of_isExact hregular hexact⟩
  | some st => exact ⟨st, h.2.1.1, h.2.1.2, h.2.2⟩

theorem Binds.unique {row' : Variables} (h : Binds S vars t c row) (h' : Binds S vars t c row') :
    row = row' := by
  cases c with
  | none => exact h.2.2.trans h'.2.2.symm
  | some st => exact h.2.2.unique h'.2.2

/-- What a loop chooses is a choice for the triple. -/
theorem Binds.takes (h : Binds S vars t c row) (hregular : t.Regular K bound)
    (hS : ∀ st ∈ S, st ∈ K) : Takes S (terms vars) t c (terms row) := by
  cases c with
  | none =>
    obtain ⟨st, hst, hmatches, hsolution⟩ := h.exists_solution hregular
    exact ⟨h.1, st, hst, hregular.extends_of_solution (hS st hst) hmatches hsolution⟩
  | some st =>
    obtain ⟨hexact, ⟨hst, hmatches⟩, hsolution⟩ := h
    exact ⟨hexact, hst, hregular.extends_of_solution (hS st hst) hmatches hsolution⟩

/-- A choice for the triple is one that a loop comes to. -/
theorem Takes.exists_binds {θ : Assignment} (h : Takes S (terms vars) t c θ)
    (hregular : t.Regular K bound) (hbound : ∀ x, vars x ≠ none ↔ x ∈ bound)
    (hS : ∀ st ∈ S, st ∈ K) : ∃ row, Binds S vars t c row ∧ terms row = θ := by
  have hbinds : ∃ row, Binds S vars t c row := by
    cases c with
    | none =>
      obtain ⟨hexact, st, hst, hextends⟩ := h
      have hmatches := hregular.matches_of_extends (hS st hst) hbound hextends
      exact ⟨vars, hexact, ⟨st, hst, hmatches⟩, rfl⟩
    | some st =>
      obtain ⟨hexact, hst, hextends⟩ := h
      have hmatches := hregular.matches_of_extends (hS st hst) hbound hextends
      obtain ⟨row, hsolution⟩ := exists_solution hmatches.consistent
      exact ⟨row, hexact, ⟨hst, hmatches⟩, hsolution⟩
  obtain ⟨row, hrow⟩ := hbinds
  exact ⟨row, hrow, (hrow.takes hregular hS).unique hregular.varNames_of_isExact h⟩

/-- `triple_present` asks for the arguments of the triple. -/
theorem Triple.Regular.triplePresent_eq (h : t.Regular K bound) (hexact : t.isExact = true)
    (source : TripleSource) (vars : Variables) :
    triplePresent source t = some (source.hasStatement (arguments vars t)) := by
  rw [RasqalAdapter.triplePresent_eq source (h.bindings_of_isExact hexact) vars,
    (h.exact hexact).2]
  cases horigin : t.origin with
  | some origin => rfl
  | none =>
    have harguments : { arguments vars t with c := none } = arguments vars t := by
      simp [arguments, horigin]
    rw [harguments]
    rfl

/-- One triple of a pattern: the values of the variables that rasqal goes on with. -/
def matchStep (source : TripleSource) (vars : Variables) (t : Triple) : Option (List Variables) :=
  if t.isExact = true then
    (triplePresent source t).map fun found => if found = true then [vars] else []
  else
    matchTriple source vars t

variable {source : TripleSource} (hregular : t.Regular K bound)
  (hbound : ∀ x, vars x ≠ none ↔ x ∈ bound) (hS : ∀ st ∈ S, st ∈ K)
  (hmem : ∀ st, st ∈ source.getStatements (arguments vars t) ↔
    st ∈ S ∧ st.Agrees (arguments vars t).pattern)

include hregular hbound hS hmem

/-- A triple that is not exact gives a row for each matching statement. -/
theorem matchStep_of_not_isExact (hexact : t.isExact = false)
    (hnodup : (source.getStatements (arguments vars t)).Nodup) :
    ∃ rows, matchStep source vars t = some rows ∧ Enumerates (Binds S vars t) rows := by
  obtain ⟨rows, hrows, matching, hmatching, hiff, hforall⟩ :=
    matchTriple_enumerates hnodup hmem fun st hst => hregular.matches_of_agrees (hS st hst) hbound
  refine ⟨rows, ?_, matching.map some, hmatching.map (Option.some_injective _), ?_, ?_⟩
  · rw [matchStep, if_neg (hexact ▸ Bool.false_ne_true)]
    exact hrows
  · rintro (_ | st)
    · refine iff_of_false (by simp) ?_
      rintro ⟨row, htrue, -⟩
      exact Bool.false_ne_true (hexact.symm.trans htrue)
    · rw [List.mem_map_of_injective (Option.some_injective _), hiff]
      exact exists_congr fun row => ⟨fun h => ⟨hexact, h⟩, And.right⟩
  · exact List.forall₂_map_left_iff.mpr (hforall.imp fun _ _ h => ⟨hexact, h⟩)

theorem hasStatement_iff (hcoherent : source.Coherent) :
    source.hasStatement (arguments vars t) = true ↔ ∃ st ∈ S, Matches vars t st := by
  rw [hcoherent]
  constructor
  · intro hne
    obtain ⟨st, hst⟩ := List.exists_mem_of_ne_nil _ hne
    obtain ⟨hstored, hagrees⟩ := (hmem st).mp hst
    exact ⟨st, hstored, hregular.matches_of_agrees (hS st hstored) hbound hagrees⟩
  · rintro ⟨st, hst, h⟩
    exact List.ne_nil_of_mem ((hmem st).mpr ⟨hst, (matches_iff.mp h).1⟩)

/-- An exact triple gives one row if there is a matching statement. -/
theorem matchStep_of_isExact (hexact : t.isExact = true) (hcoherent : source.Coherent) :
    ∃ rows, matchStep source vars t = some rows ∧ Enumerates (Binds S vars t) rows := by
  have hpresent := hasStatement_iff hregular hbound hS hmem hcoherent
  have hsome : ∀ st, ¬ ∃ row, Binds S vars t (some st) row := by
    rintro st ⟨row, hfalse, -⟩
    exact Bool.false_ne_true (hfalse.symm.trans hexact)
  rw [matchStep, if_pos hexact, hregular.triplePresent_eq hexact source vars, Option.map_some]
  by_cases hfound : ∃ st ∈ S, Matches vars t st
  · rw [hpresent.mpr hfound]
    refine ⟨[vars], rfl, [none], List.nodup_singleton _, ?_, .cons ⟨hexact, hfound, rfl⟩ .nil⟩
    rintro (_ | st)
    · exact iff_of_true List.mem_cons_self ⟨vars, hexact, hfound, rfl⟩
    · exact iff_of_false (by simp) (hsome st)
  · rw [Bool.eq_false_iff.mpr (hfound ∘ hpresent.mp)]
    refine ⟨[], rfl, [], List.nodup_nil, ?_, .nil⟩
    rintro (_ | st)
    · refine iff_of_false List.not_mem_nil ?_
      rintro ⟨row, -, h, -⟩
      exact hfound h
    · exact iff_of_false List.not_mem_nil (hsome st)

/-- One triple gives a row for each choice, if the source delivers what agrees with the arguments of
the triple. -/
theorem matchStep_enumerates (hcoherent : source.Coherent)
    (hnodup : (source.getStatements (arguments vars t)).Nodup) :
    ∃ rows, matchStep source vars t = some rows ∧ Enumerates (Binds S vars t) rows := by
  cases hexact : t.isExact with
  | false => exact matchStep_of_not_isExact hregular hbound hS hmem hexact hnodup
  | true => exact matchStep_of_isExact hregular hbound hS hmem hexact hcoherent

end Exact

section Order

variable {source : TripleSource} {ts : List Triple}

theorem run_matchStep_of_isExact (h : t.isExact = true) :
    NestedLoops.run (matchStep source) vars (t :: ts) =
      (triplePresent source t).bind fun found =>
        if found = true then NestedLoops.run (matchStep source) vars ts else some [] := by
  rw [NestedLoops.run, matchStep, if_pos h]
  cases triplePresent source t with
  | none => rfl
  | some found =>
    cases found with
    | false => rfl
    | true => cases hrest : NestedLoops.run (matchStep source) vars ts <;> simp [hrest]

theorem run_matchStep_of_not_isExact (h : t.isExact = false) :
    NestedLoops.run (matchStep source) vars (t :: ts) =
      (matchTriple source vars t).bind fun rows =>
        (rows.mapM fun row => NestedLoops.run (matchStep source) row ts).map List.flatten := by
  rw [NestedLoops.run, matchStep, if_neg (h ▸ Bool.false_ne_true)]
  simp only [Option.map_eq_bind]
  rfl

/-- One loop for each triple is a way to evaluate them in order. -/
theorem evaluatesInOrder_run (source : TripleSource) :
    EvaluatesInOrder source (NestedLoops.run (matchStep source)) where
  nil _ := rfl
  exact _ _ _ := run_matchStep_of_isExact
  other _ _ _ := run_matchStep_of_not_isExact

/-- There is no other way. -/
theorem EvaluatesInOrder.eq_run {evaluate : Variables → List Triple → Option (List Variables)}
    (h : EvaluatesInOrder source evaluate) (vars : Variables) (ts : List Triple) :
    evaluate vars ts = NestedLoops.run (matchStep source) vars ts := by
  induction ts generalizing vars with
  | nil => exact h.nil vars
  | cons t ts ih =>
    cases hexact : t.isExact with
    | false =>
      rw [h.other vars t ts hexact, run_matchStep_of_not_isExact hexact]
      simp only [ih]
    | true =>
      rw [h.exact vars t ts hexact, run_matchStep_of_isExact hexact]
      simp only [ih]

end Order

end Matches

/-! ## All loops -/

section Loops

variable [Rasqal] {K : List Statement} {S : Finset Statement} {vars row : Variables}
  {triples ts : List Triple} {t : Triple} {c : Option Statement} {cs : List (Option Statement)}

/-- What holds when the loops of a pattern `triples` come to the triples `ts`, over statements `K`:
the triples before them have set their variables, to literals of statements. -/
structure Reached (K : List Statement) (triples : List Triple) (vars : Variables)
    (ts : List Triple) : Prop where
  bound : ∃ bound, (∀ x, vars x ≠ none ↔ x ∈ bound) ∧ RegularFrom K bound ts
  held : ∀ x l, vars x = some l → ∃ st ∈ K, ∃ pos, literalAt st pos = some l ∧
    ∃ t ∈ triples, bindings t pos = some x
  subset : ts ⊆ triples

theorem Reached.next (h : Reached K triples vars (t :: ts)) (hS : ∀ st ∈ S, st ∈ K)
    (hbinds : Binds S vars t c row) : Reached K triples row ts := by
  obtain ⟨bound, hbound, hregular, hrest⟩ := h.bound
  obtain ⟨st, hst, -, hsolution⟩ := hbinds.exists_solution hregular
  refine ⟨⟨_, hregular.bound_of_solution (hS st hst) hbound hsolution, hrest⟩, fun x l hl => ?_, ?_⟩
  · by_cases hfree : ∃ pos, bindings t pos = some x ∧ vars x = none
    · obtain ⟨pos, hpos, hx⟩ := hfree
      rw [hsolution.holds pos x hpos hx] at hl
      exact ⟨st, hS st hst, pos, hl, t, h.subset List.mem_cons_self, hpos⟩
    · rw [hsolution.keeps x fun pos hpos hx => hfree ⟨pos, hpos, hx⟩] at hl
      exact h.held x l hl
  · exact fun t' ht' => h.subset (List.mem_cons_of_mem t ht')

theorem solvesFrom_of_path (hS : ∀ st ∈ S, st ∈ K) (h : Reached K triples vars ts)
    (hpath : Path (Binds S) vars ts cs row) : SolvesFrom S (terms vars) ts cs (terms row) := by
  induction hpath with
  | nil vars => exact ⟨.nil, fun _ _ hx => hx, fun _ hx => Or.inl hx⟩
  | @cons vars vars' _ t ts c cs hbinds _ ih =>
    obtain ⟨bound, -, hregular, -⟩ := h.bound
    exact solvesFrom_cons_iff.mpr ⟨terms vars', hbinds.takes hregular hS, ih (h.next hS hbinds)⟩

theorem path_of_solvesFrom {θ : Assignment} (hS : ∀ st ∈ S, st ∈ K)
    (h : Reached K triples vars ts) (hsolves : SolvesFrom S (terms vars) ts cs θ) :
    ∃ row, Path (Binds S) vars ts cs row := by
  induction ts generalizing vars cs with
  | nil =>
    obtain rfl : cs = [] := List.forall₂_nil_left_iff.mp hsolves.instances
    exact ⟨vars, .nil vars⟩
  | cons t ts ih =>
    obtain ⟨c, cs, -, -, rfl⟩ := List.forall₂_cons_left_iff.mp hsolves.instances
    obtain ⟨θ₁, htakes, hrest⟩ := solvesFrom_cons_iff.mp hsolves
    obtain ⟨bound, hbound, hregular, -⟩ := h.bound
    obtain ⟨vars', hbinds, rfl⟩ := htakes.exists_binds hregular hbound hS
    obtain ⟨row, hrow⟩ := ih (h.next hS hbinds) hrest
    exact ⟨row, .cons hbinds hrow⟩

end Loops

/-! ## Over the databases -/

section Databases

/-- The pattern that is passed for a triple. -/
theorem pattern_arguments (vars : Variables) (t : Triple) :
    (arguments vars t).pattern =
      { subject := (fixedAt vars t .S).map fun l => (convertResource l).internal
        predicate := (fixedAt vars t .P).map convertURI
        object := (fixedAt vars t .O).map fun l => (convertValue l).internal
        context := (fixedAt vars t .C).map fun l => (convertResource l).internal } := by
  cases horigin : t.origin <;>
    simp [Arguments.pattern, arguments, fixedAt, Triple.part, horigin, argument_eq convertResource,
      argument_eq convertURI, argument_eq convertValue, Function.comp_def]

theorem isSome_fixedAt {vars : Variables} {bound : List String}
    (hbound : ∀ x, vars x ≠ none ↔ x ∈ bound) (t : Triple) (pos : Position) :
    (fixedAt vars t pos).isSome = t.fixes bound pos := by
  rw [fixedAt, Triple.fixes]
  cases t.part pos with
  | none => rfl
  | some l =>
    simp only [Option.bind_some, argument]
    cases asVariable l with
    | none => rfl
    | some x =>
      rw [Bool.eq_iff_iff, List.contains_iff_mem, ← hbound x]
      simp [Option.isSome_iff_ne_none]

variable [Rasqal] {K : List Statement} {vars : Variables} {triples ts : List Triple} {t : Triple}

/-- What stands for a part other than the object is a resource. -/
theorem fits_of_literalAt {st : Statement} {pos : Position} {l : RasqalLiteral} (hpos : pos ≠ .O)
    (h : literalAt st pos = some l) : Fits .C l := by
  have huri : ∀ u : CString, Rasqal.newUriLiteral (Raptor.newUri u) = some l → Fits .C l := by
    intro u hu
    obtain ⟨u', -, rfl⟩ := Option.map_eq_some_iff.mp hu
    exact trivial
  have hresource : ∀ r : Rdf.Resource, asLiteralResource r = some l → Fits .C l := by
    intro r hr
    rw [asLiteralResource] at hr
    cases htype : r.type with
    | URI =>
      rw [htype] at hr
      exact huri _ hr
    | BNODE =>
      rw [htype] at hr
      obtain rfl := Option.some.inj hr
      exact trivial
    | NONE =>
      rw [htype] at hr
      cases hr
  cases pos with
  | S => exact hresource _ h
  | P => exact huri _ h
  | O => exact absurd rfl hpos
  | C => exact hresource _ h

omit [Rasqal] in
theorem convertResource_ne_notSet {l : RasqalLiteral} (h : Fits .C l) :
    (convertResource l).internal ≠ .notSet := by
  cases l with
  | uri u => exact Resource.noConfusion
  | blank b => exact Resource.noConfusion
  | _ => exact h.elim

/-- What is passed at a position is a constant, or a literal of a statement at the position of a
variable. -/
theorem Reached.fixedAt_cases (h : Reached K triples vars (t :: ts)) {pos : Position}
    {l : RasqalLiteral} (hl : fixedAt vars t pos = some l) :
    (t.part pos = some l ∧ asVariable l = none) ∨
      ∃ x, bindings t pos = some x ∧ ∃ st ∈ K, ∃ pos', literalAt st pos' = some l ∧
        ∃ t' ∈ triples, bindings t' pos' = some x := by
  obtain ⟨part, hpart, hargument⟩ := Option.bind_eq_some_iff.mp hl
  rw [argument] at hargument
  cases hvar : asVariable part with
  | none =>
    rw [hvar] at hargument
    obtain rfl : part = l := Option.some.inj hargument
    exact Or.inl ⟨hpart, hvar⟩
  | some x =>
    rw [hvar] at hargument
    have hx : vars x = some l := by simpa using hargument
    exact Or.inr ⟨x, Option.bind_eq_some_iff.mpr ⟨part, hpart, hvar⟩, h.held x l hx⟩

variable [Platform]

open Platform

omit [Rasqal] in
theorem part?_pattern_arguments (vars : Variables) (t : Triple) (pos : Position) :
    (arguments vars t).pattern.part? pos = (fixedAt vars t pos).map (literalPart · pos) := by
  rw [pattern_arguments]
  cases pos <;> exact Option.map_map ..

/-- The scan for a triple finds what agrees with its arguments. -/
theorem RegularPattern.scans (hpattern : RegularPattern K triples)
    (h : Reached K triples vars (t :: ts)) :
    (arguments vars t).pattern.onlyLeading = true ∧
      (arguments vars t).pattern.context ≠ some .notSet ∧
      CollisionFreePattern (arguments vars t).pattern K := by
  obtain ⟨bound, hbound, hregular, -⟩ := h.bound
  have ht := h.subset List.mem_cons_self
  refine ⟨?_, fun hcontext => ?_, fun st hst pos m hm => ?_⟩
  · have hleading := hregular.leading
    rw [Triple.fixesLeading] at hleading
    rw [pattern_arguments, Statement.onlyLeading]
    simp only [Option.isSome_map, isSome_fixedAt hbound]
    exact hleading
  · rw [pattern_arguments] at hcontext
    obtain ⟨l, hl, hnotSet⟩ := Option.map_eq_some_iff.mp hcontext
    refine convertResource_ne_notSet ?_ hnotSet
    rcases h.fixedAt_cases hl with ⟨hpart, hvar⟩ | ⟨x, hx, st, -, pos, hlit, t', ht', hpos⟩
    · exact hregular.fits .C l hpart hvar
    · refine fits_of_literalAt (fun hobject => ?_) hlit
      exact hpattern.graphs t ht t' ht' x hx (hobject ▸ hpos)
  · rw [part?_pattern_arguments] at hm
    obtain ⟨l, hl, rfl⟩ := Option.map_eq_some_iff.mp hm
    refine hpattern.apart l (List.mem_append.mpr ?_) st hst pos
    rcases h.fixedAt_cases hl with ⟨hpart, hvar⟩ | ⟨-, -, st', hst', pos', hlit, -⟩
    · refine Or.inl (List.mem_flatMap.mpr ⟨t, ht, List.mem_filter.mpr ⟨?_, ?_⟩⟩)
      · exact List.mem_filterMap.mpr ⟨pos, mem_positions pos, hpart⟩
      · rw [hvar]
        rfl
    · refine Or.inr (List.mem_flatMap.mpr ⟨st', hst', ?_⟩)
      exact List.mem_filterMap.mpr ⟨pos', mem_positions pos', hlit⟩

variable {memory : Arguments → Bool} {evaluate : Variables → List Triple → Option (List Variables)}

theorem exists_rows (ops : List Op) (hwf : ∀ s ∈ added ops, s.WellFormed)
    (hmemory : ∀ args, memory args = false)
    (heval : EvaluatesInOrder (LevelDBTripleSource (run ops) memory) evaluate)
    (hpattern : RegularPattern (added ops) triples) :
    ∃ rows, evaluate (fun _ => none) triples = some rows ∧
      Enumerates (Solves (contents (run ops)) triples) (rows.map terms) := by
  obtain ⟨S, hS, hadded⟩ := run_represents ops
  have hstart : Reached (added ops) triples (fun _ => none) triples := by
    refine ⟨⟨[], fun x => iff_of_false (· rfl) List.not_mem_nil, hpattern.triples⟩, ?_, ?_⟩
    · intro x l hx
      cases hx
    · exact List.Subset.refl _
  have hloops : ∃ rows, evaluate (fun _ => none) triples = some rows ∧
      Enumerates (Path (Binds S) (fun _ => none) triples) rows := by
    rw [heval.eq_run]
    refine run_enumerates (I := Reached (added ops) triples) (fun vars t ts h => ?_)
      (fun vars t ts c row h hbinds => h.next hadded hbinds) ?_ hstart
    · obtain ⟨hleading, hcontext, hcollisions⟩ := hpattern.scans h
      obtain ⟨bound, hbound, hregular, -⟩ := h.bound
      have hfree : CollisionFreePattern (arguments vars t).pattern S.toList :=
        fun st hst => hcollisions st (hadded st (Finset.mem_toList.mp hst))
      obtain ⟨hnodup, hmem⟩ := LevelDBTripleSource.exact_of_onlyLeading hS
        (fun st hst => hwf st (hadded st hst)) (hmemory _) hfree hleading hcontext
      exact matchStep_enumerates hregular hbound hadded hmem (LevelDBTripleSource.coherent _ memory)
        hnodup
    · exact fun vars t c row row' h h' => h.unique h'
  obtain ⟨rows, hrows, henumerates⟩ := hloops
  refine ⟨rows, hrows, ?_⟩
  rw [hS.contents_eq]
  refine henumerates.map (fun cs row hpath => ?_) fun cs θ hsolves => ?_
  · exact solvesFrom_of_path hadded hstart hpath
  · exact path_of_solvesFrom hadded hstart hsolves

/-- After any calls of the persistence layer, the rows for a regular basic graph pattern are its
solutions over the statements in the databases, one row for each, and they are the same rows if
rasqal takes the triples in another order that is regular. The iterators have to be built in memory
where the flag is not set. -/
theorem evaluate_solutions (ops : List Op) (hwf : ∀ s ∈ added ops, s.WellFormed)
    (hmemory : ∀ args, memory args = false)
    (heval : EvaluatesInOrder (LevelDBTripleSource (run ops) memory) evaluate)
    (hpattern : RegularPattern (added ops) triples) :
    ∃ rows, evaluate (fun _ => none) triples = some rows ∧
      Enumerates (Solves (contents (run ops)) triples) (rows.map terms) ∧
      ∀ triples' : List Triple, triples'.Perm triples → RegularPattern (added ops) triples' →
        ∃ rows', evaluate (fun _ => none) triples' = some rows' ∧
          (rows'.map terms).Perm (rows.map terms) := by
  obtain ⟨rows, hrows, henumerates⟩ := exists_rows ops hwf hmemory heval hpattern
  refine ⟨rows, hrows, henumerates, fun triples' hperm hpattern' => ?_⟩
  obtain ⟨rows', hrows', henumerates'⟩ := exists_rows ops hwf hmemory heval hpattern'
  obtain ⟨f, hf, hfinj⟩ := exists_reorder_solves hperm (contents (run ops))
  obtain ⟨g, hg, hginj⟩ := exists_reorder_solves hperm.symm (contents (run ops))
  have hexact := hpattern.triples.varNames_of_isExact
  exact ⟨rows', hrows', henumerates'.perm henumerates hf hg hfinj hginj
    fun _ _ _ h h' => h.unique hexact h'⟩

end Databases

/-- The triple of three variables. -/
def variableTriple (s p o : String) : Triple where
  subject := .variable s
  predicate := .variable p
  object := .variable o
  origin := none
  flags pos := pos ≠ .C

/-- The triple of three URIs. -/
def uriTriple (s p o : String) : Triple where
  subject := .uri (.ofString s)
  predicate := .uri (.ofString p)
  object := .uri (.ofString o)
  origin := none
  flags pos := pos ≠ .C

theorem regular_variableTriple [Rasqal] {K : List Statement} {bound : List String} {s p o : String}
    (hsurvives : ∀ st ∈ K, ∀ pos, pos ≠ .C → ∃ v, termAt st pos = some v ∧ v.Survives)
    (hnames : [s, p, o].Nodup) (hleading : (variableTriple s p o).fixesLeading bound = true) :
    (variableTriple s p o).Regular K bound := by
  refine ⟨?_, ?_, fun st hst pos hpos => hsurvives st hst pos ?_, hleading, ?_⟩
  · rintro (_ | _ | _ | _) l hl hvar <;> cases hl <;> cases hvar
  · rintro (_ | _ | _ | _) (_ | _ | _ | _) x hx hx' - <;> cases hx <;> first | rfl | cases hx'
    all_goals exact absurd hnames (by simp)
  · rintro rfl
    exact hpos rfl
  · intro hexact
    cases hexact

theorem regular_uriTriple [Rasqal] (K : List Statement) (bound : List String) (s p o : String) :
    (uriTriple s p o).Regular K bound := by
  refine ⟨?_, ?_, ?_, rfl, fun _ => ⟨rfl, rfl⟩⟩
  · rintro (_ | _ | _ | _) l hl - <;> cases hl <;> exact trivial
  · rintro (_ | _ | _ | _) _ x hx <;> cases hx
  · rintro st - (_ | _ | _ | _) hpos <;> exact absurd rfl hpos

/-- A statement, and one about its object. -/
def joinImport : List Op :=
  [.addStatements [.ofUris "urn:s" "urn:p" "urn:o", .ofUris "urn:o" "urn:q" "urn:x"]]

/-- `?s ?p1 ?o1 . <urn:o> <urn:q> <urn:x> . ?o1 ?p2 ?o`. -/
def joinPattern : List Triple :=
  [variableTriple "s" "p1" "o1", uriTriple "urn:o" "urn:q" "urn:x", variableTriple "o1" "p2" "o"]

theorem regularPattern_join : @RegularPattern Rasqal.basic _ (added joinImport) joinPattern := by
  let _ := Rasqal.basic
  have hsurvives : ∀ st ∈ added joinImport, ∀ pos, pos ≠ .C →
      ∃ v, termAt st pos = some v ∧ v.Survives := by
    intro st hst pos hpos
    obtain rfl | rfl :
        st = .ofUris "urn:s" "urn:p" "urn:o" ∨ st = .ofUris "urn:o" "urn:q" "urn:x" := by
      simpa [joinImport, added, Op.added] using hst
    all_goals
      cases pos with
      | C => exact absurd rfl hpos
      | _ => exact ⟨_, rfl, by decide, by decide⟩
  refine ⟨⟨?_, regular_uriTriple _ _ _ _ _, ?_, trivial⟩, ?_, by decide +kernel⟩
  · exact regular_variableTriple hsurvives (by decide) (by decide)
  · exact regular_variableTriple hsurvives (by decide) (by decide)
  · intro t ht t' _ x hx
    rw [joinPattern] at ht
    rcases List.mem_cons.mp ht with rfl | ht
    · cases hx
    · rcases List.mem_pair.mp ht with rfl | rfl <;> cases hx

/-- The loops over the triples of a pattern, where each iterator is built in memory with the flag not
set. -/
def joinLoops : Variables → List Triple → Option (List Variables) :=
  let _ := Rasqal.basic
  NestedLoops.run (matchStep (LevelDBTripleSource (run joinImport) fun _ => false))

/-- The objects of statements are subjects of others, and a statement is looked up. -/
theorem evaluate_solutions_join :
    (joinLoops (fun _ => none) joinPattern).map List.length = some 1 ∧
      ∃ rows, joinLoops (fun _ => none) joinPattern = some rows ∧
        Enumerates (Solves (contents (run joinImport)) joinPattern) (rows.map terms) := by
  let _ := Rasqal.basic
  obtain ⟨rows, hrows, henumerates, -⟩ := evaluate_solutions joinImport (by decide)
    (fun _ => rfl) (evaluatesInOrder_run _) regularPattern_join
  exact ⟨by decide +kernel, rows, hrows, henumerates⟩

end CMarmotta.RasqalAdapter
