import CMarmotta.Sparql.Proofs.PatternProofs
import Mathlib.Data.List.Forall2
import Mathlib.Data.List.Perm.Subperm

/-!
# The solutions of a triple pattern

`init_triples_match` selects the statements that agree with the constants and the bound variables of
the pattern. `bind_match` then sets the free variables, position by position, and does not compare
the values that one variable gets at two positions. So the rows are the solutions of the pattern
exactly if the selected statements are consistent with it (`matchTriple_solutions_iff`).
-/

namespace CMarmotta

namespace RasqalAdapter

open RasqalModel

/-! ## What a solution is -/

/-- The constants and the values of variables in the pattern are possible at their positions. -/
def AllFit (vars : Variables) (t : Triple) : Prop :=
  ∀ pos l, fixedAt vars t pos = some l → Fits pos l

section Solutions

variable [Rasqal]

/-- The statement has one value for each free variable: there is a literal for its part at every
position of the variable, and it is the same one. -/
def Consistent (vars : Variables) (t : Triple) (st : Statement) : Prop :=
  ∀ x, vars x = none → ∃ l, ∀ pos, bindings t pos = some x → literalAt st pos = some l

/-- The statement matches the pattern: it has the terms that the pattern fixes, and one value for
each free variable. -/
structure Matches (vars : Variables) (t : Triple) (st : Statement) : Prop where
  fixed : ∀ pos l, fixedAt vars t pos = some l → termAt st pos = some (convertValue l).internal
  consistent : Consistent vars t st

/-- The row is the solution for the statement: a free variable holds the part of the statement at
each position where it occurs, and all others are as before. -/
structure Solution (vars : Variables) (t : Triple) (st : Statement) (row : Variables) : Prop where
  holds : ∀ pos x, bindings t pos = some x → vars x = none → row x = literalAt st pos
  keeps : ∀ x, (∀ pos, bindings t pos = some x → vars x ≠ none) → row x = vars x

end Solutions

/-! ## The statements selected -/

variable [Rasqal]

theorem matches_iff {vars : Variables} {t : Triple} {st : Statement} :
    Matches vars t st ↔
      st.Agrees (arguments vars t).pattern ∧ Consistent vars t st ∧ AllFit vars t := by
  rw [agrees_arguments_iff]
  constructor
  · rintro ⟨hfixed, hcons⟩
    refine ⟨?_, hcons, ?_⟩
    · intro pos l hl
      exact (termAt_eq_iff.mp (hfixed pos l hl)).2
    · intro pos l hl
      exact (termAt_eq_iff.mp (hfixed pos l hl)).1
  · rintro ⟨hagree, hcons, hfit⟩
    refine ⟨?_, hcons⟩
    intro pos l hl
    exact termAt_eq_iff.mpr ⟨hfit pos l hl, hagree pos l hl⟩

/-! ## The rows -/

section Rows

variable {vars₀ : Variables} {t : Triple}

omit [Rasqal] in
theorem requested_iff {pos : Position} :
    requested vars₀ t pos = true ↔ ∃ x, bindings t pos = some x ∧ vars₀ x = none := by
  unfold requested
  cases bindings t pos <;> simp

/-- What the cases of `bind_match` at some positions do: they succeed, leave the variables that are
not asked for, and set a free variable to the part of a consistent statement at each position. -/
theorem foldlM_bindPart (vars₀ : Variables) (t : Triple) (st : Statement)
    (positions : List Position) (vars : Variables) :
    ∃ row, positions.foldlM (bindPart (bindings t) (requested vars₀ t) st) vars = some row ∧
      (∀ x, (∀ pos ∈ positions, bindings t pos = some x → vars₀ x ≠ none) → row x = vars x) ∧
      (Consistent vars₀ t st → ∀ pos ∈ positions, ∀ x, bindings t pos = some x → vars₀ x = none →
        row x = literalAt st pos) := by
  induction positions generalizing vars with
  | nil => exact ⟨vars, rfl, fun _ _ => rfl, fun _ _ h => absurd h List.not_mem_nil⟩
  | cons pos rest ih =>
    by_cases hreq : requested vars₀ t pos = true
    · obtain ⟨y, hy, hfree⟩ := requested_iff.mp hreq
      obtain ⟨row, hrow, hkeep, hset⟩ := ih (Function.update vars y (literalAt st pos))
      refine ⟨row, ?_, ?_, ?_⟩
      · rw [List.foldlM_cons, bindPart, if_pos hreq, hy]
        exact hrow
      · intro x hx
        have hxy : x ≠ y := by
          rintro rfl
          exact hx pos List.mem_cons_self hy hfree
        rw [hkeep x fun p hp => hx p (List.mem_cons_of_mem pos hp), Function.update_of_ne hxy]
      · intro hcons p hp x hx hxfree
        rcases List.mem_cons.mp hp with rfl | hp
        · obtain rfl : y = x := Option.some.inj (hy.symm.trans hx)
          -- the last position of the variable decides
          by_cases hlater : ∃ p' ∈ rest, bindings t p' = some y
          · obtain ⟨p', hp', hbind⟩ := hlater
            obtain ⟨l, hl⟩ := hcons y hxfree
            rw [hset hcons p' hp' y hbind hxfree, hl p' hbind, hl p hx]
          · rw [hkeep y fun p' hp' hbind => absurd ⟨p', hp', hbind⟩ hlater, Function.update_self]
        · exact hset hcons p hp x hx hxfree
    · obtain ⟨row, hrow, hkeep, hset⟩ := ih vars
      have hnot : ∀ x, bindings t pos = some x → vars₀ x ≠ none := by
        intro x hx hfree
        exact hreq (requested_iff.mpr ⟨x, hx, hfree⟩)
      refine ⟨row, ?_, ?_, ?_⟩
      · rw [List.foldlM_cons, bindPart, if_neg hreq]
        exact hrow
      · intro x hx
        exact hkeep x fun p hp => hx p (List.mem_cons_of_mem pos hp)
      · intro hcons p hp x hx hxfree
        rcases List.mem_cons.mp hp with rfl | hp
        · exact absurd hxfree (hnot x hx)
        · exact hset hcons p hp x hx hxfree

/-- The variables that are not free are as at the start. -/
def Untouched (vars₀ : Variables) (t : Triple) (vars : Variables) : Prop :=
  ∀ x, (∀ pos, bindings t pos = some x → vars₀ x ≠ none) → vars x = vars₀ x

/-- One call of `bind_match`: a row for the current statement, its solution if it is consistent. -/
theorem bindMatch_spec (st : Statement) (rest : List Statement) {vars : Variables}
    (hvars : Untouched vars₀ t vars) :
    ∃ row, bindMatch ⟨bindings t, st :: rest⟩ (requested vars₀ t) vars = some row ∧
      Untouched vars₀ t row ∧ (Consistent vars₀ t st → Solution vars₀ t st row) := by
  obtain ⟨row, hrow, hkeep, hset⟩ :=
    foldlM_bindPart vars₀ t st [.S, .P, .O, .C] vars
  have hall : ∀ pos : Position, pos ∈ [Position.S, .P, .O, .C] := by
    intro pos
    cases pos <;> decide
  have huntouched : Untouched vars₀ t row := by
    intro x hx
    rw [hkeep x fun pos _ => hx pos]
    exact hvars x hx
  refine ⟨row, hrow, huntouched, fun hcons => ⟨?_, huntouched⟩⟩
  intro pos x hx hfree
  exact hset hcons pos (hall pos) x hx hfree

/-- The loop: one row for each statement of the iterator, in order. -/
theorem runMatch_spec (vars₀ : Variables) (t : Triple) (statements : List Statement)
    (vars : Variables) (hvars : Untouched vars₀ t vars) :
    ∃ rows, runMatch (requested vars₀ t) (statements.length + 1) ⟨bindings t, statements⟩ vars =
        some rows ∧
      List.Forall₂ (fun st row => Consistent vars₀ t st → Solution vars₀ t st row)
        statements rows := by
  induction statements generalizing vars with
  | nil => exact ⟨[], rfl, .nil⟩
  | cons st rest ih =>
    obtain ⟨row, hrow, huntouched, hsol⟩ := bindMatch_spec st rest hvars
    obtain ⟨rows, hrows, hforall⟩ := ih row huntouched
    refine ⟨row :: rows, ?_, .cons hsol hforall⟩
    rw [List.length_cons, runMatch, if_neg (by simp [isEnd]), hrow]
    show (runMatch _ _ ⟨bindings t, rest⟩ row >>= fun rows => some (row :: rows)) = _
    rw [hrows]
    rfl

end Rows

/-- The rows for a triple pattern over the statements `S` are one solution for each matching
statement, and nothing else. -/
def DeliversSolutions (source : TripleSource) (S : Finset Statement) (vars : Variables)
    (t : Triple) : Prop :=
  ∃ rows, matchTriple source vars t = some rows ∧
    ∃ matching : List Statement, matching.Nodup ∧
      (∀ st, st ∈ matching ↔ st ∈ S ∧ Matches vars t st) ∧
      List.Forall₂ (Solution vars t) matching rows

section Solutions

variable {source : TripleSource} {S : Finset Statement} {vars : Variables} {t : Triple}

/-- If the rows are the solutions, all selected statements match. -/
theorem DeliversSolutions.all_match (hsource : source.Exact S)
    (h : DeliversSolutions source S vars t) {st : Statement} (hS : st ∈ S)
    (hagree : st.Agrees (arguments vars t).pattern) : Matches vars t st := by
  obtain ⟨-, hmem⟩ := hsource (arguments vars t)
  obtain ⟨rows, hrows, hforall⟩ :=
    runMatch_spec vars t (source.getStatements (arguments vars t)) vars fun _ _ => rfl
  obtain ⟨rows', hrows', matching, hnodup, hmatch, hforall'⟩ := h
  obtain rfl : rows = rows' := Option.some.inj (hrows.symm.trans hrows')
  have hsub : matching ⊆ source.getStatements (arguments vars t) := by
    intro st' hst'
    obtain ⟨hS', hm⟩ := (hmatch st').mp hst'
    exact (hmem st').mpr ⟨hS', (matches_iff.mp hm).1⟩
  -- there are as many rows as selected statements and as matching ones
  have hlen : (source.getStatements (arguments vars t)).length ≤ matching.length := by
    rw [hforall.length_eq, hforall'.length_eq]
  have hperm := (hnodup.subperm hsub).perm_of_length_le hlen
  have hst : st ∈ matching := hperm.mem_iff.mpr ((hmem st).mpr ⟨hS, hagree⟩)
  exact ((hmatch st).mp hst).2

/-- If all selected statements match, the rows are the solutions. -/
theorem deliversSolutions_of_all_match (hsource : source.Exact S)
    (h : ∀ st ∈ S, st.Agrees (arguments vars t).pattern → Matches vars t st) :
    DeliversSolutions source S vars t := by
  obtain ⟨hnodup, hmem⟩ := hsource (arguments vars t)
  obtain ⟨rows, hrows, hforall⟩ :=
    runMatch_spec vars t (source.getStatements (arguments vars t)) vars fun _ _ => rfl
  refine ⟨rows, hrows, source.getStatements (arguments vars t), hnodup, ?_, ?_⟩
  · intro st
    rw [hmem]
    refine and_congr_right fun hS => ⟨h st hS, fun hm => (matches_iff.mp hm).1⟩
  · have hcons : ∀ st ∈ source.getStatements (arguments vars t), Consistent vars t st := by
      intro st hst
      obtain ⟨hS, hagree⟩ := (hmem st).mp hst
      exact (h st hS hagree).consistent
    have hboth := (List.forall₂_and_left _ _).mpr ⟨hcons, hforall⟩
    exact hboth.imp fun st row hst => hst.2 hst.1

end Solutions

/-- The rows for a triple pattern are exactly its solutions if and only if every statement that the
constants and bound variables select has one value for each free variable, and, where any is
selected, no literal stands as subject, predicate or origin and no blank node as predicate. -/
theorem matchTriple_solutions_iff {source : TripleSource} {S : Finset Statement}
    (hsource : source.Exact S) (vars : Variables) (t : Triple) :
    DeliversSolutions source S vars t ↔
      ∀ st ∈ S, st.Agrees (arguments vars t).pattern → Consistent vars t st ∧ AllFit vars t := by
  constructor
  · intro h st hS hagree
    exact (matches_iff.mp (h.all_match hsource hS hagree)).2
  · intro h
    refine deliversSolutions_of_all_match hsource fun st hS hagree => ?_
    exact matches_iff.mpr ⟨hagree, h st hS hagree⟩

omit [Rasqal] in
/-- Two free variables: the one statement with the predicate of the pattern gives one row. -/
theorem matchTriple_solutions_two_variables :
    @DeliversSolutions Rasqal.basic
      (TripleSource.ofList [Statement.ofUris "s" "p" "s", Statement.ofUris "s" "q" "o"])
      [Statement.ofUris "s" "p" "s", Statement.ofUris "s" "q" "o"].toFinset (fun _ => none)
      { subject := .variable "x", predicate := .uri (.ofString "p"), object := .variable "y"
        origin := none, flags := fun pos => pos ≠ .C } := by
  let _ := Rasqal.basic
  have hexact := TripleSource.ofList_exact
    (show [Statement.ofUris "s" "p" "s", Statement.ofUris "s" "q" "o"].Nodup by decide)
  refine (matchTriple_solutions_iff hexact _ _).mpr fun st hst hagree => ⟨?_, ?_⟩
  · obtain rfl | rfl : st = .ofUris "s" "p" "s" ∨ st = .ofUris "s" "q" "o" := by simpa using hst
    · refine fun x _ => ⟨.uri (.ofString "s"), fun pos hpos => ?_⟩
      cases pos with
      | S => decide
      | P => cases hpos
      | O => decide
      | C => cases hpos
    · exact absurd hagree (by decide)
  · intro pos l hl
    cases pos <;> simp_all [fixedAt, Triple.part, argument, asVariable, Fits]
    rw [← hl]
    exact trivial

omit [Rasqal] in
/-- The pattern has one variable as subject and as object. It has no solution among the statements,
and yet there is a row, in which the variable holds the object. -/
theorem matchTriple_repeated_variable :
    let t : Triple :=
      { subject := .variable "x", predicate := .uri (.ofString "p"), object := .variable "x"
        origin := none, flags := fun pos => pos ≠ .C }
    let source := TripleSource.ofList [Statement.ofUris "s" "p" "o"]
    source.Exact [Statement.ofUris "s" "p" "o"].toFinset ∧
      ((@matchTriple Rasqal.basic source (fun _ => none) t).map
        fun rows => rows.map fun row => row "x") = some [some (.uri (.ofString "o"))] ∧
      ¬ @DeliversSolutions Rasqal.basic source [Statement.ofUris "s" "p" "o"].toFinset
        (fun _ => none) t := by
  intro t source
  let _ := Rasqal.basic
  have hexact : source.Exact [Statement.ofUris "s" "p" "o"].toFinset :=
    TripleSource.ofList_exact (List.nodup_singleton _)
  refine ⟨hexact, by decide, fun h => ?_⟩
  have hagree : (Statement.ofUris "s" "p" "o").Agrees (arguments (fun _ => none) t).pattern := by
    decide
  have hmatch := h.all_match hexact (by simp) hagree
  obtain ⟨l, hl⟩ := hmatch.consistent "x" rfl
  exact absurd ((hl .S rfl).trans (hl .O rfl).symm) (by decide)

/-! ## Looking up a triple without variables -/

section Ground

omit [Rasqal]

variable {t : Triple}

theorem argument_of_ground {α : Type} (convert : RasqalLiteral → α) (vars : Variables)
    {l : RasqalLiteral} (h : asVariable l = none) : argument convert vars l = some (convert l) := by
  unfold argument
  rw [h]

/-- `triple_present` asks for the triple in the graph of its origin or in all graphs, as the flags
have it. -/
theorem triplePresent_eq (source : TripleSource) (hground : ∀ pos, bindings t pos = none)
    (vars : Variables) :
    triplePresent source t =
      if t.flags .C = true then t.origin.map fun _ => source.hasStatement (arguments vars t)
      else some (source.hasStatement { arguments vars t with c := none }) := by
  have hs : asVariable t.subject = none := hground .S
  have hp : asVariable t.predicate = none := hground .P
  have ho : asVariable t.object = none := hground .O
  cases horigin : t.origin with
  | none =>
    simp [triplePresent, arguments, horigin, argument_of_ground _ vars hs,
      argument_of_ground _ vars hp, argument_of_ground _ vars ho]
  | some origin =>
    have hc : asVariable origin = none := by
      have hbind := hground .C
      rwa [bindings, Triple.part, horigin] at hbind
    simp [triplePresent, arguments, horigin, argument_of_ground _ vars hs,
      argument_of_ground _ vars hp, argument_of_ground _ vars ho, argument_of_ground _ vars hc]

theorem hasStatement_eq_iff {source : TripleSource} (hsource : source.Coherent) (vars : Variables)
    (args : Arguments) :
    source.hasStatement args = !isEnd (initTriplesMatch source vars t) ↔
      (source.getStatements args = [] ↔ source.getStatements (arguments vars t) = []) := by
  have hend : isEnd (initTriplesMatch source vars t) = true ↔
      source.getStatements (arguments vars t) = [] := List.isEmpty_iff
  rw [Bool.eq_iff_iff, hsource, Bool.not_eq_true', ← Bool.not_eq_true, hend, not_iff_not]

/-- For a triple without variables `triple_present` returns whether the iteration for it is not
empty, if and only if its flags tell that it has an origin and it has one, or they do not and either
it has none or the source has it in its graph exactly if it has it in any graph. -/
theorem triplePresent_iff_iteration {source : TripleSource} (hsource : source.Coherent)
    (hground : ∀ pos, bindings t pos = none) (vars : Variables) :
    triplePresent source t = some (!isEnd (initTriplesMatch source vars t)) ↔
      (t.flags .C = true ∧ t.origin ≠ none) ∨
      (t.flags .C = false ∧ (t.origin = none ∨
        (source.getStatements { arguments vars t with c := none } = [] ↔
          source.getStatements (arguments vars t) = []))) := by
  rw [triplePresent_eq source hground vars]
  cases hflags : t.flags .C with
  | true =>
    rw [if_pos rfl]
    cases horigin : t.origin with
    | none => simp
    | some origin =>
      have hsame := (hasStatement_eq_iff hsource vars (arguments vars t)).mpr Iff.rfl
      simp [hsame]
  | false =>
    rw [if_neg Bool.false_ne_true, Option.some_inj, hasStatement_eq_iff hsource vars]
    constructor
    · intro h
      exact Or.inr ⟨rfl, Or.inr h⟩
    · rintro (⟨hf, -⟩ | ⟨-, horigin | h⟩)
      · exact absurd hf Bool.false_ne_true
      · have hargs : { arguments vars t with c := none } = arguments vars t := by
          simp [arguments, horigin]
        rw [hargs]
      · exact h

/-- A triple inside a graph that holds it. -/
theorem triplePresent_in_its_graph :
    let st := Statement.ofUris "s" "p" "o" (some "g")
    let t : Triple :=
      { subject := .uri (.ofString "s"), predicate := .uri (.ofString "p")
        object := .uri (.ofString "o"), origin := some (.uri (.ofString "g"))
        flags := fun pos => pos ≠ .C }
    triplePresent (.ofList [st]) t =
      some (!isEnd (initTriplesMatch (.ofList [st]) (fun _ => none) t)) := by
  intro st t
  have hcoherent : (TripleSource.ofList [st]).Coherent := TripleSource.ofList_coherent _
  have hground : ∀ pos, bindings t pos = none := by
    intro pos
    cases pos <;> rfl
  refine (triplePresent_iff_iteration hcoherent hground fun _ => none).mpr
    (Or.inr ⟨rfl, Or.inr ?_⟩)
  decide

/-- The triple is in one graph and is looked up in another one: `triple_present` finds it, the
iteration does not. -/
theorem triplePresent_in_other_graph :
    let st := Statement.ofUris "s" "p" "o" (some "g")
    let t : Triple :=
      { subject := .uri (.ofString "s"), predicate := .uri (.ofString "p")
        object := .uri (.ofString "o"), origin := some (.uri (.ofString "h"))
        flags := fun pos => pos ≠ .C }
    (TripleSource.ofList [st]).Coherent ∧ triplePresent (.ofList [st]) t = some true ∧
      isEnd (initTriplesMatch (.ofList [st]) (fun _ => none) t) = true := by
  intro st t
  exact ⟨TripleSource.ofList_coherent _, by decide, by decide⟩

end Ground

end RasqalAdapter

end CMarmotta
