import CMarmotta.Model.Proofs.OperatorsProofs
import CMarmotta.Persistence.Proofs.QueryProofs

/-!
# The check that queries leave out

A scan for a pattern delivers what lies between two keys. That may be more than what agrees with the
pattern: fields behind a gap are not in the keys, and hashes may collide. The file has a function that
compares a statement with a pattern, but no query calls it. A scan never delivers less than what
agrees, so a query that called it would be exact, whatever the hash does.
-/

namespace CMarmotta

/-- A literal with a datatype names it. -/
def Value.namesDatatype : Value → Bool
  | .literal (.dataliteral l) => l.getDatatype.uri ≠ ""
  | _ => true

theorem DatatypeLiteral.eq_of_plain_eq {l l' : DatatypeLiteral} (h : l.getDatatype.uri ≠ "")
    (heq : l'.plain = l.plain) : l' = l := by
  obtain ⟨content, datatype⟩ := l
  obtain ⟨content', datatype'⟩ := l'
  simp only [DatatypeLiteral.plain, DatatypeLiteral.mk.injEq, Option.some.injEq] at heq
  obtain ⟨rfl, hdatatype⟩ := heq
  cases datatype with
  | none => exact absurd rfl h
  | some u =>
    cases datatype' with
    | none => exact absurd (congrArg URI.uri hdatatype).symm h
    | some u' => exact congrArg (DatatypeLiteral.mk content') (congrArg some hdatatype)

theorem Value.eq_of_plain_eq {v w : Value} (h : v.namesDatatype = true) (heq : w.plain = v.plain) :
    w = v := by
  rcases v with _ | r | (_ | sl | l) <;> rcases w with _ | r' | (_ | sl' | l') <;>
    simp only [Value.plain, reduceCtorEq, Value.literal.injEq, Literal.dataliteral.injEq] at heq ⊢
  case literal.dataliteral.literal.dataliteral =>
    exact DatatypeLiteral.eq_of_plain_eq (by simpa [Value.namesDatatype] using h) heq
  all_goals exact heq

/-- The operators compare the fields that the pattern sets. -/
theorem matchesPattern_eq_true {s pattern : Statement} :
    matchesPattern s pattern = true ↔
      (∀ r ∈ pattern.context, s.getContext.equal r = true) ∧
      (∀ r ∈ pattern.subject, s.getSubject.equal r = true) ∧
      (∀ u ∈ pattern.predicate, s.getPredicate.equal u = true) ∧
      ∀ v ∈ pattern.object, s.getObject.equal v = true := by
  obtain ⟨subject, predicate, object, context⟩ := pattern
  cases subject <;> cases predicate <;> cases object <;> cases context <;>
    simp [matchesPattern, Resource.notEqual, URI.notEqual, URI.equal, Value.notEqual]

theorem matchesPattern_iff {s pattern : Statement} (hwf : s.WellFormed)
    (hobject : ∀ v ∈ pattern.object, v.namesDatatype = true) :
    matchesPattern s pattern = true ↔ s.Agrees pattern := by
  rw [matchesPattern_eq_true]
  constructor
  · rintro ⟨hc, hs, hp, ho⟩
    refine ⟨fun r hr => ?_, fun u hu => ?_, fun v hv => ?_, fun r hr => ?_⟩
    · rw [hwf.subject_eq, (Resource.equal_iff.mp (hs r hr)).1]
    · rw [hwf.predicate_eq, URI.equal_iff.mp (hp u hu)]
    · rw [hwf.object_eq, Value.eq_of_plain_eq (hobject v hv) (Value.equal_iff.mp (ho v hv)).2]
    · obtain ⟨heq, hne⟩ := Resource.equal_iff.mp (hc r hr)
      rw [hwf.context_eq, if_neg hne, heq]
  · intro h
    refine ⟨fun r hr => ?_, fun r hr => ?_, fun u hu => ?_, fun v hv => ?_⟩
    · have hterm := hwf.context
      rw [h.context r hr, Option.all_some] at hterm
      rw [Resource.equal_iff, Statement.getContext, h.context r hr, Option.getD_some]
      exact ⟨rfl, Resource.isTerm_iff.mp hterm⟩
    · have hterm := hwf.subject
      rw [h.subject r hr, Option.any_some] at hterm
      rw [Resource.equal_iff, Statement.getSubject, h.subject r hr, Option.getD_some]
      exact ⟨rfl, Resource.isTerm_iff.mp hterm⟩
    · rw [URI.equal_iff, Statement.getPredicate, h.predicate u hu, Option.getD_some]
    · have hterm := hwf.object
      rw [h.object v hv, Option.any_some] at hterm
      rw [Value.equal_iff, Statement.getObject, h.object v hv, Option.getD_some]
      exact ⟨hterm, rfl⟩

section Queries

variable [Platform]

/-- What a scan delivers and the check accepts, if the scan misses nothing that agrees. -/
theorem Store.Represents.mem_filter_matchesPattern {σ : Store} {S : Finset Statement}
    (hS : σ.Represents S) (hwf : ∀ s ∈ S, s.WellFormed) {scan pattern : Statement}
    (hobject : ∀ v ∈ pattern.object, v.namesDatatype = true)
    (hscan : ∀ s, s.Agrees pattern → Selects scan s) (s : Statement) :
    s ∈ (getStatements σ scan).filter (matchesPattern · pattern) ↔ s ∈ S ∧ s.Agrees pattern := by
  rw [List.mem_filter, hS.mem_getStatements]
  constructor
  · rintro ⟨⟨hs, -⟩, hmatches⟩
    exact ⟨hs, (matchesPattern_iff (hwf s hs) hobject).mp hmatches⟩
  · rintro ⟨hs, hagrees⟩
    exact ⟨⟨hs, hscan s hagrees⟩, (matchesPattern_iff (hwf s hs) hobject).mpr hagrees⟩

/-- A query that kept only what the check accepts would deliver each stored statement that agrees
with the pattern once and nothing else, as a check of all statements does, whatever the pattern and
the hash. -/
theorem getStatements_filter_matchesPattern (ops : List Op) (hwf : ∀ s ∈ added ops, s.WellFormed)
    (pattern : Statement) (hobject : ∀ v ∈ pattern.object, v.namesDatatype = true) :
    (∀ s, s ∈ (getStatements (run ops) pattern).filter (matchesPattern · pattern) ↔
      s ∈ contents (run ops) ∧ s.Agrees pattern) ∧
    ((getStatements (run ops) pattern).filter (matchesPattern · pattern)).Nodup ∧
    ((getStatements (run ops) pattern).filter (matchesPattern · pattern)).Perm
      ((getStatements (run ops) {}).filter (matchesPattern · pattern)) := by
  obtain ⟨S, hS, hadded⟩ := run_represents ops
  have hwf' : ∀ s ∈ S, s.WellFormed := fun s hs => hwf s (hadded s hs)
  -- The parts of a statement that agrees are those of the pattern, and so are their hashes.
  have hmem := hS.mem_filter_matchesPattern hwf' hobject fun s hagrees =>
    selects_of_part_eq fun pos _ m hm => part_of_mem_part? hagrees hm
  have hselects : ∀ s, Selects {} s :=
    fun s => selects_of_part_eq fun pos _ m hm => by cases pos <;> cases hm
  have hall := hS.mem_filter_matchesPattern hwf' hobject fun s _ => hselects s
  have hnodup := (hS.nodup_getStatements pattern).filter (matchesPattern · pattern)
  have hnodup_all := (hS.nodup_getStatements {}).filter (matchesPattern · pattern)
  refine ⟨fun s => by rw [hmem, hS.contents_eq], hnodup, ?_⟩
  exact (List.perm_ext_iff_of_nodup hnodup hnodup_all).mpr fun s => (hmem s).trans (hall s).symm

end Queries

/-- A pattern that sets the subject and the object but not the predicate. -/
def gapPattern : Statement :=
  { subject := some (.uri ⟨"urn:s"⟩), object := some (.resource (.uri ⟨"urn:o"⟩)) }

/-- Two statements in the range of that pattern. -/
def gapImport : List Op :=
  [.addStatements [.ofUris "urn:s" "urn:p" "urn:o", .ofUris "urn:s" "urn:p" "urn:x"]]

theorem getStatements_filter_matchesPattern_gap :
    Statement.ofUris "urn:s" "urn:p" "urn:x" ∈ getStatements (run gapImport) gapPattern ∧
      Statement.ofUris "urn:s" "urn:p" "urn:x" ∉
        (getStatements (run gapImport) gapPattern).filter (matchesPattern · gapPattern) ∧
      Statement.ofUris "urn:s" "urn:p" "urn:o" ∈
        (getStatements (run gapImport) gapPattern).filter (matchesPattern · gapPattern) := by
  have hobject : ∀ v ∈ gapPattern.object, v.namesDatatype = true := by
    rintro v ⟨⟩
    rfl
  have hmem := (getStatements_filter_matchesPattern gapImport (by decide) gapPattern hobject).1
  refine ⟨by decide +kernel, fun h => ?_, ?_⟩
  · exact absurd ((hmem _).mp h).2 (by decide)
  · exact (hmem _).mpr ⟨by decide +kernel, by decide⟩

end CMarmotta
