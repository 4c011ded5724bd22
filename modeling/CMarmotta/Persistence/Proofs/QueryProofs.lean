import CMarmotta.Persistence.Proofs.StoreProofs
import CMarmotta.Model.X64

/-!
# Queries and removals by pattern

The four databases hold one set of statements, which the calls change as documented
(`run_one_set`). Every stored statement that agrees with a pattern is delivered exactly once
(`getStatements_count_eq_one`). The converse fails: a query filters only by the leading fields of
the index it uses, so a query delivers, and a removal deletes, statements that differ from the
pattern in a field behind an unset one (`getStatements_sound_iff`, `removeStatements_frame_iff`).
-/

namespace CMarmotta

open KV

section WellFormed

variable {s t : Statement}

namespace Statement.WellFormed

theorem subject_eq (h : s.WellFormed) : s.subject = some s.getSubject := by
  have hs := h.subject
  cases hsub : s.subject with
  | none => simp [hsub] at hs
  | some r => simp [getSubject, hsub]

theorem predicate_eq (h : s.WellFormed) : s.predicate = some s.getPredicate := by
  have hp := h.predicate
  cases hpred : s.predicate with
  | none => simp [hpred] at hp
  | some u => simp [getPredicate, hpred]

theorem object_eq (h : s.WellFormed) : s.object = some s.getObject := by
  have ho := h.object
  cases hobj : s.object with
  | none => simp [hobj] at ho
  | some v => simp [getObject, hobj]

theorem context_eq (h : s.WellFormed) :
    s.context = if s.getContext = .notSet then none else some s.getContext := by
  have hc := h.context
  cases hctx : s.context with
  | none => simp [getContext, hctx]
  | some r =>
    cases r with
    | notSet => simp [hctx, Resource.isTerm] at hc
    | uri u => simp [getContext, hctx]
    | bnode b => simp [getContext, hctx]

end Statement.WellFormed

variable [Platform]

open Platform

/-- A well-formed statement is determined by its four parts. -/
theorem eq_of_part_eq (hs : s.WellFormed) (ht : t.WellFormed) (h : ∀ pos, s.part pos = t.part pos) :
    s = t := by
  have hS : s.getSubject = t.getSubject := resourceCodec.serialize_injective (h .S)
  have hP : s.getPredicate = t.getPredicate := uriCodec.serialize_injective (h .P)
  have hO : s.getObject = t.getObject := valueCodec.serialize_injective (h .O)
  have hC : s.getContext = t.getContext := resourceCodec.serialize_injective (h .C)
  have h1 : s.subject = t.subject := by rw [hs.subject_eq, ht.subject_eq, hS]
  have h2 : s.predicate = t.predicate := by rw [hs.predicate_eq, ht.predicate_eq, hP]
  have h3 : s.object = t.object := by rw [hs.object_eq, ht.object_eq, hO]
  have h4 : s.context = t.context := by rw [hs.context_eq, ht.context_eq, hC]
  cases s
  cases t
  simp_all

/-- Where the hash does not collide, different well-formed statements have different keys. -/
theorem CollisionFree.key_inj {T : List Statement} (hcf : CollisionFree T)
    (hwf : ∀ s ∈ T, s.WellFormed) (idx : IndexType) (hs : s ∈ T) (ht : t ∈ T)
    (hk : stmtKey idx s = stmtKey idx t) : s = t :=
  eq_of_part_eq (hwf s hs) (hwf t ht) fun pos =>
    hcf s hs t ht pos ((stmtKey_inj_iff idx).mp hk pos)

end WellFormed

/-! ## Sets of statements under changes -/

section OneSet

variable [Platform]

open Platform

/-- Adding statements whose keys differ from all others is taking the union. -/
theorem foldl_add (l : List Statement) (S : Finset Statement)
    (hinj : ∀ s ∈ S ∪ l.toFinset, ∀ t ∈ l, stmtKey .SPOC s = stmtKey .SPOC t → s = t) :
    (l.map StmtOp.add).foldl StmtOp.apply S = S ∪ l.toFinset := by
  induction l generalizing S with
  | nil => simp
  | cons a l ih =>
    have hins : StmtOp.apply S (.add a) = insert a S := by
      ext t
      rw [StmtOp.mem_apply, Finset.mem_insert]
      simp only [StmtOp.value?, StmtOp.stmt, Option.some.injEq]
      constructor
      · rintro (h | ⟨h, -⟩)
        · exact Or.inl h.symm
        · exact Or.inr h
      · rintro (h | h)
        · exact Or.inl h.symm
        · by_cases hta : t = a
          · exact Or.inl hta.symm
          · exact Or.inr ⟨h, fun hk =>
              hta (hinj t (Finset.mem_union_left _ h) a List.mem_cons_self hk)⟩
    have hset : insert a S ∪ l.toFinset = S ∪ (a :: l).toFinset := by
      rw [List.toFinset_cons, Finset.union_insert, Finset.insert_union]
    rw [List.map_cons, List.foldl_cons, hins, ih _ ?_, hset]
    rw [hset]
    exact fun s hs t ht => hinj s hs t (List.mem_cons_of_mem _ ht)

theorem foldl_remove (l : List Statement) (S : Finset Statement) :
    (l.map StmtOp.remove).foldl StmtOp.apply S =
      S.filter fun t => ∀ s ∈ l, stmtKey .SPOC t ≠ stmtKey .SPOC s := by
  induction l generalizing S with
  | nil => simp
  | cons a l ih =>
    rw [List.map_cons, List.foldl_cons, ih]
    ext t
    simp [StmtOp.apply, and_assoc]

theorem Represents.foldl_remove {db : StmtDB} {idx : IndexType} {S : Finset Statement}
    (h : Represents db idx S) {l : List Statement} (hl : ∀ s ∈ l, s ∈ S) :
    (l.map StmtOp.remove).foldl StmtOp.apply S = S \ l.toFinset := by
  rw [CMarmotta.foldl_remove]
  ext t
  rw [Finset.mem_filter, Finset.mem_sdiff, List.mem_toFinset]
  refine and_congr_right fun ht => ?_
  constructor
  · intro hk hmem
    exact hk t hmem rfl
  · intro hmem s hs hk
    have hts : t = s := h.key_inj ht (hl s hs) ((stmtKey_eq_iff_spoc idx).mpr hk)
    exact hmem (hts ▸ hs)

/-! ## One set in four databases -/

/-- Every statement database has one entry per statement of the set, under the key of the statement
in that index and with the serialized statement as value, and nothing else. -/
def Store.Holds (σ : Store) (S : Finset Statement) : Prop :=
  ∀ idx, ((σ.index idx).toList : Multiset (Key × Bytes)) =
    S.val.map fun s => (stmtKey idx s, statementCodec.serialize s)

theorem Store.Represents.holds {σ : Store} {S : Finset Statement} (h : σ.Represents S) :
    σ.Holds S := fun idx => (h idx).toList_eq_map

/-- After every run the four databases hold one set of statements. Adding statements unites it with
them, removing by a pattern takes away what the query would have returned, and counts it, and
`Size` is its cardinality. -/
theorem run_one_set (ops : List Op) (hwf : ∀ s ∈ added ops, s.WellFormed) :
    ∃ S : Finset Statement, (run ops).Holds S ∧ size (run ops) = S.card ∧
      (∀ l : List Statement, (∀ s ∈ l, s.WellFormed) → CollisionFree (added ops ++ l) →
        (addStatements (run ops) l).1.Holds (S ∪ l.toFinset)) ∧
      ∀ pattern : Statement,
        (removeStatements (run ops) pattern).1.Holds
            (S \ (getStatements (run ops) pattern).toFinset) ∧
          (removeStatements (run ops) pattern).2 =
            (getStatements (run ops) pattern).toFinset.card := by
  obtain ⟨S, hS, hsub⟩ := run_represents ops
  refine ⟨S, hS.holds, hS.size_eq, ?_, fun pattern => ⟨?_, ?_⟩⟩
  · intro l hl hcfl
    have hwfl : ∀ s ∈ added ops ++ l, s.WellFormed := by
      intro s hs
      rcases List.mem_append.mp hs with hs | hs
      · exact hwf s hs
      · exact hl s hs
    have hset : (l.map StmtOp.add).foldl StmtOp.apply S = S ∪ l.toFinset := by
      refine foldl_add l S fun s hs t ht hk => ?_
      have hs' : s ∈ added ops ++ l := by
        rcases Finset.mem_union.mp hs with h | h
        · exact List.mem_append_left _ (hsub s h)
        · exact List.mem_append_right _ (List.mem_toFinset.mp h)
      exact hcfl.key_inj hwfl .SPOC hs' (List.mem_append_right _ ht) hk
    have happly := (hS.apply (.addStatements l)).holds
    rwa [Op.stmtOps, hset] at happly
  · have hmem : ∀ s ∈ getStatements (run ops) pattern, s ∈ S := fun s hs =>
      (hS.mem_getStatements.mp hs).1
    have happly := (hS.apply (.removeStatements pattern)).holds
    rwa [Op.stmtOps, (hS .SPOC).foldl_remove hmem] at happly
  · rw [count_removeStatements, List.toFinset_card_of_nodup (hS.nodup_getStatements pattern)]

end OneSet

/-- Two statements, one of them added twice, and a third one added later. -/
theorem run_one_set_three :
    ∃ S : Finset Statement,
      (run [.addStatements [.ofUris "a" "p" "x", .ofUris "a" "q" "y", .ofUris "a" "p" "x"]]).Holds
          S ∧
        (addStatements
            (run [.addStatements [.ofUris "a" "p" "x", .ofUris "a" "q" "y", .ofUris "a" "p" "x"]])
            [.ofUris "b" "p" "x" (some "c")]).1.Holds
          (S ∪ [Statement.ofUris "b" "p" "x" (some "c")].toFinset) := by
  obtain ⟨S, hS, _, hadd, _⟩ := run_one_set
    [.addStatements [.ofUris "a" "p" "x", .ofUris "a" "q" "y", .ofUris "a" "p" "x"]] (by decide)
  exact ⟨S, hS, hadd _ (by decide) (by decide +kernel)⟩

/-! ## Completeness of queries -/

section Complete

variable [Platform]

open Platform

theorem part_of_mem_part? {s pattern : Statement} (h : s.Agrees pattern) {pos : Position} {m : Bytes}
    (hm : pattern.part? pos = some m) : s.part pos = m := by
  cases pos with
  | S =>
    obtain ⟨r, hr, rfl⟩ := Option.map_eq_some_iff.mp hm
    simp [Statement.part, Statement.getSubject, h.subject r hr]
  | P =>
    obtain ⟨u, hu, rfl⟩ := Option.map_eq_some_iff.mp hm
    simp [Statement.part, Statement.getPredicate, h.predicate u hu]
  | O =>
    obtain ⟨v, hv, rfl⟩ := Option.map_eq_some_iff.mp hm
    simp [Statement.part, Statement.getObject, h.object v hv]
  | C =>
    obtain ⟨r, hr, rfl⟩ := Option.map_eq_some_iff.mp hm
    simp [Statement.part, Statement.getContext, h.context r hr]

theorem selects_of_part_eq {s pattern : Statement}
    (h : ∀ pos ∈ leading pattern, ∀ m, pattern.part? pos = some m → s.part pos = m) :
    Selects pattern s := by
  intro pos hpos
  obtain ⟨m, hm⟩ := Option.isSome_iff_exists.mp (isSome_part?_of_mem_leading hpos)
  rw [hm, Option.map_some, stmtHash, h pos hpos m hm]

/-- Every stored statement that agrees with the pattern is delivered, exactly once, whatever the
hash does. -/
theorem getStatements_count_eq_one (ops : List Op) (pattern : Statement) {s : Statement}
    (hs : s ∈ contents (run ops)) (h : s.Agrees pattern) :
    (getStatements (run ops) pattern).count s = 1 := by
  obtain ⟨S, hS, -⟩ := run_represents ops
  rw [hS.contents_eq] at hs
  have hsel : Selects pattern s := selects_of_part_eq fun pos _ m hm => part_of_mem_part? h hm
  exact List.count_eq_one_of_mem (hS.nodup_getStatements pattern)
    (hS.mem_getStatements.mpr ⟨hs, hsel⟩)

end Complete

theorem getStatements_count_eq_one_of_object :
    (getStatements (run [.addStatements [.ofUris "a" "p" "x", .ofUris "b" "q" "x"]])
      { object := some (.resource (.uri ⟨"x"⟩)) }).count (.ofUris "b" "q" "x") = 1 :=
  getStatements_count_eq_one _ _ (by decide +kernel) (by decide)

/-! ## Soundness of queries -/

section Sound

variable [Platform]

open Platform

theorem mem_leading_of_onlyLeading {pattern : Statement}
    (h : pattern.onlyLeading = true) {pos : Position} (hpos : (pattern.part? pos).isSome = true) :
    pos ∈ leading pattern := by
  obtain ⟨_ | s, _ | p, _ | o, _ | c⟩ := pattern <;> cases pos <;>
    simp_all [leading, indexType, IndexType.order, Statement.part?, Statement.onlyLeading]

theorem CollisionFreePattern.part_eq {s pattern : Statement} {T : List Statement}
    (hcf : CollisionFreePattern pattern T) (hs : s ∈ T) (hsel : Selects pattern s)
    {pos : Position} (hpos : pos ∈ leading pattern) {m : Bytes} (hm : pattern.part? pos = some m) :
    s.part pos = m := by
  have h := hsel pos hpos
  rw [hm, Option.map_some, Option.some.injEq] at h
  exact (hcf s hs pos m hm h).symm

/-- What a pattern selects agrees with it, if it sets only leading fields. -/
theorem agrees_of_selects {s pattern : Statement} {T : List Statement} (hwf : s.WellFormed)
    (hcf : CollisionFreePattern pattern T) (hs : s ∈ T) (hsel : Selects pattern s)
    (hlead : pattern.onlyLeading = true) (hctx : pattern.context ≠ some .notSet) :
    s.Agrees pattern := by
  have hpart (pos : Position) {m : Bytes} (hm : pattern.part? pos = some m) : s.part pos = m :=
    hcf.part_eq hs hsel (mem_leading_of_onlyLeading hlead (by rw [hm]; rfl)) hm
  constructor
  · intro r hr
    have h := hpart .S (congrArg (Option.map resourceCodec.serialize) hr)
    rw [hwf.subject_eq, resourceCodec.serialize_injective h]
  · intro u hu
    have h := hpart .P (congrArg (Option.map uriCodec.serialize) hu)
    rw [hwf.predicate_eq, uriCodec.serialize_injective h]
  · intro v hv
    have h := hpart .O (congrArg (Option.map valueCodec.serialize) hv)
    rw [hwf.object_eq, valueCodec.serialize_injective h]
  · intro r hr
    have h := hpart .C (congrArg (Option.map resourceCodec.serialize) hr)
    have hget : s.getContext = r := resourceCodec.serialize_injective h
    have hne : r ≠ .notSet := fun he => hctx (he ▸ hr)
    rw [hwf.context_eq, hget, if_neg hne]

/-- A pattern with a leading field that holds no term selects nothing well formed. -/
theorem not_selects_of_unmatchable {s pattern : Statement} {T : List Statement} (hwf : s.WellFormed)
    (hcf : CollisionFreePattern pattern T) (hs : s ∈ T) (hum : pattern.unmatchable = true) :
    ¬ Selects pattern s := by
  intro hsel
  obtain ⟨pos, hpos, hterm⟩ := List.any_eq_true.mp hum
  cases pos with
  | S =>
    cases hsub : pattern.subject with
    | none => simp [hsub] at hterm
    | some r =>
      have h := hcf.part_eq hs hsel hpos (congrArg (Option.map resourceCodec.serialize) hsub)
      have hget : s.getSubject = r := resourceCodec.serialize_injective h
      have hsubj := hwf.subject
      rw [hwf.subject_eq, hget] at hsubj
      simp [hsub] at hterm hsubj
      simp [hterm] at hsubj
  | P => simp at hterm
  | O =>
    cases hobj : pattern.object with
    | none => simp [hobj] at hterm
    | some v =>
      have h := hcf.part_eq hs hsel hpos (congrArg (Option.map valueCodec.serialize) hobj)
      have hget : s.getObject = v := valueCodec.serialize_injective h
      have hobject := hwf.object
      rw [hwf.object_eq, hget] at hobject
      simp [hobj] at hterm hobject
      simp [hterm] at hobject
  | C => simp at hterm

/-! ## Patterns that set a field behind an unset one -/

section Unsound

variable {pattern : Statement}

theorem S_mem_leading (hs : pattern.subject.isSome = true) : Position.S ∈ leading pattern := by
  obtain ⟨_ | s, p, o, _ | c⟩ := pattern <;>
    simp_all [leading, indexType, IndexType.order, Statement.part?]

theorem O_notMem_leading (hs : pattern.subject.isSome = true) (hp : pattern.predicate = none) :
    Position.O ∉ leading pattern := by
  obtain ⟨_ | s, p, o, _ | c⟩ := pattern <;>
    simp_all [leading, indexType, IndexType.order, Statement.part?]

theorem O_mem_leading (hs : pattern.subject = none) (ho : pattern.object.isSome = true) :
    Position.O ∈ leading pattern := by
  obtain ⟨s, p, _ | o, c⟩ := pattern <;>
    simp_all [leading, indexType, IndexType.order, Statement.part?]

theorem C_notMem_leading (hs : pattern.subject = none) (ho : pattern.object.isSome = true) :
    Position.C ∉ leading pattern := by
  obtain ⟨s, _ | p, _ | o, c⟩ := pattern <;>
    simp_all [leading, indexType, IndexType.order, Statement.part?]

theorem isTerm_of_matchable (hm : pattern.unmatchable = false) :
    (Position.S ∈ leading pattern → pattern.subject.all Resource.isTerm = true) ∧
      (Position.O ∈ leading pattern → pattern.object.all Value.isTerm = true) := by
  have h := List.any_eq_false.mp hm
  exact ⟨fun hS => by simpa using h .S hS, fun hO => by simpa using h .O hO⟩

/-- A pattern made a statement: the subject and the predicate of the pattern, or some term where it
has none, and a given object and context. -/
def Statement.fillIn (pattern : Statement) (v : Value) (c : Option Resource) : Statement where
  subject := some (pattern.subject.getD (.uri ⟨""⟩))
  predicate := some (pattern.predicate.getD ⟨""⟩)
  object := some v
  context := c

theorem fillIn_wellFormed (hm : pattern.unmatchable = false) {v : Value} {c : Option Resource}
    (hv : v.isTerm = true) (hc : c.all Resource.isTerm = true) : (pattern.fillIn v c).WellFormed := by
  refine ⟨?_, rfl, hv, hc⟩
  have hS := (isTerm_of_matchable hm).1
  cases hsub : pattern.subject with
  | none => simp [Statement.fillIn, hsub, Resource.isTerm]
  | some r =>
    have hterm := hS (S_mem_leading (by rw [hsub]; rfl))
    simpa [Statement.fillIn, hsub] using hterm

/-- A filled-in pattern is selected without a collision, if its object and context are those of the
pattern or hash differently, and are those of the pattern where they lead. -/
theorem fillIn_selected (v : Value) (c : Option Resource)
    (hO : ∀ o, pattern.object = some o →
      v = o ∨ (murmur3 (valueCodec.serialize o) ≠ murmur3 (valueCodec.serialize v) ∧
        Position.O ∉ leading pattern))
    (hC : ∀ r, pattern.context = some r →
      c.getD .notSet = r ∨ (murmur3 (resourceCodec.serialize r) ≠
        murmur3 (resourceCodec.serialize (c.getD .notSet)) ∧ Position.C ∉ leading pattern)) :
    CollisionFreePattern pattern [pattern.fillIn v c] ∧ Selects pattern (pattern.fillIn v c) := by
  -- At every position the part is that of the pattern, or hashes differently and does not lead.
  have hpart : ∀ pos m, pattern.part? pos = some m →
      (pattern.fillIn v c).part pos = m ∨
        (murmur3 m ≠ stmtHash (pattern.fillIn v c) pos ∧ pos ∉ leading pattern) := by
    intro pos m hm
    cases pos with
    | S =>
      obtain ⟨r, hr, rfl⟩ := Option.map_eq_some_iff.mp hm
      exact Or.inl (by simp [Statement.part, Statement.getSubject, Statement.fillIn, hr])
    | P =>
      obtain ⟨u, hu, rfl⟩ := Option.map_eq_some_iff.mp hm
      exact Or.inl (by simp [Statement.part, Statement.getPredicate, Statement.fillIn, hu])
    | O =>
      obtain ⟨o, ho, rfl⟩ := Option.map_eq_some_iff.mp hm
      rcases hO o ho with rfl | h
      · exact Or.inl rfl
      · exact Or.inr h
    | C =>
      obtain ⟨r, hr, rfl⟩ := Option.map_eq_some_iff.mp hm
      rcases hC r hr with rfl | h
      · exact Or.inl rfl
      · exact Or.inr h
  constructor
  · intro b hb pos m hm hhash
    rw [List.mem_singleton.mp hb] at hhash ⊢
    rcases hpart pos m hm with h | ⟨h, -⟩
    · exact h.symm
    · exact absurd hhash h
  · refine selects_of_part_eq fun pos hpos m hm => ?_
    rcases hpart pos m hm with h | ⟨-, h⟩
    · exact h
    · exact absurd hpos h

omit [Platform] in
/-- If two things have different images, one of them has another image than a given one. -/
theorem exists_ne_apply {α β : Type} {P : α → Prop} {f : α → β} (y : β)
    (h : ∃ a b, P a ∧ P b ∧ f a ≠ f b) : ∃ a, P a ∧ y ≠ f a := by
  obtain ⟨a, b, ha, hb, hne⟩ := h
  by_cases hy : y = f a
  · exact ⟨b, hb, hy ▸ hne⟩
  · exact ⟨a, ha, hy⟩

/-- An empty context selects a statement without a context, since both have the same context hash. -/
theorem exists_selects_of_empty_context (hsep : HashSeparates) (hm : pattern.unmatchable = false)
    (hlead : pattern.onlyLeading = true) (hctx : pattern.context = some .notSet) :
    ∃ s : Statement, s.WellFormed ∧ CollisionFreePattern pattern [s] ∧ Selects pattern s ∧
      ¬ s.Agrees pattern := by
  obtain ⟨v, -, hv, -⟩ := hsep.values
  have hterm : (pattern.object.getD v).isTerm = true := by
    cases hobj : pattern.object with
    | none => exact hv
    | some o =>
      have hO := (isTerm_of_matchable hm).2
        (mem_leading_of_onlyLeading hlead (by simp [Statement.part?, hobj]))
      simpa [hobj] using hO
  have hobject : ∀ o, pattern.object = some o → pattern.object.getD v = o := by
    intro o ho
    rw [ho]
    rfl
  have hcontext : ∀ r, pattern.context = some r → Resource.notSet = r := by
    intro r hr
    rw [hctx] at hr
    exact Option.some.inj hr
  obtain ⟨hcf, hsel⟩ := fillIn_selected (pattern.object.getD v) none
    (fun o ho => Or.inl (hobject o ho)) (fun r hr => Or.inl (hcontext r hr))
  refine ⟨_, fillIn_wellFormed hm hterm rfl, hcf, hsel, fun hag => ?_⟩
  exact absurd (hag.context _ hctx) (by simp [Statement.fillIn])

/-- An object behind an unset predicate does not matter. -/
theorem exists_selects_of_predicate_unset (hsep : HashSeparates)
    (hm : pattern.unmatchable = false) (hsub : pattern.subject.isSome = true)
    (hpred : pattern.predicate = none) {o : Value} (hobj : pattern.object = some o) :
    ∃ s : Statement, s.WellFormed ∧ CollisionFreePattern pattern [s] ∧ Selects pattern s ∧
      ¬ s.Agrees pattern := by
  obtain ⟨v, hvt, hvo⟩ := exists_ne_apply (murmur3 (valueCodec.serialize o)) hsep.values
  have hctxterm : (pattern.context.filter Resource.isTerm).all Resource.isTerm = true := by
    cases hctx : pattern.context.filter Resource.isTerm with
    | none => rfl
    | some r => exact (Option.filter_eq_some_iff.mp hctx).2
  have hobject : ∀ o', pattern.object = some o' →
      murmur3 (valueCodec.serialize o') ≠ murmur3 (valueCodec.serialize v) := by
    intro o' ho'
    rw [hobj] at ho'
    rwa [← Option.some.inj ho']
  obtain ⟨hcf, hsel⟩ := fillIn_selected v (pattern.context.filter Resource.isTerm)
    (fun o' ho' => Or.inr ⟨hobject o' ho', O_notMem_leading hsub hpred⟩)
    (fun r hr => Or.inl (by rw [hr]; cases r <;> rfl))
  refine ⟨_, fillIn_wellFormed hm hvt hctxterm, hcf, hsel, fun hag => hvo ?_⟩
  have heq := hag.object o hobj
  rw [Option.some.inj heq]

/-- A context behind an unset subject does not matter. -/
theorem exists_selects_of_subject_unset (hsep : HashSeparates) (hm : pattern.unmatchable = false)
    (hsub : pattern.subject = none) {o : Value} (hobj : pattern.object = some o) {r : Resource}
    (hctx : pattern.context = some r) :
    ∃ s : Statement, s.WellFormed ∧ CollisionFreePattern pattern [s] ∧ Selects pattern s ∧
      ¬ s.Agrees pattern := by
  obtain ⟨c, hct, hcr⟩ := exists_ne_apply (murmur3 (resourceCodec.serialize r)) hsep.contexts
  have hsome : pattern.object.isSome = true := by
    rw [hobj]
    rfl
  have hot : o.isTerm = true := by
    have hO := (isTerm_of_matchable hm).2 (O_mem_leading hsub hsome)
    simpa [hobj] using hO
  have hobject : ∀ o', pattern.object = some o' → o = o' := by
    intro o' ho'
    rw [hobj] at ho'
    exact Option.some.inj ho'
  have hcontext : ∀ r', pattern.context = some r' →
      murmur3 (resourceCodec.serialize r') ≠ murmur3 (resourceCodec.serialize c) := by
    intro r' hr'
    rw [hctx] at hr'
    rwa [← Option.some.inj hr']
  obtain ⟨hcf, hsel⟩ := fillIn_selected o (some c) (fun o' ho' => Or.inl (hobject o' ho'))
    (fun r' hr' => Or.inr ⟨hcontext r' hr', C_notMem_leading hsub hsome⟩)
  refine ⟨_, fillIn_wellFormed hm hot (by simpa using hct), hcf, hsel, fun hag => hcr ?_⟩
  have heq := hag.context r hctx
  rw [Option.some.inj heq]

/-- A matchable pattern that sets a field behind an unset one, or an empty context, selects a
well-formed statement that does not agree with it. -/
theorem exists_selects_not_agrees (hsep : HashSeparates) (hm : pattern.unmatchable = false)
    (h : ¬ (pattern.onlyLeading = true ∧ pattern.context ≠ some .notSet)) :
    ∃ s : Statement, s.WellFormed ∧ CollisionFreePattern pattern [s] ∧ Selects pattern s ∧
      ¬ s.Agrees pattern := by
  by_cases hlead : pattern.onlyLeading = true
  · refine exists_selects_of_empty_context hsep hm hlead ?_
    by_contra hne
    exact h ⟨hlead, hne⟩
  · obtain ⟨o, hobj⟩ : ∃ o, pattern.object = some o := by
      cases hobj : pattern.object with
      | none => exact absurd (by simp [Statement.onlyLeading, hobj]) hlead
      | some o => exact ⟨o, rfl⟩
    by_cases hsub : pattern.subject.isSome = true
    · refine exists_selects_of_predicate_unset hsep hm hsub ?_ hobj
      by_contra hne
      have hp : pattern.predicate.isSome = true := Option.isSome_iff_ne_none.mpr hne
      exact hlead (by simp [Statement.onlyLeading, hsub, hp])
    · have hsub' : pattern.subject = none := by simpa using hsub
      obtain ⟨r, hctx⟩ : ∃ r, pattern.context = some r := by
        cases hctx : pattern.context with
        | none => exact absurd (by simp [Statement.onlyLeading, hsub', hctx]) hlead
        | some r => exact ⟨r, rfl⟩
      exact exists_selects_of_subject_unset hsep hm hsub' hobj hctx

end Unsound

theorem contents_run_addStatement (s : Statement) :
    contents (run [.addStatements [s]]) = {s} := by
  have h := Store.Represents.empty.apply (.addStatements [s])
  exact h.contents_eq.trans (by simp [Op.stmtOps, StmtOp.apply])

/-- In every reachable store of well-formed statements, and where the hash does not collide, the
scan for the pattern visits only statements that agree with it. -/
def ScanIsSound (pattern : Statement) : Prop :=
  ∀ ops, (∀ s ∈ added ops, s.WellFormed) → CollisionFree (added ops) →
    CollisionFreePattern pattern (added ops) →
      ∀ s ∈ contents (run ops), Selects pattern s → s.Agrees pattern

theorem scanIsSound_iff (hsep : HashSeparates) (pattern : Statement) :
    ScanIsSound pattern ↔ pattern.unmatchable = true ∨
      (pattern.onlyLeading = true ∧ pattern.context ≠ some .notSet) := by
  constructor
  · intro hsound
    by_contra hcond
    obtain ⟨hm, hlead⟩ := not_or.mp hcond
    obtain ⟨s, hwf, hcf, hsel, hag⟩ :=
      exists_selects_not_agrees hsep (Bool.eq_false_iff.mpr hm) hlead
    have hadded : added [.addStatements [s]] = [s] := rfl
    refine hag (hsound [.addStatements [s]] ?_ ?_ ?_ s ?_ hsel)
    · rw [hadded]
      exact fun t ht => List.mem_singleton.mp ht ▸ hwf
    · rw [hadded]
      intro a ha b hb pos _
      rw [List.mem_singleton.mp ha, List.mem_singleton.mp hb]
    · rw [hadded]
      exact hcf
    · rw [contents_run_addStatement]
      exact Finset.mem_singleton_self s
  · intro hcond ops hwf _ hcfp s hs hsel
    obtain ⟨S, hS, hsub⟩ := run_represents ops
    rw [hS.contents_eq] at hs
    have hmem := hsub s hs
    rcases hcond with hum | ⟨hlead, hctx⟩
    · exact absurd hsel (not_selects_of_unmatchable (hwf s hmem) hcfp hmem hum)
    · exact agrees_of_selects (hwf s hmem) hcfp hmem hsel hlead hctx

/-- Queries are sound for a pattern, in every reachable store, exactly when the fields it sets are
the leading ones of its index and it sets no empty context, or when it can match nothing. -/
theorem getStatements_sound_iff (hsep : HashSeparates) (pattern : Statement) :
    (∀ ops, (∀ s ∈ added ops, s.WellFormed) → CollisionFree (added ops) →
      CollisionFreePattern pattern (added ops) →
        ∀ s ∈ getStatements (run ops) pattern, s.Agrees pattern) ↔
      pattern.unmatchable = true ∨
        (pattern.onlyLeading = true ∧ pattern.context ≠ some .notSet) := by
  rw [← scanIsSound_iff hsep]
  refine forall₄_congr fun ops _ _ _ => ?_
  obtain ⟨S, hS, -⟩ := run_represents ops
  refine forall_congr' fun s => ?_
  rw [hS.mem_getStatements, hS.contents_eq, and_imp]

end Sound

theorem hashSeparates_x64 : HashSeparates where
  values := ⟨.resource (.uri ⟨"x"⟩), .resource (.uri ⟨"y"⟩), by decide +kernel⟩
  contexts := ⟨.uri ⟨"x"⟩, .uri ⟨"y"⟩, by decide +kernel⟩

theorem getStatements_sound_iff_subject :
    HashSeparates ∧
      ((∀ ops, (∀ s ∈ added ops, s.WellFormed) → CollisionFree (added ops) →
        CollisionFreePattern { subject := some (.uri ⟨"a"⟩) } (added ops) →
          ∀ s ∈ getStatements (run ops) { subject := some (.uri ⟨"a"⟩) },
            s.Agrees { subject := some (.uri ⟨"a"⟩) }) ↔
        Statement.unmatchable { subject := some (.uri ⟨"a"⟩) } = true ∨
          (Statement.onlyLeading { subject := some (.uri ⟨"a"⟩) } = true ∧
            (none : Option Resource) ≠ some .notSet)) :=
  ⟨hashSeparates_x64, getStatements_sound_iff hashSeparates_x64 { subject := some (.uri ⟨"a"⟩) }⟩

/-- The query for a subject and an object delivers a statement with another object. -/
theorem getStatements_unsound :
    ¬ ∀ (ops : List Op) (pattern : Statement), (∀ s ∈ added ops, s.WellFormed) →
      CollisionFree (added ops) → CollisionFreePattern pattern (added ops) →
        ∀ s ∈ getStatements (run ops) pattern, s.Agrees pattern := by
  intro h
  have hag := h [.addStatements [.ofUris "a" "p" "y"]]
    { subject := some (.uri ⟨"a"⟩), object := some (.resource (.uri ⟨"x"⟩)) }
    (by decide) (by decide +kernel) (by decide +kernel) (.ofUris "a" "p" "y") (by decide +kernel)
  exact absurd hag (by decide)

section Frame

variable [Platform]

open Platform

/-- A removal keeps every stored statement that differs from the pattern in a field it sets, in
every reachable store, under the same condition. -/
theorem removeStatements_frame_iff (hsep : HashSeparates) (pattern : Statement) :
    (∀ ops, (∀ s ∈ added ops, s.WellFormed) → CollisionFree (added ops) →
      CollisionFreePattern pattern (added ops) →
        ∀ s ∈ contents (run ops), ¬ s.Agrees pattern → ∀ idx,
          ((removeStatements (run ops) pattern).1.index idx)[stmtKey idx s]? =
            some (statementCodec.serialize s)) ↔
      pattern.unmatchable = true ∨
        (pattern.onlyLeading = true ∧ pattern.context ≠ some .notSet) := by
  rw [← scanIsSound_iff hsep]
  refine forall₄_congr fun ops _ _ _ => ?_
  obtain ⟨S, hS, -⟩ := run_represents ops
  rw [hS.contents_eq]
  refine forall₂_congr fun s hs => ?_
  have hmem : ∀ t ∈ getStatements (run ops) pattern, t ∈ S := fun t ht =>
    (hS.mem_getStatements.mp ht).1
  have hrem := hS.apply (.removeStatements pattern)
  rw [Op.stmtOps, (hS .SPOC).foldl_remove hmem] at hrem
  have hkept : ∀ idx, ((removeStatements (run ops) pattern).1.index idx)[stmtKey idx s]? =
      some (statementCodec.serialize s) ↔ ¬ Selects pattern s := fun idx => by
    refine ((hrem idx).getElem?_stmtKey s).trans ?_
    rw [Finset.mem_sdiff, List.mem_toFinset, hS.mem_getStatements]
    tauto
  simp only [hkept]
  constructor
  · intro hframe hsel
    by_contra hag
    exact hframe hag .SPOC hsel
  · intro hsound hag _ hsel
    exact hag (hsound hsel)

end Frame

theorem removeStatements_frame_iff_subject :
    HashSeparates ∧
      ((∀ ops, (∀ s ∈ added ops, s.WellFormed) → CollisionFree (added ops) →
        CollisionFreePattern { subject := some (.uri ⟨"a"⟩) } (added ops) →
          ∀ s ∈ contents (run ops), ¬ s.Agrees { subject := some (.uri ⟨"a"⟩) } → ∀ idx,
            ((removeStatements (run ops) { subject := some (.uri ⟨"a"⟩) }).1.index
              idx)[stmtKey idx s]? = some (Platform.statementCodec.serialize s)) ↔
        Statement.unmatchable { subject := some (.uri ⟨"a"⟩) } = true ∨
          (Statement.onlyLeading { subject := some (.uri ⟨"a"⟩) } = true ∧
            (none : Option Resource) ≠ some .notSet)) :=
  ⟨hashSeparates_x64, removeStatements_frame_iff hashSeparates_x64 { subject := some (.uri ⟨"a"⟩) }⟩

/-- The removal of a subject and an object deletes a statement with another object. -/
theorem removeStatements_deletes_too_much :
    ¬ ∀ (ops : List Op) (pattern : Statement), (∀ s ∈ added ops, s.WellFormed) →
      CollisionFree (added ops) → CollisionFreePattern pattern (added ops) →
        ∀ s ∈ contents (run ops), ¬ s.Agrees pattern → ∀ idx,
          ((removeStatements (run ops) pattern).1.index idx)[stmtKey idx s]? =
            some (Platform.statementCodec.serialize s) := by
  intro h
  have hkept := h [.addStatements [.ofUris "a" "p" "y"]]
    { subject := some (.uri ⟨"a"⟩), object := some (.resource (.uri ⟨"x"⟩)) }
    (by decide) (by decide +kernel) (by decide +kernel) (.ofUris "a" "p" "y") (by decide +kernel)
    (by decide) .SPOC
  exact absurd hkept (by decide +kernel)

end CMarmotta
