import CMarmotta.Client.Contexts

/-!
# When an array of contexts means the same in every operation

A `null` in the array is a wildcard for `getStatements`, `removeStatements` and `clear`, and is
skipped by `size`. So the operations agree on an array with `null` only if the stored statements
do not tell (`contextsMeanTheSame_iff`).
-/

namespace CMarmotta.Client

/-! ## Contexts -/

theorem JResource.message_ne_notSet (r : JResource) : r.message ≠ .notSet := by
  cases r <;> simp [JResource.message]

theorem context_eq_of_getContext {s : Statement} {r : JResource} (h : getContext s = some r) :
    s.context = some r.message := by
  obtain ⟨_, _, _, context⟩ := s
  rcases context with _ | _ | u | b <;> simp [getContext] at h <;> simp [← h, JResource.message]

/-- A statement has the context of a term exactly if it says so. -/
theorem context_eq_iff {s : Statement} (r : JResource) :
    s.context = some r.message ↔ (getContext s).map JResource.message = some r.message := by
  constructor
  · intro h
    obtain ⟨_, _, _, context⟩ := s
    obtain rfl : context = some r.message := h
    cases r <;> rfl
  · intro h
    obtain ⟨r', hr', hm⟩ := Option.map_eq_some_iff.mp h
    rw [context_eq_of_getContext hr', hm]

theorem inContexts_of_none {contexts : List (Option JResource)} {s : Statement}
    (h : getContext s = none) : InContexts contexts s ↔ none ∈ contexts := by
  simp [InContexts, h]

theorem inContexts_of_some {contexts : List (Option JResource)} {s : Statement} {r : JResource}
    (h : getContext s = some r) :
    InContexts contexts s ↔ s.context ∈ contexts.map (Option.map JResource.message) := by
  rw [context_eq_of_getContext h, List.mem_map]
  simp [InContexts, h]

theorem contextRequest_eq (contexts : List (Option JResource)) :
    contextRequest contexts = contexts.filterMap (Option.map JResource.message) := by
  refine List.filterMap_congr fun ctx _ => ?_
  rcases ctx with _ | _ | _ | _ | _ <;> rfl

theorem patterns_of_ne_nil {contexts : List (Option JResource)} (h : contexts ≠ [])
    (subj : Option JResource) (pred : Option JURI) (obj : Option JValue) :
    patterns subj pred obj contexts = contexts.map (protoStatement subj pred obj) :=
  if_pos (List.length_pos_iff.mpr h)

theorem agrees_protoStatement_iff {s : Statement} {subj : Option JResource} {pred : Option JURI}
    {obj : Option JValue} {ctx : Option JResource} :
    s.Agrees (protoStatement subj pred obj ctx) ↔
      s.Agrees (protoStatement subj pred obj none) ∧
        (ctx = none ∨ s.context = ctx.map JResource.message) := by
  constructor
  · intro h
    refine ⟨⟨h.subject, h.predicate, h.object, by simp [protoStatement]⟩, ?_⟩
    cases ctx with
    | none => exact Or.inl rfl
    | some r => exact Or.inr (h.context _ rfl)
  · rintro ⟨h, hctx⟩
    refine ⟨h.subject, h.predicate, h.object, fun m hm => ?_⟩
    obtain ⟨r, rfl, rfl⟩ := Option.map_eq_some_iff.mp hm
    exact hctx.resolve_left (by simp)

/-! ## `getStatements` -/

section Count

variable {S : Finset Statement} {s : Statement} {subj : Option JResource} {pred : Option JURI}
  {obj : Option JValue} {contexts : List (Option JResource)}

theorem count_documented (S : Finset Statement) (pattern s : Statement) :
    (Documented.getStatements S pattern).count s = if s ∈ S ∧ s.Agrees pattern then 1 else 0 := by
  rw [Documented.getStatements, Multiset.count_eq_of_nodup (Finset.nodup _)]
  simp

theorem count_foldl (S : Finset Statement) (s : Statement) (l : List Statement)
    (init : Multiset Statement) :
    (l.foldl (fun result pattern => result + Documented.getStatements S pattern) init).count s =
      init.count s + l.countP fun pattern => s ∈ S ∧ s.Agrees pattern := by
  induction l generalizing init with
  | nil => rfl
  | cons pattern l ih =>
    rw [List.foldl_cons, ih, Multiset.count_add, count_documented, List.countP_cons]
    simp only [decide_eq_true_eq]
    omega

/-- A `null` in the array yields a statement, and so does the context of the statement. -/
theorem countP_contexts (contexts : List (Option JResource)) (m : Resource) :
    contexts.countP (fun ctx => ctx = none ∨ some m = ctx.map JResource.message) =
      contexts.count none + (contexts.map (Option.map JResource.message)).count (some m) := by
  induction contexts with
  | nil => rfl
  | cons ctx contexts ih =>
    rw [List.countP_cons, ih, List.count_cons, List.map_cons, List.count_cons]
    cases ctx with
    | none => simp; omega
    | some r =>
      by_cases hr : m = r.message
      · simp [hr]; omega
      · simp [hr, Ne.symm hr]

theorem count_getStatementsInternal (hne : contexts ≠ []) (s : Statement) :
    (getStatementsInternal S subj pred obj contexts).count s =
      if s ∈ S ∧ s.Agrees (protoStatement subj pred obj none) then
        contexts.countP fun ctx => ctx = none ∨ s.context = ctx.map JResource.message
      else 0 := by
  rw [getStatementsInternal, patterns_of_ne_nil hne, count_foldl, Multiset.count_zero, Nat.zero_add,
    List.countP_map]
  split_ifs with h
  · refine List.countP_congr fun ctx _ => ?_
    have hiff : s.Agrees (protoStatement subj pred obj ctx) ↔ _ := agrees_protoStatement_iff
    simp [hiff, h.1, h.2]
  · rw [List.countP_eq_zero]
    intro ctx _ hctx
    obtain ⟨hs, hagrees⟩ := of_decide_eq_true hctx
    exact h ⟨hs, (agrees_protoStatement_iff.mp hagrees).1⟩

/-- How often `getStatements` yields a statement that matches, when the contexts are different. -/
theorem count_of_agrees (hne : contexts ≠ [])
    (hdiff : (contexts.map (Option.map JResource.message)).Nodup) (hs : s ∈ S)
    (hagrees : s.Agrees (protoStatement subj pred obj none)) :
    (getStatementsInternal S subj pred obj contexts).count s =
      (if none ∈ contexts then 1 else 0) +
        if getContext s ≠ none ∧ InContexts contexts s then 1 else 0 := by
  have hnull : contexts.count none = if none ∈ contexts then 1 else 0 := hdiff.of_map.count
  rw [count_getStatementsInternal hne, if_pos ⟨hs, hagrees⟩]
  cases hctx : getContext s with
  | none =>
    rw [← hnull]
    simp only [ne_eq, not_true_eq_false, false_and, if_false, Nat.add_zero]
    cases hcontext : s.context with
    | none =>
      refine List.countP_congr fun ctx _ => ?_
      cases ctx <;> simp
    | some m =>
      obtain rfl : m = .notSet := by
        rcases m with _ | u | b
        · rfl
        · simp [getContext, hcontext] at hctx
        · simp [getContext, hcontext] at hctx
      have hzero : (contexts.map (Option.map JResource.message)).count (some .notSet) = 0 := by
        refine List.count_eq_zero_of_not_mem fun hmem => ?_
        obtain ⟨ctx, -, hm⟩ := List.mem_map.mp hmem
        obtain ⟨r, -, hr⟩ := Option.map_eq_some_iff.mp hm
        exact r.message_ne_notSet hr
      rw [countP_contexts, hzero, Nat.add_zero]
  | some r =>
    have hcount := hdiff.count (a := s.context)
    have hin : InContexts contexts s ↔ _ := inContexts_of_some hctx
    rw [context_eq_of_getContext hctx] at hcount hin ⊢
    rw [countP_contexts, hnull, hcount]
    simp only [ne_eq, reduceCtorEq, not_false_eq_true, true_and, hin]

/-- `getStatements` is right exactly when the array holds no `null`, or no statement that matches
has a context. -/
theorem getStatements_right_iff (hne : contexts ≠ [])
    (hdiff : (contexts.map (Option.map JResource.message)).Nodup) :
    (∀ s, (getStatementsInternal S subj pred obj contexts).count s =
        if s ∈ S ∧ s.Agrees (protoStatement subj pred obj none) ∧ InContexts contexts s then 1
        else 0) ↔
      none ∉ contexts ∨
        ∀ s ∈ S, s.Agrees (protoStatement subj pred obj none) → getContext s = none := by
  have hright : ∀ s, s ∈ S ∧ s.Agrees (protoStatement subj pred obj none) →
      ((getStatementsInternal S subj pred obj contexts).count s =
        (if s ∈ S ∧ s.Agrees (protoStatement subj pred obj none) ∧ InContexts contexts s then 1
          else 0) ↔
      (none ∉ contexts ∨ getContext s = none)) := by
    rintro s ⟨hs, hagrees⟩
    rw [count_of_agrees hne hdiff hs hagrees]
    cases hctx : getContext s with
    | none => simp [hs, hagrees, inContexts_of_none hctx]
    | some r =>
      by_cases hnull : none ∈ contexts <;> by_cases hin : InContexts contexts s <;>
        simp [hs, hagrees, hnull, hin]
  constructor
  · intro h
    by_cases hnull : none ∈ contexts
    · refine Or.inr fun s hs hagrees => ?_
      exact ((hright s ⟨hs, hagrees⟩).mp (h s)).resolve_left fun hnot => hnot hnull
    · exact Or.inl hnull
  · intro h s
    by_cases hs : s ∈ S ∧ s.Agrees (protoStatement subj pred obj none)
    · exact (hright s hs).mpr (h.imp_right fun h => h s hs.1 hs.2)
    · rw [count_getStatementsInternal hne, if_neg hs, if_neg fun h => hs ⟨h.1, h.2.1⟩]

/-! ## `removeStatements` and `clear` -/

theorem update_stmtRemoved (S : Finset Statement) (l : List Statement) :
    Documented.update S (l.map .stmtRemoved) =
      S.filter fun s => ∀ pattern ∈ l, ¬ s.Agrees pattern := by
  induction l generalizing S with
  | nil => simp [Documented.update]
  | cons pattern l ih =>
    show Documented.update (S.filter fun s => ¬ s.Agrees pattern) (l.map .stmtRemoved) = _
    rw [ih, Finset.filter_filter]
    simp

/-- A removal with the patterns of `getStatements` deletes what `getStatements` yields. -/
theorem update_patterns (S : Finset Statement) (subj : Option JResource) (pred : Option JURI)
    (obj : Option JValue) (contexts : List (Option JResource)) :
    Documented.update S ((patterns subj pred obj contexts).map .stmtRemoved) =
      S.filter fun s => s ∉ getStatementsInternal S subj pred obj contexts := by
  rw [update_stmtRemoved]
  refine Finset.filter_congr fun s hs => ?_
  rw [← Multiset.count_eq_zero, getStatementsInternal, count_foldl, Multiset.count_zero,
    Nat.zero_add, List.countP_eq_zero]
  simp [hs]

/-! ## `size` -/

theorem inRequest_iff :
    (∃ r ∈ contextRequest contexts, s.context = some r) ↔
      getContext s ≠ none ∧ InContexts contexts s := by
  rw [contextRequest_eq]
  simp only [List.mem_filterMap, Option.map_eq_some_iff]
  constructor
  · rintro ⟨_, ⟨ctx, hmem, r, rfl, rfl⟩, hcontext⟩
    have hget := (context_eq_iff r).mp hcontext
    refine ⟨fun hnone => ?_, some r, hmem, hget.symm⟩
    rw [hnone] at hget
    cases hget
  · rintro ⟨hget, ctx, hmem, hctx⟩
    obtain ⟨r, hr⟩ := Option.ne_none_iff_exists'.mp hget
    rw [hr] at hctx
    obtain ⟨r', rfl, hr'⟩ := Option.map_eq_some_iff.mp hctx
    exact ⟨r.message, ⟨some r', hmem, r', rfl, hr'⟩, context_eq_of_getContext hr⟩

/-- `size` is right exactly when the array holds no `null`, or it holds nothing else and no
statement has a context, or it holds something else and every statement has a context. -/
theorem size_right_iff (hne : contexts ≠ []) :
    sizeInternal S contexts = (S.filter (InContexts contexts)).card ↔
      none ∉ contexts ∨ (contextRequest contexts = [] ∧ ∀ s ∈ S, getContext s = none) ∨
        (contextRequest contexts ≠ [] ∧ ∀ s ∈ S, getContext s ≠ none) := by
  have hfilter : (S.filter fun s => ∃ r ∈ contextRequest contexts, s.context = some r) =
      (S.filter (InContexts contexts)).filter fun s => getContext s ≠ none := by
    rw [Finset.filter_filter]
    refine Finset.filter_congr fun s _ => ?_
    rw [inRequest_iff, and_comm]
  rw [sizeInternal, Documented.size]
  by_cases hnull : none ∈ contexts
  · by_cases hempty : contextRequest contexts = []
    · rw [if_pos hempty, eq_comm, Finset.card_filter_eq_iff]
      have hin : ∀ s, InContexts contexts s ↔ getContext s = none := by
        intro s
        refine ⟨fun h => ?_, fun h => (inContexts_of_none h).mpr hnull⟩
        by_contra hget
        obtain ⟨r, hr, -⟩ := inRequest_iff.mpr ⟨hget, h⟩
        rw [hempty] at hr
        cases hr
      simp [hin, hnull, hempty]
    · rw [if_neg hempty, hfilter, Finset.card_filter_eq_iff]
      simp only [Finset.mem_filter, and_imp, hnull, not_true_eq_false, hempty, false_and,
        false_or, ne_eq, not_false_eq_true, true_and]
      refine forall₂_congr fun s _ => ⟨fun h hget => ?_, fun h _ => h⟩
      exact h ((inContexts_of_none hget).mpr hnull) hget
  · have hempty : contextRequest contexts ≠ [] := by
      obtain ⟨ctx, rest, rfl⟩ := List.exists_cons_of_ne_nil hne
      rw [contextRequest_eq]
      cases ctx with
      | none => exact absurd (by simp) hnull
      | some r => simp
    rw [if_neg hempty, hfilter, Finset.card_filter_eq_iff]
    simp only [hnull, not_false_eq_true, true_or, iff_true]
    intro s hs hget
    exact hnull ((inContexts_of_none hget).mp (Finset.mem_filter.mp hs).2)

theorem contextRequest_eq_nil_iff (hne : contexts ≠ [])
    (hdiff : (contexts.map (Option.map JResource.message)).Nodup) :
    contextRequest contexts = [] ↔ contexts = [none] := by
  constructor
  · intro h
    have hall : ∀ ctx ∈ contexts, ctx = none := by
      rw [contextRequest_eq, List.filterMap_eq_nil_iff] at h
      simpa using h
    obtain ⟨ctx, rest, rfl⟩ := List.exists_cons_of_ne_nil hne
    obtain rfl := hall ctx (by simp)
    cases rest with
    | nil => rfl
    | cons ctx' rest =>
      obtain rfl := hall ctx' (by simp)
      simp at hdiff
  · rintro rfl
    rfl

/-- An array of different contexts means the same in every operation exactly when it holds no
`null`, or it is `[null]` and no statement has a context, or it holds more than `null`, every
statement has a context and none matches the pattern. -/
theorem contextsMeanTheSame_iff (S : Finset Statement) (subj : Option JResource)
    (pred : Option JURI) (obj : Option JValue) (hne : contexts ≠ [])
    (hdiff : (contexts.map (Option.map JResource.message)).Nodup) :
    ContextsMeanTheSame S subj pred obj contexts ↔
      none ∉ contexts ∨ (contexts = [none] ∧ ∀ s ∈ S, getContext s = none) ∨
        (none ∈ contexts ∧ contexts ≠ [none] ∧
          ∀ s ∈ S, getContext s ≠ none ∧ ¬ s.Agrees (protoStatement subj pred obj none)) := by
  have hparts : ContextsMeanTheSame S subj pred obj contexts ↔
      (none ∉ contexts ∨
          ∀ s ∈ S, s.Agrees (protoStatement subj pred obj none) → getContext s = none) ∧
        (none ∉ contexts ∨ (contexts = [none] ∧ ∀ s ∈ S, getContext s = none) ∨
          (contexts ≠ [none] ∧ ∀ s ∈ S, getContext s ≠ none)) := by
    have hsize := size_right_iff (S := S) hne
    rw [ne_eq, contextRequest_eq_nil_iff hne hdiff] at hsize
    rw [← getStatements_right_iff hne hdiff, ← hsize]
    -- The removals send the patterns of `getStatements`, so they are right in any case.
    constructor
    · intro h
      exact ⟨h.getStatements, h.size⟩
    · rintro ⟨hget, hcount⟩
      exact ⟨hget, hcount, update_patterns S subj pred obj contexts,
        update_patterns S none none none contexts⟩
  rw [hparts]
  by_cases hnull : none ∈ contexts
  · simp only [hnull, not_true_eq_false, false_or, true_and]
    constructor
    · rintro ⟨hget, hone | ⟨hmore, hsize⟩⟩
      · exact Or.inl hone
      · refine Or.inr ⟨hmore, fun s hs => ⟨hsize s hs, fun hagrees => ?_⟩⟩
        exact hsize s hs (hget s hs hagrees)
    · rintro (⟨hone, hsize⟩ | ⟨hmore, hboth⟩)
      · exact ⟨fun s hs _ => hsize s hs, Or.inl ⟨hone, hsize⟩⟩
      · exact ⟨fun s hs hagrees => absurd hagrees (hboth s hs).2,
          Or.inr ⟨hmore, fun s hs => (hboth s hs).1⟩⟩
  · simp [hnull]

end Count

/-- A statement in a context. -/
def inContext : Statement := .ofUris "urn:s" "urn:p" "urn:o" "urn:c"

/-- Two contexts that are not `null`. -/
theorem contextsMeanTheSame_of_two :
    [some (JResource.uri "urn:c"), some (.bnode "b")] ≠ [] ∧
      ([some (JResource.uri "urn:c"), some (.bnode "b")].map (Option.map JResource.message)).Nodup ∧
      ContextsMeanTheSame {inContext} none none none [some (.uri "urn:c"), some (.bnode "b")] := by
  have hdiff : ([some (JResource.uri "urn:c"), some (.bnode "b")].map
      (Option.map JResource.message)).Nodup := by decide
  exact ⟨by simp, hdiff, (contextsMeanTheSame_iff {inContext} none none none (by simp) hdiff).mpr
    (Or.inl (by simp))⟩

/-- A repository holds a statement in a context. `getStatements` with `null` as the only context
yields it, and `clear` with the same array deletes it. -/
theorem null_context_is_wildcard :
    getStatementsInternal {inContext} none none none [none] = {inContext} ∧
      Documented.update {inContext} (Update.clear [none]).requests = ∅ ∧
      ¬ InContexts [none] inContext ∧ ¬ ContextsMeanTheSame {inContext} none none none [none] := by
  have hyields : getStatementsInternal {inContext} none none none [none] = {inContext} := by decide
  have hnot : ¬ InContexts [none] inContext := by decide
  refine ⟨hyields, by decide, hnot, fun h => ?_⟩
  have hcount := h.getStatements inContext
  rw [hyields, if_neg fun hin => hnot hin.2.2] at hcount
  simp at hcount

end CMarmotta.Client
