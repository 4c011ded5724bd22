import CMarmotta.Service.LevelDBService
import CMarmotta.Model.Proofs.OperatorsProofs
import CMarmotta.Persistence.Proofs.QueryProofs
import CMarmotta.Persistence.Proofs.UpdateProofs
import CMarmotta.Lib.Proofs.CoverageProofs
import CMarmotta.Model.X64

/-!
# Named graphs

`Clear`, `Size` and `GetContexts` go through the contexts of statements. Where the hash does not
collide, the scan for a context visits the statements in that context (`selects_context_iff`). So
`Clear` removes exactly these, however often and in whatever order the contexts are named
(`clear_removes_graphs`), and `GetContexts` writes the contexts for which `Size` is not zero
(`getContexts_iff_size_pos`). `Size` counts the statements of a context once for each time the
context is named (`size_counts_once_iff`).
-/

namespace CMarmotta

/-! ## The set of contexts -/

theorem insertContext_of_mem {contexts : List Resource} {r : Resource} (hr : r ≠ .notSet)
    (h : r ∈ contexts) : insertContext contexts r = contexts := by
  refine if_pos (List.any_eq_true.mpr ⟨r, h, ?_⟩)
  rw [Resource.equal_iff]
  exact ⟨rfl, hr⟩

theorem insertContext_of_not_mem {contexts : List Resource} {r : Resource}
    (h : r = .notSet ∨ r ∉ contexts) : insertContext contexts r = contexts ++ [r] := by
  refine if_neg fun hany => ?_
  obtain ⟨c, hc, heq⟩ := List.any_eq_true.mp hany
  obtain ⟨rfl, hne⟩ := Resource.equal_iff.mp heq
  exact h.elim hne fun h => h hc

theorem mem_insertContext {contexts : List Resource} {r c : Resource} :
    c ∈ insertContext contexts r ↔ c ∈ contexts ∨ c = r := by
  by_cases h : r = .notSet ∨ r ∉ contexts
  · rw [insertContext_of_not_mem h, List.mem_append, List.mem_singleton]
  · obtain ⟨hr, hmem⟩ := not_or.mp h
    rw [insertContext_of_mem hr (not_not.mp hmem)]
    refine ⟨Or.inl, ?_⟩
    rintro (hc | rfl)
    · exact hc
    · exact not_not.mp hmem

section Hashed

variable (stringHash : Bytes → Nat) (codec : Codec Resource)

/-- The set looks for an equal context only among those with the same hash. It misses none, as equal
contexts have equal hashes. -/
theorem insertContext_eq_of_hash (contexts : List Resource) (r : Resource) :
    insertContext contexts r =
      if (contexts.filter fun c => c.hash stringHash codec = r.hash stringHash codec).any
          (Resource.equal r) then contexts
      else contexts ++ [r] := by
  have hany : (contexts.filter fun c => c.hash stringHash codec = r.hash stringHash codec).any
      (Resource.equal r) = contexts.any (Resource.equal r) := by
    rw [Bool.eq_iff_iff, List.any_eq_true, List.any_eq_true]
    constructor
    · rintro ⟨c, hc, heq⟩
      exact ⟨c, List.mem_of_mem_filter hc, heq⟩
    · rintro ⟨c, hc, heq⟩
      obtain ⟨rfl, -⟩ := Resource.equal_iff.mp heq
      exact ⟨r, List.mem_filter.mpr ⟨hc, by simp⟩, heq⟩
  rw [insertContext, hany]

end Hashed

/-! ## Statements in a context -/

section Graphs

variable [Platform]

open Platform

/-- The pattern of all statements in a context. -/
def inContext (c : Resource) : Statement := { context := some c }

theorem selects_context_iff {s : Statement} {T : List Statement} {c : Resource}
    (hs : s ∈ T) (hwf : s.WellFormed) (hterm : c.isTerm = true)
    (hcf : CollisionFreePattern (inContext c) T) :
    Selects (inContext c) s ↔ s.context = some c := by
  constructor
  · intro hsel
    have hctx : (inContext c).context ≠ some .notSet := by
      rintro ⟨rfl⟩
      cases hterm
    exact (agrees_of_selects hwf hcf hs hsel rfl hctx).context c rfl
  · intro hc
    have hagrees : s.Agrees (inContext c) := by
      refine ⟨by simp [inContext], by simp [inContext], by simp [inContext], ?_⟩
      rintro r ⟨rfl⟩
      exact hc
    exact selects_of_part_eq fun pos _ m hm => part_of_mem_part? hagrees hm

/-- The statements of the store and the contexts of a request: the statements are well-formed, the
contexts are terms, and the hash tells the contexts apart. -/
structure GraphsHashed (S : Finset Statement) (contexts : List Resource) : Prop where
  wellFormed : ∀ s ∈ S, s.WellFormed
  isTerm : ∀ c ∈ contexts, c.isTerm = true
  collisionFree : ∀ c ∈ contexts, CollisionFreePattern (inContext c) S.toList

namespace GraphsHashed

variable {σ : Store} {S S' : Finset Statement} {c : Resource} {contexts : List Resource}

theorem mono (h : GraphsHashed S contexts) (hsub : S' ⊆ S) : GraphsHashed S' contexts where
  wellFormed s hs := h.wellFormed s (hsub hs)
  isTerm := h.isTerm
  collisionFree c hc b hb := h.collisionFree c hc b (by simpa using hsub (by simpa using hb))

theorem tail (h : GraphsHashed S (c :: contexts)) : GraphsHashed S contexts where
  wellFormed := h.wellFormed
  isTerm d hd := h.isTerm d (List.mem_cons_of_mem c hd)
  collisionFree d hd := h.collisionFree d (List.mem_cons_of_mem c hd)

theorem mem_getStatements (h : GraphsHashed S contexts) (hS : σ.Represents S) (hc : c ∈ contexts)
    {s : Statement} : s ∈ getStatements σ (inContext c) ↔ s ∈ S ∧ s.context = some c := by
  rw [hS.mem_getStatements]
  refine and_congr_right fun hs => ?_
  exact selects_context_iff (by simpa using hs) (h.wellFormed s hs) (h.isTerm c hc)
    (h.collisionFree c hc)

/-- The scan for a context visits the statements in the context, each once. -/
theorem toFinset_getStatements (h : GraphsHashed S contexts) (hS : σ.Represents S)
    (hc : c ∈ contexts) :
    (getStatements σ (inContext c)).toFinset = S.filter fun s => s.context = some c := by
  ext s
  rw [List.mem_toFinset, h.mem_getStatements hS hc, Finset.mem_filter]

theorem length_getStatements (h : GraphsHashed S contexts) (hS : σ.Represents S)
    (hc : c ∈ contexts) :
    (getStatements σ (inContext c)).length = (S.filter fun s => s.context = some c).card := by
  rw [← h.toFinset_getStatements hS hc]
  exact (List.toFinset_card_of_nodup (hS.nodup_getStatements _)).symm

end GraphsHashed

/-! ## Clear -/

theorem Store.Represents.removeStatements {σ : Store} {S : Finset Statement} (h : σ.Represents S)
    (pattern : Statement) : (CMarmotta.removeStatements σ pattern).1.Represents
      (S \ (getStatements σ pattern).toFinset) := by
  have happly := h.apply (.removeStatements pattern)
  have hsub : ∀ s ∈ getStatements σ pattern, s ∈ S := fun s hs => (h.mem_getStatements.mp hs).1
  rw [Op.stmtOps, (h .SPOC).foldl_remove hsub] at happly
  exact happly

/-- The statements that are in none of the contexts. -/
def outside (S : Finset Statement) (contexts : List Resource) : Finset Statement :=
  S.filter fun s => ∀ c ∈ contexts, s.context ≠ some c

omit [Platform] in
theorem outside_cons (S : Finset Statement) (c : Resource) (contexts : List Resource) :
    outside S (c :: contexts) = outside (S.filter fun s => s.context ≠ some c) contexts := by
  ext s
  simp only [outside, Finset.mem_filter, List.forall_mem_cons, and_assoc]

theorem clearLoop_cons (o : Option Resource) (count : Nat) (σ : Store) (c : Resource)
    (contexts : List Resource) :
    LevelDBService.clearLoop σ { context := o } count (c :: contexts) =
      LevelDBService.clearLoop (removeStatements σ (inContext c)).1 (inContext c)
        (count + (removeStatements σ (inContext c)).2) contexts := rfl

/-- What the loop leaves and what it counts. The pattern holds the context of the iteration before,
which the next one replaces. -/
theorem clearLoop_spec {contexts : List Resource} (o : Option Resource) (count : Nat) {σ : Store}
    {S : Finset Statement} (hS : σ.Represents S) (h : GraphsHashed S contexts) :
    (LevelDBService.clearLoop σ { context := o } count contexts).1.Represents
        (outside S contexts) ∧
      (LevelDBService.clearLoop σ { context := o } count contexts).2 + (outside S contexts).card =
        count + S.card ∧
      ∀ t, (LevelDBService.clearLoop σ { context := o } count contexts).1.nsTable t =
        σ.nsTable t := by
  induction contexts generalizing o count σ S with
  | nil =>
    have houtside : outside S [] = S := by simp [outside]
    rw [houtside]
    exact ⟨hS, rfl, fun _ => rfl⟩
  | cons c contexts ih =>
    have hget := h.toFinset_getStatements hS List.mem_cons_self
    have hrest : S \ (getStatements σ (inContext c)).toFinset =
        S.filter fun s => s.context ≠ some c := by
      rw [hget, Finset.filter_not]
    have hS' := hS.removeStatements (inContext c)
    rw [hrest] at hS'
    have hcount : (removeStatements σ (inContext c)).2 +
        (S.filter fun s => s.context ≠ some c).card = S.card := by
      rw [count_removeStatements, h.length_getStatements hS List.mem_cons_self]
      exact Finset.card_filter_add_card_filter_not _
    obtain ⟨hrep, hsum, hns⟩ := ih (some c) (count + (removeStatements σ (inContext c)).2) hS'
      (h.tail.mono (Finset.filter_subset _ S))
    rw [clearLoop_cons, outside_cons]
    refine ⟨hrep, ?_, fun t => ?_⟩
    · refine hsum.trans ?_
      omega
    · exact (hns t).trans (nsTable_writeStmts σ _ t)

theorem getStatements_all {σ : Store} {S : Finset Statement} (hS : σ.Represents S) :
    (getStatements σ {}).toFinset = S := by
  ext s
  rw [List.mem_toFinset, hS.mem_getStatements]
  exact and_iff_left fun pos hpos => absurd hpos List.not_mem_nil

/-- Without contexts every statement goes. -/
theorem clear_nil {σ : Store} {S : Finset Statement} (hS : σ.Represents S) :
    (LevelDBService.clear σ []).1.Represents ∅ ∧ (LevelDBService.clear σ []).2 = S.card := by
  have hall := getStatements_all hS
  constructor
  · have hS' := hS.removeStatements {}
    rw [hall, Finset.sdiff_self] at hS'
    exact hS'
  · show 0 + (removeStatements σ {}).2 = S.card
    rw [Nat.zero_add, count_removeStatements, ← hall]
    exact (List.toFinset_card_of_nodup (hS.nodup_getStatements _)).symm

theorem clear_of_ne_nil (σ : Store) {contexts : List Resource} (h : contexts ≠ []) :
    LevelDBService.clear σ contexts = LevelDBService.clearLoop σ {} 0 contexts :=
  if_pos (List.length_pos_iff.mpr h)

theorem clear_congr {σ : Store} {S : Finset Statement} {contexts contexts' : List Resource}
    (hS : σ.Represents S) (h : GraphsHashed S contexts) (hsame : ∀ c, c ∈ contexts' ↔ c ∈ contexts) :
    LevelDBService.clear σ contexts' = LevelDBService.clear σ contexts := by
  by_cases hne : contexts = []
  · have hne' : contexts' = [] := by
      rw [List.eq_nil_iff_forall_not_mem]
      intro c hc
      rw [hsame, hne] at hc
      exact List.not_mem_nil hc
    rw [hne, hne']
  · have hne' : contexts' ≠ [] := by
      rintro rfl
      obtain ⟨c, hc⟩ := List.exists_mem_of_ne_nil _ hne
      exact List.not_mem_nil ((hsame c).mpr hc)
    have h' : GraphsHashed S contexts' :=
      ⟨h.wellFormed, fun c hc => h.isTerm c ((hsame c).mp hc),
        fun c hc => h.collisionFree c ((hsame c).mp hc)⟩
    have houtside : outside S contexts' = outside S contexts := by
      simp only [outside, hsame]
    obtain ⟨hrep, hsum, hns⟩ := clearLoop_spec none 0 hS h
    obtain ⟨hrep', hsum', hns'⟩ := clearLoop_spec none 0 hS h'
    rw [houtside] at hrep' hsum'
    rw [clear_of_ne_nil σ hne, clear_of_ne_nil σ hne']
    refine Prod.ext (Store.eq_iff.mpr ⟨fun idx => ?_, fun t => ?_⟩) ?_
    · exact (hrep' idx).db_ext (hrep idx)
    · exact (hns' t).trans (hns t).symm
    · exact Nat.add_right_cancel (hsum'.trans hsum.symm)

/-- The statements that a run leaves, with the contexts of a request. -/
theorem run_graphsHashed {ops : List Op} (hwf : ∀ s ∈ added ops, s.WellFormed)
    {contexts : List Resource} (hterm : ∀ c ∈ contexts, c.isTerm = true)
    (hcf : ∀ c ∈ contexts, CollisionFreePattern (inContext c) (added ops)) :
    (run ops).Represents (contents (run ops)) ∧ GraphsHashed (contents (run ops)) contexts := by
  obtain ⟨S, hS, hsub⟩ := run_represents ops
  rw [hS.contents_eq]
  refine ⟨hS, fun s hs => hwf s (hsub s hs), hterm, fun c hc b hb => ?_⟩
  exact hcf c hc b (hsub b (by simpa using hb))

/-- `Clear` leaves the statements that are in none of the contexts, and all four databases with
them; without contexts it leaves none. It returns how many statements are gone, and only the set of
the contexts matters. -/
theorem clear_removes_graphs (ops : List Op) (hwf : ∀ s ∈ added ops, s.WellFormed)
    (contexts : List Resource) (hterm : ∀ c ∈ contexts, c.isTerm = true)
    (hcf : ∀ c ∈ contexts, CollisionFreePattern (inContext c) (added ops)) :
    (contexts ≠ [] → (LevelDBService.clear (run ops) contexts).1.Represents
      ((contents (run ops)).filter fun s => ∀ c ∈ contexts, s.context ≠ some c)) ∧
    (contexts = [] → (LevelDBService.clear (run ops) contexts).1.Represents ∅) ∧
    size (LevelDBService.clear (run ops) contexts).1 + (LevelDBService.clear (run ops) contexts).2 =
      size (run ops) ∧
    ∀ contexts', (∀ c, c ∈ contexts' ↔ c ∈ contexts) →
      LevelDBService.clear (run ops) contexts' = LevelDBService.clear (run ops) contexts := by
  obtain ⟨hS, h⟩ := run_graphsHashed hwf hterm hcf
  refine ⟨fun hne => ?_, fun hnil => ?_, ?_, fun contexts' hsame => clear_congr hS h hsame⟩
  · rw [clear_of_ne_nil _ hne]
    exact (clearLoop_spec none 0 hS h).1
  · rw [hnil]
    exact (clear_nil hS).1
  · by_cases hnil : contexts = []
    · obtain ⟨hrep, hcount⟩ := clear_nil hS
      rw [hnil, hcount, hrep.size_eq, hS.size_eq, Finset.card_empty, Nat.zero_add]
    · obtain ⟨hrep, hsum, -⟩ := clearLoop_spec none 0 hS h
      rw [clear_of_ne_nil _ hnil, hrep.size_eq, hS.size_eq]
      omega

end Graphs

/-- A statement in a graph named by a URI, one in a graph named by a blank node of the same text,
and one in no graph. -/
def threeGraphs : List Op :=
  [.addStatements [.ofUris "urn:s" "urn:p" "urn:o" (some "g"),
    { Statement.ofUris "urn:s" "urn:p" "urn:o" with context := some (.bnode ⟨"g"⟩) },
    .ofUris "urn:s" "urn:p" "urn:o"]]

theorem clear_removes_graphs_of_uri :
    (LevelDBService.clear (run threeGraphs) [.uri ⟨"g"⟩, .uri ⟨"g"⟩]).1.Represents
        ((contents (run threeGraphs)).filter fun s =>
          ∀ c ∈ [Resource.uri ⟨"g"⟩, .uri ⟨"g"⟩], s.context ≠ some c) ∧
      LevelDBService.clear (run threeGraphs) [.uri ⟨"g"⟩] =
        LevelDBService.clear (run threeGraphs) [.uri ⟨"g"⟩, .uri ⟨"g"⟩] := by
  have h := clear_removes_graphs threeGraphs (by decide) [.uri ⟨"g"⟩, .uri ⟨"g"⟩] (by decide)
    (by decide +kernel)
  exact ⟨h.1 (List.cons_ne_nil _ _), h.2.2.2 _ (by simp)⟩

section Counting

variable [Platform]

open Platform

/-! ## Size -/

/-- The loop counts the statements of each context it comes to. -/
theorem sizeLoop_eq {contexts : List Resource} (o : Option Resource) (count : Nat) {σ : Store}
    {S : Finset Statement} (hS : σ.Represents S) (h : GraphsHashed S contexts) :
    LevelDBService.sizeLoop σ { context := o } count contexts =
      count + (contexts.map fun c => (S.filter fun s => s.context = some c).card).sum := by
  induction contexts generalizing o count with
  | nil => rfl
  | cons c contexts ih =>
    have hcount : forEach (fun (count : Nat) (_ : Statement) => (count + 1, true)) count
        (getStatements σ (inContext c)) =
          count + (S.filter fun s => s.context = some c).card := by
      rw [forEach_eq_foldl, foldl_count, h.length_getStatements hS List.mem_cons_self]
    rw [LevelDBService.sizeLoop]
    show LevelDBService.sizeLoop σ { context := some c } (forEach _ count
      (getStatements σ (inContext c))) contexts = _
    rw [hcount, ih (some c) _ h.tail, List.map_cons, List.sum_cons, Nat.add_assoc]

theorem size_of_ne_nil {σ : Store} {S : Finset Statement} {contexts : List Resource}
    (hS : σ.Represents S) (h : GraphsHashed S contexts) (hne : contexts ≠ []) :
    LevelDBService.size σ contexts =
      (contexts.map fun c => (S.filter fun s => s.context = some c).card).sum := by
  rw [LevelDBService.size, if_pos (List.length_pos_iff.mpr hne)]
  exact (sizeLoop_eq none 0 hS h).trans (Nat.zero_add _)

/-- `Clear` counts the statements that are in one of the contexts. -/
theorem count_clear_of_ne_nil {σ : Store} {S : Finset Statement} {contexts : List Resource}
    (hS : σ.Represents S) (h : GraphsHashed S contexts) (hne : contexts ≠ []) :
    (LevelDBService.clear σ contexts).2 =
      (S.filter fun s => ∃ c ∈ contexts, s.context = some c).card := by
  obtain ⟨-, hsum, -⟩ := clearLoop_spec none 0 hS h
  have hsplit : (S.filter fun s => ∃ c ∈ contexts, s.context = some c).card +
      (outside S contexts).card = S.card := by
    rw [← Finset.card_filter_add_card_filter_not (s := S)
      fun s => ∃ c ∈ contexts, s.context = some c, outside]
    simp only [not_exists, not_and, ne_eq]
  rw [clear_of_ne_nil σ hne]
  omega

/-- `Size` counts each statement of the contexts once, as `Clear` does, exactly if no statement is in
a context that the list names twice. -/
theorem size_counts_once_iff (ops : List Op) (hwf : ∀ s ∈ added ops, s.WellFormed)
    (contexts : List Resource) (hne : contexts ≠ []) (hterm : ∀ c ∈ contexts, c.isTerm = true)
    (hcf : ∀ c ∈ contexts, CollisionFreePattern (inContext c) (added ops)) :
    (LevelDBService.size (run ops) contexts =
        ((contents (run ops)).filter fun s => ∃ c ∈ contexts, s.context = some c).card ∧
      LevelDBService.size (run ops) contexts = (LevelDBService.clear (run ops) contexts).2) ↔
    ∀ s ∈ contents (run ops), ∀ c, s.context = some c → contexts.count c ≤ 1 := by
  obtain ⟨hS, h⟩ := run_graphsHashed hwf hterm hcf
  have htimes : ∀ (s : Statement), Coverage.times (fun (c : Resource) (s : Statement) =>
      s.context = some c) contexts s ≤ 1 ↔ ∀ c, s.context = some c → contexts.count c ≤ 1 := by
    intro s
    cases hs : s.context with
    | none => simp [Coverage.times, hs]
    | some d =>
      have hcount : Coverage.times (fun (c : Resource) (s : Statement) => s.context = some c)
          contexts s = contexts.count d := by
        rw [Coverage.times, List.count]
        refine List.countP_congr fun c _ => ?_
        simp only [hs, Option.some.injEq, decide_eq_true_eq, beq_iff_eq]
        exact eq_comm
      rw [hcount]
      simp
  rw [count_clear_of_ne_nil hS h hne, and_self, size_of_ne_nil hS h hne,
    Coverage.sum_card_eq_card_iff]
  exact forall₂_congr fun s _ => htimes s

end Counting

theorem size_counts_once_of_distinct :
    LevelDBService.size (run threeGraphs) [.uri ⟨"g"⟩, .bnode ⟨"g"⟩] =
      (LevelDBService.clear (run threeGraphs) [.uri ⟨"g"⟩, .bnode ⟨"g"⟩]).2 :=
  ((size_counts_once_iff threeGraphs (by decide) [.uri ⟨"g"⟩, .bnode ⟨"g"⟩]
    (List.cons_ne_nil _ _) (by decide) (by decide +kernel)).mpr (by decide +kernel)).2

/-- With a context named twice, `Size` counts its statement twice and `Clear` removes it once. -/
theorem size_counts_twice :
    LevelDBService.size (run threeGraphs) [.uri ⟨"g"⟩, .uri ⟨"g"⟩] = 2 ∧
      ((contents (run threeGraphs)).filter fun s =>
        ∃ c ∈ [Resource.uri ⟨"g"⟩, .uri ⟨"g"⟩], s.context = some c).card = 1 ∧
      (LevelDBService.clear (run threeGraphs) [.uri ⟨"g"⟩, .uri ⟨"g"⟩]).2 = 1 := by
  decide +kernel

section Listing

variable [Platform]

open Platform

/-! ## GetContexts -/

/-- The callback of `GetContexts`. -/
def collectContext (contexts : List Resource) (stmt : Statement) : List Resource :=
  match stmt.context with
  | some c => insertContext contexts c
  | none => contexts

theorem getContexts_eq_foldl (σ : Store) :
    LevelDBService.getContexts σ = (getStatements σ {}).foldl collectContext [] :=
  forEach_eq_foldl collectContext [] _

omit [Platform] in
theorem foldl_collectContext {l : List Statement} (hl : ∀ s ∈ l, s.context ≠ some .notSet)
    {contexts : List Resource} (hnodup : contexts.Nodup) :
    (l.foldl collectContext contexts).Nodup ∧
      ∀ c, c ∈ l.foldl collectContext contexts ↔ c ∈ contexts ∨ ∃ s ∈ l, s.context = some c := by
  induction l generalizing contexts with
  | nil => simp [hnodup]
  | cons s l ih =>
    have hl' := fun t ht => hl t (List.mem_cons_of_mem s ht)
    rw [List.foldl_cons, collectContext]
    cases hs : s.context with
    | none =>
      refine ⟨(ih hl' hnodup).1, fun c => ?_⟩
      rw [(ih hl' hnodup).2]
      simp [hs]
    | some d =>
      have hd : d ≠ .notSet := by
        rintro rfl
        exact hl s List.mem_cons_self hs
      have hnodup' : (insertContext contexts d).Nodup := by
        by_cases hmem : d ∈ contexts
        · rwa [insertContext_of_mem hd hmem]
        · rw [insertContext_of_not_mem (Or.inr hmem)]
          exact List.nodup_append.mpr ⟨hnodup, List.nodup_singleton d, by
            rintro c hc _ hd' rfl
            exact hmem (List.mem_singleton.mp hd' ▸ hc)⟩
      refine ⟨(ih hl' hnodup').1, fun c => ?_⟩
      rw [(ih hl' hnodup').2, mem_insertContext, or_assoc]
      refine or_congr_right ?_
      simp [hs, eq_comm]

/-- `GetContexts` writes each context once, and it writes those for which `Size` is positive. -/
theorem getContexts_iff_size_pos (ops : List Op) (hwf : ∀ s ∈ added ops, s.WellFormed) :
    (LevelDBService.getContexts (run ops)).Nodup ∧
      ∀ c, c.isTerm = true → CollisionFreePattern (inContext c) (added ops) →
        (c ∈ LevelDBService.getContexts (run ops) ↔ 0 < LevelDBService.size (run ops) [c]) := by
  obtain ⟨S, hS, hsub⟩ := run_represents ops
  have hall : ∀ s, s ∈ getStatements (run ops) {} ↔ s ∈ S := by
    intro s
    rw [← getStatements_all hS, List.mem_toFinset]
  have hctx : ∀ s ∈ getStatements (run ops) {}, s.context ≠ some .notSet := by
    intro s hs hnot
    have hterm := (hwf s (hsub s ((hall s).mp hs))).context
    rw [hnot] at hterm
    cases hterm
  obtain ⟨hnodup, hmem⟩ := foldl_collectContext hctx List.nodup_nil
  rw [getContexts_eq_foldl]
  refine ⟨hnodup, fun c hterm hcf => ?_⟩
  have hterm' : ∀ c' ∈ [c], c'.isTerm = true := by simpa using hterm
  have hcf' : ∀ c' ∈ [c], CollisionFreePattern (inContext c') (added ops) := by simpa using hcf
  obtain ⟨hS', h⟩ := run_graphsHashed hwf hterm' hcf'
  rw [hmem, size_of_ne_nil hS' h (List.cons_ne_nil c []), hS.contents_eq, List.map_singleton,
    List.sum_singleton, Finset.card_pos]
  simp [hall, Finset.Nonempty]

end Listing

theorem getContexts_iff_size_pos_of_bnode :
    (LevelDBService.getContexts (run threeGraphs)).Nodup ∧
      (.bnode ⟨"g"⟩ ∈ LevelDBService.getContexts (run threeGraphs) ↔
        0 < LevelDBService.size (run threeGraphs) [.bnode ⟨"g"⟩]) := by
  have h := getContexts_iff_size_pos threeGraphs (by decide)
  exact ⟨h.1, h.2 (.bnode ⟨"g"⟩) rfl (by decide +kernel)⟩

end CMarmotta
