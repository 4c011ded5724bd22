import CMarmotta.Service.Dataset
import CMarmotta.Service.Proofs.GraphsProofs
import CMarmotta.Service.Proofs.LevelDBServiceProofs
import CMarmotta.Persistence.Proofs.InOrderProofs
import CMarmotta.Persistence.Proofs.NsQueryProofs

/-!
# The service implements a dataset

The databases hold a dataset: the four indexes its statements, the prefix table its bindings
(`Implements`). Every regular request is answered as the dataset answers it, and leaves databases
that hold the dataset after it (`handle_simulates`). So do whole runs of requests.
-/

namespace CMarmotta

open KV Refinement

section Implements

variable [Platform]

open Platform

/-- The databases hold a dataset of known statements. -/
structure Implements (K : List Statement) (σ : Store) (D : Dataset) : Prop where
  known : ∀ s ∈ D.statements, s ∈ K
  statements : σ.Represents D.statements
  nsStored : σ.NsStored
  prefixes : ∀ p, (nsTables σ .byPrefix (utf8 p)).map Namespace.uri = D.prefixes p

variable {K : List Statement} {σ : Store} {D : Dataset}

/-! ## Patterns -/

/-- A scan that finds what agrees with the pattern finds nothing else. -/
theorem Statement.Scans.selects_iff {pattern s : Statement} (h : pattern.Scans K) (hK : Known K)
    (hs : s ∈ K) : Selects pattern s ↔ s.Agrees pattern := by
  constructor
  · intro hsel
    exact agrees_of_selects (hK.wellFormed s hs) h.collisionFree hs hsel h.onlyLeading h.context
  · intro hagrees
    exact selects_of_part_eq fun pos _ m hm => part_of_mem_part? hagrees hm

theorem ContextsScan.graphsHashed {contexts : List Resource} (h : ContextsScan K contexts)
    (hK : Known K) {S : Finset Statement} (hS : ∀ s ∈ S, s ∈ K) : GraphsHashed S contexts where
  wellFormed s hs := hK.wellFormed s (hS s hs)
  isTerm c hc := (h c hc).1
  collisionFree c hc s hs := (h c hc).2 s (hS s (Finset.mem_toList.mp hs))

/-! ## Datasets -/

omit [Platform] in
theorem Dataset.prefixes_nsRemoved (D : Dataset) {pattern : Namespace} (huri : pattern.uri = "")
    (p : String) :
    (D.apply (.nsRemoved pattern)).prefixes p =
      if pattern.nsPrefix = "" ∨ p = pattern.nsPrefix then none else D.prefixes p := by
  show Option.filter _ (D.prefixes p) = _
  cases D.prefixes p with
  | none => rw [Option.filter_none, ite_self]
  | some uri => by_cases h : pattern.nsPrefix = "" ∨ p = pattern.nsPrefix <;>
      simp [Namespace.Agrees, huri, h]

omit [Platform] in
theorem Dataset.prefixes_foldl_eq_none {it : List UpdateRequest} {p : String}
    (h : D.prefixes p = none) (hadded : ∀ ns, .nsAdded ns ∈ it → ns.nsPrefix ≠ p) :
    (it.foldl Dataset.apply D).prefixes p = none := by
  induction it generalizing D with
  | nil => exact h
  | cons r it ih =>
    refine ih ?_ fun ns hns => hadded ns (List.mem_cons_of_mem r hns)
    cases r with
    | nsAdded ns =>
      have hne := hadded ns List.mem_cons_self
      exact (Function.update_of_ne (Ne.symm hne) _ _).trans h
    | nsRemoved pattern =>
      show Option.filter _ (D.prefixes p) = none
      rw [h, Option.filter_none]
    | stmtAdded s => exact h
    | stmtRemoved pattern => exact h
    | notSet => exact h

omit [Platform] in
theorem Dataset.filter_inContexts_nil (S : Finset Statement) : S.filter (InContexts []) = S :=
  Finset.filter_true_of_mem fun _ _ => Or.inl rfl

namespace Implements

theorem empty (K : List Statement) : Implements K Store.empty Dataset.empty where
  known s hs := absurd hs (Finset.notMem_empty s)
  statements := Store.Represents.empty
  nsStored := run_nsStored []
  prefixes p := by cases p; rfl

theorem mem_getStatements (h : Implements K σ D) (hK : Known K) {pattern : Statement}
    (hscan : pattern.Scans K) {s : Statement} :
    s ∈ getStatements σ pattern ↔ s ∈ D.statements ∧ s.Agrees pattern := by
  rw [h.statements.mem_getStatements]
  exact and_congr_right fun hs => hscan.selects_iff hK (h.known s hs)

theorem toFinset_getStatements (h : Implements K σ D) (hK : Known K) {pattern : Statement}
    (hscan : pattern.Scans K) :
    (getStatements σ pattern).toFinset = D.statements.filter fun s => s.Agrees pattern := by
  ext s
  rw [List.mem_toFinset, h.mem_getStatements hK hscan, Finset.mem_filter]

theorem bound_iff (h : Implements K σ D) {ns : Namespace} :
    (nsTables σ).Bound ns ↔ D.Binds ns := by
  rw [NsTables.Bound, Dataset.Binds, ← h.prefixes, Option.map_eq_some_iff]
  constructor
  · intro hns
    exact ⟨ns, hns, rfl⟩
  · rintro ⟨ns', hns', huri⟩
    have hkey : utf8 ns'.nsPrefix = utf8 ns.nsPrefix := h.nsStored.key_eq hns'
    have heq : ns' = ns := by
      cases ns
      cases ns'
      rw [Namespace.mk.injEq]
      exact ⟨utf8_inj.mp hkey, huri⟩
    rw [heq] at hns'
    exact hns'

/-- Looked up by prefix or all at once, namespaces are found exactly. -/
theorem nsQueryExact (h : Implements K σ D) {pattern : Namespace} (huri : pattern.uri = "") :
    NsQueryExact σ pattern := by
  by_cases hset : pattern.nsPrefix = ""
  · cases pattern
    obtain rfl := hset
    obtain rfl := huri
    exact nsQueryExact_all h.nsStored
  · exact (nsQueryExact_of_prefix_iff h.nsStored hset).mpr (Or.inl huri)

/-! ## One update -/

theorem stmtAdded (h : Implements K σ D) (hK : Known K) {s : Statement} (hs : s ∈ K) :
    (update σ [.stmtAdded s]).1.Represents (insert s D.statements) := by
  have hrep := h.statements.apply (.update [.stmtAdded s])
  have hset : ([s].map StmtOp.add).foldl StmtOp.apply D.statements =
      D.statements ∪ [s].toFinset := by
    refine foldl_add [s] D.statements fun t ht u hu hkey => ?_
    rw [List.mem_singleton] at hu
    rw [Finset.mem_union, List.toFinset_cons, List.toFinset_nil, insert_empty_eq,
      Finset.mem_singleton] at ht
    have htK : t ∈ K := ht.elim (h.known t) fun heq => heq ▸ hs
    exact hK.collisionFree.key_inj hK.wellFormed .SPOC htK (hu ▸ hs) hkey
  have hins : D.statements ∪ [s].toFinset = insert s D.statements := by
    rw [List.toFinset_cons, List.toFinset_nil, insert_empty_eq, Finset.union_comm]
    rfl
  rw [← hins, ← hset]
  exact hrep

theorem stmtRemoved (h : Implements K σ D) (hK : Known K) {pattern : Statement}
    (hscan : pattern.Scans K) :
    (update σ [.stmtRemoved pattern]).1.Represents
      (D.statements.filter fun s => ¬ s.Agrees pattern) := by
  have hrep := h.statements.removeStatements pattern
  have hset : D.statements \ (getStatements σ pattern).toFinset =
      D.statements.filter fun s => ¬ s.Agrees pattern := by
    rw [h.toFinset_getStatements hK hscan, Finset.filter_not]
  rw [← hset]
  have heq := Op.apply_eq_update σ (.removeStatements pattern)
  rw [Op.apply] at heq
  rw [heq] at hrep
  exact hrep

/-! ## Namespaces of a stream -/

/-- A removal deletes the prefixes of the namespaces that are bound and agree with its pattern. -/
theorem nsEffect_removed_iff (h : Implements K σ D) {pattern : Namespace} (huri : pattern.uri = "")
    (p : String) :
    nsEffect (nsTables σ) .byPrefix (utf8 p) (.nsRemoved pattern) = some none ↔
      ∃ uri, D.prefixes p = some uri ∧ Namespace.Agrees ⟨p, uri⟩ pattern := by
  rw [nsEffect_eq_delete_iff]
  have hexact := (h.nsQueryExact huri).2
  constructor
  · rintro ⟨_, ⟨⟩, ns, hfinds, hkey⟩
    obtain rfl : ns.nsPrefix = p := utf8_inj.mp hkey
    obtain ⟨hbound, hagrees⟩ := (hexact ns).mp (mem_getNamespaces.mpr hfinds)
    exact ⟨ns.uri, h.bound_iff.mp hbound, hagrees⟩
  · rintro ⟨uri, hbinds, hagrees⟩
    have hbound : (nsTables σ).Bound ⟨p, uri⟩ := h.bound_iff.mpr hbinds
    exact ⟨pattern, rfl, ⟨p, uri⟩,
      mem_getNamespaces.mp ((hexact _).mpr ⟨hbound, hagrees⟩), rfl⟩

/-- What is bound to a prefix after a stream. A removal looks up the table before the stream, and so
misses only what the stream itself has added. -/
theorem prefixes_update (h : Implements K σ D) {it : List UpdateRequest}
    (hregular : ∀ r ∈ it, r.Regular K) (hundone : it.Pairwise fun r r' => ¬ r.Undone r')
    (p : String) :
    (nsTables (CMarmotta.update σ it).1 .byPrefix (utf8 p)).map Namespace.uri =
      (it.foldl Dataset.apply D).prefixes p := by
  rw [nsTables_update]
  -- Induction over the stream from its end, where the last request decides.
  induction it using List.reverseRecOn with
  | nil => exact h.prefixes p
  | append_singleton it r ih =>
    obtain ⟨hit, -, hlast⟩ := List.pairwise_append.mp hundone
    have ih := ih (fun r' hr' => hregular r' (List.mem_append_left _ hr')) hit
    have hr := hregular r (List.mem_append_right _ (List.mem_singleton_self r))
    rw [lastWrite_concat, Option.getD_or, List.foldl_append, List.foldl_cons, List.foldl_nil]
    cases r with
    | nsAdded ns =>
      by_cases hp : ns.nsPrefix = p
      · subst hp
        simp [nsEffect, NsTable.key, Dataset.apply]
      · have hnone : nsEffect (nsTables σ) .byPrefix (utf8 p) (.nsAdded ns) = none :=
          if_neg fun heq => hp (utf8_inj.mp heq)
        rw [hnone, Option.getD_none, ih]
        exact (Function.update_of_ne (Ne.symm hp) _ _).symm
    | nsRemoved pattern =>
      have hagrees : ∀ uri, Namespace.Agrees ⟨p, uri⟩ pattern ↔
          pattern.nsPrefix = "" ∨ p = pattern.nsPrefix :=
        fun uri => and_iff_left (Or.inl hr)
      have hdelete := h.nsEffect_removed_iff hr p
      simp only [hagrees] at hdelete
      have heffect : nsEffect (nsTables σ) .byPrefix (utf8 p) (.nsRemoved pattern) = none ∨
          nsEffect (nsTables σ) .byPrefix (utf8 p) (.nsRemoved pattern) = some none := by
        simp only [nsEffect]
        split
        · exact Or.inr rfl
        · exact Or.inl rfl
      rw [Dataset.prefixes_nsRemoved _ hr]
      by_cases hp : pattern.nsPrefix = "" ∨ p = pattern.nsPrefix
      · rw [if_pos hp]
        obtain hnone | hsome := heffect
        · have hunbound : D.prefixes p = none := by
            rw [Option.eq_none_iff_forall_ne_some]
            intro uri huri
            rw [hdelete.mpr ⟨uri, huri, hp⟩] at hnone
            cases hnone
          have hadded : ∀ ns, .nsAdded ns ∈ it → ns.nsPrefix ≠ p := by
            rintro ns hns rfl
            exact hlast _ hns _ (List.mem_singleton_self _) ((hagrees ns.uri).mpr hp)
          rw [hnone, Option.getD_none, ih]
          exact Dataset.prefixes_foldl_eq_none hunbound hadded
        · rw [hsome]
          rfl
      · have hnone : nsEffect (nsTables σ) .byPrefix (utf8 p) (.nsRemoved pattern) = none := by
          refine heffect.resolve_right fun hsome => ?_
          obtain ⟨-, -, hp'⟩ := hdelete.mp hsome
          exact hp hp'
        rw [if_neg hp, hnone, Option.getD_none, ih]
    | stmtAdded s => exact ih
    | stmtRemoved pattern => exact ih
    | notSet => exact ih

/-! ## Streams of updates -/

theorem apply (h : Implements K σ D) (hK : Known K) {r : UpdateRequest} (hr : r.Regular K) :
    Implements K (CMarmotta.update σ [r]).1 (D.apply r) where
  known s hs := by
    cases r with
    | stmtAdded t =>
      obtain rfl | hs := Finset.mem_insert.mp hs
      · exact hr
      · exact h.known s hs
    | stmtRemoved pattern => exact h.known s (Finset.mem_filter.mp hs).1
    | nsAdded ns => exact h.known s hs
    | nsRemoved pattern => exact h.known s hs
    | notSet => exact h.known s hs
  statements := by
    cases r with
    | stmtAdded s => exact h.stmtAdded hK hr
    | stmtRemoved pattern => exact h.stmtRemoved hK hr
    | nsAdded ns => exact h.statements.apply (.update [.nsAdded ns])
    | nsRemoved pattern => exact h.statements.apply (.update [.nsRemoved pattern])
    | notSet => exact h.statements.apply (.update [.notSet])
  nsStored := h.nsStored.update [r]
  prefixes := h.prefixes_update (List.forall_mem_singleton.mpr hr) (List.pairwise_singleton _ r)

theorem updateInOrder (h : Implements K σ D) (hK : Known K) {it : List UpdateRequest}
    (hregular : ∀ r ∈ it, r.Regular K) :
    Implements K (CMarmotta.updateInOrder σ it) (it.foldl Dataset.apply D) := by
  induction it generalizing σ D with
  | nil => exact h
  | cons r it ih =>
    obtain ⟨hr, hit⟩ := List.forall_mem_cons.mp hregular
    exact ih (h.apply hK hr) hit

theorem stmtRemovalsInOrder (hK : Known K) {it : List UpdateRequest}
    (hregular : ∀ r ∈ it, r.Regular K) (hundone : it.Pairwise fun r r' => ¬ r.Undone r') :
    StmtRemovalsInOrder σ it := by
  rintro pre pattern post s rfl hs hsel
  have hscan : pattern.Scans K := hregular (.stmtRemoved pattern) (by simp)
  have hsK : s ∈ K := hregular (.stmtAdded s) (List.mem_append_left _ hs)
  obtain ⟨-, -, hlater⟩ := List.pairwise_append.mp hundone
  have hagrees := (hscan.selects_iff hK hsK).mp hsel
  exact absurd hagrees (hlater _ hs (.stmtRemoved pattern) List.mem_cons_self)

/-- A stream that does not remove what it has added does what its requests do one after another. -/
theorem update (h : Implements K σ D) (hK : Known K) {it : List UpdateRequest}
    (hregular : ∀ r ∈ it, r.Regular K) (hundone : it.Pairwise fun r r' => ¬ r.Undone r') :
    Implements K (CMarmotta.update σ it).1 (it.foldl Dataset.apply D) := by
  have hinOrder := h.updateInOrder hK hregular
  have hcond : StmtRemovalsInOrder σ it := stmtRemovalsInOrder hK hregular hundone
  obtain ⟨S', hS', -⟩ := h.statements.update it
  have hindex := (hS'.index_eq_iff hinOrder.statements).mpr
    (StmtRemovalsInOrder.stmtAt_eq h.statements hcond)
  refine ⟨hinOrder.known, fun idx => ?_, h.nsStored.update it, h.prefixes_update hregular hundone⟩
  rw [hindex idx]
  exact hinOrder.statements idx

/-! ## Graphs -/

theorem clear (h : Implements K σ D) (hK : Known K) {contexts : List Resource}
    (hscan : ContextsScan K contexts) :
    Implements K (LevelDBService.clear σ contexts).1 (D.next (.clear contexts)) := by
  have hhashed := hscan.graphsHashed hK h.known
  have hkept : (LevelDBService.clear σ contexts).1.Represents (D.next (.clear contexts)).statements ∧
      ∀ t, (LevelDBService.clear σ contexts).1.nsTable t = σ.nsTable t := by
    by_cases hne : contexts = []
    · subst hne
      have hnone : (D.next (.clear [])).statements = ∅ :=
        Finset.filter_false_of_mem fun s _ hs => hs (Or.inl rfl)
      rw [hnone]
      exact ⟨(clear_nil h.statements).1, fun t => by cases t <;> rfl⟩
    · have houtside : (D.next (.clear contexts)).statements = outside D.statements contexts := by
        refine Finset.filter_congr fun s _ => ?_
        simp only [Dataset.InContexts, hne, false_or, not_exists, not_and]
      rw [houtside, clear_of_ne_nil σ hne]
      obtain ⟨hrep, -, hns⟩ := clearLoop_spec none 0 h.statements hhashed
      exact ⟨hrep, hns⟩
  refine ⟨fun s hs => h.known s (Finset.mem_filter.mp hs).1, hkept.1, ?_, fun p => ?_⟩
  · intro t k v hv
    rw [hkept.2 t] at hv
    exact h.nsStored t k v hv
  · rw [nsTables, hkept.2]
    exact h.prefixes p

theorem count_clear (h : Implements K σ D) (hK : Known K) {contexts : List Resource}
    (hscan : ContextsScan K contexts) :
    (LevelDBService.clear σ contexts).2 =
      (D.statements.filter (Dataset.InContexts contexts)).card := by
  by_cases hne : contexts = []
  · subst hne
    rw [(clear_nil h.statements).2, Dataset.filter_inContexts_nil]
  · rw [count_clear_of_ne_nil h.statements (hscan.graphsHashed hK h.known) hne]
    congr 1
    exact Finset.filter_congr fun s _ => (or_iff_right hne).symm

theorem size (h : Implements K σ D) (hK : Known K) {contexts : List Resource}
    (hscan : ContextsScan K contexts) (hnodup : contexts.Nodup) :
    LevelDBService.size σ contexts =
      (D.statements.filter (Dataset.InContexts contexts)).card := by
  by_cases hne : contexts = []
  · subst hne
    rw [Dataset.filter_inContexts_nil]
    exact h.statements.size_eq
  · have honce : ∀ s ∈ D.statements, Coverage.times (fun (c : Resource) (s : Statement) =>
        s.context = some c) contexts s ≤ 1 :=
      fun s _ => Coverage.times_le_one _ hnodup fun c d hc hd => Option.some.inj (hc ▸ hd)
    rw [size_of_ne_nil h.statements (hscan.graphsHashed hK h.known) hne,
      (Coverage.sum_card_eq_card_iff _ _ _).mpr honce]
    congr 1
    exact Finset.filter_congr fun s _ => (or_iff_right hne).symm

/-! ## Requests -/

theorem addStatements (h : Implements K σ D) (hK : Known K) {it : List Statement}
    (hit : ∀ s ∈ it, s ∈ K) :
    Implements K (CMarmotta.addStatements σ it).1 (D.next (.addStatements it)) := by
  rw [show (CMarmotta.addStatements σ it).1 = Op.apply σ (.addStatements it) from rfl,
    Op.apply_eq_update]
  refine h.update hK ?_ (List.pairwise_map.mpr (List.pairwise_of_forall fun _ _ => id))
  exact List.forall_mem_map.mpr hit

theorem addNamespaces (h : Implements K σ D) (hK : Known K) (it : List Namespace) :
    Implements K (CMarmotta.addNamespaces σ it).1 (D.next (.addNamespaces it)) := by
  rw [show (CMarmotta.addNamespaces σ it).1 = Op.apply σ (.addNamespaces it) from rfl,
    Op.apply_eq_update]
  refine h.update hK ?_ (List.pairwise_map.mpr (List.pairwise_of_forall fun _ _ => id))
  exact List.forall_mem_map.mpr fun _ _ => trivial

theorem removeStatements (h : Implements K σ D) (hK : Known K) {pattern : Statement}
    (hscan : pattern.Scans K) :
    Implements K (CMarmotta.removeStatements σ pattern).1 (D.next (.removeStatements pattern)) := by
  rw [show (CMarmotta.removeStatements σ pattern).1 = Op.apply σ (.removeStatements pattern) from rfl,
    Op.apply_eq_update]
  exact h.apply hK hscan

theorem count_removeStatements (h : Implements K σ D) (hK : Known K) {pattern : Statement}
    (hscan : pattern.Scans K) :
    (CMarmotta.removeStatements σ pattern).2 =
      (D.statements.filter fun s => s.Agrees pattern).card := by
  rw [CMarmotta.count_removeStatements, ← h.toFinset_getStatements hK hscan,
    List.toFinset_card_of_nodup (h.statements.nodup_getStatements pattern)]

/-- The callback of `GetNamespace` keeps the last namespace that is found. -/
theorem getNamespace (h : Implements K σ D) {pattern : Namespace} (huri : pattern.uri = "") :
    D.Answers (.getNamespace pattern) (.namespace (LevelDBService.getNamespace σ pattern)) := by
  have hfound : ∀ ns, ns ∈ getNamespaces σ pattern ↔ D.Binds ns ∧ ns.Agrees pattern := by
    intro ns
    rw [(h.nsQueryExact huri).2, h.bound_iff]
  rw [LevelDBService.getNamespace, forEach_eq_foldl]
  rcases List.eq_nil_or_concat (getNamespaces σ pattern) with hnil | ⟨l, ns, hl⟩
  · rw [hnil]
    refine .namespaceNotFound fun ns hbinds hagrees => ?_
    have hmem := (hfound ns).mpr ⟨hbinds, hagrees⟩
    rw [hnil] at hmem
    exact List.not_mem_nil hmem
  · rw [hl, List.concat_eq_append, List.foldl_append]
    have hmem : ns ∈ getNamespaces σ pattern := by
      rw [hl, List.concat_eq_append]
      exact List.mem_append_right l (List.mem_singleton_self ns)
    obtain ⟨hbinds, hagrees⟩ := (hfound ns).mp hmem
    exact .getNamespace hbinds hagrees

/-- Every regular request is answered as the dataset answers it, and leaves databases that hold the
dataset after it. -/
theorem handle (h : Implements K σ D) (hK : Known K) {request : Request}
    (hregular : request.Regular K) :
    D.Answers request (LevelDBService.handle σ request).2 ∧
      Implements K (LevelDBService.handle σ request).1 (D.next request) := by
  cases request with
  | addNamespaces it =>
    simp only [LevelDBService.handle, LevelDBService.addNamespaces, ReaderIterator.toList_ofReader]
    refine ⟨?_, h.addNamespaces hK it⟩
    rw [count_addNamespaces]
    exact .addNamespaces it
  | getNamespace pattern => exact ⟨h.getNamespace hregular, h⟩
  | getNamespaces =>
    refine ⟨.getNamespaces ?_ fun ns => ?_, h⟩
    all_goals rw [LevelDBService.getNamespaces, ServerWriter.written_forEach _ rfl]
    · exact (nsQueryExact_all h.nsStored).1
    · rw [← h.bound_iff]
      exact h.nsStored.mem_scan_iff
  | addStatements it =>
    simp only [LevelDBService.handle, LevelDBService.addStatements, ReaderIterator.toList_ofReader]
    refine ⟨?_, h.addStatements hK hregular⟩
    rw [count_addStatements]
    exact .addStatements it
  | getStatements pattern =>
    refine ⟨.getStatements pattern ?_ fun s => ?_, h⟩
    all_goals rw [LevelDBService.getStatements, ServerWriter.written_forEach _ rfl]
    · exact h.statements.nodup_getStatements pattern
    · exact h.mem_getStatements hK hregular
  | removeStatements pattern =>
    refine ⟨?_, h.removeStatements hK hregular⟩
    simp only [LevelDBService.handle, LevelDBService.removeStatements]
    rw [h.count_removeStatements hK hregular]
    exact .removeStatements pattern
  | clear contexts =>
    refine ⟨?_, h.clear hK hregular⟩
    simp only [LevelDBService.handle]
    rw [h.count_clear hK hregular]
    exact .clear contexts
  | size contexts =>
    refine ⟨?_, h⟩
    simp only [LevelDBService.handle]
    rw [h.size hK hregular.1 hregular.2]
    exact .size contexts
  | update it =>
    simp only [LevelDBService.handle, LevelDBService.update, ReaderIterator.toList_ofReader]
    exact ⟨.update it _, h.update hK hregular.1 hregular.2⟩

end Implements

/-- The exchanges of the service with its clients, one after another. -/
def LevelDBService.Step (σ : Store) (e : Request × Response) (σ' : Store) : Prop :=
  LevelDBService.handle σ e.1 = (σ', e.2)

theorem LevelDBService.simulates (hK : Known K) :
    Simulates Step Dataset.spec id (fun e => e.1.Regular K) (Implements K) := by
  intro σ D e σ' h hregular hstep
  have hhandle := h.handle hK hregular
  rw [Step] at hstep
  rw [hstep] at hhandle
  exact hhandle

theorem LevelDBService.run_serve (σ : Store) (requests : List Request) :
    Refinement.Run Step σ (requests.zip (serve σ requests).2) (serve σ requests).1 := by
  induction requests generalizing σ with
  | nil => exact .nil σ
  | cons request requests ih => exact .cons rfl (ih (handle σ request).1)

/-- The service is a dataset: whatever regular requests are served one after another from empty
databases, each is answered as a dataset that has seen the requests before it answers, and the four
indexes and the prefix table hold that dataset at the end. -/
theorem serve_refines_dataset (hK : Known K) {requests : List Request}
    (hregular : ∀ request ∈ requests, request.Regular K) :
    Dataset.spec.PermitsAll Dataset.empty
        (requests.zip (LevelDBService.serve Store.empty requests).2) ∧
      Implements K (LevelDBService.serve Store.empty requests).1
        (Dataset.spec.after Dataset.empty
          (requests.zip (LevelDBService.serve Store.empty requests).2)) := by
  have hrun := LevelDBService.run_serve Store.empty requests
  have hpermits := hrun.permits (LevelDBService.simulates hK) (Implements.empty K)
    fun e he => hregular e.1 (List.of_mem_zip he).1
  rw [List.map_id] at hpermits
  exact hpermits

end Implements

/-- Two statements with the same subject and one with another. -/
def threeStatements : List Statement :=
  [.ofUris "urn:a" "urn:p" "urn:b", .ofUris "urn:a" "urn:q" "urn:c", .ofUris "urn:b" "urn:p" "urn:c"]

/-- An update that removes what two requests have added, and two queries after it. -/
def replaceAndAsk : List Request :=
  [.addStatements (threeStatements.take 2), .addNamespaces [⟨"ex", "urn:"⟩],
    .update [.stmtRemoved { subject := some (.uri ⟨"urn:a"⟩) }, .nsRemoved ⟨"ex", ""⟩,
      .stmtAdded (.ofUris "urn:b" "urn:p" "urn:c")],
    .getNamespace ⟨"ex", ""⟩, .getStatements { predicate := some ⟨"urn:p"⟩ }]

theorem known_threeStatements : Known threeStatements := ⟨by decide, by decide +kernel⟩

theorem regular_replaceAndAsk : ∀ request ∈ replaceAndAsk, request.Regular threeStatements := by
  have hsubject : Statement.Scans threeStatements { subject := some (.uri ⟨"urn:a"⟩) } :=
    ⟨rfl, by decide, by decide +kernel⟩
  have hpredicate : Statement.Scans threeStatements { predicate := some ⟨"urn:p"⟩ } :=
    ⟨rfl, by decide, by decide +kernel⟩
  have hadded : ∀ s ∈ threeStatements.take 2, s ∈ threeStatements := by decide
  have hlast : .ofUris "urn:b" "urn:p" "urn:c" ∈ threeStatements := by decide
  simp only [replaceAndAsk, List.forall_mem_cons, List.not_mem_nil, false_implies, implies_true,
    and_true, true_and, Request.Regular, UpdateRequest.Regular]
  refine ⟨hadded, ⟨⟨hsubject, hlast⟩, ?_⟩, hpredicate⟩
  simp [UpdateRequest.Undone]

theorem serve_refines_dataset_replaceAndAsk :
    Dataset.spec.PermitsAll Dataset.empty
        (replaceAndAsk.zip (LevelDBService.serve Store.empty replaceAndAsk).2) ∧
      Implements threeStatements (LevelDBService.serve Store.empty replaceAndAsk).1
        (Dataset.spec.after Dataset.empty
          (replaceAndAsk.zip (LevelDBService.serve Store.empty replaceAndAsk).2)) :=
  serve_refines_dataset known_threeStatements regular_replaceAndAsk

end CMarmotta
