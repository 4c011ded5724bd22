import CMarmotta.Persistence.Proofs.StoreProofs
import CMarmotta.Persistence.UpdateSpec

/-!
# Streams of update requests

`Update` makes of every key what the last request about the key makes of it
(`getElem?_index_update`, `getElem?_nsTable_update`). So it leaves a database as it is exactly when
each key already holds what the last request about it leaves (`update_eq_self_iff`).
-/

namespace CMarmotta

variable [Platform]

open Platform KV

/-! ## Statement databases -/

theorem outcome_stmtOps (σ : Store) (idx : IndexType) (k : Key) (r : UpdateRequest) :
    outcome ((stmtOps σ r).map (StmtOp.batchOp idx)) k =
      (stmtEffect σ idx k r).map (Option.map statementCodec.serialize) := by
  cases r with
  | stmtAdded s =>
    by_cases hk : stmtKey idx s = k <;>
      simp [stmtOps, stmtEffect, outcome_cons, StmtOp.batchOp, BatchOp.key, BatchOp.value?, hk]
  | stmtRemoved pattern =>
    have h := outcome_deletes (ν := Bytes) (stmtKey idx) (getStatements σ pattern) k
    rw [stmtOps, List.map_map]
    refine h.trans ?_
    simp only [stmtEffect]
    split <;> rfl
  | nsAdded ns => rfl
  | nsRemoved pattern => rfl
  | notSet => rfl

/-- A key of an index holds what the last request about it leaves. -/
theorem getElem?_index_update (σ : Store) (it : List UpdateRequest) (idx : IndexType) (k : Key) :
    ((update σ it).1.index idx)[k]? =
      ((lastWrite (stmtEffect σ idx k) it).map (Option.map statementCodec.serialize)).getD
        (σ.index idx)[k]? := by
  rw [index_update, List.map_flatMap]
  exact getElem?_write_flatMap _ (outcome_stmtOps σ idx k) it

theorem index_update_eq_self_iff (σ : Store) (it : List UpdateRequest) (idx : IndexType) :
    (update σ it).1.index idx = σ.index idx ↔ KeepsIndex σ idx it := by
  rw [index_update, List.map_flatMap]
  exact write_flatMap_eq_self_iff _ (outcome_stmtOps σ idx) it

theorem selects_congr {pattern s t : Statement} (hk : stmtKey .SPOC s = stmtKey .SPOC t) :
    Selects pattern s ↔ Selects pattern t := by
  have hhash := (stmtKey_inj_iff .SPOC).mp hk
  simp only [Selects, hhash]

theorem keyEffect_eq_put_iff {s t : Statement} {r : UpdateRequest} :
    keyEffect s r = some (some t) ↔ r = .stmtAdded t ∧ stmtKey .SPOC t = stmtKey .SPOC s := by
  cases r with
  | stmtAdded t' =>
    by_cases hk : stmtKey .SPOC t' = stmtKey .SPOC s
    · simp only [keyEffect, if_pos hk, Option.some.injEq, UpdateRequest.stmtAdded.injEq]
      constructor
      · rintro rfl
        exact ⟨rfl, hk⟩
      · exact fun h => h.1
    · simp only [keyEffect, if_neg hk, UpdateRequest.stmtAdded.injEq, reduceCtorEq, false_iff]
      rintro ⟨rfl, h⟩
      exact hk h
  | stmtRemoved pattern =>
    simp only [keyEffect, reduceCtorEq, false_and, iff_false]
    split <;> simp
  | nsAdded ns => simp [keyEffect]
  | nsRemoved pattern => simp [keyEffect]
  | notSet => simp [keyEffect]

theorem keyEffect_eq_delete_iff {s : Statement} {r : UpdateRequest} :
    keyEffect s r = some none ↔ ∃ pattern, r = .stmtRemoved pattern ∧ Selects pattern s := by
  cases r with
  | stmtAdded t =>
    simp only [keyEffect, reduceCtorEq, false_and, exists_false, iff_false]
    split <;> simp
  | stmtRemoved pattern =>
    simp only [keyEffect, UpdateRequest.stmtRemoved.injEq, exists_eq_left']
    split <;> simp [*]
  | nsAdded ns => simp [keyEffect]
  | nsRemoved pattern => simp [keyEffect]
  | notSet => simp [keyEffect]

/-! ## Namespace databases -/

theorem mem_getNamespaces {σ : Store} {pattern ns : Namespace} :
    ns ∈ getNamespaces σ pattern ↔ (nsTables σ).Finds pattern ns := by
  simp only [getNamespaces, NsTables.Finds, nsTables, Store.nsTable]
  split
  · rw [Option.mem_toList]
  · split
    · rw [Option.mem_toList]
    · simp only [List.mem_map, Prod.exists, Std.ExtTreeMap.mem_toList_iff_getElem?_eq_some,
        Option.map_eq_some_iff]

def nsBatch (σ : Store) (t : NsTable) : UpdateRequest → WriteBatch Bytes Bytes
  | .nsAdded ns => [.put (t.key ns) (namespaceCodec.serialize ns)]
  | .nsRemoved pattern => (getNamespaces σ pattern).map fun ns => .delete (t.key ns)
  | _ => []

theorem table_addNamespace (ns : Namespace) (b : NsBatches) (t : NsTable) :
    (addNamespace ns b).table t = b.table t ++ [.put (t.key ns) (namespaceCodec.serialize ns)] := by
  cases t <;> rfl

theorem table_removeNamespace (σ : Store) (pattern : Namespace) (b : NsBatches) (t : NsTable) :
    (removeNamespace σ pattern b).table t =
      b.table t ++ (getNamespaces σ pattern).map fun ns => .delete (t.key ns) := by
  rw [removeNamespace, forEach_eq_foldl]
  induction getNamespaces σ pattern generalizing b with
  | nil => simp
  | cons ns l ih =>
    rw [List.foldl_cons, ih, List.map_cons, List.append_cons (b.table t)]
    cases t <;> rfl

theorem table_updateStep (σ : Store) (u : UpdateState) (r : UpdateRequest) (t : NsTable) :
    (updateStep σ u r).ns.table t = u.ns.table t ++ nsBatch σ t r := by
  cases r with
  | stmtAdded s => simp [updateStep, nsBatch]
  | stmtRemoved pattern => simp [updateStep, nsBatch]
  | nsAdded ns => exact table_addNamespace ns u.ns t
  | nsRemoved pattern => exact table_removeNamespace σ pattern u.ns t
  | notSet => simp [updateStep, nsBatch]

theorem table_foldl_updateStep (σ : Store) (it : List UpdateRequest) (u : UpdateState)
    (t : NsTable) :
    (it.foldl (updateStep σ) u).ns.table t = u.ns.table t ++ it.flatMap (nsBatch σ t) := by
  induction it generalizing u with
  | nil => simp
  | cons r it ih =>
    rw [List.foldl_cons, ih, table_updateStep, List.flatMap_cons, List.append_assoc]

omit [Platform] in
@[simp] theorem nsTable_writeStmts (σ : Store) (b : StmtBatches) (t : NsTable) :
    (σ.writeStmts b).nsTable t = σ.nsTable t := by cases t <;> rfl

omit [Platform] in
@[simp] theorem nsTable_writeNs (σ : Store) (b : NsBatches) (t : NsTable) :
    (σ.writeNs b).nsTable t = write (σ.nsTable t) (b.table t) := by cases t <;> rfl

theorem nsTable_update (σ : Store) (it : List UpdateRequest) (t : NsTable) :
    (update σ it).1.nsTable t = write (σ.nsTable t) (it.flatMap (nsBatch σ t)) := by
  simp only [update, nsTable_writeNs, nsTable_writeStmts, updateLoop, table_foldl_updateStep]
  cases t <;> rfl

theorem outcome_nsBatch (σ : Store) (t : NsTable) (k : Bytes) (r : UpdateRequest) :
    outcome (nsBatch σ t r) k =
      (nsEffect (nsTables σ) t k r).map (Option.map namespaceCodec.serialize) := by
  cases r with
  | stmtAdded s => rfl
  | stmtRemoved pattern => rfl
  | nsAdded ns =>
    by_cases hk : t.key ns = k <;>
      simp [nsBatch, nsEffect, outcome_cons, BatchOp.key, BatchOp.value?, hk]
  | nsRemoved pattern =>
    have hiff : (∃ ns ∈ getNamespaces σ pattern, t.key ns = k) ↔
        ∃ ns, (nsTables σ).Finds pattern ns ∧ t.key ns = k := by simp only [mem_getNamespaces]
    rw [nsBatch, outcome_deletes, nsEffect]
    by_cases h : ∃ ns, (nsTables σ).Finds pattern ns ∧ t.key ns = k
    · rw [if_pos (hiff.mpr h), if_pos h]
      rfl
    · rw [if_neg (mt hiff.mp h), if_neg h]
      rfl
  | notSet => rfl

/-- A key of a namespace table holds what the last request about it leaves. -/
theorem getElem?_nsTable_update (σ : Store) (it : List UpdateRequest) (t : NsTable) (k : Bytes) :
    ((update σ it).1.nsTable t)[k]? =
      ((lastWrite (nsEffect (nsTables σ) t k) it).map (Option.map namespaceCodec.serialize)).getD
        (σ.nsTable t)[k]? := by
  rw [nsTable_update]
  exact getElem?_write_flatMap _ (outcome_nsBatch σ t k) it

theorem nsTable_update_eq_self_iff (σ : Store) (it : List UpdateRequest) (t : NsTable) :
    (update σ it).1.nsTable t = σ.nsTable t ↔ KeepsNs σ t it := by
  rw [nsTable_update]
  exact write_flatMap_eq_self_iff _ (outcome_nsBatch σ t) it

/-! ## Stores -/

omit [Platform] in
theorem Store.eq_iff {σ σ' : Store} :
    σ = σ' ↔ (∀ idx, σ.index idx = σ'.index idx) ∧ ∀ t, σ.nsTable t = σ'.nsTable t := by
  constructor
  · rintro rfl
    exact ⟨fun _ => rfl, fun _ => rfl⟩
  · rintro ⟨hidx, hns⟩
    cases σ
    cases σ'
    rw [Store.mk.injEq]
    exact ⟨hidx .SPOC, hidx .CSPO, hidx .OPSC, hidx .PCOS, hns .byPrefix, hns .byUrl⟩

/-- Additions do not look up the store, so a stream may be cut in front of them. -/
theorem update_append (σ : Store) (it : List UpdateRequest) {additions : List UpdateRequest}
    (hstmt : ∀ pattern, .stmtRemoved pattern ∉ additions)
    (hns : ∀ pattern, .nsRemoved pattern ∉ additions) :
    (update σ (it ++ additions)).1 = (update (update σ it).1 additions).1 := by
  have hstmt' : ∀ idx k, lastWrite (stmtEffect (update σ it).1 idx k) additions =
      lastWrite (stmtEffect σ idx k) additions := by
    intro idx k
    refine lastWrite_congr fun r hr => ?_
    cases r with
    | stmtRemoved pattern => exact absurd hr (hstmt pattern)
    | stmtAdded s => rfl
    | nsAdded ns => rfl
    | nsRemoved pattern => rfl
    | notSet => rfl
  have hns' : ∀ t k, lastWrite (nsEffect (nsTables (update σ it).1) t k) additions =
      lastWrite (nsEffect (nsTables σ) t k) additions := by
    intro t k
    refine lastWrite_congr fun r hr => ?_
    cases r with
    | nsRemoved pattern => exact absurd hr (hns pattern)
    | nsAdded ns => rfl
    | stmtAdded s => rfl
    | stmtRemoved pattern => rfl
    | notSet => rfl
  rw [Store.eq_iff]
  constructor
  · intro idx
    refine Std.ExtTreeMap.ext_getElem? fun k => ?_
    rw [getElem?_index_update, getElem?_index_update, getElem?_index_update, hstmt',
      lastWrite_append, Option.map_or, Option.getD_or]
  · intro t
    refine Std.ExtTreeMap.ext_getElem? fun k => ?_
    rw [getElem?_nsTable_update, getElem?_nsTable_update, getElem?_nsTable_update, hns',
      lastWrite_append, Option.map_or, Option.getD_or]

/-- A stream leaves a store as it is exactly when it leaves every database as it is. -/
theorem update_eq_self_iff (σ : Store) (it : List UpdateRequest) :
    (update σ it).1 = σ ↔ (∀ idx, KeepsIndex σ idx it) ∧ ∀ t, KeepsNs σ t it := by
  rw [Store.eq_iff]
  simp only [index_update_eq_self_iff, nsTable_update_eq_self_iff]

theorem count_addNamespaces (σ : Store) (it : List Namespace) :
    (addNamespaces σ it).2 = it.length := by
  have hfold : ∀ (b : NsBatches) (n : Nat), (it.foldl (fun (acc : NsBatches × Nat) ns =>
      (addNamespace ns acc.1, acc.2 + 1)) (b, n)).2 = n + it.length := by
    induction it with
    | nil => exact fun b n => rfl
    | cons ns it ih =>
      intro b n
      rw [List.foldl_cons, ih, List.length_cons]
      omega
  exact (hfold {} 0).trans (Nat.zero_add _)

/-- Every call is an update with the requests that make its changes. -/
theorem Op.apply_eq_update (σ : Store) (op : Op) :
    op.apply σ = (CMarmotta.update σ op.requests).1 := by
  refine Store.eq_iff.mpr ⟨fun idx => ?_, fun t => ?_⟩
  · have hops : op.stmtOps σ = op.requests.flatMap (CMarmotta.stmtOps σ) := by
      cases op with
      | addNamespaces it => simp [Op.stmtOps, Op.requests, List.flatMap_map, CMarmotta.stmtOps]
      | addStatements it =>
        rw [Op.stmtOps, Op.requests, List.flatMap_map, List.map_eq_flatMap]
        rfl
      | removeStatements pattern => simp [Op.stmtOps, Op.requests, CMarmotta.stmtOps]
      | update it => rfl
    rw [Op.index_apply, index_update, hops]
  · rw [nsTable_update]
    cases op with
    | addNamespaces it =>
      have hfold : ∀ (b : NsBatches) (n : Nat), (it.foldl (fun (acc : NsBatches × Nat) ns =>
          (addNamespace ns acc.1, acc.2 + 1)) (b, n)).1.table t =
            b.table t ++ (it.map UpdateRequest.nsAdded).flatMap (nsBatch σ t) := by
        induction it with
        | nil => simp
        | cons ns it ih =>
          intro b n
          rw [List.foldl_cons, ih, table_addNamespace, List.map_cons, List.flatMap_cons,
            List.append_assoc]
          rfl
      show ((σ.writeNs _).nsTable t) = _
      rw [nsTable_writeNs, hfold]
      cases t <;> rfl
    | addStatements it =>
      have hbatch : (Op.requests (.addStatements it)).flatMap (nsBatch σ t) = [] := by
        refine List.flatMap_eq_nil_iff.mpr fun r hr => ?_
        obtain ⟨s, -, rfl⟩ := List.mem_map.mp hr
        rfl
      rw [hbatch]
      exact nsTable_writeStmts σ _ t
    | removeStatements pattern => exact nsTable_writeStmts σ _ t
    | update it => exact nsTable_update σ it t

/-! ## Stored statements -/

/-- What a store holds under the key of a statement. -/
def stmtAt (σ : Store) (s : Statement) : Option Statement :=
  (σ.index .SPOC)[stmtKey .SPOC s]?.map statementCodec.parse

namespace Store.Represents

variable {σ σ' : Store} {S S' : Finset Statement}

/-- An update leaves statements that were there or that it adds. -/
theorem update (h : σ.Represents S) (it : List UpdateRequest) :
    ∃ S', (CMarmotta.update σ it).1.Represents S' ∧ ∀ s ∈ S', s ∈ S ∨ .stmtAdded s ∈ it := by
  refine ⟨_, h.apply (.update it), fun s hs => ?_⟩
  rcases mem_foldl_apply hs with hs | ⟨op, hop, hv⟩
  · exact Or.inl hs
  · obtain ⟨r, hr, hs⟩ := List.mem_flatMap.mp (Op.mem_added hop hv)
    rw [UpdateRequest.mem_added.mp hs] at hr
    exact Or.inr hr

/-- What a store holds under a key is the statement of the set with that key. -/
theorem stmtAt_eq_some_iff (h : σ.Represents S) {s t : Statement} :
    stmtAt σ s = some t ↔ t ∈ S ∧ stmtKey .SPOC t = stmtKey .SPOC s := by
  rw [stmtAt, Option.map_eq_some_iff]
  constructor
  · rintro ⟨v, hv, rfl⟩
    obtain ⟨t, ht, hk, rfl⟩ := (h .SPOC _ _).mp hv
    rw [statementCodec.parse_serialize]
    exact ⟨ht, hk⟩
  · rintro ⟨ht, hk⟩
    exact ⟨statementCodec.serialize t, (h .SPOC _ _).mpr ⟨t, ht, hk, rfl⟩,
      statementCodec.parse_serialize t⟩

theorem index_eq_iff (h : σ.Represents S) (h' : σ'.Represents S') :
    (∀ idx, σ.index idx = σ'.index idx) ↔ ∀ s, stmtAt σ s = stmtAt σ' s := by
  constructor
  · intro heq s
    rw [stmtAt, stmtAt, heq]
  · intro heq idx
    have hS : S = S' := by
      ext s
      have h1 := h.stmtAt_eq_some_iff (s := s) (t := s)
      have h2 := h'.stmtAt_eq_some_iff (s := s) (t := s)
      rw [heq s, h2] at h1
      simpa using h1.symm
    subst hS
    exact (h idx).db_ext (h' idx)

/-- A removal acts on the keys it selects, if they are in use. -/
theorem stmtEffect_eq (h : σ.Represents S) (s : Statement) (r : UpdateRequest) :
    stmtEffect σ .SPOC (stmtKey .SPOC s) r =
      if stmtAt σ s = none ∧ keyEffect s r = some none then none else keyEffect s r := by
  cases r with
  | stmtAdded t =>
    have hne : keyEffect s (.stmtAdded t) ≠ some none := by
      rw [Ne, keyEffect_eq_delete_iff]
      simp
    rw [if_neg fun hc => hne hc.2]
    rfl
  | stmtRemoved pattern =>
    have hiff : (∃ t ∈ getStatements σ pattern, stmtKey .SPOC t = stmtKey .SPOC s) ↔
        stmtAt σ s ≠ none ∧ Selects pattern s := by
      rw [Option.ne_none_iff_exists']
      simp only [h.mem_getStatements, h.stmtAt_eq_some_iff]
      constructor
      · rintro ⟨t, ⟨ht, hsel⟩, hk⟩
        exact ⟨⟨t, ht, hk⟩, (selects_congr hk).mp hsel⟩
      · rintro ⟨⟨t, ht, hk⟩, hsel⟩
        exact ⟨t, ⟨ht, (selects_congr hk).mpr hsel⟩, hk⟩
    simp only [stmtEffect, hiff, keyEffect]
    by_cases hsel : Selects pattern s <;> by_cases hat : stmtAt σ s = none <;> simp [hsel, hat]
  | nsAdded ns => simp [stmtEffect, keyEffect]
  | nsRemoved pattern => simp [stmtEffect, keyEffect]
  | notSet => simp [stmtEffect, keyEffect]

theorem stmtAt_update (σ : Store) (it : List UpdateRequest) (s : Statement) :
    stmtAt (CMarmotta.update σ it).1 s =
      (lastWrite (stmtEffect σ .SPOC (stmtKey .SPOC s)) it).getD (stmtAt σ s) := by
  rw [stmtAt, getElem?_index_update, statementCodec.map_parse_getD]
  rfl

end Store.Represents

/-! ## Stored namespaces -/

/-- Every entry of a namespace table is a namespace under its own key. -/
def Store.NsStored (σ : Store) : Prop :=
  ∀ t k v, (σ.nsTable t)[k]? = some v → ∃ ns, t.key ns = k ∧ namespaceCodec.serialize ns = v

omit [Platform] in
theorem nsEffect_eq_put_iff {T : NsTables} {t : NsTable} {k : Bytes} {r : UpdateRequest}
    {ns : Namespace} :
    nsEffect T t k r = some (some ns) ↔ r = .nsAdded ns ∧ t.key ns = k := by
  cases r with
  | nsAdded ns' =>
    by_cases hk : t.key ns' = k
    · simp only [nsEffect, if_pos hk, Option.some.injEq, UpdateRequest.nsAdded.injEq]
      constructor
      · rintro rfl
        exact ⟨rfl, hk⟩
      · exact fun h => h.1
    · simp only [nsEffect, if_neg hk, UpdateRequest.nsAdded.injEq, reduceCtorEq, false_iff]
      rintro ⟨rfl, h⟩
      exact hk h
  | nsRemoved pattern =>
    simp only [nsEffect, reduceCtorEq, false_and, iff_false]
    split <;> simp
  | stmtAdded s => simp [nsEffect]
  | stmtRemoved pattern => simp [nsEffect]
  | notSet => simp [nsEffect]

omit [Platform] in
theorem nsEffect_eq_delete_iff {T : NsTables} {t : NsTable} {k : Bytes} {r : UpdateRequest} :
    nsEffect T t k r = some none ↔
      ∃ pattern, r = .nsRemoved pattern ∧ ∃ ns, T.Finds pattern ns ∧ t.key ns = k := by
  cases r with
  | nsRemoved pattern =>
    simp only [nsEffect, UpdateRequest.nsRemoved.injEq, exists_eq_left']
    split <;> simp [*]
  | nsAdded ns =>
    simp only [nsEffect, reduceCtorEq, false_and, exists_false, iff_false]
    split <;> simp
  | stmtAdded s => simp [nsEffect]
  | stmtRemoved pattern => simp [nsEffect]
  | notSet => simp [nsEffect]

theorem Store.NsStored.update {σ : Store} (h : σ.NsStored) (it : List UpdateRequest) :
    (CMarmotta.update σ it).1.NsStored := by
  intro t k v hv
  rw [getElem?_nsTable_update] at hv
  cases hl : lastWrite (nsEffect (nsTables σ) t k) it with
  | none =>
    rw [hl] at hv
    exact h t k v hv
  | some o =>
    rw [hl] at hv
    obtain ⟨ns, rfl, rfl⟩ := Option.map_eq_some_iff.mp hv
    obtain ⟨pre, r, post, -, hr, -⟩ := lastWrite_eq_some_iff.mp hl
    exact ⟨ns, (nsEffect_eq_put_iff.mp hr).2, rfl⟩

theorem run_nsStored (ops : List Op) : (run ops).NsStored := by
  induction ops using List.reverseRecOn with
  | nil =>
    intro t k v hv
    cases t <;> exact absurd hv (by simp [run, Store.empty, Store.nsTable])
  | append_singleton ops op ih =>
    rw [run, List.foldl_append]
    show (op.apply (run ops)).NsStored
    rw [Op.apply_eq_update]
    exact ih.update _

/-- An entry is the namespace it holds, serialized. -/
theorem Store.NsStored.getElem?_nsTable {σ : Store} (h : σ.NsStored) (t : NsTable) (k : Bytes) :
    (σ.nsTable t)[k]? = (nsTables σ t k).map namespaceCodec.serialize := by
  rw [nsTables]
  cases hv : (σ.nsTable t)[k]? with
  | none => rfl
  | some v =>
    obtain ⟨ns, -, rfl⟩ := h t k v hv
    simp [namespaceCodec.parse_serialize]

/-- Where every entry is a serialized namespace, the tables determine the databases. -/
theorem Store.NsStored.nsTable_eq_iff {σ σ' : Store} (h : σ.NsStored) (h' : σ'.NsStored)
    (t : NsTable) : σ.nsTable t = σ'.nsTable t ↔ ∀ k, nsTables σ t k = nsTables σ' t k := by
  constructor
  · intro heq k
    rw [nsTables, nsTables, heq]
  · intro heq
    refine Std.ExtTreeMap.ext_getElem? fun k => ?_
    rw [h.getElem?_nsTable, h'.getElem?_nsTable, heq]

end CMarmotta
