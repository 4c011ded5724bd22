import CMarmotta.Persistence.Proofs.KeyProofs
import CMarmotta.Lib.Proofs.KeyValueProofs
import CMarmotta.Lib.Proofs.WireProofs
import Mathlib.Data.Finset.Card

/-!
# The store represents a set of statements

Every operation puts the same changes, in the same order, into the batches of the four statement
databases (`Op.index_apply`), and a change does to the represented set what it does to each database
(`Represents.write`). So the four databases represent one set after every run (`run_represents`),
and a query returns the statements of that set it selects (`mem_getStatements`).
-/

namespace CMarmotta

variable [Platform]

open Platform KV

/-! ## Batches -/

omit [Platform] in
theorem forEach_eq_foldl {α β : Type} (f : β → α → β) (b : β) (l : List α) :
    forEach (fun b a => (f b a, true)) b l = l.foldl f b := by
  induction l generalizing b with
  | nil => rfl
  | cons a l ih => exact ih (f b a)

/-- `AddStatement` puts the same change into the batch of every index. -/
theorem index_addStatement (s : Statement) (b : StmtBatches) (idx : IndexType) :
    (addStatement s b).index idx = b.index idx ++ [(StmtOp.add s).batchOp idx] := by
  cases idx <;>
    simp [addStatement, StmtBatches.index, StmtOp.batchOp, computeKey_eq_stmtKey,
      orderKey_eq_stmtKey .CSPO s rfl, orderKey_eq_stmtKey .OPSC s rfl,
      orderKey_eq_stmtKey .PCOS s rfl]

theorem index_removeStatement (s : Statement) (b : StmtBatches) (idx : IndexType) :
    (removeStatement s b).index idx = b.index idx ++ [(StmtOp.remove s).batchOp idx] := by
  cases idx <;>
    simp [removeStatement, StmtBatches.index, StmtOp.batchOp, computeKey_eq_stmtKey,
      orderKey_eq_stmtKey .CSPO s rfl, orderKey_eq_stmtKey .OPSC s rfl,
      orderKey_eq_stmtKey .PCOS s rfl]

omit [Platform] in
theorem index_foldl {α : Type} (idx : IndexType) (f : α → StmtBatches → StmtBatches)
    (op : α → BatchOp Key Bytes) (hf : ∀ a b, (f a b).index idx = b.index idx ++ [op a])
    (l : List α) (b : StmtBatches) (n : Nat) :
    (l.foldl (fun (acc : StmtBatches × Nat) a => (f a acc.1, acc.2 + 1)) (b, n)).1.index idx =
        b.index idx ++ l.map op ∧
      (l.foldl (fun (acc : StmtBatches × Nat) a => (f a acc.1, acc.2 + 1)) (b, n)).2 =
        n + l.length := by
  induction l generalizing b n with
  | nil => simp
  | cons a l ih =>
    obtain ⟨h1, h2⟩ := ih (f a b) (n + 1)
    refine ⟨?_, ?_⟩
    · rw [List.foldl_cons, h1, hf, List.map_cons, List.append_assoc, List.singleton_append]
    · rw [List.foldl_cons, h2, List.length_cons]
      omega

theorem removeStatementsBatch_eq_foldl (σ : Store) (pattern : Statement) (b : StmtBatches) :
    removeStatementsBatch σ pattern b = (getStatements σ pattern).foldl
      (fun (acc : StmtBatches × Nat) s => (removeStatement s acc.1, acc.2 + 1)) (b, 0) :=
  forEach_eq_foldl _ _ _

theorem index_removeStatementsBatch (σ : Store) (pattern : Statement) (b : StmtBatches)
    (idx : IndexType) :
    (removeStatementsBatch σ pattern b).1.index idx =
      b.index idx ++ ((getStatements σ pattern).map .remove).map (StmtOp.batchOp idx) := by
  rw [removeStatementsBatch_eq_foldl, List.map_map]
  exact (index_foldl idx removeStatement _ (fun s b => index_removeStatement s b idx) _ b 0).1

theorem count_removeStatementsBatch (σ : Store) (pattern : Statement) (b : StmtBatches) :
    (removeStatementsBatch σ pattern b).2 = (getStatements σ pattern).length := by
  rw [removeStatementsBatch_eq_foldl,
    (index_foldl .SPOC removeStatement _ (fun s b => index_removeStatement s b .SPOC) _ b 0).2,
    Nat.zero_add]

/-- The body of the loop of `Update` puts the changes of the request into every batch. -/
theorem index_updateStep (σ : Store) (u : UpdateState) (r : UpdateRequest) (idx : IndexType) :
    (updateStep σ u r).stmts.index idx =
      u.stmts.index idx ++ (stmtOps σ r).map (StmtOp.batchOp idx) := by
  cases r with
  | stmtAdded s => exact index_addStatement s u.stmts idx
  | stmtRemoved pattern => exact index_removeStatementsBatch σ pattern u.stmts idx
  | nsAdded ns => simp [updateStep, stmtOps]
  | nsRemoved pattern => simp [updateStep, stmtOps]
  | notSet => simp [updateStep, stmtOps]

theorem index_foldl_updateStep (σ : Store) (it : List UpdateRequest) (u : UpdateState)
    (idx : IndexType) :
    (it.foldl (updateStep σ) u).stmts.index idx =
      u.stmts.index idx ++ (it.flatMap (stmtOps σ)).map (StmtOp.batchOp idx) := by
  induction it generalizing u with
  | nil => simp
  | cons r it ih =>
    rw [List.foldl_cons, ih, index_updateStep, List.flatMap_cons, List.map_append,
      List.append_assoc]

omit [Platform] in
@[simp] theorem index_writeStmts (σ : Store) (b : StmtBatches) (idx : IndexType) :
    (σ.writeStmts b).index idx = write (σ.index idx) (b.index idx) := by cases idx <;> rfl

omit [Platform] in
@[simp] theorem index_writeNs (σ : Store) (b : NsBatches) (idx : IndexType) :
    (σ.writeNs b).index idx = σ.index idx := by cases idx <;> rfl

omit [Platform] in
@[simp] theorem index_emptyBatches (idx : IndexType) : ({} : StmtBatches).index idx = [] := by
  cases idx <;> rfl

/-! ## Calls -/

theorem index_addStatements (σ : Store) (it : List Statement) (idx : IndexType) :
    (addStatements σ it).1.index idx =
      write (σ.index idx) ((it.map .add).map (StmtOp.batchOp idx)) := by
  have h := (index_foldl idx addStatement _ (fun s b => index_addStatement s b idx) it {} 0).1
  simp only [addStatements, index_writeStmts, List.map_map]
  rw [h, index_emptyBatches, List.nil_append]
  rfl

theorem count_addStatements (σ : Store) (it : List Statement) :
    (addStatements σ it).2 = it.length := by
  have h := (index_foldl .SPOC addStatement _ (fun s b => index_addStatement s b .SPOC) it {} 0).2
  rw [Nat.zero_add] at h
  exact h

theorem index_removeStatements (σ : Store) (pattern : Statement) (idx : IndexType) :
    (removeStatements σ pattern).1.index idx =
      write (σ.index idx) (((getStatements σ pattern).map .remove).map (StmtOp.batchOp idx)) := by
  simp only [removeStatements, index_writeStmts]
  rw [index_removeStatementsBatch, index_emptyBatches, List.nil_append]

theorem count_removeStatements (σ : Store) (pattern : Statement) :
    (removeStatements σ pattern).2 = (getStatements σ pattern).length :=
  count_removeStatementsBatch σ pattern {}

theorem index_update (σ : Store) (it : List UpdateRequest) (idx : IndexType) :
    (update σ it).1.index idx =
      write (σ.index idx) ((it.flatMap (stmtOps σ)).map (StmtOp.batchOp idx)) := by
  simp only [update, index_writeNs, index_writeStmts, updateLoop]
  rw [index_foldl_updateStep, index_emptyBatches, List.nil_append]

/-- A call writes its changes to every index. -/
theorem Op.index_apply (σ : Store) (op : Op) (idx : IndexType) :
    (op.apply σ).index idx = write (σ.index idx) ((op.stmtOps σ).map (StmtOp.batchOp idx)) := by
  cases op with
  | addNamespaces it =>
    exact index_writeNs σ _ idx
  | addStatements it => exact index_addStatements σ it idx
  | removeStatements pattern => exact index_removeStatements σ pattern idx
  | update it => exact index_update σ it idx

/-! ## Represented sets -/

namespace StmtOp

theorem key_batchOp (op : StmtOp) (idx : IndexType) :
    (op.batchOp idx).key = stmtKey idx op.stmt := by cases op <;> rfl

theorem value?_batchOp (op : StmtOp) (idx : IndexType) :
    (op.batchOp idx).value? = op.value?.map statementCodec.serialize := by cases op <;> rfl

omit [Platform] in
theorem stmt_of_value? {op : StmtOp} {s : Statement} (h : op.value? = some s) : s = op.stmt := by
  cases op with
  | add t => exact (Option.some.inj h).symm
  | remove t => exact absurd h (by simp [value?])

theorem mem_apply {op : StmtOp} {S : Finset Statement} {t : Statement} :
    t ∈ op.apply S ↔
      op.value? = some t ∨ (t ∈ S ∧ stmtKey .SPOC t ≠ stmtKey .SPOC op.stmt) := by
  cases op with
  | add s => simp [apply, value?, stmt, eq_comm]
  | remove s => simp [apply, value?, stmt]

end StmtOp

namespace Represents

variable {db : StmtDB} {idx : IndexType} {S T : Finset Statement}

theorem key_inj (h : Represents db idx S) {s t : Statement} (hs : s ∈ S) (ht : t ∈ S)
    (hk : stmtKey idx s = stmtKey idx t) : s = t := by
  have h1 : db[stmtKey idx s]? = some (statementCodec.serialize s) := (h _ _).mpr ⟨s, hs, rfl, rfl⟩
  have h2 : db[stmtKey idx t]? = some (statementCodec.serialize t) := (h _ _).mpr ⟨t, ht, rfl, rfl⟩
  rw [hk, h2, Option.some.injEq] at h1
  exact (statementCodec.serialize_injective h1).symm

theorem getElem?_stmtKey (h : Represents db idx S) (s : Statement) :
    db[stmtKey idx s]? = some (statementCodec.serialize s) ↔ s ∈ S := by
  rw [h]
  constructor
  · rintro ⟨t, ht, _, hv⟩
    rwa [← statementCodec.serialize_injective hv]
  · exact fun hs => ⟨s, hs, rfl, rfl⟩

theorem unique (hS : Represents db idx S) (hT : Represents db idx T) : S = T := by
  ext s
  rw [← hS.getElem?_stmtKey, hT.getElem?_stmtKey]

theorem db_ext {db' : StmtDB} (h : Represents db idx S) (h' : Represents db' idx S) : db = db' := by
  refine Std.ExtTreeMap.ext_getElem? fun k => Option.ext fun v => ?_
  rw [h, h']

theorem empty : Represents ∅ idx ∅ := by
  intro k v
  simp

/-- One change of the database is that change of the set. -/
theorem applyOp (h : Represents db idx S) (op : StmtOp) :
    Represents (KV.applyOp db (op.batchOp idx)) idx (op.apply S) := by
  intro k v
  rw [getElem?_applyOp]
  by_cases hk : (op.batchOp idx).key = k
  · rw [if_pos hk, StmtOp.value?_batchOp, Option.map_eq_some_iff]
    rw [StmtOp.key_batchOp] at hk
    constructor
    · rintro ⟨s, hs, hv⟩
      refine ⟨s, StmtOp.mem_apply.mpr (Or.inl hs), ?_, hv⟩
      rw [StmtOp.stmt_of_value? hs, hk]
    · rintro ⟨t, ht, htk, hv⟩
      rcases StmtOp.mem_apply.mp ht with hs | ⟨_, hne⟩
      · exact ⟨t, hs, hv⟩
      · exact absurd ((stmtKey_eq_iff_spoc idx).mp (htk.trans hk.symm)) hne
  · rw [if_neg hk, h]
    rw [StmtOp.key_batchOp] at hk
    constructor
    · rintro ⟨t, ht, htk, hv⟩
      refine ⟨t, StmtOp.mem_apply.mpr (Or.inr ⟨ht, fun hne => hk ?_⟩), htk, hv⟩
      rw [← htk, (stmtKey_eq_iff_spoc idx).mpr hne]
    · rintro ⟨t, ht, htk, hv⟩
      rcases StmtOp.mem_apply.mp ht with hs | ⟨hS, _⟩
      · exact absurd (StmtOp.stmt_of_value? hs ▸ htk) hk
      · exact ⟨t, hS, htk, hv⟩

theorem write (h : Represents db idx S) (ops : List StmtOp) :
    Represents (KV.write db (ops.map (StmtOp.batchOp idx))) idx (ops.foldl StmtOp.apply S) := by
  induction ops generalizing db S with
  | nil => exact h
  | cons op ops ih => exact ih (h.applyOp op)

/-- The database has one entry for each statement of the set. -/
theorem toList_eq_map (h : Represents db idx S) :
    (db.toList : Multiset (Key × Bytes)) =
      S.val.map fun s => (stmtKey idx s, statementCodec.serialize s) := by
  have hmap : (S.val.map fun s => (stmtKey idx s, statementCodec.serialize s)).Nodup := by
    refine Multiset.Nodup.map ?_ S.nodup
    intro s t hst
    exact statementCodec.serialize_injective (Prod.mk.inj hst).2
  refine (Multiset.Nodup.ext (Multiset.coe_nodup.mpr (nodup_toList db)) hmap).mpr fun e => ?_
  obtain ⟨k, v⟩ := e
  rw [Multiset.mem_coe, Std.ExtTreeMap.mem_toList_iff_getElem?_eq_some, h, Multiset.mem_map]
  simp only [Prod.mk.injEq, Finset.mem_val]

theorem map_parse_toList (h : Represents db idx S) :
    ((db.toList.map fun e => statementCodec.parse e.2 : List Statement) : Multiset Statement) =
      S.val := by
  rw [← Multiset.map_coe, h.toList_eq_map, Multiset.map_map]
  simp [statementCodec.parse_serialize]

theorem nodup_map_parse (h : Represents db idx S) :
    (db.toList.map fun e => statementCodec.parse e.2).Nodup := by
  rw [← Multiset.coe_nodup, h.map_parse_toList]
  exact S.nodup

end Represents

/-! ## Represented stores -/

omit [Platform] in
theorem rangeIterator_eq_filter (db : StmtDB) (lo hi : Key) :
    rangeIterator db lo hi =
      db.toList.filter fun e => (keyCompare lo e.1).isLE && (keyCompare e.1 hi).isLE := by
  rw [rangeIterator, ← takeWhile_seek]
  simp only [sliceCompare_bytes]

/-- A query delivers the statements the pattern selects of the set its index represents. -/
theorem mem_getStatements_of_index {σ : Store} {S : Finset Statement} {pattern s : Statement}
    (hidx : Represents (σ.index (indexType pattern)) (indexType pattern) S) :
    s ∈ getStatements σ pattern ↔ s ∈ S ∧ Selects pattern s := by
  simp only [getStatements, rangeIterator_eq_filter, List.mem_map, List.mem_filter, Bool.and_eq_true,
    Prod.exists, Std.ExtTreeMap.mem_toList_iff_getElem?_eq_some]
  constructor
  · rintro ⟨k, v, ⟨hkv, hrange⟩, hs⟩
    obtain ⟨t, ht, rfl, rfl⟩ := (hidx k v).mp hkv
    obtain rfl : t = s := by rw [← hs, statementCodec.parse_serialize]
    exact ⟨ht, (stmtKey_mem_range_iff pattern t).mp hrange⟩
  · rintro ⟨hs, hsel⟩
    exact ⟨stmtKey (indexType pattern) s, statementCodec.serialize s,
      ⟨(hidx.getElem?_stmtKey s).mpr hs, (stmtKey_mem_range_iff pattern s).mpr hsel⟩,
      statementCodec.parse_serialize s⟩

omit [Platform] in
theorem foldl_count {α : Type} (l : List α) (n : Nat) :
    l.foldl (fun count _ => count + 1) n = n + l.length := by
  induction l generalizing n with
  | nil => rfl
  | cons a l ih =>
    rw [List.foldl_cons, ih, List.length_cons]
    omega

namespace Store.Represents

variable {σ : Store} {S : Finset Statement}

theorem mem_getStatements (h : σ.Represents S) {pattern s : Statement} :
    s ∈ getStatements σ pattern ↔ s ∈ S ∧ Selects pattern s :=
  mem_getStatements_of_index (h (indexType pattern))

theorem nodup_getStatements (h : σ.Represents S) (pattern : Statement) :
    (getStatements σ pattern).Nodup := by
  simp only [getStatements, rangeIterator_eq_filter]
  exact (h (indexType pattern)).nodup_map_parse.sublist (List.filter_sublist.map _)

theorem contents_eq (h : σ.Represents S) : contents σ = S := by
  have hmap := (h .SPOC).map_parse_toList
  ext s
  rw [contents, List.mem_toFinset, ← Multiset.mem_coe]
  exact (congrArg (s ∈ ·) hmap).to_iff

theorem size_eq (h : σ.Represents S) : size σ = S.card := by
  have hcard := congrArg Multiset.card (h .CSPO).map_parse_toList
  rw [Multiset.coe_card, List.length_map] at hcard
  rw [size, foldl_count, Nat.zero_add]
  exact hcard

/-- A query delivers each selected statement of the set once. -/
theorem coe_getStatements (h : σ.Represents S) (pattern : Statement) :
    (getStatements σ pattern : Multiset Statement) = (S.filter (Selects pattern)).val := by
  have hnodup := Multiset.coe_nodup.mpr (h.nodup_getStatements pattern)
  refine (Multiset.Nodup.ext hnodup (Finset.nodup _)).mpr fun s => ?_
  rw [Multiset.mem_coe, h.mem_getStatements, Finset.mem_val, Finset.mem_filter]

theorem empty : Store.empty.Represents ∅ := by
  intro idx
  cases idx <;> exact CMarmotta.Represents.empty

theorem apply (h : σ.Represents S) (op : Op) :
    (op.apply σ).Represents ((op.stmtOps σ).foldl StmtOp.apply S) := by
  intro idx
  rw [Op.index_apply]
  exact (h idx).write _

end Store.Represents

/-! ## Runs -/

/-- What a list of changes leaves was there before or is added. -/
theorem mem_foldl_apply {ops : List StmtOp} {S : Finset Statement} {t : Statement}
    (h : t ∈ ops.foldl StmtOp.apply S) : t ∈ S ∨ ∃ op ∈ ops, op.value? = some t := by
  induction ops generalizing S with
  | nil => exact Or.inl h
  | cons op ops ih =>
    rcases ih h with h | ⟨op', h', hv⟩
    · rcases StmtOp.mem_apply.mp h with hv | ⟨hS, _⟩
      · exact Or.inr ⟨op, List.mem_cons_self, hv⟩
      · exact Or.inl hS
    · exact Or.inr ⟨op', List.mem_cons_of_mem _ h', hv⟩

omit [Platform] in
theorem UpdateRequest.mem_added {r : UpdateRequest} {s : Statement} :
    s ∈ r.added ↔ r = .stmtAdded s := by
  cases r with
  | stmtAdded t => simp [added, eq_comm]
  | stmtRemoved pattern => simp [added]
  | nsAdded ns => simp [added]
  | nsRemoved pattern => simp [added]
  | notSet => simp [added]

theorem Op.mem_added {σ : Store} {op : Op} {c : StmtOp} {t : Statement} (h : c ∈ op.stmtOps σ)
    (hv : c.value? = some t) : t ∈ op.added := by
  cases op with
  | addNamespaces it => exact absurd h (by simp [Op.stmtOps])
  | addStatements it =>
    obtain ⟨s, hs, rfl⟩ := List.mem_map.mp h
    exact Option.some.inj hv ▸ hs
  | removeStatements pattern =>
    obtain ⟨s, _, rfl⟩ := List.mem_map.mp h
    exact absurd hv (by simp [StmtOp.value?])
  | update it =>
    obtain ⟨r, hr, hc⟩ := List.mem_flatMap.mp h
    refine List.mem_flatMap.mpr ⟨r, hr, ?_⟩
    cases r with
    | stmtAdded s =>
      rw [List.mem_singleton.mp hc] at hv
      exact List.mem_singleton.mpr (Option.some.inj hv).symm
    | stmtRemoved pattern =>
      obtain ⟨s, _, rfl⟩ := List.mem_map.mp hc
      exact absurd hv (by simp [StmtOp.value?])
    | nsAdded ns => exact absurd hc (by simp [CMarmotta.stmtOps])
    | nsRemoved pattern => exact absurd hc (by simp [CMarmotta.stmtOps])
    | notSet => exact absurd hc (by simp [CMarmotta.stmtOps])

/-- After every run the four databases represent one set, made of statements the run added. -/
theorem run_represents (ops : List Op) :
    ∃ S : Finset Statement, (run ops).Represents S ∧ ∀ s ∈ S, s ∈ added ops := by
  induction ops using List.reverseRecOn with
  | nil => exact ⟨∅, Store.Represents.empty, by simp⟩
  | append_singleton ops op ih =>
    obtain ⟨S, hS, hsub⟩ := ih
    have hrun : run (ops ++ [op]) = op.apply (run ops) := by
      rw [run, List.foldl_append]
      rfl
    refine ⟨_, hrun ▸ hS.apply op, fun s hs => ?_⟩
    rw [added, List.flatMap_append, List.mem_append]
    rcases mem_foldl_apply hs with h | ⟨c, hc, hv⟩
    · exact Or.inl (hsub s h)
    · exact Or.inr (by simpa using Op.mem_added hc hv)

end CMarmotta
