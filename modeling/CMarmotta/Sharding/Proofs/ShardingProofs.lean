import CMarmotta.Model.Proofs.OperatorsProofs
import CMarmotta.Sharding.Sharding
import CMarmotta.Service.Proofs.LevelDBServiceProofs
import CMarmotta.Persistence.Proofs.QueryProofs
import CMarmotta.Lib.Proofs.ThreadsProofs
import Mathlib.Algebra.BigOperators.Fin

/-!
# The proxy against a single backend

Where the hash does not collide, the backends hold the statements of a single backend, each where
its hash puts it, and all the namespaces (`Sharded`). Every request keeps this and is answered as by
the single backend; the sums of `Fanout` are right when the additions of its threads do not overlap
(`run_matches`).
-/

namespace CMarmotta

open KV Threads

section Sharding

variable [Platform] {n : Nat}

open Platform ShardingService

/-! ## Routing -/

/-- The shard of a statement is chosen by its hash. -/
theorem bucket_val (stmt : Statement) :
    (bucket n stmt).val = stmt.hash stdHash statementCodec % (n + 1) := rfl

/-- Equal statements go to the same backend if equality looks at all that is set in them. -/
theorem bucket_eq_of_equal {a b : Statement} (h : a.equal b = true) (hp : a.SamePresence b) :
    bucket n a = bucket n b := by
  have hhash : a.hash stdHash statementCodec = b.hash stdHash statementCodec := by
    rw [(Statement.eq_iff_of_equal h).mpr hp]
  rw [Fin.ext_iff, bucket_val, bucket_val, hhash]

omit [Platform] in
theorem foldl_writeAll {α : Type} (it : List α) (writers : Writers n α) (i : Fin (n + 1)) :
    it.foldl Writers.writeAll writers i = writers i ++ it := by
  induction it generalizing writers with
  | nil => simp
  | cons m it ih => rw [List.foldl_cons, ih, Writers.writeAll, List.append_assoc,
      List.singleton_append]

def routedTo (i : Fin (n + 1)) : UpdateRequest → Bool
  | .stmtAdded stmt => bucket n stmt = i
  | _ => true

theorem exists_of_not_routedTo {i : Fin (n + 1)} {r : UpdateRequest} (h : routedTo i r = false) :
    ∃ s, r = .stmtAdded s ∧ bucket n s ≠ i := by
  cases r with
  | stmtAdded s => exact ⟨s, rfl, of_decide_eq_false h⟩
  | stmtRemoved pattern => cases h
  | nsAdded ns => cases h
  | nsRemoved pattern => cases h
  | notSet => cases h

theorem foldl_route (it : List UpdateRequest) (writers : Writers n UpdateRequest)
    (i : Fin (n + 1)) : it.foldl route writers i = writers i ++ it.filter (routedTo i) := by
  induction it generalizing writers with
  | nil => simp
  | cons r it ih =>
    have hroute : route writers r i = writers i ++ [r].filter (routedTo i) := by
      cases r with
      | stmtAdded stmt =>
        by_cases hi : bucket n stmt = i
        · subst hi
          simp [route, Writers.write, routedTo]
        · simp [route, Writers.write, routedTo, hi, Ne.symm hi]
      | stmtRemoved pattern => rfl
      | nsAdded ns => rfl
      | nsRemoved pattern => rfl
      | notSet => rfl
    rw [List.foldl_cons, ih, hroute, List.append_assoc, ← List.filter_append,
      List.singleton_append]

theorem foldl_write_bucket (it : List Statement) (writers : Writers n Statement)
    (i : Fin (n + 1)) :
    it.foldl (fun writers stmt => Writers.write writers (bucket n stmt) stmt) writers i =
      writers i ++ it.filter (bucket n · = i) := by
  induction it generalizing writers with
  | nil => simp
  | cons s it ih =>
    rw [List.foldl_cons, ih]
    by_cases hi : bucket n s = i
    · subst hi
      simp [Writers.write]
    · simp [Writers.write, hi, Ne.symm hi]

omit [Platform] in
theorem sumResponses_eq_sum (responses : Fin (n + 1) → Nat) :
    sumResponses responses = ∑ i, responses i := by
  rw [sumResponses, Fin.sum_univ_def, List.sum_eq_foldl, List.foldl_map]

/-! ## The stores -/

def KeysApart (K : List Statement) : Prop :=
  ∀ s ∈ K, ∀ t ∈ K, stmtKey .SPOC s = stmtKey .SPOC t → s = t

/-- The backends hold the statements of a single backend, each where its hash puts it, and all its
namespaces. The statements come from the list `K`. -/
structure Sharded (K : List Statement) (S : Finset Statement) (σ : Store) (shards : Shards n) :
    Prop where
  known : ∀ s ∈ S, s ∈ K
  single : σ.Represents S
  shard : ∀ i, (shards i).Represents (S.filter fun s => bucket n s = i)
  ns : ∀ i t, (shards i).nsTable t = σ.nsTable t

theorem getNamespaces_congr {σ σ' : Store} (h : ∀ t, σ.nsTable t = σ'.nsTable t)
    (pattern : Namespace) : getNamespaces σ pattern = getNamespaces σ' pattern := by
  have hprefix : σ.dbNsPrefix = σ'.dbNsPrefix := h .byPrefix
  have hurl : σ.dbNsUrl = σ'.dbNsUrl := h .byUrl
  simp only [getNamespaces, hprefix, hurl]

namespace Sharded

variable {S : Finset Statement} {σ : Store} {shards : Shards n} {K : List Statement}

theorem empty (K : List Statement) :
    Sharded K ∅ Store.empty fun _ : Fin (n + 1) => Store.empty := by
  refine ⟨by simp, Store.Represents.empty, fun i => ?_, fun _ _ => rfl⟩
  rw [Finset.filter_empty]
  exact Store.Represents.empty

theorem stmtAt_eq (h : Sharded K S σ shards) (hK : KeysApart K) {t : Statement} (ht : t ∈ K) :
    stmtAt (shards (bucket n t)) t = stmtAt σ t := by
  ext u
  rw [(h.shard _).stmtAt_eq_some_iff, h.single.stmtAt_eq_some_iff, Finset.mem_filter]
  constructor
  · rintro ⟨⟨hu, -⟩, hk⟩
    exact ⟨hu, hk⟩
  · rintro ⟨hu, hk⟩
    refine ⟨⟨hu, ?_⟩, hk⟩
    rw [hK u (h.known u hu) t ht hk]

/-- The requests sent to the backend of a statement do to its key what all requests do. -/
theorem stmtAt_update (h : Sharded K S σ shards) (hK : KeysApart K) {it : List UpdateRequest}
    (hit : ∀ s, .stmtAdded s ∈ it → s ∈ K) {t : Statement} (ht : t ∈ K) :
    stmtAt (update (shards (bucket n t)) (it.filter (routedTo (bucket n t)))).1 t =
      stmtAt (update σ it).1 t := by
  have hat := h.stmtAt_eq hK ht
  have heffect : stmtEffect (shards (bucket n t)) .SPOC (stmtKey .SPOC t) =
      stmtEffect σ .SPOC (stmtKey .SPOC t) := by
    funext r
    rw [(h.shard _).stmtEffect_eq, h.single.stmtEffect_eq, hat]
  rw [Store.Represents.stmtAt_update, Store.Represents.stmtAt_update, hat, heffect,
    lastWrite_filter fun r hr hnot => ?_]
  -- A request that goes elsewhere adds another statement, so it is about another key.
  obtain ⟨s, rfl, hs⟩ := exists_of_not_routedTo hnot
  rw [stmtEffect, if_neg]
  intro hk
  rw [hK s (hit s hr) t ht hk] at hs
  exact hs rfl

theorem nsTable_update (h : Sharded K S σ shards) (it : List UpdateRequest) (i : Fin (n + 1))
    (t : NsTable) :
    (update (shards i) (it.filter (routedTo i))).1.nsTable t = (update σ it).1.nsTable t := by
  have hbatch : nsBatch (shards i) t = nsBatch σ t := by
    funext r
    cases r with
    | nsRemoved pattern => simp only [nsBatch, getNamespaces_congr (h.ns i)]
    | nsAdded ns => rfl
    | stmtAdded s => rfl
    | stmtRemoved pattern => rfl
    | notSet => rfl
  have hflat : (it.filter (routedTo i)).flatMap (nsBatch σ t) = it.flatMap (nsBatch σ t) := by
    induction it with
    | nil => rfl
    | cons r it ih =>
      rw [List.flatMap_cons, ← ih]
      cases hr : routedTo i r with
      | true => rw [List.filter_cons_of_pos hr, List.flatMap_cons]
      | false =>
        obtain ⟨s, rfl, -⟩ := exists_of_not_routedTo hr
        rw [List.filter_cons_of_neg (by simp [hr])]
        rfl
  rw [CMarmotta.nsTable_update, CMarmotta.nsTable_update, hbatch, hflat, h.ns]

/-- One update of the single backend is one update of each backend with the requests sent to it. -/
theorem update (h : Sharded K S σ shards) (hK : KeysApart K) {it : List UpdateRequest}
    (hit : ∀ s, .stmtAdded s ∈ it → s ∈ K) :
    ∃ S', Sharded K S' (CMarmotta.update σ it).1
      fun i => (CMarmotta.update (shards i) (it.filter (routedTo i))).1 := by
  obtain ⟨S', hS', hsub⟩ := h.single.update it
  have hS'K : ∀ s ∈ S', s ∈ K := by
    intro s hs
    rcases hsub s hs with hs | hs
    · exact h.known s hs
    · exact hit s hs
  refine ⟨S', hS'K, hS', fun i => ?_, h.nsTable_update it⟩
  obtain ⟨T, hT, hTsub⟩ := (h.shard i).update (it.filter (routedTo i))
  have hTK : ∀ t ∈ T, t ∈ K ∧ bucket n t = i := by
    intro t ht
    rcases hTsub t ht with ht | ht
    · obtain ⟨ht, hi⟩ := Finset.mem_filter.mp ht
      exact ⟨h.known t ht, hi⟩
    · obtain ⟨ht, hi⟩ := List.mem_filter.mp ht
      exact ⟨hit t ht, of_decide_eq_true hi⟩
  have hTS' : T = S'.filter fun s => bucket n s = i := by
    ext t
    have hmem : t ∈ K → bucket n t = i → (t ∈ T ↔ t ∈ S') := by
      intro ht hi
      have hT' := hT.stmtAt_eq_some_iff (s := t) (t := t)
      have hS'' := hS'.stmtAt_eq_some_iff (s := t) (t := t)
      have heq := h.stmtAt_update hK hit ht
      rw [hi] at heq
      rw [heq, hS''] at hT'
      simpa using hT'.symm
    rw [Finset.mem_filter]
    constructor
    · intro ht
      obtain ⟨htK, hi⟩ := hTK t ht
      exact ⟨(hmem htK hi).mp ht, hi⟩
    · rintro ⟨ht, hi⟩
      exact (hmem (hS'K t ht) hi).mpr ht
  exact hTS' ▸ hT

/-! ## Answers -/

theorem sum_getStatements (h : Sharded K S σ shards) (pattern : Statement) :
    ∑ i, (getStatements (shards i) pattern : Multiset Statement) =
      (getStatements σ pattern : Multiset Statement) := by
  ext s
  rw [Multiset.count_sum', h.single.coe_getStatements,
    Multiset.count_eq_of_nodup (Finset.nodup _)]
  have hcount : ∀ i, Multiset.count s (getStatements (shards i) pattern : Multiset Statement) =
      if bucket n s = i then (if s ∈ S.filter (Selects pattern) then 1 else 0) else 0 := by
    intro i
    rw [(h.shard i).coe_getStatements, Multiset.count_eq_of_nodup (Finset.nodup _)]
    simp only [Finset.mem_val, Finset.mem_filter]
    by_cases hi : bucket n s = i <;> simp [hi]
  simp only [hcount, Finset.sum_ite_eq, Finset.mem_univ, if_true, Finset.mem_val]

theorem sum_length_getStatements (h : Sharded K S σ shards) (pattern : Statement) :
    ∑ i, (getStatements (shards i) pattern).length = (getStatements σ pattern).length := by
  have hcard := congrArg Multiset.card (h.sum_getStatements pattern)
  rw [Multiset.card_sum] at hcard
  exact hcard

theorem removeStatements (h : Sharded K S σ shards) (hK : KeysApart K) (pattern : Statement) :
    (∃ S', Sharded K S' (CMarmotta.removeStatements σ pattern).1
      fun i => (CMarmotta.removeStatements (shards i) pattern).1) ∧
    (CMarmotta.removeStatements σ pattern).2 =
      ∑ i, (CMarmotta.removeStatements (shards i) pattern).2 := by
  constructor
  · have hadd : ∀ s, .stmtAdded s ∈ [UpdateRequest.stmtRemoved pattern] → s ∈ K := by simp
    obtain ⟨S', hS'⟩ := h.update hK hadd
    have heq : ∀ σ, (CMarmotta.removeStatements σ pattern).1 =
        (CMarmotta.update σ [.stmtRemoved pattern]).1 := fun σ =>
      Op.apply_eq_update σ (.removeStatements pattern)
    simp only [heq]
    exact ⟨S', hS'⟩
  · simp only [count_removeStatements, h.sum_length_getStatements]

theorem clearLoop (hK : KeysApart K) (contexts : ContextRequest) (h : Sharded K S σ shards)
    (pattern : Statement) (counts : Fin (n + 1) → Nat) :
    (∃ S', Sharded K S' (LevelDBService.clearLoop σ pattern (∑ i, counts i) contexts).1
      fun i => (LevelDBService.clearLoop (shards i) pattern (counts i) contexts).1) ∧
    (LevelDBService.clearLoop σ pattern (∑ i, counts i) contexts).2 =
      ∑ i, (LevelDBService.clearLoop (shards i) pattern (counts i) contexts).2 := by
  induction contexts generalizing S σ shards pattern counts with
  | nil => exact ⟨⟨S, h⟩, rfl⟩
  | cons r contexts ih =>
    obtain ⟨⟨S', hS'⟩, hcount⟩ := h.removeStatements hK { pattern with context := some r }
    have hsum : (∑ i, counts i) +
        (CMarmotta.removeStatements σ { pattern with context := some r }).2 =
        ∑ i, (counts i +
          (CMarmotta.removeStatements (shards i) { pattern with context := some r }).2) := by
      rw [hcount, Finset.sum_add_distrib]
    simp only [LevelDBService.clearLoop, hsum]
    exact ih hS' { pattern with context := some r } _

theorem clear (h : Sharded K S σ shards) (hK : KeysApart K) (contexts : ContextRequest) :
    (∃ S', Sharded K S' (LevelDBService.clear σ contexts).1
      fun i => (LevelDBService.clear (shards i) contexts).1) ∧
    (LevelDBService.clear σ contexts).2 = ∑ i, (LevelDBService.clear (shards i) contexts).2 := by
  by_cases hc : contexts.length > 0
  · have hloop := clearLoop hK contexts h {} fun _ => 0
    simp only [LevelDBService.clear, if_pos hc]
    simpa using hloop
  · have hremove := h.removeStatements hK {}
    simp only [LevelDBService.clear, if_neg hc, Nat.zero_add]
    exact hremove

theorem sizeLoop (h : Sharded K S σ shards) (contexts : ContextRequest) (pattern : Statement)
    (counts : Fin (n + 1) → Nat) :
    LevelDBService.sizeLoop σ pattern (∑ i, counts i) contexts =
      ∑ i, LevelDBService.sizeLoop (shards i) pattern (counts i) contexts := by
  induction contexts generalizing pattern counts with
  | nil => rfl
  | cons r contexts ih =>
    have hstep : ∀ (τ : Store) (count : Nat),
        LevelDBService.sizeLoop τ pattern count (r :: contexts) =
          LevelDBService.sizeLoop τ { pattern with context := some r }
            (count + (getStatements τ { pattern with context := some r }).length) contexts := by
      intro τ count
      rw [LevelDBService.sizeLoop, forEach_eq_foldl (fun count _ => count + 1), foldl_count]
    simp only [hstep]
    rw [← h.sum_length_getStatements, ← Finset.sum_add_distrib]
    exact ih _ _

theorem size (h : Sharded K S σ shards) (contexts : ContextRequest) :
    LevelDBService.size σ contexts = ∑ i, LevelDBService.size (shards i) contexts := by
  by_cases hc : contexts.length > 0
  · have hloop := h.sizeLoop contexts {} fun _ => 0
    simp only [LevelDBService.size, if_pos hc]
    simpa using hloop
  · simp only [LevelDBService.size, if_neg hc, h.single.size_eq, (h.shard _).size_eq]
    exact Finset.card_eq_sum_card_fiberwise fun s _ => Finset.mem_univ (bucket n s)

theorem addNamespaces (h : Sharded K S σ shards) (hK : KeysApart K) (it : List Namespace) :
    (∃ S', Sharded K S' (CMarmotta.addNamespaces σ it).1 (ShardingService.addNamespaces shards it).1) ∧
    (CMarmotta.addNamespaces σ it).2 = (ShardingService.addNamespaces shards it).2 := by
  have hshard : ∀ i, (ShardingService.addNamespaces shards it).1 i =
      (CMarmotta.update (shards i) ((it.map .nsAdded).filter (routedTo i))).1 := by
    intro i
    have hall : (it.map UpdateRequest.nsAdded).filter (routedTo i) = it.map .nsAdded := by
      refine List.filter_eq_self.mpr fun r hr => ?_
      obtain ⟨ns, -, rfl⟩ := List.mem_map.mp hr
      rfl
    simp only [ShardingService.addNamespaces, LevelDBService.addNamespaces, foldl_writeAll,
      ReaderIterator.toList_ofReader, List.nil_append, hall]
    exact Op.apply_eq_update (shards i) (.addNamespaces it)
  constructor
  · obtain ⟨S', hS'⟩ := h.update hK (fun s hs => absurd hs (by simp) :
      ∀ s, .stmtAdded s ∈ it.map UpdateRequest.nsAdded → s ∈ K)
    refine ⟨S', ?_⟩
    rw [show (CMarmotta.addNamespaces σ it).1 = _ from Op.apply_eq_update σ (.addNamespaces it),
      funext hshard]
    exact hS'
  · simp only [ShardingService.addNamespaces, LevelDBService.addNamespaces, foldl_writeAll,
      ReaderIterator.toList_ofReader, List.nil_append, count_addNamespaces]

theorem sum_length_filter_bucket (it : List Statement) :
    ∑ i, (it.filter (bucket n · = i)).length = it.length := by
  induction it with
  | nil => simp
  | cons s it ih =>
    have hcons : ∀ i, ((s :: it).filter (bucket n · = i)).length =
        (it.filter (bucket n · = i)).length + if bucket n s = i then 1 else 0 := by
      intro i
      by_cases hi : bucket n s = i <;> simp [hi]
    simp only [hcons, Finset.sum_add_distrib, ih, Finset.sum_ite_eq, Finset.mem_univ, if_true,
      List.length_cons]

theorem addStatements (h : Sharded K S σ shards) (hK : KeysApart K) {it : List Statement}
    (hit : ∀ s ∈ it, s ∈ K) :
    (∃ S', Sharded K S' (CMarmotta.addStatements σ it).1 (ShardingService.addStatements shards it).1) ∧
    (CMarmotta.addStatements σ it).2 = (ShardingService.addStatements shards it).2 := by
  have hshard : ∀ i, (ShardingService.addStatements shards it).1 i =
      (CMarmotta.update (shards i) ((it.map .stmtAdded).filter (routedTo i))).1 := by
    intro i
    have hfilter : (it.map UpdateRequest.stmtAdded).filter (routedTo i) =
        (it.filter (bucket n · = i)).map .stmtAdded := by
      rw [List.filter_map]
      rfl
    simp only [ShardingService.addStatements, LevelDBService.addStatements, foldl_write_bucket,
      ReaderIterator.toList_ofReader, List.nil_append, hfilter]
    exact Op.apply_eq_update (shards i) (.addStatements _)
  constructor
  · obtain ⟨S', hS'⟩ := h.update hK (fun s hs => hit s (by simpa using hs) :
      ∀ s, .stmtAdded s ∈ it.map UpdateRequest.stmtAdded → s ∈ K)
    refine ⟨S', ?_⟩
    rw [show (CMarmotta.addStatements σ it).1 = _ from Op.apply_eq_update σ (.addStatements it),
      funext hshard]
    exact hS'
  · simp only [ShardingService.addStatements, LevelDBService.addStatements, foldl_write_bucket,
      ReaderIterator.toList_ofReader, List.nil_append, count_addStatements, sumResponses_eq_sum,
      sum_length_filter_bucket]

/-- One request: the stores stay in step, and the answers match. -/
theorem handles (h : Sharded K S σ shards) (hK : KeysApart K) {e : Exchange n} {shards' : Shards n}
    (he : Handles shards e shards') (hadd : ∀ s ∈ e.request.added, s ∈ K) :
    (∃ S', Sharded K S' (LevelDBService.handle σ e.request).1 shards') ∧
      (OneAfterAnother e.accesses →
        Response.Matches (LevelDBService.handle σ e.request).2 e.response) := by
  cases he with
  | addNamespaces it =>
    obtain ⟨hS', hcount⟩ := h.addNamespaces hK it
    simp only [LevelDBService.handle, LevelDBService.addNamespaces, ReaderIterator.toList_ofReader]
    exact ⟨hS', fun _ => congrArg Response.count hcount⟩
  | addStatements it =>
    obtain ⟨hS', hcount⟩ := h.addStatements hK (show ∀ s ∈ it, s ∈ K from hadd)
    simp only [LevelDBService.handle, LevelDBService.addStatements, ReaderIterator.toList_ofReader]
    exact ⟨hS', fun _ => congrArg Response.count hcount⟩
  | update it =>
    have hadd' : ∀ s, .stmtAdded s ∈ it → s ∈ K := fun s hs =>
      hadd s (List.mem_flatMap.mpr ⟨.stmtAdded s, hs, List.mem_singleton_self s⟩)
    obtain ⟨S', hS'⟩ := h.update hK hadd'
    simp only [LevelDBService.handle, ShardingService.update, LevelDBService.update,
      ReaderIterator.toList_ofReader, foldl_route, List.nil_append]
    exact ⟨⟨S', hS'⟩, fun _ => ⟨_, rfl⟩⟩
  | getNamespace pattern rand =>
    refine ⟨⟨S, h⟩, fun _ => ?_⟩
    simp only [LevelDBService.handle, Response.Matches, LevelDBService.getNamespace,
      getNamespaces_congr (h.ns _)]
  | getNamespaces rand =>
    refine ⟨⟨S, h⟩, fun _ => ?_⟩
    simp only [LevelDBService.handle, Response.Matches, LevelDBService.getNamespaces,
      getNamespaces_congr (h.ns _)]
  | getStatements pattern hi =>
    refine ⟨⟨S, h⟩, fun _ => ⟨_, rfl, ?_⟩⟩
    have hcoe := hi.coe_eq_sum
    simp only [LevelDBService.getStatements, ServerWriter.written_forEach, List.nil_append,
      h.sum_getStatements] at hcoe ⊢
    exact Multiset.coe_eq_coe.mp hcoe
  | removeStatements pattern hr =>
    obtain ⟨hS', hcount⟩ := h.removeStatements hK pattern
    exact ⟨hS', fun hseq => congrArg Response.count (hcount.trans (addAll_eq_sum hseq hr).symm)⟩
  | clear contexts hr =>
    obtain ⟨hS', hcount⟩ := h.clear hK contexts
    exact ⟨hS', fun hseq => congrArg Response.count (hcount.trans (addAll_eq_sum hseq hr).symm)⟩
  | size contexts hr =>
    exact ⟨⟨S, h⟩, fun hseq =>
      congrArg Response.count ((h.size contexts).trans (addAll_eq_sum hseq hr).symm)⟩

theorem run (hK : KeysApart K) {trace : List (Exchange n)} {shards' : Shards n}
    (hrun : Run shards trace shards') (h : Sharded K S σ shards)
    (hadd : ∀ e ∈ trace, ∀ s ∈ e.request.added, s ∈ K) :
    (∃ S', Sharded K S' (LevelDBService.serve σ (trace.map Exchange.request)).1 shards') ∧
      List.Forall₂ (fun e single => OneAfterAnother e.accesses → Response.Matches single e.response)
        trace (LevelDBService.serve σ (trace.map Exchange.request)).2 := by
  induction hrun generalizing S σ with
  | nil shards => exact ⟨⟨S, h⟩, .nil⟩
  | cons he _ ih =>
    obtain ⟨⟨S₁, h₁⟩, hmatch⟩ := h.handles hK he (hadd _ List.mem_cons_self)
    obtain ⟨hS', hrest⟩ := ih h₁ fun e he => hadd e (List.mem_cons_of_mem _ he)
    exact ⟨hS', .cons hmatch hrest⟩

end Sharded

/-- The proxy can serve every request, with the additions of its fan-out one after another. -/
theorem exists_handles (shards : Shards n) (request : Request) :
    ∃ e shards', Handles shards e shards' ∧ e.request = request ∧ OneAfterAnother e.accesses := by
  have hnil : OneAfterAnother ([] : List (Access (Fin (n + 1)))) := ⟨[], rfl⟩
  cases request with
  | addNamespaces it => exact ⟨_, _, .addNamespaces it, rfl, hnil⟩
  | addStatements it => exact ⟨_, _, .addStatements it, rfl, hnil⟩
  | update it => exact ⟨_, _, .update it, rfl, hnil⟩
  | getNamespace pattern => exact ⟨_, _, .getNamespace pattern 0, rfl, hnil⟩
  | getNamespaces => exact ⟨_, _, .getNamespaces 0, rfl, hnil⟩
  | getStatements pattern =>
    obtain ⟨l, hl⟩ := exists_interleaves
      fun i => (LevelDBService.getStatements (shards i) pattern {}).written
    exact ⟨_, _, .getStatements pattern hl, rfl, hnil⟩
  | removeStatements pattern =>
    obtain ⟨accesses, r, hseq, hr⟩ := exists_addAll
      fun i => (LevelDBService.removeStatements (shards i) pattern).2
    exact ⟨_, _, .removeStatements pattern hr, rfl, hseq⟩
  | clear contexts =>
    obtain ⟨accesses, r, hseq, hr⟩ := exists_addAll
      fun i => (LevelDBService.clear (shards i) contexts).2
    exact ⟨_, _, .clear contexts hr, rfl, hseq⟩
  | size contexts =>
    obtain ⟨accesses, r, hseq, hr⟩ := exists_addAll
      fun i => LevelDBService.size (shards i) contexts
    exact ⟨_, _, .size contexts hr, rfl, hseq⟩

/-- Requests sent through the proxy one after another, against a single backend that gets the same
requests: each statement of the single backend is held by the backend its hash selects, and by no
other; all backends have the namespaces of the single one; and every answer matches, the counts of a
fan-out if the additions of its threads do not overlap. -/
theorem run_matches {trace : List (Exchange n)} {shards : Shards n}
    (hrun : Run (fun _ => Store.empty) trace shards)
    (hwf : ∀ e ∈ trace, ∀ s ∈ e.request.added, s.WellFormed)
    (hcf : CollisionFree (trace.flatMap fun e => e.request.added)) :
    (∃ S, (LevelDBService.serve Store.empty (trace.map Exchange.request)).1.Represents S ∧
      ∀ i, (shards i).Represents (S.filter fun s => bucket n s = i)) ∧
    (∀ i t, (shards i).nsTable t =
      (LevelDBService.serve Store.empty (trace.map Exchange.request)).1.nsTable t) ∧
    List.Forall₂ (fun e single => OneAfterAnother e.accesses → Response.Matches single e.response)
      trace (LevelDBService.serve Store.empty (trace.map Exchange.request)).2 := by
  have hK : KeysApart (trace.flatMap fun e => e.request.added) := by
    intro s hs t ht hk
    refine hcf.key_inj (fun s hs => ?_) .SPOC hs ht hk
    obtain ⟨e, he, hs⟩ := List.mem_flatMap.mp hs
    exact hwf e he s hs
  obtain ⟨⟨S, hS⟩, hmatch⟩ := Sharded.run hK hrun (Sharded.empty _) fun e he s hs =>
    List.mem_flatMap.mpr ⟨e, he, hs⟩
  exact ⟨⟨S, hS.single, hS.shard⟩, hS.ns, hmatch⟩

end Sharding

open ShardingService

/-- Two statements that go to different backends, of two. -/
def twoStatements : List Statement :=
  [.ofUris "urn:a" "urn:p" "urn:o", .ofUris "urn:c" "urn:p" "urn:o"]

def twoShards : Shards 1 :=
  (ShardingService.addStatements (fun _ => Store.empty) twoStatements).1

theorem size_twoShards (i : Fin 2) : LevelDBService.size (twoShards i) [] = 1 := by
  simp only [twoShards, ShardingService.addStatements, LevelDBService.addStatements,
    ReaderIterator.toList_ofReader]
  revert i
  decide +kernel

/-- The import of the two statements, and then the size with the given accesses to the sum. -/
def importAndSize (accesses : List (Access (Fin 2))) (r : Nat) : List (Exchange 1) :=
  [{ request := .addStatements twoStatements
     response := .count (ShardingService.addStatements (fun _ : Fin 2 => Store.empty) twoStatements).2 },
    { request := .size [], accesses, response := .count r }]

theorem run_importAndSize {accesses : List (Access (Fin 2))} {r : Nat}
    (h : addAll (fun _ => 1) accesses = some r) :
    Run (fun _ => Store.empty) (importAndSize accesses r) twoShards := by
  refine .cons (.addStatements twoStatements) (.cons (.size [] ?_) (.nil _))
  show addAll (fun i => LevelDBService.size (twoShards i) []) accesses = some r
  rw [funext size_twoShards]
  exact h

theorem wellFormed_importAndSize (accesses : List (Access (Fin 2))) (r : Nat) :
    ∀ e ∈ importAndSize accesses r, ∀ s ∈ e.request.added, s.WellFormed := by
  have htwo : ∀ s ∈ twoStatements, s.WellFormed := by decide
  intro e he s hs
  simp only [importAndSize, List.mem_cons, List.not_mem_nil, or_false] at he
  rcases he with rfl | rfl
  · exact htwo s hs
  · cases hs

theorem collisionFree_importAndSize (accesses : List (Access (Fin 2))) (r : Nat) :
    CollisionFree ((importAndSize accesses r).flatMap fun e => e.request.added) := by
  simp only [importAndSize, List.flatMap_cons, List.flatMap_nil, Request.added, List.append_nil]
  decide +kernel

/-- Two backends, two statements, and a size whose additions come one after another. -/
theorem run_matches_size :
    Run (fun _ => Store.empty) (importAndSize [.load 1, .store 1, .load 0, .store 0] 2) twoShards ∧
      List.Forall₂ (fun e single => OneAfterAnother e.accesses → Response.Matches single e.response)
        (importAndSize [.load 1, .store 1, .load 0, .store 0] 2)
        (LevelDBService.serve Store.empty [.addStatements twoStatements, .size []]).2 := by
  have hrun : Run (fun _ => Store.empty) (importAndSize [.load 1, .store 1, .load 0, .store 0] 2)
      twoShards := run_importAndSize (by decide)
  exact ⟨hrun, (run_matches hrun (wellFormed_importAndSize _ _)
    (collisionFree_importAndSize _ _)).2.2⟩

/-- Two backends hold one statement each. Both threads of the fan-out load the sum before either
stores it, and the proxy reports one statement where a single backend reports two. -/
theorem run_loses_count :
    Run (fun _ => Store.empty) (importAndSize [.load 0, .load 1, .store 0, .store 1] 1) twoShards ∧
      (∀ e ∈ importAndSize [.load 0, .load 1, .store 0, .store 1] 1, ∀ s ∈ e.request.added,
        s.WellFormed) ∧
      CollisionFree ((importAndSize [.load 0, .load 1, .store 0, .store 1] 1).flatMap
        fun e => e.request.added) ∧
      ¬ List.Forall₂ (fun e single => Response.Matches single e.response)
        (importAndSize [.load 0, .load 1, .store 0, .store 1] 1)
        (LevelDBService.serve Store.empty [.addStatements twoStatements, .size []]).2 := by
  refine ⟨run_importAndSize (by decide), wellFormed_importAndSize _ _,
    collisionFree_importAndSize _ _, ?_⟩
  intro hmatch
  have hsize : LevelDBService.size (CMarmotta.addStatements Store.empty twoStatements).1 [] = 2 := by
    decide +kernel
  simp only [importAndSize, LevelDBService.serve, LevelDBService.handle,
    LevelDBService.addStatements, ReaderIterator.toList_ofReader, List.forall₂_cons, hsize,
    Response.Matches, Response.count.injEq] at hmatch
  exact absurd hmatch.2.1 (by decide)

end CMarmotta
