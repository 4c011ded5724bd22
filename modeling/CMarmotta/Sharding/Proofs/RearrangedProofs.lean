import CMarmotta.Sharding.Proofs.RetryProofs
import CMarmotta.Sharding.Proofs.ShardedDatasetProofs

/-!
# Backends in another order

The hash of a statement selects a backend by its position. If the proxy is started again with the
backends in another order, or with more of them, statements are where their hash does not select them.
Queries and removals go to all backends and find them there. What goes wrong is the addition of a
statement that is already there: then two backends have it, and every query delivers it twice until a
removal finds it (`rearranged_counts`).
-/

namespace CMarmotta

open KV Threads ShardingService

section Rearranged

variable [Platform] {n m : Nat} {K : List Statement}

/-- The backends `shards`, each with a new position, and empty backends at the other positions. -/
def Rearranged (shards : Shards n) (rearranged : Shards m) : Prop :=
  ∃ place : Fin (n + 1) → Fin (m + 1), Function.Injective place ∧
    (∀ i, rearranged (place i) = shards i) ∧
    ∀ j, (∀ i, place i ≠ j) → rearranged j = Store.empty

/-! ## Runs as streams -/

section Streams

variable {σ : Store} {S : Finset Statement} {t : Statement}

theorem Store.HoldsOnly.foldl_update {P : Statement → Prop} (h : σ.HoldsOnly P)
    {streams : List (List UpdateRequest)} (hit : ∀ it ∈ streams, ∀ s, .stmtAdded s ∈ it → P s) :
    (streams.foldl (fun σ it => (CMarmotta.update σ it).1) σ).HoldsOnly P := by
  induction streams generalizing σ with
  | nil => exact h
  | cons it streams ih =>
    obtain ⟨hit, hstreams⟩ := List.forall_mem_cons.mp hit
    exact ih (h.update hit) hstreams

/-- If no stream undoes what it does to a key, the last request about it decides. -/
theorem stmtAt_foldl_update (hσ : σ.Represents S) {streams : List (List UpdateRequest)}
    (hnot : ∀ it ∈ streams, ¬ Undoes it t) :
    stmtAt (streams.foldl (fun σ it => (update σ it).1) σ) t =
      (lastWrite (keyEffect t) streams.flatten).getD (stmtAt σ t) := by
  induction streams generalizing σ S with
  | nil => rfl
  | cons it streams ih =>
    obtain ⟨hit, hstreams⟩ := List.forall_mem_cons.mp hnot
    obtain ⟨S', hS', -⟩ := hσ.update it
    rw [List.foldl_cons, ih hS' hstreams, stmtAt_update_of_not_undoes hσ hit, List.flatten_cons,
      lastWrite_append, Option.getD_or]

theorem handle_eq_update (hσ : σ.Represents S) (request : Request) :
    (LevelDBService.handle σ request).1 = (update σ request.requests).1 := by
  cases request with
  | addNamespaces it =>
    show (addNamespaces σ (ReaderIterator.ofReader { messages := it }).toList).1 = _
    rw [ReaderIterator.toList_ofReader]
    exact Op.apply_eq_update σ (.addNamespaces it)
  | addStatements it =>
    show (addStatements σ (ReaderIterator.ofReader { messages := it }).toList).1 = _
    rw [ReaderIterator.toList_ofReader]
    exact Op.apply_eq_update σ (.addStatements it)
  | removeStatements pattern => exact Op.apply_eq_update σ (.removeStatements pattern)
  | clear contexts => exact clear_eq_update hσ contexts
  | update it =>
    show (update σ (ReaderIterator.ofReader { messages := it }).toList).1 = _
    rw [ReaderIterator.toList_ofReader]
    rfl
  | _ => rfl

theorem serve_eq_foldl (hσ : σ.Represents S) (requests : List Request) :
    (LevelDBService.serve σ requests).1 =
      (requests.map Request.requests).foldl (fun σ it => (update σ it).1) σ := by
  induction requests generalizing σ S with
  | nil => rfl
  | cons request requests ih =>
    obtain ⟨S', hS', -⟩ := hσ.update request.requests
    rw [← handle_eq_update hσ] at hS'
    show (LevelDBService.serve (LevelDBService.handle σ request).1 requests).1 = _
    rw [ih hS', List.map_cons, List.foldl_cons, handle_eq_update hσ]

theorem ShardingService.Handles.handlesWith {shards shards' : Shards m} {e : Exchange m}
    (he : Handles shards e shards') (hall : e.request.toAllBackends = true) :
    ∃ status, HandlesWith ⟨fun _ => .ok, none⟩ shards e status shards' := by
  cases he with
  | addNamespaces it =>
    have h : HandlesWith ⟨fun _ => .ok, none⟩ shards _ _ _ := .addNamespaces it
    rw [addNamespacesWith_of_ok fun _ => rfl] at h
    exact ⟨_, h⟩
  | addStatements it =>
    have h : HandlesWith ⟨fun _ => .ok, none⟩ shards _ _ _ := .addStatements it
    rw [addStatementsWith_of_ok fun _ => rfl] at h
    exact ⟨_, h⟩
  | update it =>
    have h : HandlesWith ⟨fun _ => .ok, none⟩ shards _ _ _ := .update it
    rw [updateWith_of_ok fun _ => rfl] at h
    exact ⟨_, h⟩
  | getNamespace pattern rand => cases hall
  | getNamespaces rand => cases hall
  | getStatements pattern h => exact ⟨_, .getStatements pattern h⟩
  | removeStatements pattern h => exact ⟨_, .removeStatements pattern h⟩
  | clear contexts h => exact ⟨_, .clear contexts h⟩
  | size contexts h => exact ⟨_, .size contexts h⟩

/-- A backend treats the requests that are routed to it. -/
theorem ShardingService.Handles.treats {shards shards' : Shards m} {e : Exchange m}
    (he : Handles shards e shards') {j : Fin (m + 1)} (hS : (shards j).Represents S) :
    shards' j = (CMarmotta.update (shards j) (e.request.requests.filter (routedTo j))).1 := by
  cases hall : e.request.toAllBackends with
  | true =>
    obtain ⟨status, h⟩ := he.handlesWith hall
    obtain ⟨it, -, hshards', hit⟩ := h.treats hS
    rw [hshards', hit rfl]
  | false => cases he <;> first | rfl | cases hall

theorem ShardingService.Run.treats {shards shards' : Shards m} {trace : List (Exchange m)}
    (hrun : Run shards trace shards') {j : Fin (m + 1)} (hS : (shards j).Represents S) :
    shards' j = (trace.map fun e => e.request.requests.filter (routedTo j)).foldl
      (fun σ it => (CMarmotta.update σ it).1) (shards j) := by
  induction hrun generalizing S with
  | nil => rfl
  | cons he _ ih =>
    obtain ⟨S', hS', -⟩ := hS.update _
    rw [← he.treats hS] at hS'
    rw [ih hS', List.map_cons, List.foldl_cons, he.treats hS]

end Streams

/-! ## The requests about a statement -/

section Routed

variable {L : List UpdateRequest} {t : Statement} {j : Fin (m + 1)}

/-- Some request removes the statement. -/
def Removed (L : List UpdateRequest) (t : Statement) : Prop :=
  ∃ pattern, .stmtRemoved pattern ∈ L ∧ Selects pattern t

/-- The additions to the key of a known statement add the statement. -/
theorem eq_of_keyEffect (hK : KeysApart K) (ht : t ∈ K) (hL : ∀ s, .stmtAdded s ∈ L → s ∈ K)
    {r : UpdateRequest} (hr : r ∈ L) {s : Statement} (hs : keyEffect t r = some (some s)) :
    r = .stmtAdded t := by
  obtain ⟨rfl, hkey⟩ := keyEffect_eq_put_iff.mp hs
  rw [hK s (hL s hr) t ht hkey]

theorem Removed.of_lastWrite (h : lastWrite (keyEffect t) L = some none) : Removed L t := by
  obtain ⟨pre, r, post, rfl, hr, -⟩ := lastWrite_eq_some_iff.mp h
  obtain ⟨pattern, rfl, hsel⟩ := keyEffect_eq_delete_iff.mp hr
  exact ⟨pattern, by simp, hsel⟩

theorem not_removed_of_lastWrite (h : lastWrite (keyEffect t) L = none) : ¬ Removed L t := by
  rintro ⟨pattern, hmem, hsel⟩
  have hnone := lastWrite_eq_none_iff.mp h _ hmem
  rw [keyEffect, if_pos hsel] at hnone
  cases hnone

theorem added_of_lastWrite (hK : KeysApart K) (ht : t ∈ K) (hL : ∀ s, .stmtAdded s ∈ L → s ∈ K)
    {s : Statement} (h : lastWrite (keyEffect t) L = some (some s)) : s = t ∧ .stmtAdded t ∈ L := by
  obtain ⟨pre, r, post, rfl, hr, -⟩ := lastWrite_eq_some_iff.mp h
  obtain rfl := eq_of_keyEffect hK ht hL (by simp) hr
  rw [keyEffect, if_pos rfl] at hr
  cases hr
  exact ⟨rfl, by simp⟩

/-- A statement that is added and not removed is put there by the last request about it. -/
theorem lastWrite_of_added (hK : KeysApart K) (ht : t ∈ K) (hL : ∀ s, .stmtAdded s ∈ L → s ∈ K)
    (hadd : .stmtAdded t ∈ L) (hnot : ¬ Removed L t) :
    lastWrite (keyEffect t) L = some (some t) := by
  rcases hlast : lastWrite (keyEffect t) L with _ | _ | s
  · have hnone := lastWrite_eq_none_iff.mp hlast _ hadd
    rw [keyEffect, if_pos rfl] at hnone
    cases hnone
  · exact absurd (Removed.of_lastWrite hlast) hnot
  · rw [(added_of_lastWrite hK ht hL hlast).1]

/-- The backend that the hash selects gets all requests about a statement. -/
theorem lastWrite_routed_self (hK : KeysApart K) (ht : t ∈ K)
    (hL : ∀ s, .stmtAdded s ∈ L → s ∈ K) :
    lastWrite (keyEffect t) (L.filter (routedTo (bucket m t))) = lastWrite (keyEffect t) L := by
  refine lastWrite_filter fun r hr hrouted => ?_
  obtain ⟨s, rfl, hs⟩ := exists_of_not_routedTo hrouted
  refine if_neg fun hkey => hs ?_
  rw [hK s (hL s hr) t ht hkey]

theorem no_put_routed (hK : KeysApart K) (ht : t ∈ K) (hL : ∀ s, .stmtAdded s ∈ L → s ∈ K)
    (hj : j ≠ bucket m t) :
    ∀ r ∈ L.filter (routedTo j), ∀ s, keyEffect t r ≠ some (some s) := by
  intro r hr s hs
  obtain ⟨hmem, hrouted⟩ := List.mem_filter.mp hr
  rw [eq_of_keyEffect hK ht hL hmem hs] at hrouted
  exact hj (of_decide_eq_true hrouted).symm

/-- The other backends get the removals. -/
theorem lastWrite_routed_other (hK : KeysApart K) (ht : t ∈ K)
    (hL : ∀ s, .stmtAdded s ∈ L → s ∈ K) (hj : j ≠ bucket m t) (v : Option Statement)
    [Decidable (Removed L t)] :
    (lastWrite (keyEffect t) (L.filter (routedTo j))).getD v = if Removed L t then none else v := by
  classical
  have hremoved : (∃ r ∈ L.filter (routedTo j), keyEffect t r = some none) ↔ Removed L t := by
    constructor
    · rintro ⟨r, hr, hdelete⟩
      obtain ⟨pattern, rfl, hsel⟩ := keyEffect_eq_delete_iff.mp hdelete
      exact ⟨pattern, (List.mem_filter.mp hr).1, hsel⟩
    · rintro ⟨pattern, hmem, hsel⟩
      exact ⟨_, List.mem_filter.mpr ⟨hmem, rfl⟩, keyEffect_eq_delete_iff.mpr ⟨pattern, rfl, hsel⟩⟩
  rw [lastWrite_getD_of_deletes v (no_put_routed hK ht hL hj)]
  simp only [hremoved]

theorem not_undoes_routed (hK : KeysApart K) (ht : t ∈ K) (hL : ∀ s, .stmtAdded s ∈ L → s ∈ K)
    (hnot : ¬ Undoes L t) : ¬ Undoes (L.filter (routedTo j)) t := by
  rintro ⟨hlast, r, hr, s, hs⟩
  by_cases hj : j = bucket m t
  · subst hj
    rw [lastWrite_routed_self hK ht hL] at hlast
    exact hnot ⟨hlast, r, (List.mem_filter.mp hr).1, s, hs⟩
  · exact no_put_routed hK ht hL hj r hr s hs

end Routed

/-! ## What a run makes of a statement -/

/-- The requests of a run. -/
def requestsOf (trace : List (Exchange m)) : List UpdateRequest :=
  trace.flatMap fun e => e.request.requests

section Trace

variable {shards shards' : Shards m} {trace : List (Exchange m)} {S : Finset Statement}
  {t : Statement} {j : Fin (m + 1)}

omit [Platform] in
theorem Request.mem_added {request : Request} {s : Statement} :
    s ∈ request.added ↔ .stmtAdded s ∈ request.requests := by
  cases request with
  | update it => simp [Request.added, Request.requests, UpdateRequest.mem_added]
  | _ => simp [Request.added, Request.requests]

omit [Platform] in
theorem mem_requestsOf {r : UpdateRequest} :
    r ∈ requestsOf trace ↔ ∃ e ∈ trace, r ∈ e.request.requests := List.mem_flatMap

omit [Platform] in
theorem mem_of_requestsOf (hadded : ∀ e ∈ trace, ∀ s ∈ e.request.added, s ∈ K) :
    ∀ s, .stmtAdded s ∈ requestsOf trace → s ∈ K := by
  intro s hs
  obtain ⟨e, he, hs⟩ := mem_requestsOf.mp hs
  exact hadded e he s (Request.mem_added.mpr hs)

theorem stmtAt_run (hK : KeysApart K) (ht : t ∈ K) (hrun : Run shards trace shards')
    (hS : (shards j).Represents S) (hadded : ∀ e ∈ trace, ∀ s ∈ e.request.added, s ∈ K)
    (hnot : ∀ e ∈ trace, ¬ Undoes e.request.requests t) :
    stmtAt (shards' j) t =
      (lastWrite (keyEffect t) ((requestsOf trace).filter (routedTo j))).getD
        (stmtAt (shards j) t) := by
  have hundoes : ∀ it ∈ trace.map fun e => e.request.requests.filter (routedTo j),
      ¬ Undoes it t := by
    intro it hit
    obtain ⟨e, he, rfl⟩ := List.mem_map.mp hit
    refine not_undoes_routed hK ht (fun s hs => ?_) (hnot e he)
    exact hadded e he s (Request.mem_added.mpr hs)
  rw [hrun.treats hS, stmtAt_foldl_update hS hundoes, requestsOf, List.filter_flatMap,
    List.flatMap_def]

theorem stmtAt_serve {σ : Store} (hσ : σ.Represents S) {requests : List Request}
    (hnot : ∀ request ∈ requests, ¬ Undoes request.requests t) :
    stmtAt (LevelDBService.serve σ requests).1 t =
      (lastWrite (keyEffect t) (requests.flatMap Request.requests)).getD (stmtAt σ t) := by
  have hundoes : ∀ it ∈ requests.map Request.requests, ¬ Undoes it t := by
    intro it hit
    obtain ⟨request, hrequest, rfl⟩ := List.mem_map.mp hit
    exact hnot request hrequest
  rw [serve_eq_foldl hσ, stmtAt_foldl_update hσ hundoes, List.flatMap_def]

theorem ShardingService.Run.holdsOnly (hrun : Run shards trace shards')
    (hholds : ∀ j, (shards j).HoldsOnly (· ∈ K))
    (hadded : ∀ e ∈ trace, ∀ s ∈ e.request.added, s ∈ K) (j : Fin (m + 1)) :
    (shards' j).HoldsOnly (· ∈ K) := by
  obtain ⟨S, hS, hknown⟩ := hholds j
  rw [hrun.treats hS]
  refine Store.HoldsOnly.foldl_update ⟨S, hS, hknown⟩ fun it hit s hs => ?_
  obtain ⟨e, he, rfl⟩ := List.mem_map.mp hit
  exact hadded e he s (Request.mem_added.mpr (List.mem_filter.mp hs).1)

theorem serve_holdsOnly {P : Statement → Prop} {σ : Store} (hσ : σ.HoldsOnly P)
    {requests : List Request} (hadded : ∀ request ∈ requests, ∀ s ∈ request.added, P s) :
    (LevelDBService.serve σ requests).1.HoldsOnly P := by
  obtain ⟨S, hS, hknown⟩ := hσ
  rw [serve_eq_foldl hS]
  refine Store.HoldsOnly.foldl_update ⟨S, hS, hknown⟩ fun it hit s hs => ?_
  obtain ⟨request, hrequest, rfl⟩ := List.mem_map.mp hit
  exact hadded request hrequest s (Request.mem_added.mpr hs)

theorem serve_append {σ : Store} (hσ : σ.Represents S) (requests requests' : List Request) :
    (LevelDBService.serve σ (requests ++ requests')).1 =
      (LevelDBService.serve (LevelDBService.serve σ requests).1 requests').1 := by
  have hholds : σ.HoldsOnly fun _ => True := ⟨S, hσ, fun _ _ => trivial⟩
  have hmid : (LevelDBService.serve σ requests).1.HoldsOnly fun _ => True :=
    serve_holdsOnly hholds fun _ _ _ _ => trivial
  obtain ⟨S', hS', -⟩ := hmid
  rw [serve_eq_foldl hS', serve_eq_foldl hσ, serve_eq_foldl hσ, List.map_append, List.foldl_append]

end Trace

/-! ## Queries -/

theorem mem_getStatements_iff_stmtAt {σ : Store} {S : Finset Statement} (hσ : σ.Represents S)
    {pattern s : Statement} :
    s ∈ getStatements σ pattern ↔ Selects pattern s ∧ stmtAt σ s = some s := by
  rw [hσ.mem_getStatements, hσ.stmtAt_eq_some_iff, and_comm]
  simp

/-- A query through the proxy delivers a statement as often as backends have it. -/
theorem count_interleaves {shards : Shards m} (hrep : ∀ j, ∃ S, (shards j).Represents S)
    {pattern : Statement} {result : List Statement} (hresult : Interleaves
      (fun j => (LevelDBService.getStatements (shards j) pattern {}).written) result)
    (s : Statement) [Decidable (Selects pattern s)] :
    result.count s =
      if Selects pattern s then ∑ j, if stmtAt (shards j) s = some s then 1 else 0 else 0 := by
  have hcount : ∀ j, (getStatements (shards j) pattern).count s =
      if Selects pattern s ∧ stmtAt (shards j) s = some s then 1 else 0 := by
    intro j
    obtain ⟨S, hS⟩ := hrep j
    rw [(hS.nodup_getStatements pattern).count]
    simp only [mem_getStatements_iff_stmtAt hS]
  have hsum := congrArg (Multiset.count s) hresult.coe_eq_sum
  simp only [LevelDBService.getStatements, ServerWriter.written_forEach, List.nil_append,
    Multiset.count_sum', Multiset.coe_count, hcount] at hsum
  rw [hsum]
  split
  · rename_i hsel
    simp only [hsel, true_and]
  · rename_i hsel
    simp only [hsel, false_and, if_false, Finset.sum_const_zero]

/-- A store of known statements has at the key of a known statement nothing or the statement. -/
theorem stmtAt_eq_none_or {σ : Store} (hK : KeysApart K) (hσ : σ.HoldsOnly (· ∈ K)) {s : Statement}
    (hs : s ∈ K) : stmtAt σ s = none ∨ stmtAt σ s = some s := by
  obtain ⟨S, hS, hknown⟩ := hσ
  cases hat : stmtAt σ s with
  | none => exact Or.inl rfl
  | some u =>
    obtain ⟨hu, hkey⟩ := hS.stmtAt_eq_some_iff.mp hat
    rw [hK u (hknown u hu) s hs hkey]
    exact Or.inr rfl

section Count

variable {shards : Shards n} {rearranged shards' : Shards m} {S : Finset Statement} {σ : Store}
  {s : Statement}

/-- A rearranged backend has a statement at the new position of the backend that its hash selected
before, and nowhere else. -/
theorem Rearranged.exists_place (hK : KeysApart K) (hsharded : Sharded K S σ shards)
    (h : Rearranged shards rearranged) (hs : s ∈ K) :
    ∃ old, stmtAt (rearranged old) s = stmtAt σ s ∧ ∀ j, j ≠ old → stmtAt (rearranged j) s = none := by
  obtain ⟨place, -, hplace, hempty⟩ := h
  refine ⟨place (bucket n s), ?_, fun j hj => ?_⟩
  · rw [hplace, hsharded.stmtAt_eq hK hs]
  · by_cases hused : ∃ i, place i = j
    · obtain ⟨i, rfl⟩ := hused
      rw [hplace, Option.eq_none_iff_forall_ne_some]
      intro u hu
      obtain ⟨hmem, hkey⟩ := (hsharded.shard i).stmtAt_eq_some_iff.mp hu
      obtain ⟨hu, hi⟩ := Finset.mem_filter.mp hmem
      rw [hK u (hsharded.known u hu) s hs hkey] at hi
      exact hj (congrArg place hi.symm)
    · rw [hempty j fun i hi => hused ⟨i, hi⟩]
      rfl

theorem Rearranged.holdsOnly (hsharded : Sharded K S σ shards) (h : Rearranged shards rearranged)
    (j : Fin (m + 1)) : (rearranged j).HoldsOnly (· ∈ K) := by
  obtain ⟨place, -, hplace, hempty⟩ := h
  by_cases hused : ∃ i, place i = j
  · obtain ⟨i, rfl⟩ := hused
    rw [hplace]
    exact ⟨_, hsharded.shard i, fun u hu => hsharded.known u (Finset.mem_filter.mp hu).1⟩
  · rw [hempty j fun i hi => hused ⟨i, hi⟩]
    exact .empty _

/-- A statement that a backend has although its hash selects another one is added, and no request
removes it. -/
structure AddedAgain (rearranged : Shards m) (trace : List (Exchange m)) (s : Statement) : Prop where
  misplaced : ∃ j, j ≠ bucket m s ∧ s ∈ getStatements (rearranged j) {}
  added : ∃ e ∈ trace, s ∈ e.request.added
  kept : ∀ e ∈ trace, ¬ Removed e.request.requests s

omit [Platform] in
/-- How many backends have a statement, if one at most has it before, the one at `home` gets all
requests about it, and the others the removals. -/
theorem sum_holders {ι α : Type} [Fintype ι] [DecidableEq ι] [DecidableEq α]
    {before after : ι → Option α} {home old : ι} {w : Option (Option α)} {a : α} {removed : Prop}
    [Decidable removed]
    (hothers : ∀ j, j ≠ old → before j = none) (hhome : after home = w.getD (before home))
    (hafter : ∀ j, j ≠ home → after j = if removed then none else before j)
    (hold : before old = none ∨ before old = some a)
    (hremoved : w = some none → removed) (huntouched : w = none → ¬ removed)
    (hput : ∀ b, w = some (some b) → b = a) :
    ∑ j, (if after j = some a then 1 else 0) =
      if w.getD (before old) = some a then
        if old ≠ home ∧ before old = some a ∧ w = some (some a) ∧ ¬ removed then 2 else 1
      else 0 := by
  by_cases heq : old = home
  · subst heq
    rw [Fintype.sum_eq_single old, hhome]
    · simp
    · intro j hj
      rw [hafter j hj, hothers j hj, ite_self, if_neg (by simp)]
  · rw [Fintype.sum_eq_add old home heq, hhome, hafter old heq, hothers home (Ne.symm heq)]
    · rcases w with _ | _ | b
      · simp [huntouched rfl]
      · simp [hremoved rfl]
      · obtain rfl := hput b rfl
        by_cases hrem : removed
        · simp [hrem]
        · rcases hold with h | h <;> simp [hrem, h, heq]
    · rintro j ⟨hjold, hjhome⟩
      rw [hafter j hjhome, hothers j hjold, ite_self, if_neg (by simp)]

theorem addedAgain_iff {trace : List (Exchange m)} (hK : KeysApart K)
    (hholds : ∀ j, (rearranged j).HoldsOnly (· ∈ K)) (hs : s ∈ K)
    (hadded : ∀ e ∈ trace, ∀ s ∈ e.request.added, s ∈ K) {old : Fin (m + 1)}
    (hothers : ∀ j, j ≠ old → stmtAt (rearranged j) s = none) :
    AddedAgain rearranged trace s ↔ old ≠ bucket m s ∧ stmtAt (rearranged old) s = some s ∧
      lastWrite (keyEffect s) (requestsOf trace) = some (some s) ∧ ¬ Removed (requestsOf trace) s := by
  have hall : ∀ j, s ∈ getStatements (rearranged j) {} ↔ stmtAt (rearranged j) s = some s := by
    intro j
    obtain ⟨S, hS, -⟩ := hholds j
    rw [← List.mem_toFinset, getStatements_all hS, hS.stmtAt_eq_some_iff]
    simp
  have hL := mem_of_requestsOf hadded
  constructor
  · rintro ⟨⟨j, hj, hmem⟩, ⟨e, he, hadd⟩, hkept⟩
    have hjold : j = old := by
      by_contra hne
      rw [hall, hothers j hne] at hmem
      cases hmem
    subst hjold
    have hnot : ¬ Removed (requestsOf trace) s := by
      rintro ⟨pattern, hp, hsel⟩
      obtain ⟨e, he, hp⟩ := mem_requestsOf.mp hp
      exact hkept e he ⟨pattern, hp, hsel⟩
    exact ⟨hj, (hall j).mp hmem, lastWrite_of_added hK hs hL
      (mem_requestsOf.mpr ⟨e, he, Request.mem_added.mp hadd⟩) hnot, hnot⟩
  · rintro ⟨hne, hold, hlast, hnot⟩
    obtain ⟨e, he, hadd⟩ := mem_requestsOf.mp (added_of_lastWrite hK hs hL hlast).2
    refine ⟨⟨old, hne, (hall old).mpr hold⟩, ⟨e, he, Request.mem_added.mpr hadd⟩, ?_⟩
    rintro e he ⟨pattern, hp, hsel⟩
    exact hnot ⟨pattern, mem_requestsOf.mpr ⟨e, he, hp⟩, hsel⟩

/-- How many backends have a statement after the requests. -/
theorem rearranged_holders (hK : KeysApart K) (hsharded : Sharded K S σ shards)
    (hrearranged : Rearranged shards rearranged) {trace : List (Exchange m)}
    (hrun : Run rearranged trace shards') (hadded : ∀ e ∈ trace, ∀ s ∈ e.request.added, s ∈ K)
    (hnot : ∀ e ∈ trace, ¬ Undoes e.request.requests s) (hs : s ∈ K)
    [Decidable (AddedAgain rearranged trace s)] :
    ∑ j, (if stmtAt (shards' j) s = some s then 1 else 0) =
      if stmtAt (LevelDBService.serve σ (trace.map Exchange.request)).1 s = some s then
        if AddedAgain rearranged trace s then 2 else 1
      else 0 := by
  classical
  obtain ⟨old, hold, hothers⟩ := hrearranged.exists_place hK hsharded hs
  have hholds := hrearranged.holdsOnly hsharded
  have hL := mem_of_requestsOf hadded
  have hafter : ∀ j, stmtAt (shards' j) s =
      (lastWrite (keyEffect s) ((requestsOf trace).filter (routedTo j))).getD
        (stmtAt (rearranged j) s) := by
    intro j
    obtain ⟨S', hS', -⟩ := hholds j
    exact stmtAt_run hK hs hrun hS' hadded hnot
  have hserve : stmtAt (LevelDBService.serve σ (trace.map Exchange.request)).1 s =
      (lastWrite (keyEffect s) (requestsOf trace)).getD (stmtAt σ s) := by
    rw [stmtAt_serve hsharded.single, List.flatMap_map]
    · rfl
    · intro request hrequest
      obtain ⟨e, he, rfl⟩ := List.mem_map.mp hrequest
      exact hnot e he
  rw [hserve, ← hold]
  simp only [addedAgain_iff hK hholds hs hadded hothers]
  refine sum_holders hothers ?_ (fun j hj => ?_)
    (stmtAt_eq_none_or hK (hholds old) hs) Removed.of_lastWrite not_removed_of_lastWrite
    fun u hu => (added_of_lastWrite hK hs hL hu).1
  · rw [hafter, lastWrite_routed_self hK hs hL]
  · rw [hafter, lastWrite_routed_other hK hs hL hj]

/-- After any requests through the proxy, the backends are rearranged, and the proxy serves further
requests, with no stream that undoes what it does. Then a query delivers the statements that a single
backend delivers after all the requests: twice those that were added again while they were misplaced
and that no request has removed, and the others once. -/
theorem rearranged_counts (hK : Known K) {trace : List (Exchange n)} {trace' : List (Exchange m)}
    (hrun : Run (fun _ => Store.empty) trace shards)
    (hadded : ∀ e ∈ trace, ∀ s ∈ e.request.added, s ∈ K) (hrearranged : Rearranged shards rearranged)
    (hrun' : Run rearranged trace' shards') (hadded' : ∀ e ∈ trace', ∀ s ∈ e.request.added, s ∈ K)
    (hnot : ∀ e ∈ trace', ∀ t, ¬ Undoes e.request.requests t) {pattern : Statement}
    {result : List Statement} (hresult : Interleaves
      (fun j => (LevelDBService.getStatements (shards' j) pattern {}).written) result)
    (s : Statement) [Decidable (AddedAgain rearranged trace' s)] :
    result.count s =
      if s ∈ getStatements (LevelDBService.serve Store.empty
          (trace.map Exchange.request ++ trace'.map Exchange.request)).1 pattern then
        if AddedAgain rearranged trace' s then 2 else 1
      else 0 := by
  classical
  obtain ⟨⟨S, hsharded⟩, -⟩ := Sharded.run hK.keysApart hrun (Sharded.empty K) hadded
  have hholds := hrearranged.holdsOnly hsharded
  have hholds' := hrun'.holdsOnly hholds hadded'
  have hsingle : (LevelDBService.serve (LevelDBService.serve Store.empty
      (trace.map Exchange.request)).1 (trace'.map Exchange.request)).1.HoldsOnly (· ∈ K) := by
    refine serve_holdsOnly ⟨S, hsharded.single, hsharded.known⟩ fun request hrequest => ?_
    obtain ⟨e, he, rfl⟩ := List.mem_map.mp hrequest
    exact hadded' e he
  obtain ⟨U, hU, hUknown⟩ := hsingle
  rw [serve_append Store.Represents.empty,
    count_interleaves (fun j => (hholds' j).imp fun _ h => h.1) hresult]
  simp only [mem_getStatements_iff_stmtAt hU]
  by_cases hs : s ∈ K
  · rw [rearranged_holders hK.keysApart hsharded hrearranged hrun' hadded' (fun e he => hnot e he s) hs]
    by_cases hsel : Selects pattern s
    · simp only [hsel, true_and, if_true]
    · simp only [hsel, false_and, if_false]
  · have hnone : ∀ j, stmtAt (shards' j) s ≠ some s := by
      intro j hat
      obtain ⟨S', hS', hknown⟩ := hholds' j
      exact hs (hknown s (hS'.stmtAt_eq_some_iff.mp hat).1)
    have hsingle : stmtAt (LevelDBService.serve (LevelDBService.serve Store.empty
        (trace.map Exchange.request)).1 (trace'.map Exchange.request)).1 s ≠ some s :=
      fun hat => hs (hUknown s (hU.stmtAt_eq_some_iff.mp hat).1)
    simp [hnone, hsingle]

end Count

end Rearranged

/-- Two backends that have changed places. -/
def swapped (shards : Shards 1) : Shards 1 := ![shards 1, shards 0]

theorem rearranged_swapped (shards : Shards 1) : Rearranged shards (swapped shards) := by
  refine ⟨![1, 0], by decide, Fin.forall_fin_two.mpr ⟨rfl, rfl⟩, Fin.forall_fin_two.mpr ⟨?_, ?_⟩⟩
  · exact fun h => absurd rfl (h 1)
  · exact fun h => absurd rfl (h 0)

/-- One of two statements is added again after the backends have changed places. -/
def addAgain : Exchange 1 where
  request := .addStatements [.ofUris "urn:a" "urn:p" "urn:o"]
  response := .count (ShardingService.addStatements (swapped twoShards)
    [.ofUris "urn:a" "urn:p" "urn:o"]).2

theorem addedAgain_addAgain :
    AddedAgain (swapped twoShards) [addAgain] (.ofUris "urn:a" "urn:p" "urn:o") := by
  refine ⟨by decide +kernel, ⟨addAgain, List.mem_singleton_self _, by decide⟩, ?_⟩
  rintro e he ⟨pattern, hp, -⟩
  obtain rfl := List.mem_singleton.mp he
  simp [addAgain, Request.requests] at hp

theorem rearranged_counts_swapped :
    ∃ shards result, Run (swapped twoShards) [addAgain] shards ∧
      Interleaves (fun j => (LevelDBService.getStatements (shards j) {} {}).written) result ∧
      result.count (.ofUris "urn:a" "urn:p" "urn:o") = 2 := by
  classical
  have hknown : Known twoStatements := ⟨by decide, by decide +kernel⟩
  have hrun : Run (fun _ => Store.empty) _ twoShards := .cons (.addStatements twoStatements) (.nil _)
  have hrun' : Run (swapped twoShards) [addAgain] _ := .cons (.addStatements _) (.nil _)
  obtain ⟨result, hresult⟩ := exists_interleaves fun j => (LevelDBService.getStatements
    ((ShardingService.addStatements (swapped twoShards) [.ofUris "urn:a" "urn:p" "urn:o"]).1 j)
    {} {}).written
  refine ⟨_, result, hrun', hresult, ?_⟩
  rw [rearranged_counts hknown hrun ?_ (rearranged_swapped twoShards) hrun' ?_ ?_ hresult, if_pos ?_,
    if_pos addedAgain_addAgain]
  · decide +kernel
  · rintro e he s hs
    obtain rfl := List.mem_singleton.mp he
    exact hs
  · rintro e he s hs
    obtain rfl := List.mem_singleton.mp he
    exact List.mem_of_mem_take (i := 1) hs
  · rintro e he t hundoes
    obtain rfl := List.mem_singleton.mp he
    obtain ⟨pattern, hp⟩ := hundoes.exists_removed
    simp [addAgain, Request.requests] at hp

end CMarmotta
