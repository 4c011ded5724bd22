import CMarmotta.Persistence.Proofs.IsolationProofs
import CMarmotta.Sharding.Concurrent
import CMarmotta.Sharding.Proofs.ShardedDatasetProofs

/-!
# Clients that change different statements

Each backend interleaves the calls of the clients in its own way. If the calls are about different
keys, no backend can tell the order of the calls, so the backends need not agree on one: together they
hold what a single backend holds that treats the calls one after another (`servesAll_serializable`).
-/

namespace CMarmotta

open Threads

section Serial

variable [Platform] {n : Nat} {ι : Type}

open ShardingService

/-- A backend gets the requests that are routed to it. -/
theorem requests_forwarded (c : Call) (i : Fin (n + 1)) :
    (c.forwarded i).op.requests = c.op.requests.filter (routedTo i) := by
  cases c with
  | addStatements it =>
    simp only [Call.forwarded, Call.op, Op.requests, foldl_write_bucket, List.nil_append,
      List.filter_map]
    rfl
  | removeStatements pattern => rfl
  | update it => simp only [Call.forwarded, Call.op, Op.requests, foldl_route, List.nil_append]

theorem Spares.forwarded {t : Statement} {c : Call} (h : Spares t c.op.requests) (i : Fin (n + 1)) :
    Spares t (c.forwarded i).op.requests := by
  rw [requests_forwarded]
  exact fun r hr => h r (List.mem_filter.mp hr).1

/-- The backends stay in step with a single one when calls are made one after another. -/
theorem Sharded.serial {K : List Statement} {S : Finset Statement} {σ : Store} {shards : Shards n}
    {calls : ι → Call} (hK : KeysApart K) (h : Sharded K S σ shards)
    (hcalls : ∀ j s, .stmtAdded s ∈ (calls j).op.requests → s ∈ K) (order : List ι) :
    ∃ S', Sharded K S' (CMarmotta.serial calls σ order)
      fun i => CMarmotta.serial (fun j => (calls j).forwarded i) (shards i) order := by
  induction order generalizing S σ shards with
  | nil => exact ⟨S, h⟩
  | cons j order ih =>
    obtain ⟨S', hS'⟩ := h.update hK (hcalls j)
    have hforwarded : ∀ i, (CMarmotta.update (shards i) ((calls j).op.requests.filter (routedTo i))).1 =
        ((calls j).forwarded i).op.apply (shards i) := by
      intro i
      rw [← requests_forwarded, ← Op.apply_eq_update]
    rw [← Op.apply_eq_update, funext hforwarded] at hS'
    exact ih hS'

variable [DecidableEq ι]

/-- After any requests through the proxy, any number of clients add and remove statements at the same
time. If their calls share no key, the backends hold in the end what a single backend holds, after the
same requests and the calls one after another in any order: each statement where its hash puts it. A
query through the proxy is answered as by the single backend. -/
theorem servesAll_serializable {K : List Statement} (hK : Known K) {trace : List (Exchange n)}
    {shards shards' : Shards n} (hrun : Run (fun _ => Store.empty) trace shards)
    (htrace : ∀ e ∈ trace, ∀ s ∈ e.request.added, s ∈ K) {calls : ι → Call}
    (hcalls : ∀ j s, .stmtAdded s ∈ (calls j).op.requests → s ∈ K)
    (hapart : ∀ t i j, i ≠ j → (∀ r ∈ (calls i).op.requests, keyEffect t r = none) ∨
      ∀ r ∈ (calls j).op.requests, keyEffect t r = none)
    (hserves : ServesAll calls shards shards') {order : List ι} (hnodup : order.Nodup)
    (hall : ∀ j, j ∈ order) :
    (∃ S, (serial calls (LevelDBService.serve Store.empty (trace.map Exchange.request)).1
        order).Represents S ∧ ∀ i, (shards' i).Represents (S.filter fun s => bucket n s = i)) ∧
      ∀ pattern result,
        Interleaves (fun i => (LevelDBService.getStatements (shards' i) pattern {}).written) result →
        result.Perm (getStatements (serial calls
          (LevelDBService.serve Store.empty (trace.map Exchange.request)).1 order) pattern) := by
  obtain ⟨⟨S, hS⟩, -⟩ := Sharded.run hK.keysApart hrun (Sharded.empty K) htrace
  obtain ⟨S', hS'⟩ := hS.serial hK.keysApart hcalls order
  have hindex : ∀ i idx, (shards' i).index idx =
      (serial (fun j => (calls j).forwarded i) (shards i) order).index idx := by
    intro i idx
    obtain ⟨events, s, hexec, hdone, hstore⟩ := hserves i
    rw [← hstore]
    refine index_exec_serial (hS.shard i) (fun t j k hjk => ?_) hexec hdone hnodup hall idx
    exact (hapart t j k hjk).imp (fun h => Spares.forwarded h i) fun h => Spares.forwarded h i
  refine ⟨⟨S', hS'.single, fun i idx => ?_⟩, fun pattern result hresult => ?_⟩
  · rw [hindex i idx]
    exact hS'.shard i idx
  · have hcoe := hresult.coe_eq_sum
    simp only [LevelDBService.getStatements, ServerWriter.written_forEach, List.nil_append,
      fun i => getStatements_congr (hindex i (indexType pattern)), hS'.sum_getStatements] at hcoe
    exact Multiset.coe_eq_coe.mp hcoe

end Serial

/-- Two backends after the proxy has served one request. -/
def shardsWithOne : Shards 1 :=
  (ShardingService.addStatements (fun _ => Store.empty) [.ofUris "urn:s" "urn:p" "urn:o"]).1

theorem servesAll_serializable_removeAndAdd :
    ∃ shards' : Shards 1,
      ServesAll removeAndAdd shardsWithOne shards' ∧
      ∃ S, (serial removeAndAdd
          (LevelDBService.serve Store.empty [.addStatements [.ofUris "urn:s" "urn:p" "urn:o"]]).1
          [true, false]).Represents S ∧
        ∀ i, (shards' i).Represents (S.filter fun s => ShardingService.bucket 1 s = i) := by
  -- the backend that is not asked to add the statement has nothing to collect for it
  have hexec : ∀ i : Fin 2, ((System.start (shardsWithOne i)
      fun j => (removeAndAdd j).forwarded i).exec
        (if ShardingService.bucket 1 (.ofUris "urn:t" "urn:p" "urn:o") = i then interleaved
          else interleaved.tail)).map System.returned = some true := by decide +kernel
  choose s hs hret using fun i => Option.map_eq_some_iff.mp (hexec i)
  have hserves : ServesAll removeAndAdd shardsWithOne fun i => (s i).store :=
    fun i => ⟨_, s i, hs i, System.done_of_returned (hret i), rfl⟩
  have hknown : Known [.ofUris "urn:s" "urn:p" "urn:o", .ofUris "urn:t" "urn:p" "urn:o"] :=
    ⟨by decide, by decide +kernel⟩
  refine ⟨_, hserves, (servesAll_serializable hknown (.cons (.addStatements _) (.nil _)) ?_ ?_ ?_
    hserves (by decide) (by decide)).1⟩
  · rintro e he s hs
    obtain rfl := List.mem_singleton.mp he
    cases List.mem_singleton.mp hs
    exact List.mem_cons_self
  · rintro (_ | _) s hs
    · cases List.mem_singleton.mp hs
    · cases List.mem_singleton.mp hs
      exact List.mem_cons_of_mem _ List.mem_cons_self
  · rintro t (_ | _) (_ | _) hij
    · exact absurd rfl hij
    · exact apart_removeAndAdd t
    · exact (apart_removeAndAdd t).symm
    · exact absurd rfl hij

end CMarmotta
