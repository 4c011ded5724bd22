import CMarmotta.Sharding.Proofs.ShardingProofs
import CMarmotta.Persistence.Proofs.RemovalStatisticsProofs

/-!
# The counts of an update through the proxy

A backend counts the statements and namespaces of the requests it gets, and for a removal the
statements it finds. The proxy adds up all four counts, so a request that goes to all backends and
is counted by each, an `ns_added`, is counted as often as there are backends
(`update_response_eq_iff`).
-/

namespace CMarmotta

open KV

section Statistics

variable [Platform] {n : Nat}

open ShardingService

/-! ## All backends -/

/-- Where the backends together count each request `m` times, they count the stream `m` times. -/
theorem sum_length_routed {α : Type} {f : Fin (n + 1) → UpdateRequest → List α}
    {g : UpdateRequest → List α} {m : Nat}
    (h : ∀ r, ∑ i : Fin (n + 1), (if routedTo i r then (f i r).length else 0) = m * (g r).length)
    (it : List UpdateRequest) :
    ∑ i, ((it.filter (routedTo i)).flatMap (f i)).length = m * (it.flatMap g).length := by
  induction it with
  | nil => simp
  | cons r it ih =>
    have hcons : ∀ i, (((r :: it).filter (routedTo i)).flatMap (f i)).length =
        (if routedTo i r then (f i r).length else 0) +
          ((it.filter (routedTo i)).flatMap (f i)).length := by
      intro i
      cases hr : routedTo i r <;> simp [hr]
    simp only [hcons, Finset.sum_add_distrib, h, ih]
    rw [List.flatMap_cons, List.length_append, Nat.mul_add]

theorem sum_added (it : List UpdateRequest) :
    ∑ i : Fin (n + 1), ((it.filter (routedTo i)).flatMap UpdateRequest.added).length =
      (it.flatMap UpdateRequest.added).length := by
  rw [sum_length_routed (g := UpdateRequest.added) (m := 1), Nat.one_mul]
  intro r
  -- An added statement goes to one backend, and no other request counts here.
  cases r with
  | stmtAdded s => simp [routedTo, UpdateRequest.added]
  | stmtRemoved pattern => simp [UpdateRequest.added]
  | nsAdded ns => simp [UpdateRequest.added]
  | nsRemoved pattern => simp [UpdateRequest.added]
  | notSet => simp [UpdateRequest.added]

theorem sum_addedNs (it : List UpdateRequest) :
    ∑ i : Fin (n + 1), ((it.filter (routedTo i)).flatMap UpdateRequest.addedNs).length =
      (n + 1) * (it.flatMap UpdateRequest.addedNs).length := by
  refine sum_length_routed (fun r => ?_) it
  cases r with
  | stmtAdded s => simp [UpdateRequest.addedNs]
  | stmtRemoved pattern => simp [UpdateRequest.addedNs]
  | nsAdded ns => simp [routedTo, UpdateRequest.addedNs]
  | nsRemoved pattern => simp [UpdateRequest.addedNs]
  | notSet => simp [UpdateRequest.addedNs]

theorem Sharded.sum_removedBy {K : List Statement} {S : Finset Statement} {σ : Store}
    {shards : Shards n} (h : Sharded K S σ shards) (it : List UpdateRequest) :
    ∑ i, ((it.filter (routedTo i)).flatMap (removedBy (shards i))).length =
      (it.flatMap (removedBy σ)).length := by
  rw [sum_length_routed (g := removedBy σ) (m := 1), Nat.one_mul]
  intro r
  cases r with
  | stmtAdded s => simp [removedBy]
  | stmtRemoved pattern => simp [routedTo, removedBy, h.sum_length_getStatements]
  | nsAdded ns => simp [removedBy]
  | nsRemoved pattern => simp [removedBy]
  | notSet => simp [removedBy]

omit [Platform] in
theorem addedNs_eq_nil_iff {it : List UpdateRequest} :
    it.flatMap UpdateRequest.addedNs = [] ↔ ∀ ns, .nsAdded ns ∉ it := by
  rw [List.flatMap_eq_nil_iff]
  constructor
  · intro h ns hns
    exact absurd (h _ hns) (by simp [UpdateRequest.addedNs])
  · intro h r hr
    cases r with
    | nsAdded ns => exact absurd hr (h ns)
    | stmtAdded s => rfl
    | stmtRemoved pattern => rfl
    | nsRemoved pattern => rfl
    | notSet => rfl

/-- Over backends that hold the data of a single one, the proxy reports the counts of the single one
exactly when there is one backend or the stream adds no namespace. -/
theorem update_response_eq_iff {K : List Statement} {S : Finset Statement} {σ : Store}
    {shards : Shards n} (h : Sharded K S σ shards) (it : List UpdateRequest) :
    (ShardingService.update shards it).2 = (LevelDBService.update σ { messages := it }).2 ↔
      n = 0 ∨ ∀ ns, .nsAdded ns ∉ it := by
  have hmul : (n + 1) * (it.flatMap UpdateRequest.addedNs).length =
      (it.flatMap UpdateRequest.addedNs).length ↔ n = 0 ∨ ∀ ns, .nsAdded ns ∉ it := by
    rw [← addedNs_eq_nil_iff, ← List.length_eq_zero_iff, Nat.succ_mul]
    constructor
    · intro hk
      exact Nat.mul_eq_zero.mp (by omega)
    · rintro (rfl | hk)
      · rw [Nat.zero_mul, Nat.zero_add]
      · rw [hk, Nat.mul_zero]
  simp only [ShardingService.update, LevelDBService.update, ReaderIterator.toList_ofReader,
    foldl_route, List.nil_append, stats_update, sumResponses_eq_sum, sum_added, sum_addedNs,
    h.sum_removedBy, Finset.sum_const_zero, UpdateResponse.mk.injEq, true_and, and_true]
  exact hmul

end Statistics

open ShardingService

/-- Two backends with one statement each, and a stream that removes one of them. -/
theorem update_response_eq_of_removal :
    (ShardingService.update twoShards
        [.stmtRemoved { subject := some (.uri ⟨"urn:a"⟩) }]).2 =
      (LevelDBService.update (CMarmotta.addStatements Store.empty twoStatements).1 {
        messages := [.stmtRemoved { subject := some (.uri ⟨"urn:a"⟩) }] }).2 := by
  have hcf : CollisionFree twoStatements := by decide +kernel
  have hK : KeysApart twoStatements := fun s hs t ht =>
    hcf.key_inj (by decide) .SPOC hs ht
  obtain ⟨⟨S, hS⟩, -⟩ := (Sharded.empty (n := 1) twoStatements).addStatements hK fun s hs => hs
  exact (update_response_eq_iff hS _).mpr (Or.inr (by simp))

/-- Two empty backends: the proxy reports two namespaces for a stream that adds one. -/
theorem update_response_counts_twice :
    Sharded [] ∅ Store.empty (fun _ : Fin 2 => Store.empty) ∧
      (ShardingService.update (fun _ : Fin 2 => Store.empty)
          [.nsAdded ⟨"ex", "http://example.org/"⟩]).2 ≠
        (LevelDBService.update Store.empty {
          messages := [.nsAdded ⟨"ex", "http://example.org/"⟩] }).2 := by
  refine ⟨Sharded.empty [], ?_⟩
  simp only [ShardingService.update, LevelDBService.update, ReaderIterator.toList_ofReader]
  decide +kernel

end CMarmotta
