import CMarmotta.Sharding.Faults
import CMarmotta.Sharding.Proofs.ShardingProofs

/-!
# Which failures the proxy reports

The requests served by `Fanout` return OK only if all backends did. The others return OK whatever
happens, so they lose data silently exactly when something fails (`noSilentLoss_iff`).
-/

namespace CMarmotta

open Threads

namespace CallResult

theorem eq_ok_of_status {c : CallResult} (h : c.status.code = .OK) : c = .ok := by
  cases c with
  | ok => rfl
  | failed status hne delivered => exact absurd h hne

end CallResult

section Faults

variable [Platform] {n : Nat}

open ShardingService

omit [Platform] in
theorem firstError_code_eq_ok_iff {statuses : List Status} :
    (firstError statuses).code = .OK ↔ ∀ s ∈ statuses, s.code = .OK := by
  induction statuses with
  | nil => simp [firstError, Status.ok]
  | cons s statuses ih =>
    rw [firstError]
    by_cases hs : s.code = .OK
    · simp [hs, ih]
    · simp [hs]

omit [Platform] in
/-- `Fanout` returns OK only if all its calls did. -/
theorem fanoutStatus_code_eq_ok_iff (faults : Faults n) :
    (fanoutStatus faults).code = .OK ↔ ∀ i, (faults.calls i).status.code = .OK := by
  rw [fanoutStatus, firstError_code_eq_ok_iff]
  simp

/-! ## Without failures -/

theorem addNamespacesWith_of_ok {faults : Faults n} (h : ∀ i, faults.calls i = .ok)
    (shards : Shards n) (it : List Namespace) :
    addNamespacesWith faults shards it =
      ((ShardingService.addNamespaces shards it).1, (ShardingService.addNamespaces shards it).2,
        .ok) := by
  simp only [addNamespacesWith, h, CallResult.stream, ShardingService.addNamespaces]
  rfl

theorem addStatementsWith_of_ok {faults : Faults n} (h : ∀ i, faults.calls i = .ok)
    (shards : Shards n) (it : List Statement) :
    addStatementsWith faults shards it =
      ((ShardingService.addStatements shards it).1, (ShardingService.addStatements shards it).2,
        .ok) := by
  simp only [addStatementsWith, h, CallResult.stream, ShardingService.addStatements]

theorem updateWith_of_ok {faults : Faults n} (h : ∀ i, faults.calls i = .ok)
    (shards : Shards n) (it : List UpdateRequest) :
    updateWith faults shards it =
      ((ShardingService.update shards it).1, (ShardingService.update shards it).2, .ok) := by
  simp only [updateWith, h, CallResult.stream, ShardingService.update]

omit [Platform] in
theorem fanoutWith_of_ok {faults : Faults n} (h : ∀ i, faults.calls i = .ok)
    (handler : Store → Store × Nat) (shards : Shards n) (i : Fin (n + 1)) :
    fanoutWith faults handler shards i = handler (shards i) := by
  rw [fanoutWith, h, CallResult.unary]

theorem length_getStatements_written (shards : Shards n) (pattern : Statement) (i : Fin (n + 1)) :
    (LevelDBService.getStatements (shards i) pattern {}).written.length =
      (getStatements (shards i) pattern).length := by
  simp [LevelDBService.getStatements, ServerWriter.written_forEach]

/-- All threads together write the statements of all backends. -/
theorem length_interleaves {shards : Shards n} {pattern : Statement} {result : List Statement}
    (h : Interleaves (fun i => (LevelDBService.getStatements (shards i) pattern {}).written)
      result) :
    result.length = sumResponses fun i => (getStatements (shards i) pattern).length := by
  have hcard := congrArg Multiset.card h.coe_eq_sum
  rw [Multiset.card_sum] at hcard
  simpa only [Multiset.coe_card, length_getStatements_written, sumResponses_eq_sum] using hcard

/-- If no call fails and the client gets all statements, a request is served as without failures. -/
theorem ShardingService.HandlesWith.handles {faults : Faults n} {shards shards' : Shards n}
    {e : Exchange n} {status : Status} (he : HandlesWith faults shards e status shards')
    (hok : ∀ i, faults.calls i = .ok) (hclient : faults.reachesClient shards e.request) :
    Handles shards e shards' := by
  cases he with
  | addNamespaces it =>
    rw [addNamespacesWith_of_ok hok]
    exact .addNamespaces it
  | addStatements it =>
    rw [addStatementsWith_of_ok hok]
    exact .addStatements it
  | update it =>
    rw [updateWith_of_ok hok]
    exact .update it
  | @getStatements pattern result h =>
    simp only [hok, CallResult.arrive] at h
    have hresult : (faults.capacity.map result.take).getD result = result := by
      cases hc : faults.capacity with
      | none => rfl
      | some capacity =>
        have hle := hclient capacity hc
        rw [← length_interleaves h] at hle
        exact List.take_of_length_le hle
    rw [hresult]
    exact .getStatements pattern h
  | removeStatements pattern h =>
    simp only [fanoutWith_of_ok hok] at h ⊢
    exact .removeStatements pattern h
  | clear contexts h =>
    simp only [fanoutWith_of_ok hok] at h ⊢
    exact .clear contexts h
  | size contexts h =>
    simp only [fanoutWith_of_ok hok] at h ⊢
    exact .size contexts h

/-! ## With failures -/

/-- A request that is not served by `Fanout` can return OK whatever fails. -/
theorem exists_handlesWith_ok (faults : Faults n) (shards : Shards n) {request : Request}
    (hall : request.toAllBackends = true) (hfan : request.isFanout = false) :
    ∃ e shards', HandlesWith faults shards e .ok shards' ∧ e.request = request := by
  cases request with
  | addNamespaces it => exact ⟨_, _, .addNamespaces it, rfl⟩
  | addStatements it => exact ⟨_, _, .addStatements it, rfl⟩
  | update it => exact ⟨_, _, .update it, rfl⟩
  | getStatements pattern =>
    obtain ⟨l, hl⟩ := exists_interleaves fun i => (faults.calls i).arrive
      (LevelDBService.getStatements (shards i) pattern {}).written
    exact ⟨_, _, .getStatements pattern hl, rfl⟩
  | getNamespace pattern => cases hall
  | getNamespaces => cases hall
  | removeStatements pattern => cases hfan
  | clear contexts => cases hfan
  | size contexts => cases hfan

theorem status_of_handlesWith {faults : Faults n} {shards shards' : Shards n} {e : Exchange n}
    {status : Status} (he : HandlesWith faults shards e status shards')
    (hfan : e.request.isFanout = true) : status = fanoutStatus faults := by
  cases he with
  | addNamespaces it => cases hfan
  | addStatements it => cases hfan
  | update it => cases hfan
  | getStatements pattern h => cases hfan
  | removeStatements pattern h => rfl
  | clear contexts h => rfl
  | size contexts h => rfl

/-- Answers of `GetStatements` that are right were not cut off. -/
theorem reachesClient_of_noSilentLoss {faults : Faults n} {shards : Shards n} {request : Request}
    (hok : ∀ i, faults.calls i = .ok) (h : NoSilentLoss faults shards request) :
    faults.reachesClient shards request := by
  cases request with
  | getStatements pattern =>
    intro capacity hc
    obtain ⟨l, hl⟩ := exists_interleaves fun i =>
      (LevelDBService.getStatements (shards i) pattern {}).written
    have hwith : HandlesWith faults shards {
        request := .getStatements pattern
        response := .statements (l.take capacity) } .ok shards := by
      have harrive : Interleaves (fun i => (faults.calls i).arrive
          (LevelDBService.getStatements (shards i) pattern {}).written) l := by
        simpa only [hok, CallResult.arrive] using hl
      have hcut := HandlesWith.getStatements pattern harrive
      rw [hc] at hcut
      exact hcut
    obtain ⟨-, hhandles⟩ := h _ _ _ hwith rfl rfl
    cases hhandles with
    | getStatements _ hcut =>
      rw [← length_interleaves hcut]
      exact List.length_take_le capacity l
  | addNamespaces it => trivial
  | addStatements it => trivial
  | update it => trivial
  | getNamespace pattern => trivial
  | getNamespaces => trivial
  | removeStatements pattern => trivial
  | clear contexts => trivial
  | size contexts => trivial

/-- The proxy loses nothing silently exactly when `Fanout` serves the request, or no call to a
backend fails and the client gets all statements. -/
theorem noSilentLoss_iff (faults : Faults n) (shards : Shards n) {request : Request}
    (hall : request.toAllBackends = true) :
    NoSilentLoss faults shards request ↔
      request.isFanout = true ∨
        ((∀ i, (faults.calls i).status.code = .OK) ∧ faults.reachesClient shards request) := by
  constructor
  · intro h
    cases hfan : request.isFanout with
    | true => exact Or.inl rfl
    | false =>
      obtain ⟨e, shards', he, hreq⟩ := exists_handlesWith_ok faults shards hall hfan
      have hcodes := (h e _ shards' he hreq rfl).1
      have hok := fun i => CallResult.eq_ok_of_status (hcodes i)
      exact Or.inr ⟨hcodes, reachesClient_of_noSilentLoss hok h⟩
  · rintro h e status shards' he rfl hstatus
    have hfaults : (∀ i, (faults.calls i).status.code = .OK) ∧
        faults.reachesClient shards e.request := by
      rcases h with hfan | h
      · rw [status_of_handlesWith he hfan, fanoutStatus_code_eq_ok_iff] at hstatus
        refine ⟨hstatus, ?_⟩
        cases hreq : e.request <;> simp [hreq, Request.isFanout] at hfan <;> trivial
      · exact h
    obtain ⟨hcodes, hclient⟩ := hfaults
    exact ⟨hcodes, he.handles (fun i => CallResult.eq_ok_of_status (hcodes i)) hclient⟩

end Faults

open ShardingService

/-- The second of two backends cannot be reached. -/
def secondUnavailable : Faults 1 where
  calls := ![.ok, .failed ⟨.UNAVAILABLE, "Connect Failed"⟩ (by decide) 0]

/-- A removal through the proxy reports the backend that cannot be reached. -/
theorem noSilentLoss_removeStatements :
    Request.toAllBackends (.removeStatements {}) = true ∧
      NoSilentLoss secondUnavailable twoShards (.removeStatements {}) :=
  ⟨rfl, (noSilentLoss_iff secondUnavailable twoShards rfl).mpr (Or.inl rfl)⟩

/-- The second backend cannot be reached. Two statements are added, the proxy returns OK, and the
one that belongs to the second backend is nowhere. -/
theorem addStatements_loses_statement :
    ¬ NoSilentLoss secondUnavailable (fun _ => Store.empty) (.addStatements twoStatements) ∧
      (addStatementsWith secondUnavailable (fun _ => Store.empty) twoStatements).2.2 = .ok ∧
      (addStatementsWith secondUnavailable (fun _ => Store.empty) twoStatements).1 1 =
        Store.empty := by
  refine ⟨?_, rfl, ?_⟩
  · intro h
    have hcodes := (h _ _ _ (.addStatements twoStatements) rfl rfl).1
    exact absurd (hcodes 1) (by decide)
  · simp only [addStatementsWith]
    decide +kernel

end CMarmotta
