import CMarmotta.Service.Proofs.GraphsProofs
import CMarmotta.Sharding.Proofs.FaultsProofs

/-!
# What failures of backends cannot break

When calls to backends fail, the proxy loses statements and tells nobody. What it keeps, whatever
fails and whenever, is where statements are: a backend only ever has statements that hash to it
(`Placed`). So no two backends have the same statement, and `GetStatements` does not deliver one
twice.
-/

namespace CMarmotta

open Threads ShardingService

section Placement

variable [Platform] {n : Nat}

/-- A request that the proxy serves, the status it returns, and what fails meanwhile. -/
structure FaultyExchange (n : Nat) where
  faults : Faults n
  exchange : Exchange n
  status : Status

/-- The proxy serves requests one after another, and different calls may fail in each of them. -/
inductive RunWith (shards : Shards n) : List (FaultyExchange n) → Shards n → Prop
  | nil : RunWith shards [] shards
  | snoc {shards' shards'' : Shards n} {trace : List (FaultyExchange n)}
      {e : FaultyExchange n} (hrun : RunWith shards trace shards')
      (h : HandlesWith e.faults shards' e.exchange e.status shards'') :
      RunWith shards (trace ++ [e]) shards''

/-- The statements that the requests of a run add. -/
def addedBy (trace : List (FaultyExchange n)) : List Statement :=
  trace.flatMap fun e => e.exchange.request.added

/-! ## One backend -/

/-- The store has one set of statements, and all of them have the property. -/
def Store.HoldsOnly (P : Statement → Prop) (σ : Store) : Prop :=
  ∃ S, σ.Represents S ∧ ∀ s ∈ S, P s

namespace Store.HoldsOnly

variable {P : Statement → Prop} {σ : Store}

theorem empty (P : Statement → Prop) : Store.empty.HoldsOnly P :=
  ⟨∅, Store.Represents.empty, fun s hs => absurd hs (Finset.notMem_empty s)⟩

theorem mono {Q : Statement → Prop} (h : σ.HoldsOnly P) (himp : ∀ s, P s → Q s) :
    σ.HoldsOnly Q := by
  obtain ⟨S, hS, hmem⟩ := h
  exact ⟨S, hS, fun s hs => himp s (hmem s hs)⟩

theorem update (h : σ.HoldsOnly P) {it : List UpdateRequest} (hit : ∀ s, .stmtAdded s ∈ it → P s) :
    (CMarmotta.update σ it).1.HoldsOnly P := by
  obtain ⟨S, hS, hmem⟩ := h
  obtain ⟨S', hS', hmem'⟩ := hS.update it
  exact ⟨S', hS', fun s hs => (hmem' s hs).elim (hmem s) (hit s)⟩

theorem apply (h : σ.HoldsOnly P) (op : Op) (hop : ∀ s, .stmtAdded s ∈ op.requests → P s) :
    (op.apply σ).HoldsOnly P := by
  rw [Op.apply_eq_update]
  exact h.update hop

theorem removeStatements (h : σ.HoldsOnly P) (pattern : Statement) :
    (CMarmotta.removeStatements σ pattern).1.HoldsOnly P :=
  h.apply (.removeStatements pattern) (by simp [Op.requests])

theorem clear (h : σ.HoldsOnly P) (contexts : ContextRequest) :
    (LevelDBService.clear σ contexts).1.HoldsOnly P := by
  have hloop : ∀ (contexts : ContextRequest) (σ : Store) (pattern : Statement) (count : Nat),
      σ.HoldsOnly P → (LevelDBService.clearLoop σ pattern count contexts).1.HoldsOnly P := by
    intro contexts
    induction contexts with
    | nil => exact fun σ _ _ h => h
    | cons c contexts ih => exact fun σ pattern count h => ih _ _ _ (h.removeStatements _)
  rw [LevelDBService.clear]
  split
  · exact hloop contexts σ {} 0 h
  · exact h.removeStatements {}

end Store.HoldsOnly

/-! ## Calls that fail -/

namespace CallResult

omit [Platform] in
theorem arrive_sublist {α : Type} (c : CallResult) (messages : List α) :
    List.Sublist (c.arrive messages) messages := by
  cases c with
  | ok => exact List.Sublist.refl messages
  | failed status hcode delivered => exact List.take_sublist delivered messages

omit [Platform] in
/-- A stream that breaks leaves the backend as a stream of what has arrived does. -/
theorem stream_store {α β : Type} [Inhabited α] (f : List α → Store × β) (unset : β)
    (messages : List α) (c : CallResult) :
    (c.stream (fun reader => f (ReaderIterator.ofReader reader).toList) unset messages).1 =
      (f (c.arrive messages)).1 := by
  cases c with
  | ok => rw [CallResult.stream, ReaderIterator.toList_ofReader, CallResult.arrive]
  | failed status hcode delivered =>
    rw [CallResult.stream, ReaderIterator.toList_ofReader, CallResult.arrive]

end CallResult

/-! ## All backends -/

section Stores

variable (faults : Faults n) (shards : Shards n) (i : Fin (n + 1))

theorem addNamespacesWith_store (it : List Namespace) :
    (addNamespacesWith faults shards it).1 i =
      (CMarmotta.addNamespaces (shards i) ((faults.calls i).arrive it)).1 := by
  have hwriter : it.foldl Writers.writeAll (fun _ : Fin (n + 1) => []) i = it := by
    rw [foldl_writeAll, List.nil_append]
  have hstore := CallResult.stream_store (CMarmotta.addNamespaces (shards i)) 0 it (faults.calls i)
  rw [← hstore]
  simp only [addNamespacesWith, hwriter]
  rfl

theorem addStatementsWith_store (it : List Statement) :
    (addStatementsWith faults shards it).1 i = (CMarmotta.addStatements (shards i)
      ((faults.calls i).arrive (it.filter (bucket n · = i)))).1 := by
  have hstore := CallResult.stream_store (CMarmotta.addStatements (shards i)) 0
    (it.filter (bucket n · = i)) (faults.calls i)
  rw [← hstore]
  simp only [addStatementsWith, foldl_write_bucket, List.nil_append]
  rfl

theorem updateWith_store (it : List UpdateRequest) :
    (updateWith faults shards it).1 i = (CMarmotta.update (shards i)
      ((faults.calls i).arrive (it.filter (routedTo i)))).1 := by
  have hstore := CallResult.stream_store (fun it => ((CMarmotta.update (shards i) it).1,
    (LevelDBService.update (shards i) { messages := it }).2)) {} (it.filter (routedTo i))
    (faults.calls i)
  rw [← hstore]
  simp only [updateWith, foldl_route, List.nil_append]
  cases faults.calls i with
  | ok => rfl
  | failed status hcode delivered => rfl

end Stores

/-- A call that fails leaves the backend as it was or as after the call. -/
theorem holdsOnly_fanoutWith {P : Statement → Prop} {faults : Faults n} {shards : Shards n}
    {handler : Store → Store × Nat} {i : Fin (n + 1)} (h : (shards i).HoldsOnly P)
    (hhandler : (handler (shards i)).1.HoldsOnly P) :
    (fanoutWith faults handler shards i).1.HoldsOnly P := by
  rw [fanoutWith]
  cases faults.calls i with
  | ok => exact hhandler
  | failed status hcode delivered =>
    simp only [CallResult.unary]
    split
    · exact h
    · exact hhandler

/-- Each backend has statements that hash to it, all of them out of `T`. -/
def Placed (T : List Statement) (shards : Shards n) : Prop :=
  ∀ i, (shards i).HoldsOnly fun s => bucket n s = i ∧ s ∈ T

theorem Placed.handlesWith {T : List Statement} {shards shards' : Shards n} (h : Placed T shards)
    {faults : Faults n} {e : Exchange n} {status : Status}
    (he : HandlesWith faults shards e status shards') : Placed (T ++ e.request.added) shards' := by
  intro i
  have hold : (shards i).HoldsOnly fun s => bucket n s = i ∧ s ∈ T ++ e.request.added :=
    (h i).mono fun s hs => ⟨hs.1, List.mem_append_left _ hs.2⟩
  cases he with
  | addNamespaces it =>
    rw [addNamespacesWith_store]
    exact hold.apply (.addNamespaces _) (by simp [Op.requests])
  | addStatements it =>
    rw [addStatementsWith_store]
    refine hold.apply (.addStatements _) fun s hs => ?_
    obtain ⟨_, hs, ⟨⟩⟩ := List.mem_map.mp hs
    have hmem := (CallResult.arrive_sublist _ _).subset hs
    rw [List.mem_filter, decide_eq_true_eq] at hmem
    exact ⟨hmem.2, List.mem_append_right _ hmem.1⟩
  | update it =>
    rw [updateWith_store]
    refine hold.update fun s hs => ?_
    have hmem := (CallResult.arrive_sublist _ _).subset hs
    rw [List.mem_filter, routedTo, decide_eq_true_eq] at hmem
    refine ⟨hmem.2, List.mem_append_right _ ?_⟩
    exact List.mem_flatMap.mpr ⟨_, hmem.1, List.mem_singleton_self s⟩
  | getStatements pattern _ => exact hold
  | removeStatements pattern _ => exact holdsOnly_fanoutWith hold (hold.removeStatements pattern)
  | clear contexts _ => exact holdsOnly_fanoutWith hold (hold.clear contexts)
  | size contexts _ => exact holdsOnly_fanoutWith hold hold

theorem RunWith.placed {trace : List (FaultyExchange n)} {shards : Shards n}
    (hrun : RunWith (fun _ => Store.empty) trace shards) : Placed (addedBy trace) shards := by
  induction hrun with
  | nil => exact fun i => Store.HoldsOnly.empty _
  | snoc _ h ih =>
    rw [addedBy, List.flatMap_append, List.flatMap_singleton]
    exact ih.handlesWith h

/-- Statements of different backends are different. -/
theorem Placed.nodup_interleaves {T : List Statement} {shards : Shards n} (h : Placed T shards)
    {faults : Faults n} {pattern : Statement} {result : List Statement}
    (hresult : Interleaves (fun i => (faults.calls i).arrive
      (LevelDBService.getStatements (shards i) pattern {}).written) result) :
    result.Nodup ∧ ∀ s ∈ result, s ∈ T := by
  have hlist : ∀ i, ((faults.calls i).arrive
      (LevelDBService.getStatements (shards i) pattern {}).written).Nodup ∧
      ∀ s ∈ (faults.calls i).arrive (LevelDBService.getStatements (shards i) pattern {}).written,
        bucket n s = i ∧ s ∈ T := by
    intro i
    obtain ⟨S, hS, hmem⟩ := h i
    rw [LevelDBService.getStatements, ServerWriter.written_forEach _ rfl, List.nil_append]
    refine ⟨(CallResult.arrive_sublist _ _).nodup (hS.nodup_getStatements pattern), fun s hs => ?_⟩
    exact hmem s (hS.mem_getStatements.mp ((CallResult.arrive_sublist _ _).subset hs)).1
  refine ⟨hresult.nodup (fun i => (hlist i).1) fun i j s hi hj => ?_, fun s hs => ?_⟩
  · rw [← ((hlist i).2 s hi).1, ← ((hlist j).2 s hj).1]
  · rw [← Multiset.mem_coe, hresult.coe_eq_sum, Multiset.mem_sum] at hs
    obtain ⟨i, -, hs⟩ := hs
    exact ((hlist i).2 s hs).2

/-- In every run of the proxy from empty backends, whatever calls fail: a backend has only statements
that hash to it and that a request has added, and `GetStatements` delivers no statement twice and
none that was not added. -/
theorem placement_survives_faults {trace : List (FaultyExchange n)} {shards : Shards n}
    (hrun : RunWith (fun _ => Store.empty) trace shards) :
    (∀ i, ∃ S, (shards i).Represents S ∧ ∀ s ∈ S, bucket n s = i ∧ s ∈ addedBy trace) ∧
      ∀ faults e status shards' l, HandlesWith faults shards e status shards' →
        e.response = .statements l → l.Nodup ∧ ∀ s ∈ l, s ∈ addedBy trace := by
  have hplaced := hrun.placed
  refine ⟨hplaced, fun faults e status shards' l he hl => ?_⟩
  cases he with
  | getStatements pattern hresult =>
    obtain ⟨hnodup, hmem⟩ := hplaced.nodup_interleaves hresult
    obtain rfl := Response.statements.inj hl
    cases faults.capacity with
    | none => exact ⟨hnodup, hmem⟩
    | some capacity =>
      exact ⟨(List.take_sublist _ _).nodup hnodup, fun s hs => hmem s (List.mem_of_mem_take hs)⟩
  | _ => cases hl

end Placement

/-- An import while the second of two backends cannot be reached. -/
def halfImport : FaultyExchange 1 where
  faults := secondUnavailable
  exchange := {
    request := .addStatements twoStatements
    response := .count (addStatementsWith secondUnavailable (fun _ => Store.empty) twoStatements).2.1 }
  status := .ok

theorem runWith_halfImport : RunWith (fun _ => Store.empty) [halfImport]
    (addStatementsWith secondUnavailable (fun _ => Store.empty) twoStatements).1 :=
  .snoc .nil (.addStatements twoStatements)

theorem placement_survives_halfImport :
    ∃ shards, RunWith (fun _ => Store.empty) [halfImport] shards ∧
      ∀ i, ∃ S, (shards i).Represents S ∧ ∀ s ∈ S, bucket 1 s = i ∧ s ∈ addedBy [halfImport] :=
  ⟨_, runWith_halfImport, (placement_survives_faults runWith_halfImport).1⟩

end CMarmotta
