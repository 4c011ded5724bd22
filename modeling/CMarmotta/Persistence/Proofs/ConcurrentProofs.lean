import CMarmotta.Persistence.Proofs.UpdateProofs
import CMarmotta.Persistence.Concurrent
import CMarmotta.Model.X64
import Mathlib.Data.Finset.Union
import Mathlib.Data.Fintype.Basic

/-!
# Interleaved calls

Whatever the interleaving, a key of an index holds what some call that has written the index makes
of it, or what it held at the start (`SystemInv.written`). Calls that only add statements agree on
every key if the hash does not collide, so parallel imports lose nothing (`exec_addStatements`).
Calls with removals agree on a key under the condition `CompatibleAt`
(`exec_indexesAgree_of_compatible`), and without it the indexes can end up different.
-/

namespace CMarmotta

open KV

section Interleaving

variable [Platform] {ι : Type} [DecidableEq ι]

open Platform

/-! ## Steps -/

namespace System

/-- The call `i` treats `r` and has `rest` left. -/
def treat (s : System ι) (i : ι) (r : UpdateRequest) (rest : List UpdateRequest) : System ι :=
  { s with calls := Function.update s.calls i { s.calls i with
      todo := rest
      batches := updateStep s.store (s.calls i).batches r } }

omit [Platform] in
/-- The call `i` writes its batch for `db`. -/
def writeBatch (s : System ι) (i : ι) (db : Database) : System ι where
  store := s.store.writeDatabase (s.calls i).batches db
  calls := Function.update s.calls i { s.calls i with
    unwritten := (s.calls i).unwritten.erase db }

section Frame

variable (s : System ι) (i : ι) (r : UpdateRequest) (rest : List UpdateRequest) (db : Database)

theorem treat_calls_self : (s.treat i r rest).calls i = { s.calls i with
    todo := rest
    batches := updateStep s.store (s.calls i).batches r } :=
  Function.update_self _ _ _

theorem treat_calls_of_ne {j : ι} (h : j ≠ i) : (s.treat i r rest).calls j = s.calls j :=
  Function.update_of_ne h _ _

theorem treat_unwritten (j : ι) :
    ((s.treat i r rest).calls j).unwritten = (s.calls j).unwritten := by
  by_cases hj : j = i
  · subst hj
    rw [treat_calls_self]
  · rw [treat_calls_of_ne s i r rest hj]

omit [Platform] in
theorem writeBatch_calls_self : (s.writeBatch i db).calls i = { s.calls i with
    unwritten := (s.calls i).unwritten.erase db } :=
  Function.update_self _ _ _

omit [Platform] in
theorem writeBatch_calls_of_ne {j : ι} (h : j ≠ i) : (s.writeBatch i db).calls j = s.calls j :=
  Function.update_of_ne h _ _

omit [Platform] in
theorem writeBatch_todo (j : ι) : ((s.writeBatch i db).calls j).todo = (s.calls j).todo := by
  by_cases hj : j = i
  · subst hj
    rw [writeBatch_calls_self]
  · rw [writeBatch_calls_of_ne s i db hj]

omit [Platform] in
theorem writeBatch_batches (j : ι) :
    ((s.writeBatch i db).calls j).batches = (s.calls j).batches := by
  by_cases hj : j = i
  · subst hj
    rw [writeBatch_calls_self]
  · rw [writeBatch_calls_of_ne s i db hj]

omit [Platform] in
theorem nodup_unwritten_writeBatch (h : ∀ j, (s.calls j).unwritten.Nodup) (j : ι) :
    ((s.writeBatch i db).calls j).unwritten.Nodup := by
  by_cases hj : j = i
  · subst hj
    rw [writeBatch_calls_self]
    exact (h j).erase db
  · rw [writeBatch_calls_of_ne s i db hj]
    exact h j

omit [Platform] in
theorem mem_unwritten_writeBatch (h : (s.calls i).unwritten.Nodup) (j : ι) (db' : Database) :
    db' ∈ ((s.writeBatch i db).calls j).unwritten ↔
      db' ∈ (s.calls j).unwritten ∧ ¬ (j = i ∧ db' = db) := by
  by_cases hj : j = i
  · subst hj
    rw [writeBatch_calls_self, h.mem_erase_iff]
    simp only [true_and]
    exact and_comm
  · rw [writeBatch_calls_of_ne s i db hj]
    simp [hj]

end Frame

theorem step_cases {s s' : System ι} {e : Event ι} (h : s.step e = some s') :
    (∃ i r rest, e = .collect i ∧ (s.calls i).todo = r :: rest ∧ s' = s.treat i r rest) ∨
    (∃ i db, e = .write i db ∧ (s.calls i).todo = [] ∧ db ∈ (s.calls i).unwritten ∧
      s' = s.writeBatch i db) := by
  cases e with
  | collect i =>
    refine Or.inl ⟨i, ?_⟩
    rw [step] at h
    split at h
    · cases h
    · rename_i r rest htodo
      exact ⟨r, rest, rfl, htodo, (Option.some.inj h).symm⟩
  | write i db =>
    refine Or.inr ⟨i, db, rfl, ?_⟩
    rw [step] at h
    split at h
    · rename_i hc
      exact ⟨List.isEmpty_iff.mp hc.1, hc.2, (Option.some.inj h).symm⟩
    · cases h

/-- What every step preserves holds in every state of an interleaving. -/
theorem exec_invariant {P : System ι → Prop}
    (hstep : ∀ s e s', P s → s.step e = some s' → P s') {events : List (Event ι)} :
    ∀ {s s' : System ι}, s.exec events = some s' → P s → P s' := by
  induction events with
  | nil =>
    intro s s' h hs
    rw [exec, List.foldlM_nil] at h
    exact Option.some.inj h ▸ hs
  | cons e events ih =>
    intro s s' h hs
    rw [exec, List.foldlM_cons] at h
    obtain ⟨s₁, h₁, h₂⟩ := Option.bind_eq_some_iff.mp h
    exact ih h₂ (hstep s e s₁ hs h₁)

/-- Some interleaving leads from one state to the other. -/
def Reaches (s s' : System ι) : Prop := ∃ events, s.exec events = some s'

theorem Reaches.refl (s : System ι) : s.Reaches s := ⟨[], rfl⟩

theorem Reaches.trans {s s' s'' : System ι} (h : s.Reaches s') (h' : s'.Reaches s'') :
    s.Reaches s'' := by
  obtain ⟨events, he⟩ := h
  obtain ⟨events', he'⟩ := h'
  refine ⟨events ++ events', ?_⟩
  rw [exec] at he he' ⊢
  rw [List.foldlM_append, he]
  exact he'

theorem reaches_treat {s : System ι} {i : ι} {r : UpdateRequest} {rest : List UpdateRequest}
    (htodo : (s.calls i).todo = r :: rest) : s.Reaches (s.treat i r rest) := by
  refine ⟨[.collect i], ?_⟩
  rw [exec, List.foldlM_cons, step, htodo]
  rfl

theorem reaches_writeBatch {s : System ι} {i : ι} {db : Database} (htodo : (s.calls i).todo = [])
    (hdb : db ∈ (s.calls i).unwritten) : s.Reaches (s.writeBatch i db) := by
  refine ⟨[.write i db], ?_⟩
  rw [exec, List.foldlM_cons, step, if_pos ⟨by simp [htodo], hdb⟩]
  rfl

/-- A call can treat all its input, and what this preserves holds then. -/
theorem reaches_treat_all {P : System ι → Prop} {i : ι}
    (hstep : ∀ s r rest, P s → (s.calls i).todo = r :: rest → P (s.treat i r rest))
    (s : System ι) (h : P s) :
    ∃ s', s.Reaches s' ∧ P s' ∧ (s'.calls i).todo = [] ∧
      (s'.calls i).unwritten = (s.calls i).unwritten ∧ ∀ j, j ≠ i → s'.calls j = s.calls j := by
  induction htodo : (s.calls i).todo generalizing s with
  | nil => exact ⟨s, .refl s, h, htodo, rfl, fun _ _ => rfl⟩
  | cons r rest ih =>
    have hrest : ((s.treat i r rest).calls i).todo = rest := by rw [treat_calls_self]
    obtain ⟨s', hreach, h', htodo', hun, hothers⟩ := ih _ (hstep s r rest h htodo) hrest
    refine ⟨s', (reaches_treat htodo).trans hreach, h', htodo', ?_, ?_⟩
    · rw [hun, treat_unwritten]
    · intro j hj
      rw [hothers j hj, treat_calls_of_ne s i r rest hj]

end System

omit [Platform] in
theorem index_writeDatabase (σ : Store) (u : UpdateState) (db : Database) (idx : IndexType) :
    (σ.writeDatabase u db).index idx =
      if db = .stmt idx then write (σ.index idx) (u.stmts.index idx) else σ.index idx := by
  rcases db with j | t
  · cases j <;> cases idx <;> rfl
  · cases t <;> cases idx <;> rfl

/-! ## What a call collects -/

/-- What a list of changes makes of the key of a statement. -/
def opsOutcome (ops : List StmtOp) (s : Statement) : Option (Option Statement) :=
  lastWrite (fun op => if stmtKey .SPOC op.stmt = stmtKey .SPOC s then some op.value? else none) ops

theorem outcome_map_batchOp (ops : List StmtOp) (idx : IndexType) (s : Statement) :
    outcome (ops.map (StmtOp.batchOp idx)) (stmtKey idx s) =
      (opsOutcome ops s).map (Option.map statementCodec.serialize) := by
  induction ops with
  | nil => rfl
  | cons op ops ih =>
    rw [List.map_cons, outcome_cons, ih, StmtOp.key_batchOp, StmtOp.value?_batchOp,
      opsOutcome, opsOutcome, lastWrite, Option.map_or]
    congr 1
    by_cases hk : stmtKey .SPOC op.stmt = stmtKey .SPOC s
    · rw [if_pos ((stmtKey_eq_iff_spoc idx).mpr hk), if_pos hk]
      rfl
    · rw [if_neg (mt (stmtKey_eq_iff_spoc idx).mp hk), if_neg hk]
      rfl

/-- What treated requests may have made of the key of a statement, whatever the removals found. -/
structure Possible (s : Statement) (treated : List UpdateRequest) (o : Option (Option Statement)) :
    Prop where
  added : ∀ t, lastWrite (keyEffect s) treated = some (some t) → o = some (some t)
  untouched : lastWrite (keyEffect s) treated = none → o = none
  removed : (∀ t, .stmtAdded t ∈ treated → stmtKey .SPOC t ≠ stmtKey .SPOC s) →
    o = none ∨ o = some none

theorem Possible.append {s : Statement} {treated : List UpdateRequest} {o e : Option (Option Statement)}
    (h : Possible s treated o) {r : UpdateRequest}
    (he : e = keyEffect s r ∨ (e = none ∧ keyEffect s r = some none)) :
    Possible s (treated ++ [r]) (e.or o) := by
  have hlast : lastWrite (keyEffect s) (treated ++ [r]) =
      (keyEffect s r).or (lastWrite (keyEffect s) treated) := lastWrite_concat _ _ _
  refine ⟨?_, ?_, ?_⟩
  · intro t ht
    rw [hlast, Option.or_eq_some_iff] at ht
    rcases ht with hr | ⟨hr, ht⟩
    · rcases he with rfl | ⟨-, hdel⟩
      · rw [hr]
        rfl
      · rw [hr] at hdel
        cases hdel
    · rcases he with rfl | ⟨-, hdel⟩
      · rw [hr, h.added t ht]
        rfl
      · rw [hr] at hdel
        cases hdel
  · intro hnone
    rw [hlast, Option.or_eq_none_iff] at hnone
    rcases he with rfl | ⟨rfl, -⟩
    · rw [hnone.1, h.untouched hnone.2]
      rfl
    · exact h.untouched hnone.2
  · intro hadd
    have hprev := h.removed fun t ht => hadd t (List.mem_append_left _ ht)
    rcases he with rfl | ⟨rfl, -⟩
    · rcases hr : keyEffect s r with _ | _ | t
      · exact hprev
      · exact Or.inr rfl
      · obtain ⟨rfl, hk⟩ := keyEffect_eq_put_iff.mp hr
        exact absurd hk (hadd t (by simp))
    · exact hprev

theorem opsOutcome_stmtOps {σ : Store} (hσ : ∀ idx, ∃ S, Represents (σ.index idx) idx S)
    (s : Statement) (r : UpdateRequest) :
    opsOutcome (stmtOps σ r) s = keyEffect s r ∨
      (opsOutcome (stmtOps σ r) s = none ∧ keyEffect s r = some none) := by
  cases r with
  | stmtAdded t => exact Or.inl rfl
  | stmtRemoved pattern =>
    obtain ⟨S, hS⟩ := hσ (indexType pattern)
    by_cases hex : ∃ t ∈ getStatements σ pattern, stmtKey .SPOC t = stmtKey .SPOC s
    · left
      obtain ⟨t, ht, hk⟩ := hex
      have hsel : Selects pattern s :=
        (selects_congr hk).mp ((mem_getStatements_of_index hS).mp ht).2
      rw [keyEffect, if_pos hsel]
      rcases hl : opsOutcome (stmtOps σ (.stmtRemoved pattern)) s with _ | _ | u
      · have hnone := lastWrite_eq_none_iff.mp hl (.remove t) (List.mem_map_of_mem ht)
        rw [StmtOp.stmt, if_pos hk] at hnone
        cases hnone
      · rfl
      · obtain ⟨_, op, _, hops, hop, -⟩ := lastWrite_eq_some_iff.mp hl
        have hmem : op ∈ stmtOps σ (.stmtRemoved pattern) := by rw [hops]; simp
        obtain ⟨v, -, rfl⟩ := List.mem_map.mp hmem
        split at hop <;> simp [StmtOp.value?] at hop
    · have hnone : opsOutcome (stmtOps σ (.stmtRemoved pattern)) s = none := by
        refine lastWrite_eq_none_iff.mpr fun op hop => ?_
        obtain ⟨t, ht, rfl⟩ := List.mem_map.mp hop
        exact if_neg fun hk => hex ⟨t, ht, hk⟩
      rw [hnone, keyEffect]
      split
      · exact Or.inr ⟨rfl, rfl⟩
      · exact Or.inl rfl
  | nsAdded ns => exact Or.inl rfl
  | nsRemoved pattern => exact Or.inl rfl
  | notSet => exact Or.inl rfl

/-- The four batches of a call hold the same changes, which come from the requests treated so far. -/
def CallInv (requests : List UpdateRequest) (c : CallState) : Prop :=
  ∃ treated ops, requests = treated ++ c.todo ∧
    (∀ idx, c.batches.stmts.index idx = ops.map (StmtOp.batchOp idx)) ∧
    ∀ s, Possible s treated (opsOutcome ops s)

theorem CallInv.start (c : Call) : CallInv c.op.requests c.start := by
  refine ⟨[], [], rfl, ?_, ?_⟩
  · exact fun idx => index_emptyBatches idx
  · intro s
    refine ⟨?_, fun _ => rfl, fun _ => Or.inl rfl⟩
    intro t ht
    simp [lastWrite] at ht

theorem CallInv.collect {requests rest : List UpdateRequest} {c : CallState} {r : UpdateRequest}
    (h : CallInv requests c) (htodo : c.todo = r :: rest) {σ : Store}
    (hσ : ∀ idx, ∃ S, Represents (σ.index idx) idx S) :
    CallInv requests { c with todo := rest, batches := updateStep σ c.batches r } := by
  obtain ⟨treated, ops, hreq, hbatch, hposs⟩ := h
  refine ⟨treated ++ [r], ops ++ stmtOps σ r, ?_, ?_, ?_⟩
  · rw [hreq, htodo, List.append_assoc, List.singleton_append]
  · intro idx
    rw [index_updateStep, hbatch, List.map_append]
  · intro s
    have happ : opsOutcome (ops ++ stmtOps σ r) s =
        (opsOutcome (stmtOps σ r) s).or (opsOutcome ops s) := lastWrite_append _ _ _
    rw [happ]
    exact (hposs s).append (opsOutcome_stmtOps hσ s r)

/-! ## Interleavings -/

def System.Wrote (s : System ι) (i : ι) (idx : IndexType) : Prop :=
  .stmt idx ∉ (s.calls i).unwritten

omit [Platform] [DecidableEq ι] in
theorem System.Done.wrote {s : System ι} (h : s.Done) (i : ι) (idx : IndexType) : s.Wrote i idx := by
  rw [System.Wrote, (h i).2]
  exact List.not_mem_nil

/-- What holds in every state of an interleaving of the calls, started on the store `σ`. -/
structure SystemInv (σ : Store) (calls : ι → Call) (s : System ι) : Prop where
  call : ∀ i, CallInv (calls i).op.requests (s.calls i)
  nodup : ∀ i, (s.calls i).unwritten.Nodup
  wrote : ∀ i idx, s.Wrote i idx → (s.calls i).todo = []
  index : ∀ idx, ∃ S, Represents (s.store.index idx) idx S
  written : ∀ idx k,
    (∃ i o, s.Wrote i idx ∧ outcome ((s.calls i).batches.stmts.index idx) k = some o ∧
      (s.store.index idx)[k]? = o) ∨
    ((∀ i, s.Wrote i idx → outcome ((s.calls i).batches.stmts.index idx) k = none) ∧
      (s.store.index idx)[k]? = (σ.index idx)[k]?)

namespace SystemInv

variable {σ : Store} {calls : ι → Call} {s : System ι}

omit [DecidableEq ι] in
theorem start (hσ : ∀ idx, ∃ S, Represents (σ.index idx) idx S) :
    SystemInv σ calls (System.start σ calls) := by
  have hmem : ∀ i idx, .stmt idx ∈ (calls i).writers := by
    intro i idx
    cases calls i <;> cases idx <;> simp [Call.writers]
  refine ⟨fun i => CallInv.start (calls i), ?_, ?_, hσ, ?_⟩
  · intro i
    show (calls i).writers.Nodup
    cases calls i <;> simp [Call.writers]
  · exact fun i idx hw => absurd (hmem i idx) hw
  · exact fun idx k => Or.inr ⟨fun i hw => absurd (hmem i idx) hw, rfl⟩

theorem collect (h : SystemInv σ calls s) {i : ι} {r : UpdateRequest} {rest : List UpdateRequest}
    (htodo : (s.calls i).todo = r :: rest) : SystemInv σ calls (s.treat i r rest) := by
  have hwrote' : ∀ j idx, (s.treat i r rest).Wrote j idx ↔ s.Wrote j idx := by
    intro j idx
    rw [System.Wrote, System.Wrote, System.treat_unwritten]
  -- The calls that have written are other calls, which have not changed.
  have hsame : ∀ j idx, s.Wrote j idx → (s.treat i r rest).calls j = s.calls j := by
    intro j idx hw
    refine System.treat_calls_of_ne s i r rest ?_
    rintro rfl
    rw [h.wrote j idx hw] at htodo
    cases htodo
  refine ⟨?_, ?_, ?_, h.index, ?_⟩
  · intro j
    by_cases hj : j = i
    · subst hj
      rw [System.treat_calls_self]
      exact (h.call j).collect htodo h.index
    · rw [System.treat_calls_of_ne s i r rest hj]
      exact h.call j
  · intro j
    rw [System.treat_unwritten]
    exact h.nodup j
  · intro j idx hw
    rw [hwrote'] at hw
    rw [hsame j idx hw]
    exact h.wrote j idx hw
  · intro idx k
    rcases h.written idx k with ⟨j, o, hw, ho, hdb⟩ | ⟨hnone, hdb⟩
    · refine Or.inl ⟨j, o, (hwrote' j idx).mpr hw, ?_, hdb⟩
      rw [hsame j idx hw]
      exact ho
    · refine Or.inr ⟨fun j hw => ?_, hdb⟩
      rw [hwrote'] at hw
      rw [hsame j idx hw]
      exact hnone j hw

theorem write (h : SystemInv σ calls s) {i : ι} {db : Database} (htodo : (s.calls i).todo = []) :
    SystemInv σ calls (s.writeBatch i db) := by
  have hwrote' : ∀ j idx, (s.writeBatch i db).Wrote j idx ↔
      s.Wrote j idx ∨ (j = i ∧ db = .stmt idx) := by
    intro j idx
    rw [System.Wrote, System.Wrote, System.mem_unwritten_writeBatch s i db (h.nodup i)]
    tauto
  have hindex' : ∀ idx, (s.writeBatch i db).store.index idx = if db = .stmt idx then
      KV.write (s.store.index idx) ((s.calls i).batches.stmts.index idx) else s.store.index idx :=
    index_writeDatabase _ _ _
  refine ⟨?_, System.nodup_unwritten_writeBatch s i db h.nodup, ?_, ?_, ?_⟩
  · intro j
    obtain ⟨treated, ops, hreq, hbatch, hposs⟩ := h.call j
    refine ⟨treated, ops, ?_, ?_, hposs⟩
    · rw [System.writeBatch_todo, hreq]
    · rw [System.writeBatch_batches]
      exact hbatch
  · intro j idx hw
    rw [System.writeBatch_todo]
    rcases (hwrote' j idx).mp hw with hw | ⟨rfl, -⟩
    · exact h.wrote j idx hw
    · exact htodo
  · intro idx
    obtain ⟨S, hS⟩ := h.index idx
    obtain ⟨treated, ops, hreq, hbatch, hposs⟩ := h.call i
    rw [hindex']
    split
    · rw [hbatch]
      exact ⟨_, hS.write ops⟩
    · exact ⟨S, hS⟩
  · intro idx k
    simp only [System.writeBatch_batches, hwrote', hindex']
    by_cases hdb : db = .stmt idx
    · rw [if_pos hdb, getElem?_write]
      rcases ho : outcome ((s.calls i).batches.stmts.index idx) k with _ | o
      · -- The batch leaves the key alone: whoever decided its value still does.
        rcases h.written idx k with ⟨j, o, hw, hj, hv⟩ | ⟨hnone, hv⟩
        · exact Or.inl ⟨j, o, Or.inl hw, hj, hv⟩
        · refine Or.inr ⟨?_, hv⟩
          rintro j (hw | ⟨rfl, -⟩)
          · exact hnone j hw
          · exact ho
      · exact Or.inl ⟨i, o, Or.inr ⟨rfl, hdb⟩, ho, rfl⟩
    · rw [if_neg hdb]
      simpa only [hdb, and_false, or_false] using h.written idx k

theorem exec (hσ : ∀ idx, ∃ S, Represents (σ.index idx) idx S) {events : List (Event ι)}
    {s' : System ι} (h : (System.start σ calls).exec events = some s') : SystemInv σ calls s' := by
  refine System.exec_invariant (P := SystemInv σ calls) (fun s e s₁ hs hstep => ?_) h (start hσ)
  rcases System.step_cases hstep with ⟨i, r, rest, -, htodo, rfl⟩ | ⟨i, db, -, htodo, -, rfl⟩
  · exact hs.collect htodo
  · exact hs.write htodo

omit [DecidableEq ι] in
/-- What a call that has written an index makes of the key of a statement is, in all indexes, what
its requests may make of it. -/
theorem possible (h : SystemInv σ calls s) {i : ι} (htodo : (s.calls i).todo = []) (t : Statement) :
    ∃ o, Possible t (calls i).op.requests o ∧ ∀ idx,
      outcome ((s.calls i).batches.stmts.index idx) (stmtKey idx t) =
        o.map (Option.map statementCodec.serialize) := by
  obtain ⟨treated, ops, hreq, hbatch, hposs⟩ := h.call i
  rw [htodo, List.append_nil] at hreq
  refine ⟨opsOutcome ops t, hreq ▸ hposs t, fun idx => ?_⟩
  rw [hbatch, outcome_map_batchOp]

omit [DecidableEq ι] in
/-- Whether an index holds a statement: what one of the calls that have written it makes of the key
decides, or it holds what it held before. -/
theorem mem_cases (h : SystemInv σ calls s) {idx : IndexType} {S U : Finset Statement}
    (hS : Represents (σ.index idx) idx S) (hU : Represents (s.store.index idx) idx U)
    {t : Statement} {o : ι → Option (Option Statement)}
    (ho : ∀ i, s.Wrote i idx → outcome ((s.calls i).batches.stmts.index idx) (stmtKey idx t) =
      (o i).map (Option.map statementCodec.serialize)) :
    (∃ i x, s.Wrote i idx ∧ o i = some x ∧ (t ∈ U ↔ x = some t)) ∨
      ((∀ i, s.Wrote i idx → o i = none) ∧ (t ∈ U ↔ t ∈ S)) := by
  rcases h.written idx (stmtKey idx t) with ⟨i, v, hw, hv, hdb⟩ | ⟨hnone, hdb⟩
  · rw [ho i hw, Option.map_eq_some_iff] at hv
    obtain ⟨x, hx, rfl⟩ := hv
    refine Or.inl ⟨i, x, hw, hx, ?_⟩
    rw [← hU.getElem?_stmtKey, hdb]
    constructor
    · intro hser
      obtain ⟨u, rfl, hu⟩ := Option.map_eq_some_iff.mp hser
      rw [statementCodec.serialize_injective hu]
    · rintro rfl
      rfl
  · refine Or.inr ⟨fun i hw => ?_, ?_⟩
    · have hi := hnone i hw
      rwa [ho i hw, Option.map_eq_none_iff] at hi
    · rw [← hU.getElem?_stmtKey, hdb, hS.getElem?_stmtKey]

end SystemInv

/-! ## Parallel imports -/

theorem TermCollisionFree.key_inj {T U : Set Statement} (h : TermCollisionFree T U) {s t : Statement}
    (hs : s ∈ T) (ht : t ∈ U) (hk : stmtKey .SPOC s = stmtKey .SPOC t) : s = t := by
  have hhash := (stmtKey_inj_iff .SPOC).mp hk
  have h1 := h.subject s hs t ht (hhash .S)
  have h2 := h.predicate s hs t ht (hhash .P)
  have h3 := h.object s hs t ht (hhash .O)
  have h4 := h.context s hs t ht (hhash .C)
  cases s
  cases t
  simp_all

/-- A call that only adds puts one of its statements under a key, if one has the key. -/
theorem Possible.of_adds {t : Statement} {l : List Statement} {o : Option (Option Statement)}
    (h : Possible t (l.map .stmtAdded) o) :
    (∃ x ∈ l, stmtKey .SPOC x = stmtKey .SPOC t ∧ o = some (some x)) ∨
      (o = none ∧ ∀ x ∈ l, stmtKey .SPOC x ≠ stmtKey .SPOC t) := by
  cases hl : lastWrite (keyEffect t) (l.map .stmtAdded) with
  | none =>
    refine Or.inr ⟨h.untouched hl, fun x hx hk => ?_⟩
    have hx' := lastWrite_eq_none_iff.mp hl (.stmtAdded x) (List.mem_map_of_mem hx)
    rw [keyEffect_eq_put_iff.mpr ⟨rfl, hk⟩] at hx'
    cases hx'
  | some e =>
    obtain ⟨pre, r, post, hreq, hr, -⟩ := lastWrite_eq_some_iff.mp hl
    have hmem : r ∈ l.map UpdateRequest.stmtAdded := by rw [hreq]; simp
    obtain ⟨x, hx, rfl⟩ := List.mem_map.mp hmem
    cases e with
    | none =>
      obtain ⟨pattern, hp, -⟩ := keyEffect_eq_delete_iff.mp hr
      cases hp
    | some y =>
      obtain ⟨hxy, hk⟩ := keyEffect_eq_put_iff.mp hr
      obtain rfl : x = y := UpdateRequest.stmtAdded.inj hxy
      exact Or.inl ⟨x, hx, hk, h.added x hl⟩

section Imports

variable {σ : Store} {S : Finset Statement} {lists : ι → List Statement} {s : System ι}

omit [DecidableEq ι] in
/-- At every moment an index holds the old statements and those of the calls that have written it. -/
theorem SystemInv.mem_iff_of_adds (h : SystemInv σ (fun i => .addStatements (lists i)) s)
    (hσ : σ.Represents S)
    (hcf : TermCollisionFree (S ∪ {t | ∃ i, t ∈ lists i}) {t | ∃ i, t ∈ lists i})
    {idx : IndexType} {U : Finset Statement} (hU : Represents (s.store.index idx) idx U)
    {t : Statement} : t ∈ U ↔ t ∈ S ∨ ∃ i, s.Wrote i idx ∧ t ∈ lists i := by
  -- What a call that has written the index makes of the key of `t`.
  have hcall : ∀ i, ∃ o, s.Wrote i idx → Possible t ((lists i).map .stmtAdded) o ∧
      outcome ((s.calls i).batches.stmts.index idx) (stmtKey idx t) =
        o.map (Option.map statementCodec.serialize) := by
    intro i
    by_cases hw : s.Wrote i idx
    · obtain ⟨o, hposs, ho⟩ := h.possible (h.wrote i idx hw) t
      exact ⟨o, fun _ => ⟨hposs, ho idx⟩⟩
    · exact ⟨none, fun hw' => absurd hw' hw⟩
  choose o ho using hcall
  have hinj : ∀ {i x}, x ∈ lists i → (t ∈ S ∨ ∃ i, t ∈ lists i) →
      stmtKey .SPOC x = stmtKey .SPOC t → x = t := by
    intro i x hx ht hk
    exact (hcf.key_inj (by simpa using ht) ⟨i, hx⟩ hk.symm).symm
  rcases h.mem_cases (hσ idx) hU fun i hw => (ho i hw).2 with ⟨i, x, hw, hx, hmem⟩ | ⟨hnone, hmem⟩
  · rw [hmem]
    rcases (ho i hw).1.of_adds with ⟨y, hy, hk, hoy⟩ | ⟨hn, -⟩
    · obtain rfl : some y = x := Option.some.inj (hoy.symm.trans hx)
      rw [Option.some.injEq]
      constructor
      · rintro rfl
        exact Or.inr ⟨i, hw, hy⟩
      · rintro (ht | ⟨j, -, ht⟩)
        · exact hinj hy (Or.inl ht) hk
        · exact hinj hy (Or.inr ⟨j, ht⟩) hk
    · rw [hn] at hx
      cases hx
  · rw [hmem]
    refine ⟨Or.inl, ?_⟩
    rintro (ht | ⟨i, hw, ht⟩)
    · exact ht
    · rcases (ho i hw).1.of_adds with ⟨y, -, -, hoy⟩ | ⟨-, hne⟩
      · rw [hnone i hw] at hoy
        cases hoy
      · exact absurd rfl (hne t ht)

/-- Imports that run in parallel lose nothing: at every moment each index represents a set between
the old statements and the union of all, and the union when all calls have returned. -/
theorem exec_addStatements [Fintype ι] (hσ : σ.Represents S)
    (hcf : TermCollisionFree (S ∪ {t | ∃ i, t ∈ lists i}) {t | ∃ i, t ∈ lists i})
    {events : List (Event ι)}
    (h : (System.start σ fun i => .addStatements (lists i)).exec events = some s) :
    (∀ idx, ∃ U, Represents (s.store.index idx) idx U ∧ S ⊆ U ∧
      U ⊆ S ∪ Finset.univ.biUnion fun i => (lists i).toFinset) ∧
    (s.Done → s.store.Represents (S ∪ Finset.univ.biUnion fun i => (lists i).toFinset)) := by
  have hinv := SystemInv.exec (fun idx => ⟨S, hσ idx⟩) h
  have hmem := fun {idx U} (hU : Represents (s.store.index idx) idx U) {t} =>
    hinv.mem_iff_of_adds hσ hcf hU (t := t)
  constructor
  · intro idx
    obtain ⟨U, hU⟩ := hinv.index idx
    refine ⟨U, hU, ?_, ?_⟩
    · intro t ht
      exact (hmem hU).mpr (Or.inl ht)
    · intro t ht
      rcases (hmem hU).mp ht with ht | ⟨i, -, ht⟩
      · exact Finset.mem_union_left _ ht
      · refine Finset.mem_union_right _ (Finset.mem_biUnion.mpr ⟨i, Finset.mem_univ i, ?_⟩)
        exact List.mem_toFinset.mpr ht
  · intro hdone idx
    obtain ⟨U, hU⟩ := hinv.index idx
    have hU' : U = S ∪ Finset.univ.biUnion fun i => (lists i).toFinset := by
      ext t
      rw [hmem hU]
      simp [hdone.wrote]
    exact hU' ▸ hU

end Imports

/-! ## Calls with removals -/

theorem CompatibleAt.eq_of_possible {t : Statement} {a b : List UpdateRequest}
    (h : CompatibleAt t a b) {x y : Option Statement} (ha : Possible t a (some x))
    (hb : Possible t b (some y)) : x = y := by
  rcases h with h | h | h | ⟨u, hua, hub⟩
  · exact absurd (ha.untouched (lastWrite_eq_none_iff.mpr h)) (by simp)
  · exact absurd (hb.untouched (lastWrite_eq_none_iff.mpr h)) (by simp)
  · have hx := ha.removed fun u hu => h u (List.mem_append_left _ hu)
    have hy := hb.removed fun u hu => h u (List.mem_append_right _ hu)
    simp only [reduceCtorEq, Option.some.injEq, false_or] at hx hy
    rw [hx, hy]
  · exact Option.some.inj ((ha.added u hua).trans (hb.added u hub).symm)

omit [DecidableEq ι] in
theorem SystemInv.indexesAgree {σ : Store} {calls : ι → Call} {s : System ι}
    (h : SystemInv σ calls s) (hσ : σ.IndexesAgree)
    (hcomp : ∀ t i j, i ≠ j → CompatibleAt t (calls i).op.requests (calls j).op.requests)
    (hdone : s.Done) : s.store.IndexesAgree := by
  obtain ⟨S, hS⟩ := hσ
  choose o hposs ho using fun i t => h.possible (hdone i).1 t
  have hagree : ∀ t i j x y, o i t = some x → o j t = some y → x = y := by
    intro t i j x y hx hy
    by_cases hij : i = j
    · subst hij
      exact Option.some.inj (hx.symm.trans hy)
    · exact (hcomp t i j hij).eq_of_possible (hx ▸ hposs i t) (hy ▸ hposs j t)
  -- Which statements an index holds does not depend on the index.
  have hmem : ∀ idx U, Represents (s.store.index idx) idx U → ∀ t,
      t ∈ U ↔ (∃ i, o i t = some (some t)) ∨ ((∀ i, o i t = none) ∧ t ∈ S) := by
    intro idx U hU t
    rcases h.mem_cases (hS idx) hU fun i _ => ho i t idx with
      ⟨i, x, -, hx, hmem⟩ | ⟨hnone, hmem⟩
    · rw [hmem]
      constructor
      · rintro rfl
        exact Or.inl ⟨i, hx⟩
      · rintro (⟨j, hj⟩ | ⟨hall, -⟩)
        · exact hagree t i j x (some t) hx hj
        · rw [hall i] at hx
          cases hx
    · have hall : ∀ i, o i t = none := fun i => hnone i (hdone.wrote i idx)
      rw [hmem]
      constructor
      · exact fun ht => Or.inr ⟨hall, ht⟩
      · rintro (⟨j, hj⟩ | ⟨-, ht⟩)
        · rw [hall j] at hj
          cases hj
        · exact ht
  obtain ⟨U, hU⟩ := h.index .SPOC
  refine ⟨U, fun idx => ?_⟩
  obtain ⟨U', hU'⟩ := h.index idx
  have heq : U' = U := by
    ext t
    rw [hmem idx U' hU', hmem .SPOC U hU]
  exact heq ▸ hU'

/-- Two concurrent calls that are compatible on every key leave indexes that agree, whatever the
interleaving. -/
theorem exec_indexesAgree_of_compatible {σ : Store} (hσ : σ.IndexesAgree) {a b : Call}
    (hab : ∀ t, CompatibleAt t a.op.requests b.op.requests) {events : List (Event Bool)}
    {s : System Bool} (h : (System.start σ (.pair a b)).exec events = some s)
    (hdone : s.Done) : s.store.IndexesAgree := by
  have hinv := SystemInv.exec (fun idx => hσ.imp fun S hS => hS idx) h
  refine hinv.indexesAgree hσ (fun t i j hij => ?_) hdone
  have hba : CompatibleAt t b.op.requests a.op.requests := by
    rcases hab t with h | h | h | ⟨u, hu, hu'⟩
    · exact Or.inr (Or.inl h)
    · exact Or.inl h
    · exact Or.inr (Or.inr (Or.inl fun u hu => h u (by simpa [or_comm] using hu)))
    · exact Or.inr (Or.inr (Or.inr ⟨u, hu', hu⟩))
  cases i <;> cases j
  · exact absurd rfl hij
  · exact hab t
  · exact hba
  · exact absurd rfl hij

theorem Store.Represents.isSome_index {σ : Store} {S : Finset Statement} (h : σ.Represents S)
    (t : Statement) (idx : IndexType) :
    (σ.index idx)[stmtKey idx t]?.isSome = (σ.index .SPOC)[stmtKey .SPOC t]?.isSome := by
  rw [Bool.eq_iff_iff, Option.isSome_iff_exists, Option.isSome_iff_exists]
  constructor
  · rintro ⟨v, hv⟩
    obtain ⟨u, hu, hk, rfl⟩ := (h idx _ _).mp hv
    exact ⟨_, (h .SPOC _ _).mpr ⟨u, hu, (stmtKey_eq_iff_spoc idx).mp hk, rfl⟩⟩
  · rintro ⟨v, hv⟩
    obtain ⟨u, hu, hk, rfl⟩ := (h .SPOC _ _).mp hv
    exact ⟨_, (h idx _ _).mpr ⟨u, hu, (stmtKey_eq_iff_spoc idx).mpr hk, rfl⟩⟩

end Interleaving

def System.returned (s : System Bool) : Bool :=
  [false, true].all fun i => (s.calls i).todo.isEmpty && (s.calls i).unwritten.isEmpty

theorem System.done_of_returned {s : System Bool} (h : s.returned = true) : s.Done := by
  simp only [returned, List.all_cons, List.all_nil, Bool.and_true, Bool.and_eq_true,
    List.isEmpty_iff] at h
  intro i
  cases i
  · exact h.1
  · exact h.2

/-- A stored statement, in one call. -/
def storeOne : List Op := [.addStatements [.ofUris "urn:s" "urn:p" "urn:o"]]

/-- The stored statement is removed while another one is added. -/
def removeAndAdd : Bool → Call :=
  .pair (.removeStatements (.ofUris "urn:s" "urn:p" "urn:o"))
    (.addStatements [.ofUris "urn:t" "urn:p" "urn:o"])

def interleaved : List (Event Bool) :=
  [.collect true, .write true (.stmt .OPSC), .collect false, .write false (.stmt .SPOC),
    .write true (.stmt .SPOC), .write true (.stmt .CSPO), .write false (.stmt .CSPO),
    .write false (.stmt .OPSC), .write false (.stmt .PCOS), .write true (.stmt .PCOS)]

theorem exec_interleaved :
    ∃ s, (System.start (run storeOne) removeAndAdd).exec interleaved = some s ∧ s.Done ∧
      getStatements s.store {} = [.ofUris "urn:t" "urn:p" "urn:o"] := by
  have hexec : ((System.start (run storeOne) removeAndAdd).exec interleaved).map
      (fun s => (s.returned, getStatements s.store {})) =
        some (true, [.ofUris "urn:t" "urn:p" "urn:o"]) := by decide +kernel
  obtain ⟨s, hs, hret⟩ := Option.map_eq_some_iff.mp hexec
  obtain ⟨hreturned, hstored⟩ := Prod.mk.inj hret
  exact ⟨s, hs, System.done_of_returned hreturned, hstored⟩

theorem apart_removeAndAdd (t : Statement) :
    (∀ r ∈ (removeAndAdd false).op.requests, keyEffect t r = none) ∨
      ∀ r ∈ (removeAndAdd true).op.requests, keyEffect t r = none := by
  have hsel : ¬ Selects (.ofUris "urn:s" "urn:p" "urn:o") (.ofUris "urn:t" "urn:p" "urn:o") := by
    decide +kernel
  by_cases hk : stmtKey .SPOC (.ofUris "urn:t" "urn:p" "urn:o") = stmtKey .SPOC t
  · refine Or.inl fun r hr => ?_
    obtain rfl := List.mem_singleton.mp hr
    rw [keyEffect, if_neg (mt (selects_congr hk).mpr hsel)]
  · refine Or.inr fun r hr => ?_
    obtain rfl := List.mem_singleton.mp hr
    rw [keyEffect, if_neg hk]

/-- A stored statement is removed while another one is added, with the steps of the two calls
mixed. -/
theorem exec_indexesAgree_of_disjoint :
    getStatements (run storeOne) {} = [.ofUris "urn:s" "urn:p" "urn:o"] ∧
    ∃ s, (System.start (run storeOne) removeAndAdd).exec interleaved = some s ∧ s.Done ∧
      getStatements s.store {} = [.ofUris "urn:t" "urn:p" "urn:o"] ∧ s.store.IndexesAgree := by
  obtain ⟨s, hs, hdone, hstored⟩ := exec_interleaved
  obtain ⟨S, hS, -⟩ := run_represents storeOne
  refine ⟨by decide +kernel, s, hs, hdone, hstored,
    exec_indexesAgree_of_compatible ⟨S, hS⟩ (fun t => ?_) hs hdone⟩
  exact (apart_removeAndAdd t).imp_right Or.inl

/-- One update adds a stored statement again while another removes it. In the OPSC index the removal
is written first, in the other indexes last. -/
theorem exec_indexes_differ :
    (run [.addStatements [.ofUris "urn:s" "urn:p" "urn:o"]]).IndexesAgree ∧
    ∃ events s, (System.start (run [.addStatements [.ofUris "urn:s" "urn:p" "urn:o"]]) (.pair
        (.update [.stmtAdded (.ofUris "urn:s" "urn:p" "urn:o")])
        (.update [.stmtRemoved (.ofUris "urn:s" "urn:p" "urn:o")]))).exec events = some s ∧
      s.Done ∧ ¬ s.store.IndexesAgree := by
  have hexec : ((System.start (run [.addStatements [.ofUris "urn:s" "urn:p" "urn:o"]]) (.pair
      (.update [.stmtAdded (.ofUris "urn:s" "urn:p" "urn:o")])
      (.update [.stmtRemoved (.ofUris "urn:s" "urn:p" "urn:o")]))).exec
        [.collect false, .collect true,
          .write true (.stmt .OPSC), .write false (.stmt .OPSC),
          .write false (.stmt .SPOC), .write true (.stmt .SPOC),
          .write false (.stmt .CSPO), .write true (.stmt .CSPO),
          .write false (.stmt .PCOS), .write true (.stmt .PCOS),
          .write false (.ns .byPrefix), .write true (.ns .byPrefix),
          .write false (.ns .byUrl), .write true (.ns .byUrl)]).map
        (fun s => (s.returned,
          (s.store.index .OPSC)[stmtKey .OPSC (.ofUris "urn:s" "urn:p" "urn:o")]?.isSome,
          (s.store.index .SPOC)[stmtKey .SPOC (.ofUris "urn:s" "urn:p" "urn:o")]?.isSome)) =
      some (true, true, false) := by decide +kernel
  obtain ⟨s, hs, hret⟩ := Option.map_eq_some_iff.mp hexec
  simp only [Prod.mk.injEq] at hret
  obtain ⟨S, hS, -⟩ := run_represents [.addStatements [.ofUris "urn:s" "urn:p" "urn:o"]]
  refine ⟨⟨S, hS⟩, _, s, hs, System.done_of_returned hret.1, ?_⟩
  rintro ⟨U, hU⟩
  have hidx := hU.isSome_index (.ofUris "urn:s" "urn:p" "urn:o") .OPSC
  rw [hret.2.1, hret.2.2] at hidx
  cases hidx

/-- Two imports that overlap, started on an empty store, with their steps mixed. -/
theorem exec_addStatements_overlap :
    ∃ events s, (System.start Store.empty fun i : Bool => .addStatements
        (cond i [.ofUris "urn:t" "urn:p" "urn:o"]
          [.ofUris "urn:s" "urn:p" "urn:o", .ofUris "urn:t" "urn:p" "urn:o"])).exec events =
        some s ∧
      s.store.Represents (∅ ∪ Finset.univ.biUnion fun i : Bool =>
        (cond i [Statement.ofUris "urn:t" "urn:p" "urn:o"]
          [.ofUris "urn:s" "urn:p" "urn:o", .ofUris "urn:t" "urn:p" "urn:o"]).toFinset) := by
  have hexec : ((System.start Store.empty fun i : Bool => .addStatements
      (cond i [.ofUris "urn:t" "urn:p" "urn:o"]
        [.ofUris "urn:s" "urn:p" "urn:o", .ofUris "urn:t" "urn:p" "urn:o"])).exec
        [.collect false, .collect true, .write true (.stmt .SPOC), .collect false,
          .write false (.stmt .SPOC), .write false (.stmt .CSPO), .write true (.stmt .CSPO),
          .write true (.stmt .OPSC), .write false (.stmt .OPSC), .write true (.stmt .PCOS),
          .write false (.stmt .PCOS)]).map System.returned = some true := by decide +kernel
  obtain ⟨s, hs, hret⟩ := Option.map_eq_some_iff.mp hexec
  refine ⟨_, s, hs, (exec_addStatements Store.Represents.empty ?_ hs).2
    (System.done_of_returned hret)⟩
  have hmem : ∀ t : Statement, (∃ i : Bool, t ∈ cond i [Statement.ofUris "urn:t" "urn:p" "urn:o"]
      [.ofUris "urn:s" "urn:p" "urn:o", .ofUris "urn:t" "urn:p" "urn:o"]) →
      t ∈ [Statement.ofUris "urn:s" "urn:p" "urn:o", .ofUris "urn:t" "urn:p" "urn:o"] := by
    rintro t ⟨i, ht⟩
    cases i
    · exact ht
    · exact List.mem_cons_of_mem _ ht
  have hmem' : ∀ t, t ∈ ((∅ : Finset Statement) : Set Statement) ∪ {t | ∃ i : Bool, t ∈ cond i
      [Statement.ofUris "urn:t" "urn:p" "urn:o"]
      [.ofUris "urn:s" "urn:p" "urn:o", .ofUris "urn:t" "urn:p" "urn:o"]} →
      t ∈ [Statement.ofUris "urn:s" "urn:p" "urn:o", .ofUris "urn:t" "urn:p" "urn:o"] := by
    rintro t (ht | ht)
    · exact absurd ht (by simp)
    · exact hmem t ht
  have hcf : ∀ a ∈ [Statement.ofUris "urn:s" "urn:p" "urn:o", .ofUris "urn:t" "urn:p" "urn:o"],
      ∀ b ∈ [Statement.ofUris "urn:s" "urn:p" "urn:o", .ofUris "urn:t" "urn:p" "urn:o"],
        (stmtHash a .S = stmtHash b .S → a.subject = b.subject) ∧
        (stmtHash a .P = stmtHash b .P → a.predicate = b.predicate) ∧
        (stmtHash a .O = stmtHash b .O → a.object = b.object) ∧
        (stmtHash a .C = stmtHash b .C → a.context = b.context) := by decide +kernel
  exact ⟨fun a ha b hb => (hcf a (hmem' a ha) b (hmem b hb)).1,
    fun a ha b hb => (hcf a (hmem' a ha) b (hmem b hb)).2.1,
    fun a ha b hb => (hcf a (hmem' a ha) b (hmem b hb)).2.2.1,
    fun a ha b hb => (hcf a (hmem' a ha) b (hmem b hb)).2.2.2⟩

end CMarmotta
