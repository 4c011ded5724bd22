import CMarmotta.Persistence.Proofs.ConcurrentProofs

/-!
# Isolation of concurrent calls

Calls that run at the same time are isolated from each other as far as they are about different
keys. What a call makes of a key that no other call is about is what it makes of the key when it
runs alone; each index shows it from the moment its batch is written, and before that what was
there (`exec_isolated`). If no key is shared at all, the calls are serializable: they leave what they
leave one after another, in whatever order (`exec_serializable`).
-/

namespace CMarmotta

open KV

section Isolation

variable [Platform] {ι : Type} [DecidableEq ι]

open Platform

/-- No request of the stream is about the key of the statement. -/
def Spares (t : Statement) (it : List UpdateRequest) : Prop := ∀ r ∈ it, keyEffect t r = none

namespace SystemInv

variable {σ : Store} {calls : ι → Call} {s : System ι} {i : ι} {t : Statement}

omit [DecidableEq ι] in
theorem outcome_of_spares (h : SystemInv σ calls s) {j : ι} {idx : IndexType} (hw : s.Wrote j idx)
    (hspares : Spares t (calls j).op.requests) :
    outcome ((s.calls j).batches.stmts.index idx) (stmtKey idx t) = none := by
  obtain ⟨o, hposs, ho⟩ := h.possible (h.wrote j idx hw) t
  rw [ho, hposs.untouched (lastWrite_eq_none_iff.mpr hspares)]
  rfl

omit [DecidableEq ι] in
/-- Only one call decides what becomes of a key that no other call is about. -/
theorem getElem?_index (h : SystemInv σ calls s)
    (hspares : ∀ j, j ≠ i → Spares t (calls j).op.requests) (idx : IndexType) :
    (s.Wrote i idx → (s.store.index idx)[stmtKey idx t]? =
      (outcome ((s.calls i).batches.stmts.index idx) (stmtKey idx t)).getD
        (σ.index idx)[stmtKey idx t]?) ∧
    (¬ s.Wrote i idx → (s.store.index idx)[stmtKey idx t]? = (σ.index idx)[stmtKey idx t]?) := by
  have hother : ∀ j, j ≠ i → s.Wrote j idx →
      outcome ((s.calls j).batches.stmts.index idx) (stmtKey idx t) = none :=
    fun j hj hw => h.outcome_of_spares hw (hspares j hj)
  rcases h.written idx (stmtKey idx t) with ⟨j, o, hw, ho, hdb⟩ | ⟨hnone, hdb⟩
  · have hji : j = i := by
      by_contra hne
      rw [hother j hne hw] at ho
      cases ho
    subst hji
    refine ⟨fun _ => ?_, fun hnw => absurd hw hnw⟩
    rw [hdb, ho, Option.getD_some]
  · refine ⟨fun hw => ?_, fun _ => hdb⟩
    rw [hdb, hnone i hw, Option.getD_none]

end SystemInv

/-- Stores that hold the same under the key of a statement, in all indexes, hold the same for a
removal to find. -/
theorem stmtEffect_congr {σ σ' : Store} (hσ : ∀ idx, ∃ S, Represents (σ.index idx) idx S)
    (hσ' : ∀ idx, ∃ S, Represents (σ'.index idx) idx S) {t : Statement}
    (heq : ∀ idx, (σ.index idx)[stmtKey idx t]? = (σ'.index idx)[stmtKey idx t]?)
    (idx : IndexType) (r : UpdateRequest) :
    stmtEffect σ idx (stmtKey idx t) r = stmtEffect σ' idx (stmtKey idx t) r := by
  cases r with
  | stmtRemoved pattern =>
    obtain ⟨S, hS⟩ := hσ (indexType pattern)
    obtain ⟨S', hS'⟩ := hσ' (indexType pattern)
    have hmem : ∀ u, stmtKey idx u = stmtKey idx t →
        (u ∈ getStatements σ pattern ↔ u ∈ getStatements σ' pattern) := by
      intro u hkey
      have hkey' : stmtKey (indexType pattern) u = stmtKey (indexType pattern) t :=
        (stmtKey_eq_iff_spoc _).mpr ((stmtKey_eq_iff_spoc idx).mp hkey)
      rw [mem_getStatements_of_index hS, mem_getStatements_of_index hS', ← hS.getElem?_stmtKey,
        ← hS'.getElem?_stmtKey, hkey', heq]
    have hex : (∃ u ∈ getStatements σ pattern, stmtKey idx u = stmtKey idx t) ↔
        ∃ u ∈ getStatements σ' pattern, stmtKey idx u = stmtKey idx t :=
      exists_congr fun u => and_congr_left (hmem u)
    simp only [stmtEffect, hex]
  | _ => rfl

/-- The batches of a call hold for the key of a statement what the requests treated so far make of
it in the store before the calls. -/
def Alone (σ : Store) (t : Statement) (requests : List UpdateRequest) (c : CallState) : Prop :=
  ∃ treated, requests = treated ++ c.todo ∧ ∀ idx,
    outcome (c.batches.stmts.index idx) (stmtKey idx t) =
      (lastWrite (stmtEffect σ idx (stmtKey idx t)) treated).map (Option.map statementCodec.serialize)

theorem Alone.collect {σ σ' : Store} {t : Statement} {requests rest : List UpdateRequest}
    {c : CallState} {r : UpdateRequest} (h : Alone σ t requests c) (htodo : c.todo = r :: rest)
    (heffect : ∀ idx, stmtEffect σ' idx (stmtKey idx t) r = stmtEffect σ idx (stmtKey idx t) r) :
    Alone σ t requests { c with todo := rest, batches := updateStep σ' c.batches r } := by
  obtain ⟨treated, hreq, hbatch⟩ := h
  refine ⟨treated ++ [r], ?_, fun idx => ?_⟩
  · rw [hreq, htodo, List.append_assoc, List.singleton_append]
  · rw [index_updateStep, outcome_append, outcome_stmtOps, hbatch, heffect, lastWrite_concat,
      Option.map_or]

section Exec

variable {σ : Store} {S : Finset Statement} {calls : ι → Call} {s : System ι} {i : ι} {t : Statement}

/-- As long as a call collects its changes, the others leave the key as it was. -/
theorem alone_exec (hσ : ∀ idx, ∃ S, Represents (σ.index idx) idx S) {events : List (Event ι)}
    (h : (System.start σ calls).exec events = some s)
    (hspares : ∀ j, j ≠ i → Spares t (calls j).op.requests) :
    SystemInv σ calls s ∧ Alone σ t (calls i).op.requests (s.calls i) := by
  refine System.exec_invariant (P := fun s => SystemInv σ calls s ∧
    Alone σ t (calls i).op.requests (s.calls i)) ?_ h ⟨SystemInv.start hσ, [], rfl, fun idx => ?_⟩
  · rintro s e s' ⟨hinv, halone⟩ hstep
    obtain ⟨j, r, rest, -, htodo, rfl⟩ | ⟨j, db, -, htodo, -, rfl⟩ := System.step_cases hstep
    · refine ⟨hinv.collect htodo, ?_⟩
      by_cases hj : j = i
      · subst hj
        have hkept : ∀ idx, (s.store.index idx)[stmtKey idx t]? = (σ.index idx)[stmtKey idx t]? := by
          intro idx
          refine (hinv.getElem?_index hspares idx).2 fun hw => ?_
          rw [hinv.wrote j idx hw] at htodo
          cases htodo
        rw [System.treat_calls_self]
        exact halone.collect htodo fun idx => stmtEffect_congr hinv.index hσ hkept idx r
      · rw [System.treat_calls_of_ne s j r rest (Ne.symm hj)]
        exact halone
    · refine ⟨hinv.write htodo, ?_⟩
      obtain ⟨treated, hreq, hbatch⟩ := halone
      refine ⟨treated, ?_, ?_⟩
      · rw [System.writeBatch_todo, hreq]
      · rw [System.writeBatch_batches]
        exact hbatch
  · show outcome (({} : StmtBatches).index idx) _ = _
    rw [index_emptyBatches, outcome_nil]
    rfl

/-- At every moment an index has under the key of a statement, that no other call is about, what was
there or what the call makes of it when it runs alone. -/
theorem getElem?_exec (hσ : ∀ idx, ∃ S, Represents (σ.index idx) idx S) {events : List (Event ι)}
    (h : (System.start σ calls).exec events = some s)
    (hspares : ∀ j, j ≠ i → Spares t (calls j).op.requests) (idx : IndexType) :
    (s.store.index idx)[stmtKey idx t]? =
      if .stmt idx ∈ (s.calls i).unwritten then (σ.index idx)[stmtKey idx t]?
      else (((calls i).op.apply σ).index idx)[stmtKey idx t]? := by
  obtain ⟨hinv, treated, hreq, hbatch⟩ := alone_exec hσ h hspares
  obtain ⟨hwrote, hnot⟩ := hinv.getElem?_index hspares idx
  by_cases hmem : .stmt idx ∈ (s.calls i).unwritten
  · rw [if_pos hmem]
    exact hnot fun hw => hw hmem
  · rw [if_neg hmem, hwrote hmem, hbatch, Op.apply_eq_update, getElem?_index_update, hreq,
      hinv.wrote i idx hmem, List.append_nil]

end Exec

/-! ## Where statements come from -/

/-- A call adds the statement. -/
def Adds (calls : ι → Call) (u : Statement) : Prop := ∃ j, .stmtAdded u ∈ (calls j).op.requests

/-- Batches and indexes hold only what was there or is added. -/
structure Sourced (σ : Store) (calls : ι → Call) (s : System ι) : Prop where
  todo : ∀ i, ∀ r ∈ (s.calls i).todo, r ∈ (calls i).op.requests
  batch : ∀ i idx, ∀ op ∈ (s.calls i).batches.stmts.index idx, ∀ v, op.value? = some v →
    ∃ u, Adds calls u ∧ stmtKey idx u = op.key ∧ statementCodec.serialize u = v
  index : ∀ idx k v, (s.store.index idx)[k]? = some v → (σ.index idx)[k]? = some v ∨
    ∃ u, Adds calls u ∧ stmtKey idx u = k ∧ statementCodec.serialize u = v

namespace Sourced

variable {σ : Store} {calls : ι → Call} {s : System ι}

omit [DecidableEq ι] in
theorem start (σ : Store) (calls : ι → Call) : Sourced σ calls (System.start σ calls) where
  todo _ _ hr := hr
  batch i idx op hop := by
    have hnil : ((System.start σ calls).calls i).batches.stmts.index idx = [] :=
      index_emptyBatches idx
    rw [hnil] at hop
    exact absurd hop List.not_mem_nil
  index _ _ _ hv := Or.inl hv

theorem collect (h : Sourced σ calls s) {i : ι} {r : UpdateRequest} {rest : List UpdateRequest}
    (htodo : (s.calls i).todo = r :: rest) : Sourced σ calls (s.treat i r rest) := by
  have hr : r ∈ (calls i).op.requests := h.todo i r (htodo ▸ List.mem_cons_self)
  refine ⟨fun j => ?_, fun j => ?_, h.index⟩
  · by_cases hj : j = i
    · subst hj
      rw [System.treat_calls_self]
      exact fun r' hr' => h.todo j r' (htodo ▸ List.mem_cons_of_mem r hr')
    · rw [System.treat_calls_of_ne s i r rest hj]
      exact h.todo j
  · by_cases hj : j = i
    · subst hj
      rw [System.treat_calls_self]
      intro idx op hop v hv
      rw [index_updateStep] at hop
      rcases List.mem_append.mp hop with hop | hop
      · exact h.batch j idx op hop v hv
      · obtain ⟨change, hchange, rfl⟩ := List.mem_map.mp hop
        rw [StmtOp.value?_batchOp, Option.map_eq_some_iff] at hv
        obtain ⟨u, hu, rfl⟩ := hv
        obtain rfl := StmtOp.stmt_of_value? hu
        have hadded : change.stmt ∈ (Op.update [r]).added :=
          Op.mem_added (by simpa [Op.stmtOps] using hchange) hu
        have hreq : r = .stmtAdded change.stmt := by
          simpa [Op.added, UpdateRequest.mem_added] using hadded
        exact ⟨change.stmt, ⟨j, hreq ▸ hr⟩, (StmtOp.key_batchOp change idx).symm, rfl⟩
    · rw [System.treat_calls_of_ne s i r rest hj]
      exact h.batch j

theorem write (h : Sourced σ calls s) (i : ι) (db : Database) :
    Sourced σ calls (s.writeBatch i db) := by
  refine ⟨fun j => ?_, fun j => ?_, fun idx k v hv => ?_⟩
  · rw [System.writeBatch_todo]
    exact h.todo j
  · rw [System.writeBatch_batches]
    exact h.batch j
  · rw [show (s.writeBatch i db).store = s.store.writeDatabase (s.calls i).batches db from rfl,
      index_writeDatabase] at hv
    by_cases hdb : db = .stmt idx
    · rw [if_pos hdb, getElem?_write] at hv
      cases ho : outcome ((s.calls i).batches.stmts.index idx) k with
      | none =>
        rw [ho, Option.getD_none] at hv
        exact h.index idx k v hv
      | some o =>
        rw [ho, Option.getD_some] at hv
        obtain ⟨op, hop, rfl, hvalue⟩ := exists_mem_of_outcome ho
        exact Or.inr (h.batch i idx op hop v (hvalue.trans hv))
    · rw [if_neg hdb] at hv
      exact h.index idx k v hv

theorem exec {events : List (Event ι)} (h : (System.start σ calls).exec events = some s) :
    Sourced σ calls s := by
  refine System.exec_invariant (fun s e s' hs hstep => ?_) h (start σ calls)
  obtain ⟨i, r, rest, -, htodo, rfl⟩ | ⟨i, db, -, -, -, rfl⟩ := System.step_cases hstep
  · exact hs.collect htodo
  · exact hs.write i db

end Sourced

/-! ## Queries -/

section Queries

variable {calls : ι → Call} {s : System ι}

/-- A query that runs at any moment of any interleaving of calls delivers only statements that it
selects and that were there or that one of the calls adds. And it delivers a statement that only one
call is about exactly if it delivers it before the calls or, once the call has written the index of
the query, after that call alone. -/
theorem getStatements_isolated (ops : List Op) {events : List (Event ι)}
    (h : (System.start (run ops) calls).exec events = some s) (pattern : Statement) :
    (∀ t ∈ getStatements s.store pattern, Selects pattern t ∧
      (t ∈ contents (run ops) ∨ ∃ j, .stmtAdded t ∈ (calls j).op.requests)) ∧
    ∀ i t, (∀ j, j ≠ i → ∀ r ∈ (calls j).op.requests, keyEffect t r = none) →
      (t ∈ getStatements s.store pattern ↔
        t ∈ getStatements (if .stmt (indexType pattern) ∈ (s.calls i).unwritten then run ops
          else (calls i).op.apply (run ops)) pattern) := by
  obtain ⟨S, hS, -⟩ := run_represents ops
  have hσ : ∀ idx, ∃ S, Represents ((run ops).index idx) idx S := fun idx => ⟨S, hS idx⟩
  obtain ⟨U, hU⟩ := (SystemInv.exec hσ h).index (indexType pattern)
  refine ⟨fun t ht => ?_, fun i t hspares => ?_⟩
  · obtain ⟨htU, hsel⟩ := (mem_getStatements_of_index hU).mp ht
    refine ⟨hsel, ?_⟩
    rw [hS.contents_eq]
    rcases (Sourced.exec h).index _ _ _ (hU.getElem?_stmtKey t |>.mpr htU) with hold | ⟨u, hadds, -, hu⟩
    · exact Or.inl ((hS _).getElem?_stmtKey t |>.mp hold)
    · exact Or.inr (statementCodec.serialize_injective hu ▸ hadds)
  · have hkey := getElem?_exec hσ h hspares (indexType pattern)
    have hafter := hS.apply (calls i).op
    rw [mem_getStatements_of_index hU, ← hU.getElem?_stmtKey, hkey]
    split
    · rw [hS.mem_getStatements, (hS _).getElem?_stmtKey]
    · rw [hafter.mem_getStatements, (hafter _).getElem?_stmtKey]

end Queries

/-! ## One call -/

section OneCall

variable {c : Call} {s : System Unit}

/-- A query reads one index. -/
theorem getStatements_congr {σ σ' : Store} {pattern : Statement}
    (h : σ'.index (indexType pattern) = σ.index (indexType pattern)) :
    getStatements σ' pattern = getStatements σ pattern := by
  show (rangeIterator (σ'.index (indexType pattern)) _ _).map _ = _
  rw [h]
  rfl

/-- When a call runs alone, each index is as before the call or as after it. -/
theorem index_exec_call {σ : Store} {S : Finset Statement} (hσ : σ.Represents S)
    {events : List (Event Unit)} (h : (System.start σ fun _ => c).exec events = some s)
    (idx : IndexType) :
    s.store.index idx = if .stmt idx ∈ (s.calls ()).unwritten then σ.index idx
      else (c.op.apply σ).index idx := by
  have hrep : ∀ idx, ∃ S, Represents (σ.index idx) idx S := fun idx => ⟨S, hσ idx⟩
  have hkey : ∀ t, (s.store.index idx)[stmtKey idx t]? =
      if .stmt idx ∈ (s.calls ()).unwritten then (σ.index idx)[stmtKey idx t]?
      else ((c.op.apply σ).index idx)[stmtKey idx t]? :=
    fun t => getElem?_exec hrep h (fun j hj => absurd rfl hj) idx
  obtain ⟨U, hU⟩ := (SystemInv.exec hrep h).index idx
  split
  · rename_i hmem
    have hUS : U = S := by
      ext t
      rw [← hU.getElem?_stmtKey, hkey, if_pos hmem, (hσ idx).getElem?_stmtKey]
    exact (hUS ▸ hU).db_ext (hσ idx)
  · rename_i hmem
    have hafter := hσ.apply c.op
    have hUS : U = (c.op.stmtOps σ).foldl StmtOp.apply S := by
      ext t
      rw [← hU.getElem?_stmtKey, hkey, if_neg hmem, (hafter idx).getElem?_stmtKey]
    exact (hUS ▸ hU).db_ext (hafter idx)

/-- What is written stays written. -/
theorem not_mem_unwritten_exec {s' : System Unit} {db : Database} {events : List (Event Unit)}
    (h : s.exec events = some s') (hdb : db ∉ (s.calls ()).unwritten) :
    db ∉ (s'.calls ()).unwritten := by
  refine System.exec_invariant (P := fun s => db ∉ (s.calls ()).unwritten) ?_ h hdb
  intro s e s' hs hstep
  obtain ⟨⟨⟩, r, rest, -, -, rfl⟩ | ⟨⟨⟩, db', -, -, -, rfl⟩ := System.step_cases hstep
  · rw [System.treat_unwritten]
    exact hs
  · rw [System.writeBatch_calls_self]
    exact fun hmem => hs (List.mem_of_mem_erase hmem)

/-- A query that runs while a call runs sees all of the call or nothing of it, and after a query that
has seen something of it, the queries that use the same index see all of it. -/
theorem getStatements_during_call (ops : List Op) {events : List (Event Unit)}
    (h : (System.start (run ops) fun _ => c).exec events = some s) (pattern : Statement) :
    (getStatements s.store pattern = getStatements (run ops) pattern ∨
      getStatements s.store pattern = getStatements (c.op.apply (run ops)) pattern) ∧
    ∀ events' s' pattern', s.exec events' = some s' → indexType pattern' = indexType pattern →
      getStatements s.store pattern ≠ getStatements (run ops) pattern →
      getStatements s'.store pattern' = getStatements (c.op.apply (run ops)) pattern' := by
  obtain ⟨S, hS, -⟩ := run_represents ops
  have hindex := index_exec_call hS h (indexType pattern)
  refine ⟨?_, fun events' s' pattern' h' htype hseen => ?_⟩
  · split at hindex
    · exact Or.inl (getStatements_congr hindex)
    · exact Or.inr (getStatements_congr hindex)
  · have hwritten : .stmt (indexType pattern) ∉ (s.calls ()).unwritten := by
      intro hmem
      rw [if_pos hmem] at hindex
      exact hseen (getStatements_congr hindex)
    have hboth : (System.start (run ops) fun _ => c).exec (events ++ events') = some s' := by
      rw [System.exec, List.foldlM_append]
      exact Option.bind_eq_some_iff.mpr ⟨s, h, h'⟩
    have hindex' := index_exec_call hS hboth (indexType pattern')
    rw [htype, if_neg (not_mem_unwritten_exec h' hwritten), ← htype] at hindex'
    exact getStatements_congr hindex'

end OneCall

/-! ## Serial orders -/

section Serial

variable {σ : Store} {S : Finset Statement} {calls : ι → Call} {s : System ι} {t : Statement}

omit [DecidableEq ι] in
/-- The store after calls executed one after another. -/
def serial (calls : ι → Call) (σ : Store) (order : List ι) : Store :=
  order.foldl (fun σ i => (calls i).op.apply σ) σ

omit [DecidableEq ι] in
theorem represents_serial (hσ : σ.Represents S) (calls : ι → Call) (order : List ι) :
    ∃ S', (serial calls σ order).Represents S' := by
  induction order generalizing σ S with
  | nil => exact ⟨S, hσ⟩
  | cons i order ih => exact ih (hσ.apply (calls i).op)

theorem stmtAt_apply_of_spares (hσ : σ.Represents S) {c : Call} (h : Spares t c.op.requests) :
    stmtAt (c.op.apply σ) t = stmtAt σ t := by
  have hnone : ∀ r ∈ c.op.requests, stmtEffect σ .SPOC (stmtKey .SPOC t) r = none := by
    intro r hr
    rw [hσ.stmtEffect_eq, h r hr, ite_self]
  rw [Op.apply_eq_update, Store.Represents.stmtAt_update, lastWrite_eq_none_iff.mpr hnone,
    Option.getD_none]

omit [DecidableEq ι] in
theorem stmtAt_serial_of_spares (hσ : σ.Represents S) {order : List ι}
    (h : ∀ i ∈ order, Spares t (calls i).op.requests) :
    stmtAt (serial calls σ order) t = stmtAt σ t := by
  induction order generalizing σ S with
  | nil => rfl
  | cons i order ih =>
    obtain ⟨hi, horder⟩ := List.forall_mem_cons.mp h
    exact (ih (hσ.apply (calls i).op) horder).trans (stmtAt_apply_of_spares hσ hi)

/-- What a call makes of a key depends only on what is there. -/
theorem stmtAt_apply_congr {σ' : Store} {S' : Finset Statement} (hσ : σ.Represents S)
    (hσ' : σ'.Represents S') (heq : stmtAt σ t = stmtAt σ' t) (c : Call) :
    stmtAt (c.op.apply σ) t = stmtAt (c.op.apply σ') t := by
  have heffect : ∀ r ∈ c.op.requests, stmtEffect σ .SPOC (stmtKey .SPOC t) r =
      stmtEffect σ' .SPOC (stmtKey .SPOC t) r := by
    intro r _
    rw [hσ.stmtEffect_eq, hσ'.stmtEffect_eq, heq]
  rw [Op.apply_eq_update, Op.apply_eq_update, Store.Represents.stmtAt_update,
    Store.Represents.stmtAt_update, lastWrite_congr heffect, heq]

omit [DecidableEq ι] in
/-- A call that is the only one about a key makes of it in any order what it makes of it alone. -/
theorem stmtAt_serial (hσ : σ.Represents S) {order : List ι} (hnodup : order.Nodup) {i : ι}
    (hi : i ∈ order) (hspares : ∀ j, j ≠ i → Spares t (calls j).op.requests) :
    stmtAt (serial calls σ order) t = stmtAt ((calls i).op.apply σ) t := by
  obtain ⟨pre, post, rfl⟩ := List.append_of_mem hi
  have hpre : ∀ j ∈ pre, Spares t (calls j).op.requests := by
    intro j hj
    refine hspares j ?_
    rintro rfl
    exact (List.disjoint_of_nodup_append hnodup) hj List.mem_cons_self
  have hpost : ∀ j ∈ post, Spares t (calls j).op.requests := by
    intro j hj
    refine hspares j ?_
    rintro rfl
    exact (List.nodup_cons.mp (List.nodup_append.mp hnodup).2.1).1 hj
  obtain ⟨S', hS'⟩ := represents_serial hσ calls pre
  have hsplit : serial calls σ (pre ++ i :: post) =
      serial calls ((calls i).op.apply (serial calls σ pre)) post := by
    rw [serial, List.foldl_append]
    rfl
  rw [hsplit, stmtAt_serial_of_spares (hS'.apply (calls i).op) hpost]
  exact stmtAt_apply_congr hS' hσ (stmtAt_serial_of_spares hσ hpre) (calls i)

omit [DecidableEq ι] in
/-- A key that no call is about keeps what it has. -/
theorem SystemInv.stmtAt_of_spares (h : SystemInv σ calls s)
    (hspares : ∀ i, Spares t (calls i).op.requests) : stmtAt s.store t = stmtAt σ t := by
  rcases h.written .SPOC (stmtKey .SPOC t) with ⟨j, o, hw, ho, -⟩ | ⟨-, hdb⟩
  · rw [h.outcome_of_spares hw (hspares j)] at ho
    cases ho
  · rw [stmtAt, stmtAt, hdb]

/-- When calls that share no key have returned, an index has what it has after the calls one after
another. -/
theorem index_exec_serial (hσ : σ.Represents S)
    (hapart : ∀ t i j, i ≠ j → Spares t (calls i).op.requests ∨ Spares t (calls j).op.requests)
    {events : List (Event ι)} (h : (System.start σ calls).exec events = some s) (hdone : s.Done)
    {order : List ι} (hnodup : order.Nodup) (hall : ∀ i, i ∈ order) (idx : IndexType) :
    s.store.index idx = (serial calls σ order).index idx := by
  have hindexes : ∀ idx, ∃ S, Represents (σ.index idx) idx S := fun idx => ⟨S, hσ idx⟩
  have hinv := SystemInv.exec hindexes h
  have hcomp : ∀ t i j, i ≠ j → CompatibleAt t (calls i).op.requests (calls j).op.requests :=
    fun t i j hij => (hapart t i j hij).elim Or.inl fun hj => Or.inr (Or.inl hj)
  obtain ⟨U, hU⟩ := hinv.indexesAgree ⟨S, hσ⟩ hcomp hdone
  obtain ⟨S', hS'⟩ := represents_serial hσ calls order
  refine (hU.index_eq_iff hS').mpr (fun t => ?_) idx
  by_cases hspares : ∀ i, Spares t (calls i).op.requests
  · rw [hinv.stmtAt_of_spares hspares, stmtAt_serial_of_spares hσ fun i _ => hspares i]
  · obtain ⟨i, hi⟩ := not_forall.mp hspares
    have hothers : ∀ j, j ≠ i → Spares t (calls j).op.requests :=
      fun j hj => (hapart t j i hj).resolve_right hi
    have hkey := getElem?_exec hindexes h hothers .SPOC
    rw [(hdone i).2, if_neg List.not_mem_nil] at hkey
    rw [stmtAt_serial hσ hnodup (hall i) hothers, stmtAt, stmtAt, hkey]

/-- Calls that share no key are serializable: when all have returned, whatever the interleaving, the
indexes hold what they hold after the calls one after another, in any order. -/
theorem exec_serializable (ops : List Op)
    (hapart : ∀ t i j, i ≠ j → (∀ r ∈ (calls i).op.requests, keyEffect t r = none) ∨
      ∀ r ∈ (calls j).op.requests, keyEffect t r = none)
    {events : List (Event ι)} (h : (System.start (run ops) calls).exec events = some s)
    (hdone : s.Done) {order : List ι} (hnodup : order.Nodup) (hall : ∀ i, i ∈ order)
    (idx : IndexType) : s.store.index idx = (serial calls (run ops) order).index idx := by
  obtain ⟨S, hS, -⟩ := run_represents ops
  exact index_exec_serial hS hapart h hdone hnodup hall idx

end Serial

end Isolation

theorem getStatements_isolated_interleaved :
    ∃ s, (System.start (run storeOne) removeAndAdd).exec (interleaved.take 4) = some s ∧
      (.ofUris "urn:s" "urn:p" "urn:o" ∈ getStatements s.store { predicate := some ⟨"urn:p"⟩ } ↔
        .ofUris "urn:s" "urn:p" "urn:o" ∈ getStatements
          (if .stmt .PCOS ∈ (s.calls false).unwritten then run storeOne
            else (removeAndAdd false).op.apply (run storeOne)) { predicate := some ⟨"urn:p"⟩ }) := by
  have hexec : ((System.start (run storeOne) removeAndAdd).exec (interleaved.take 4)).isSome :=
    by decide +kernel
  obtain ⟨s, hs⟩ := Option.isSome_iff_exists.mp hexec
  refine ⟨s, hs, (getStatements_isolated storeOne hs _).2 false _ ?_⟩
  have hspares : ∀ r ∈ (removeAndAdd true).op.requests,
      keyEffect (.ofUris "urn:s" "urn:p" "urn:o") r = none := by decide +kernel
  rintro (_ | _) hj
  · exact absurd rfl hj
  · exact hspares

theorem getStatements_during_removal :
    ∃ s, (System.start (run storeOne) fun _ : Unit => removeAndAdd false).exec
        [.collect (), .write () (.stmt .CSPO)] = some s ∧
      (getStatements s.store {} = getStatements (run storeOne) {} ∨
        getStatements s.store {} = getStatements ((removeAndAdd false).op.apply (run storeOne)) {}) := by
  have hexec : ((System.start (run storeOne) fun _ : Unit => removeAndAdd false).exec
      [.collect (), .write () (.stmt .CSPO)]).isSome := by decide +kernel
  obtain ⟨s, hs⟩ := Option.isSome_iff_exists.mp hexec
  exact ⟨s, hs, (getStatements_during_call storeOne hs {}).1⟩

theorem exec_serializable_interleaved :
    ∃ s, (System.start (run storeOne) removeAndAdd).exec interleaved = some s ∧ s.Done ∧
      s.store.index .PCOS = (serial removeAndAdd (run storeOne) [true, false]).index .PCOS := by
  obtain ⟨s, hs, hdone, -⟩ := exec_interleaved
  refine ⟨s, hs, hdone, exec_serializable storeOne ?_ hs hdone (by decide) (by decide) .PCOS⟩
  rintro t (_ | _) (_ | _) hij
  · exact absurd rfl hij
  · exact apart_removeAndAdd t
  · exact (apart_removeAndAdd t).symm
  · exact absurd rfl hij

end CMarmotta
