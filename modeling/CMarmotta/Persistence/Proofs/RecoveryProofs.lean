import CMarmotta.Persistence.Proofs.CrashProofs
import CMarmotta.Persistence.Proofs.IsolationProofs
import CMarmotta.Persistence.Proofs.QueryProofs

/-!
# Calls that are cut short

The databases of a store are written one after another, and nothing records which of them a call has
written when the process stops. All a client can do is to make the call again. This completes it if
it removes nothing, however often the process stops in between (`retry_completes`): the batches are
the same each time, and to write a batch again changes nothing. A removal finds what it removes by a
scan of one index. If that index was written before the process stopped, the call is never completed
(`retry_removal_iff`).
-/

namespace CMarmotta

open KV

section Recovery

variable [Platform]

open Platform

/-! ## All calls are updates -/

/-- The second system is where the first one is, and still has to write at least as much. -/
structure Shadows (s s' : System Unit) : Prop where
  store : s'.store = s.store
  todo : (s'.calls ()).todo = (s.calls ()).todo
  batches : (s'.calls ()).batches = (s.calls ()).batches
  unwritten : ∀ db ∈ (s.calls ()).unwritten, db ∈ (s'.calls ()).unwritten
  nodup : (s.calls ()).unwritten.Nodup

namespace Shadows

variable {s s' t : System Unit}

omit [Platform] in
theorem start (σ : Store) (c : Call) :
    Shadows (System.start σ fun _ => c) (System.start σ fun _ => .update c.op.requests) where
  store := rfl
  todo := rfl
  batches := rfl
  unwritten db _ := Call.mem_writers_update c.op.requests db
  nodup := by cases c <;> simp [System.start, Call.start, Call.writers]

theorem step (h : Shadows s s') {e : Event Unit} (hstep : s.step e = some t) :
    ∃ t', s'.step e = some t' ∧ Shadows t t' := by
  obtain ⟨⟨⟩, r, rest, rfl, htodo, rfl⟩ | ⟨⟨⟩, db, rfl, htodo, hdb, rfl⟩ := System.step_cases hstep
  · refine ⟨s'.treat () r rest, ?_, ?_⟩
    · simp only [System.step, h.todo, htodo]
      rfl
    · refine ⟨h.store, ?_, ?_, ?_, ?_⟩
      · rw [System.treat_calls_self, System.treat_calls_self]
      · rw [System.treat_calls_self, System.treat_calls_self, h.store, h.batches]
      · rw [System.treat_unwritten, System.treat_unwritten]
        exact h.unwritten
      · rw [System.treat_unwritten]
        exact h.nodup
  · refine ⟨s'.writeBatch () db, ?_, ?_⟩
    · rw [System.step, if_pos ⟨by rw [h.todo, htodo]; rfl, h.unwritten db hdb⟩]
      rfl
    · refine ⟨?_, ?_, ?_, ?_, ?_⟩
      · rw [System.writeBatch, System.writeBatch, h.store, h.batches]
      · rw [System.writeBatch_todo, System.writeBatch_todo, h.todo]
      · rw [System.writeBatch_batches, System.writeBatch_batches, h.batches]
      · rw [System.writeBatch_calls_self, System.writeBatch_calls_self]
        intro db' hdb'
        obtain ⟨hne, hmem⟩ := h.nodup.mem_erase_iff.mp hdb'
        exact (List.mem_erase_of_ne hne).mpr (h.unwritten db' hmem)
      · rw [System.writeBatch_calls_self]
        exact h.nodup.erase db

theorem exec {events : List (Event Unit)} (h : Shadows s s') (hexec : s.exec events = some t) :
    ∃ t', s'.exec events = some t' ∧ Shadows t t' := by
  induction events generalizing s s' with
  | nil =>
    obtain rfl := Option.some.inj hexec
    exact ⟨s', rfl, h⟩
  | cons e events ih =>
    obtain ⟨u, hu, hrest⟩ := Option.bind_eq_some_iff.mp hexec
    obtain ⟨u', hu', hshadows⟩ := h.step hu
    obtain ⟨t', ht', hshadows'⟩ := ih hshadows hrest
    exact ⟨t', Option.bind_eq_some_iff.mpr ⟨u', hu', ht'⟩, hshadows'⟩

end Shadows

/-- What a call leaves at a moment, an update with the requests of the call leaves as well. -/
theorem SoloInv.of_exec {σ : Store} {c : Call} {events : List (Event Unit)} {s : System Unit}
    (h : (System.start σ fun _ => c).exec events = some s) :
    ∃ s', SoloInv σ c.op.requests s' ∧ s'.store = s.store := by
  obtain ⟨s', hs', hshadows⟩ := (Shadows.start σ c).exec h
  exact ⟨s', SoloInv.exec hs', hshadows.store⟩

/-! ## Stops and retries -/

/-- The stores that may be left when the process stops in a call, is started again, and makes the
call again, any number of times. -/
inductive Stopped (c : Call) (σ : Store) : Store → Prop
  | start : Stopped c σ σ
  | stop {σ' : Store} {events : List (Event Unit)} {s : System Unit} (h : Stopped c σ σ')
      (hexec : (System.start σ' fun _ => c).exec events = some s) : Stopped c σ s.store

/-- The requests remove nothing. -/
def OnlyAdds (it : List UpdateRequest) : Prop :=
  (∀ pattern, .stmtRemoved pattern ∉ it) ∧ ∀ pattern, .nsRemoved pattern ∉ it

section Adds

variable {σ σ' : Store} {it : List UpdateRequest}

theorem OnlyAdds.index_update (h : OnlyAdds it) {idx : IndexType}
    (hmid : σ'.index idx = σ.index idx ∨ σ'.index idx = (update σ it).1.index idx) :
    (update σ' it).1.index idx = (update σ it).1.index idx := by
  have hops : it.flatMap (stmtOps σ') = it.flatMap (stmtOps σ) := by
    refine List.flatMap_congr fun r hr => ?_
    cases r with
    | stmtRemoved pattern => exact absurd hr (h.1 pattern)
    | _ => rfl
  rw [CMarmotta.index_update, hops]
  rcases hmid with hmid | hmid
  · rw [hmid, CMarmotta.index_update]
  · rw [hmid, CMarmotta.index_update, write_write_self]

theorem OnlyAdds.nsTable_update (h : OnlyAdds it) {t : NsTable}
    (hmid : σ'.nsTable t = σ.nsTable t ∨ σ'.nsTable t = (update σ it).1.nsTable t) :
    (update σ' it).1.nsTable t = (update σ it).1.nsTable t := by
  have hbatch : it.flatMap (nsBatch σ' t) = it.flatMap (nsBatch σ t) := by
    refine List.flatMap_congr fun r hr => ?_
    cases r with
    | nsRemoved pattern => exact absurd hr (h.2 pattern)
    | _ => rfl
  rw [CMarmotta.nsTable_update, hbatch]
  rcases hmid with hmid | hmid
  · rw [hmid, CMarmotta.nsTable_update]
  · rw [hmid, CMarmotta.nsTable_update, write_write_self]

/-- Every database has what it had, or what the call leaves in it. -/
def Between (σ σ'' : Store) (σ' : Store) : Prop :=
  (∀ idx, σ'.index idx = σ.index idx ∨ σ'.index idx = σ''.index idx) ∧
    ∀ t, σ'.nsTable t = σ.nsTable t ∨ σ'.nsTable t = σ''.nsTable t

theorem OnlyAdds.update_eq (h : OnlyAdds it) (hmid : Between σ (update σ it).1 σ') :
    (update σ' it).1 = (update σ it).1 :=
  Store.eq_iff.mpr ⟨fun idx => h.index_update (hmid.1 idx), fun t => h.nsTable_update (hmid.2 t)⟩

theorem OnlyAdds.between_of_stopped {c : Call} (h : OnlyAdds c.op.requests)
    (hstopped : Stopped c σ σ') : Between σ (update σ c.op.requests).1 σ' := by
  induction hstopped with
  | start => exact ⟨fun _ => Or.inl rfl, fun _ => Or.inl rfl⟩
  | stop _ hexec ih =>
    obtain ⟨s', hinv, hstore⟩ := SoloInv.of_exec hexec
    rw [← hstore]
    refine ⟨fun idx => ?_, fun t => ?_⟩
    · rw [hinv.index]
      split
      · exact ih.1 idx
      · exact Or.inr (h.index_update (ih.1 idx))
    · rw [hinv.nsTable]
      split
      · exact ih.2 t
      · exact Or.inr (h.nsTable_update (ih.2 t))

/-- A call that removes nothing is completed by making it again, wherever and however often the
process has stopped in it. -/
theorem retry_completes {c : Call} (h : OnlyAdds c.op.requests) (hstopped : Stopped c σ σ') :
    c.op.apply σ' = c.op.apply σ := by
  rw [Op.apply_eq_update, Op.apply_eq_update]
  exact h.update_eq (h.between_of_stopped hstopped)

end Adds

section Removal

variable {σ : Store} {S : Finset Statement} {pattern : Statement}

theorem getStatements_removeStatements (hσ : σ.Represents S) :
    getStatements (removeStatements σ pattern).1 pattern = [] := by
  rw [List.eq_nil_iff_forall_not_mem]
  intro u hu
  have hafter := hσ.apply (.removeStatements pattern)
  obtain ⟨hmem, hsel⟩ := hafter.mem_getStatements.mp hu
  rw [Op.stmtOps, foldl_remove, Finset.mem_filter] at hmem
  exact hmem.2 u (hσ.mem_getStatements.mpr ⟨hmem.1, hsel⟩) rfl

theorem removeStatements_of_nil (hnil : getStatements σ pattern = []) :
    (removeStatements σ pattern).1 = σ := by
  refine Store.eq_iff.mpr ⟨fun idx => ?_, fun t => by cases t <;> rfl⟩
  rw [index_removeStatements, hnil]
  rfl

/-- A removal that stops behind the write of one index. -/
theorem exec_removal (σ : Store) (pattern : Statement) (idx : IndexType) :
    (System.start σ fun _ : Unit => .removeStatements pattern).exec
        [.collect (), .write () (.stmt idx)] =
      some (((System.start σ fun _ : Unit => .removeStatements pattern).treat ()
        (.stmtRemoved pattern) []).writeBatch () (.stmt idx)) := by
  have hmem : .stmt idx ∈ (Call.removeStatements pattern).writers := by
    cases idx <;> simp [Call.writers]
  show System.step ((System.start σ fun _ : Unit => .removeStatements pattern).treat ()
    (.stmtRemoved pattern) []) _ >>= pure = _
  rw [System.step, if_pos]
  · rfl
  · rw [System.treat_calls_self]
    exact ⟨rfl, hmem⟩

/-- After such a stop, the index the removal scans has nothing left to find. -/
theorem exists_stopped (σ : Store) (pattern : Statement) :
    ∃ σ', Stopped (.removeStatements pattern) σ σ' ∧
      σ'.index (indexType pattern) = (removeStatements σ pattern).1.index (indexType pattern) ∧
      ∀ idx, idx ≠ indexType pattern → σ'.index idx = σ.index idx := by
  refine ⟨_, .stop .start (exec_removal σ pattern (indexType pattern)), ?_, fun idx hidx => ?_⟩
  all_goals
    rw [System.writeBatch, System.treat_calls_self]
    simp only [System.treat, System.start]
    rw [index_writeDatabase]
  · rw [if_pos rfl, index_removeStatements]
    have hbatch := index_updateStep σ {} (.stmtRemoved pattern) (indexType pattern)
    rw [index_emptyBatches, List.nil_append] at hbatch
    exact congrArg (write _) hbatch
  · rw [if_neg fun heq => hidx (Database.stmt.inj heq).symm]

/-- A removal is completed by making it again, wherever and however often the process has stopped in
it, only if there is nothing to remove. -/
theorem retry_removal_iff (ops : List Op) (pattern : Statement) :
    (∀ σ', Stopped (.removeStatements pattern) (run ops) σ' →
      (removeStatements σ' pattern).1 = (removeStatements (run ops) pattern).1) ↔
    getStatements (run ops) pattern = [] := by
  obtain ⟨S, hS, -⟩ := run_represents ops
  constructor
  · intro hcompletes
    obtain ⟨σ', hstopped, hscanned, hothers⟩ := exists_stopped (run ops) pattern
    have hnil : getStatements σ' pattern = [] := by
      rw [getStatements_congr hscanned, getStatements_removeStatements hS]
    have heq := hcompletes σ' hstopped
    rw [removeStatements_of_nil hnil] at heq
    -- The call is over, and an index that was not written has what it had.
    obtain ⟨idx, hidx⟩ : ∃ idx, idx ≠ indexType pattern := by
      cases indexType pattern with
      | SPOC => exact ⟨.CSPO, by decide⟩
      | _ => exact ⟨.SPOC, by decide⟩
    have hindex : (run ops).index idx = (removeStatements (run ops) pattern).1.index idx := by
      rw [← heq, hothers idx hidx]
    have hafter := hS.apply (.removeStatements pattern)
    have hkept := Represents.unique (hS idx) (hindex ▸ hafter idx)
    rw [List.eq_nil_iff_forall_not_mem]
    intro u hu
    have hmem : u ∈ S := (hS.mem_getStatements.mp hu).1
    rw [hkept, Op.stmtOps, foldl_remove, Finset.mem_filter] at hmem
    exact hmem.2 u hu rfl
  · intro hnil
    have hkept : ∀ σ', Stopped (.removeStatements pattern) (run ops) σ' → σ' = run ops := by
      intro σ' hstopped
      induction hstopped with
      | start => rfl
      | stop _ hexec ih =>
        obtain ⟨s', hinv, hstore⟩ := SoloInv.of_exec hexec
        subst ih
        have hupdate := Op.apply_eq_update (run ops) (Call.removeStatements pattern).op
        rw [show (Call.removeStatements pattern).op.apply (run ops) = run ops from
          removeStatements_of_nil hnil] at hupdate
        rw [← hstore]
        refine Store.eq_iff.mpr ⟨fun idx => ?_, fun t => ?_⟩
        · rw [hinv.index, ← hupdate, ite_self]
        · rw [hinv.nsTable, ← hupdate, ite_self]
    intro σ' hstopped
    rw [hkept σ' hstopped]

end Removal

end Recovery

/-- An import that stops behind the write of one index. -/
theorem retry_completes_import :
    ∃ s, (System.start (run storeOne) fun _ : Unit =>
        .addStatements [.ofUris "urn:t" "urn:p" "urn:o"]).exec
          [.collect (), .write () (.stmt .CSPO)] = some s ∧
      (addStatements s.store [.ofUris "urn:t" "urn:p" "urn:o"]).1 =
        (addStatements (run storeOne) [.ofUris "urn:t" "urn:p" "urn:o"]).1 := by
  have hexec : ((System.start (run storeOne) fun _ : Unit =>
      .addStatements [.ofUris "urn:t" "urn:p" "urn:o"]).exec
        [.collect (), .write () (.stmt .CSPO)]).isSome := by decide +kernel
  obtain ⟨s, hs⟩ := Option.isSome_iff_exists.mp hexec
  have honly : OnlyAdds (Call.addStatements [.ofUris "urn:t" "urn:p" "urn:o"]).op.requests := by
    simp [OnlyAdds, Call.op, Op.requests]
  exact ⟨s, hs, retry_completes honly (.stop .start hs)⟩

end CMarmotta
