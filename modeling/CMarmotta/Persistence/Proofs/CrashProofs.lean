import CMarmotta.Persistence.Proofs.ConcurrentProofs

/-!
# A process that stops during an update

While an update runs alone, each database is as before the call or as after it. Every combination of
the six can be found at a restart, so an update is all or nothing exactly when it changes no
statement and at most one of the two namespace databases (`update_atomic_iff`).
-/

namespace CMarmotta

open KV

section Crash

variable [Platform]

open Platform

omit [Platform] in
theorem nsTable_writeDatabase (σ : Store) (u : UpdateState) (db : Database) (t : NsTable) :
    (σ.writeDatabase u db).nsTable t =
      if db = .ns t then write (σ.nsTable t) (u.ns.table t) else σ.nsTable t := by
  rcases db with idx | t'
  · cases idx <;> cases t <;> rfl
  · cases t' <;> cases t <;> rfl

omit [Platform] in
theorem Call.mem_writers_update (it : List UpdateRequest) (db : Database) :
    db ∈ (Call.update it).writers := by
  rcases db with idx | t
  · cases idx <;> simp [Call.writers]
  · cases t <;> simp [Call.writers]

/-- What holds in every state of an update that runs alone. -/
structure SoloInv (σ : Store) (it : List UpdateRequest) (s : System Unit) : Prop where
  collected : ∃ treated, it = treated ++ (s.calls ()).todo ∧
    (s.calls ()).batches = treated.foldl (updateStep σ) {}
  untouched : (s.calls ()).todo = [] ∨ s.store = σ
  nodup : (s.calls ()).unwritten.Nodup
  index : ∀ idx, s.store.index idx = if .stmt idx ∈ (s.calls ()).unwritten then σ.index idx
    else (update σ it).1.index idx
  nsTable : ∀ t, s.store.nsTable t = if .ns t ∈ (s.calls ()).unwritten then σ.nsTable t
    else (update σ it).1.nsTable t

namespace SoloInv

variable {σ : Store} {it : List UpdateRequest} {s : System Unit}

theorem start (σ : Store) (it : List UpdateRequest) :
    SoloInv σ it (System.start σ fun _ => .update it) where
  collected := ⟨[], rfl, rfl⟩
  untouched := Or.inr rfl
  nodup := by
    show (Call.update it).writers.Nodup
    simp [Call.writers]
  index idx := by
    rw [if_pos]
    · rfl
    · exact Call.mem_writers_update it (.stmt idx)
  nsTable t := by
    rw [if_pos]
    · rfl
    · exact Call.mem_writers_update it (.ns t)

theorem collect (h : SoloInv σ it s) {r : UpdateRequest} {rest : List UpdateRequest}
    (htodo : (s.calls ()).todo = r :: rest) :
    SoloInv σ it (s.treat () r rest) := by
  obtain ⟨treated, hit, hbatch⟩ := h.collected
  have hstore : s.store = σ := h.untouched.resolve_left (by simp [htodo])
  refine ⟨⟨treated ++ [r], ?_, ?_⟩, Or.inr hstore, ?_, ?_, ?_⟩
  · rw [System.treat_calls_self, hit, htodo, List.append_cons]
  · rw [System.treat_calls_self, hbatch, hstore, List.foldl_concat]
  all_goals simp only [System.treat_unwritten]
  · exact h.nodup
  · exact h.index
  · exact h.nsTable

theorem batches_eq (h : SoloInv σ it s) (htodo : (s.calls ()).todo = []) :
    (s.calls ()).batches = updateLoop σ it := by
  obtain ⟨treated, hit, hbatch⟩ := h.collected
  rw [htodo, List.append_nil] at hit
  rw [hbatch, hit]
  rfl

theorem write (h : SoloInv σ it s) {db : Database} (htodo : (s.calls ()).todo = [])
    (hdb : db ∈ (s.calls ()).unwritten) :
    SoloInv σ it (s.writeBatch () db) := by
  obtain ⟨treated, hit, hbatch⟩ := h.collected
  have hloop := h.batches_eq htodo
  have hmem : ∀ db', db' ∈ ((s.writeBatch () db).calls ()).unwritten ↔
      db' ∈ (s.calls ()).unwritten ∧ db' ≠ db := by
    intro db'
    simp [System.mem_unwritten_writeBatch s () db h.nodup]
  refine ⟨⟨treated, ?_, ?_⟩, Or.inl ?_,
    System.nodup_unwritten_writeBatch s () db (fun _ => h.nodup) (), ?_, ?_⟩
  · rw [System.writeBatch_todo]
    exact hit
  · rw [System.writeBatch_batches]
    exact hbatch
  · rw [System.writeBatch_todo]
    exact htodo
  · intro idx
    show (s.store.writeDatabase (s.calls ()).batches db).index idx = _
    simp only [index_writeDatabase, h.index, hmem, hloop]
    by_cases hidx : db = .stmt idx
    · subst hidx
      rw [if_pos rfl, if_pos hdb, if_neg fun hc => hc.2 rfl, update, index_writeNs,
        index_writeStmts]
    · simp only [if_neg hidx, ne_eq, Ne.symm hidx, not_false_eq_true, and_true]
  · intro t
    show (s.store.writeDatabase (s.calls ()).batches db).nsTable t = _
    simp only [nsTable_writeDatabase, h.nsTable, hmem, hloop]
    by_cases ht : db = .ns t
    · subst ht
      rw [if_pos rfl, if_pos hdb, if_neg fun hc => hc.2 rfl, update, nsTable_writeNs,
        nsTable_writeStmts]
    · simp only [if_neg ht, ne_eq, Ne.symm ht, not_false_eq_true, and_true]

theorem exec {events : List (Event Unit)}
    (h : (System.start σ fun _ => .update it).exec events = some s) : SoloInv σ it s := by
  refine System.exec_invariant (P := SoloInv σ it) (fun s e s₁ hs hstep => ?_) h (start σ it)
  rcases System.step_cases hstep with ⟨_, r, rest, -, htodo, rfl⟩ | ⟨_, db, -, htodo, hdb, rfl⟩
  · exact hs.collect htodo
  · exact hs.write htodo hdb

/-- An update that runs alone and returns has done what `Update` does. -/
theorem store_eq_update (h : SoloInv σ it s) (hdone : s.Done) : s.store = (update σ it).1 := by
  have hnil := (hdone ()).2
  refine Store.eq_iff.mpr ⟨fun idx => ?_, fun t => ?_⟩
  · rw [h.index, hnil, if_neg List.not_mem_nil]
  · rw [h.nsTable, hnil, if_neg List.not_mem_nil]

/-- If at most one database changes, the store is as before the call or as after it. -/
theorem before_or_after (h : SoloInv σ it s)
    (hidx : ∀ idx, (update σ it).1.index idx = σ.index idx) (t t' : NsTable)
    (hcover : ∀ u, u = t ∨ u = t') (hkeep : (update σ it).1.nsTable t = σ.nsTable t) :
    s.store = σ ∨ s.store = (update σ it).1 := by
  have hstmt : ∀ idx, s.store.index idx = σ.index idx := by
    intro idx
    rw [h.index, hidx, ite_self]
  have ht : s.store.nsTable t = σ.nsTable t := by rw [h.nsTable, hkeep, ite_self]
  by_cases hun : .ns t' ∈ (s.calls ()).unwritten
  · refine Or.inl (Store.eq_iff.mpr ⟨hstmt, fun u => ?_⟩)
    rcases hcover u with rfl | rfl
    · exact ht
    · rw [h.nsTable, if_pos hun]
  · refine Or.inr (Store.eq_iff.mpr ⟨fun idx => ?_, fun u => ?_⟩)
    · rw [hstmt, hidx]
    · rcases hcover u with rfl | rfl
      · rw [ht, hkeep]
      · rw [h.nsTable, if_neg hun]

end SoloInv

/-- An update that runs alone can stop right after it has written any one of the databases. -/
theorem exec_stop_after_write (σ : Store) (it : List UpdateRequest) (db : Database) :
    ∃ events s, (System.start σ fun _ : Unit => .update it).exec events = some s ∧
      s.store = σ.writeDatabase (updateLoop σ it) db := by
  obtain ⟨s, hreach, h, htodo, hun, -⟩ := System.reaches_treat_all
    (fun s r rest (h : SoloInv σ it s) htodo => h.collect htodo) _ (SoloInv.start σ it)
  have hall : ∀ db, db ∈ (s.calls ()).unwritten := by
    intro db
    rw [hun]
    exact Call.mem_writers_update it db
  have hstore : s.store = σ := by
    refine Store.eq_iff.mpr ⟨fun idx => ?_, fun t => ?_⟩
    · rw [h.index, if_pos (hall _)]
    · rw [h.nsTable, if_pos (hall _)]
  obtain ⟨events, hexec⟩ := hreach.trans (System.reaches_writeBatch htodo (hall db))
  refine ⟨events, _, hexec, ?_⟩
  show s.store.writeDatabase (s.calls ()).batches db = _
  rw [hstore, h.batches_eq htodo]

/-- Whatever the point at which the process stops, it leaves all of an update or nothing of it,
exactly when the stream changes no statement and at most one of the namespace databases. -/
theorem update_atomic_iff (ops : List Op) (it : List UpdateRequest) :
    (∀ events s, (System.start (run ops) fun _ : Unit => .update it).exec events = some s →
      s.store = run ops ∨ s.store = (update (run ops) it).1) ↔
    (∀ idx, KeepsIndex (run ops) idx it) ∧
      (KeepsNs (run ops) .byPrefix it ∨ KeepsNs (run ops) .byUrl it) := by
  obtain ⟨S, hS, -⟩ := run_represents ops
  obtain ⟨S', hS', -⟩ := hS.update it
  simp only [← index_update_eq_self_iff, ← nsTable_update_eq_self_iff]
  set σ := run ops
  constructor
  · intro h
    constructor
    · -- Stop after the SPOC index: it has changed, or the others have not.
      obtain ⟨events, s, hexec, hs⟩ := exec_stop_after_write σ it (.stmt .SPOC)
      have hsame : ∀ idx, (update σ it).1.index idx = σ.index idx →
          ∀ idx, (update σ it).1.index idx = σ.index idx := by
        intro idx heq idx'
        have hset : S' = S := (heq ▸ hS' idx).unique (hS idx)
        subst hset
        exact (hS' idx').db_ext (hS idx')
      rcases h events s hexec with hσ | hafter
      · refine hsame .SPOC ?_
        have hidx := congrArg (fun τ => Store.index τ .SPOC) (hs.symm.trans hσ)
        simp only [index_writeDatabase, if_true] at hidx
        rw [← hidx]
        simp only [update, index_writeNs, index_writeStmts]
      · refine hsame .CSPO ?_
        have hidx := congrArg (fun τ => Store.index τ .CSPO) (hs.symm.trans hafter)
        simpa [index_writeDatabase] using hidx.symm
    · obtain ⟨events, s, hexec, hs⟩ := exec_stop_after_write σ it (.ns .byPrefix)
      rcases h events s hexec with hσ | hafter
      · left
        have ht := congrArg (fun τ => Store.nsTable τ .byPrefix) (hs.symm.trans hσ)
        simp only [nsTable_writeDatabase, if_true] at ht
        rw [← ht]
        simp only [update, nsTable_writeNs, nsTable_writeStmts]
      · right
        have ht := congrArg (fun τ => Store.nsTable τ .byUrl) (hs.symm.trans hafter)
        simpa [nsTable_writeDatabase] using ht.symm
  · rintro ⟨hidx, hns⟩ events s hexec
    have hinv := SoloInv.exec hexec
    rcases hns with hkeep | hkeep
    · exact hinv.before_or_after hidx .byPrefix .byUrl (fun u => by cases u <;> simp) hkeep
    · exact hinv.before_or_after hidx .byUrl .byPrefix (fun u => by cases u <;> simp) hkeep

end Crash

/-- The process stops when an update that adds one statement has written the SPOC index. -/
theorem update_not_atomic :
    ∃ events s, (System.start (run []) fun _ : Unit =>
        .update [.stmtAdded (.ofUris "urn:s" "urn:p" "urn:o")]).exec events = some s ∧
      s.store ≠ run [] ∧
      s.store ≠ (update (run []) [.stmtAdded (.ofUris "urn:s" "urn:p" "urn:o")]).1 := by
  have hexec : ((System.start (run []) fun _ : Unit =>
      .update [.stmtAdded (.ofUris "urn:s" "urn:p" "urn:o")]).exec
        [.collect (), .write () (.stmt .SPOC)]).map (fun s => (decide (s.store = run []),
          decide (s.store = (update (run []) [.stmtAdded (.ofUris "urn:s" "urn:p" "urn:o")]).1))) =
      some (false, false) := by decide +kernel
  obtain ⟨s, hs, hret⟩ := Option.map_eq_some_iff.mp hexec
  simp only [Prod.mk.injEq, decide_eq_false_iff_not] at hret
  exact ⟨_, s, hs, hret.1, hret.2⟩

end CMarmotta
