import CMarmotta.Persistence.Proofs.CrashProofs
import Mathlib.Data.List.Permutation

/-!
# Two updates of the namespace tables that run at the same time

Each table holds, under every key, what the calls that have written it leave there, the last of
them first (`NsWritesInv`). Of two calls, the one that writes first has looked up only the tables
before both calls; the other may have seen what the first had written (`RaceInv`). So two calls
leave tables that do not depend on their interleaving where `ConvergeAt` holds
(`ConvergeAt.nsEntry_of_exec`), which is so under every key where their requests are
`Independent`.
-/

namespace CMarmotta

open KV

section NsConcurrent

variable [Platform]

open Platform

/-! ## Which calls have written a table -/

section Writes

variable {ι : Type} [DecidableEq ι]

/-- The calls of `order t` have written the table `t`, in this order. -/
structure NsWritesInv (σ : Store) (s : System ι) (order : NsTable → List ι) : Prop where
  nodup : ∀ i, (s.calls i).unwritten.Nodup
  mem : ∀ t i, i ∈ order t ↔ .ns t ∉ (s.calls i).unwritten
  once : ∀ t, (order t).Nodup
  todo : ∀ t i, i ∈ order t → (s.calls i).todo = []
  content : ∀ t k, (s.store.nsTable t)[k]? =
    (lastWrite (fun i => outcome ((s.calls i).batches.ns.table t) k) (order t)).getD
      (σ.nsTable t)[k]?

namespace NsWritesInv

variable {σ : Store} {s : System ι} {order : NsTable → List ι}

omit [Platform] [DecidableEq ι] in
theorem start (σ : Store) (its : ι → List UpdateRequest) :
    NsWritesInv σ (System.start σ fun i => .update (its i)) fun _ => [] where
  nodup i := by
    show (Call.update (its i)).writers.Nodup
    simp [Call.writers]
  mem t i := by
    have hmem := Call.mem_writers_update (its i) (.ns t)
    constructor
    · intro h
      exact absurd h List.not_mem_nil
    · intro h
      exact absurd hmem h
  once _ := List.nodup_nil
  todo _ _ h := absurd h List.not_mem_nil
  content _ _ := rfl

theorem collect (h : NsWritesInv σ s order) {i : ι} {r : UpdateRequest} {rest : List UpdateRequest}
    (htodo : (s.calls i).todo = r :: rest) : NsWritesInv σ (s.treat i r rest) order := by
  have hsame : ∀ t j, j ∈ order t → (s.treat i r rest).calls j = s.calls j := by
    intro t j hj
    refine System.treat_calls_of_ne s i r rest ?_
    rintro rfl
    rw [h.todo t j hj] at htodo
    cases htodo
  refine ⟨?_, ?_, h.once, ?_, ?_⟩
  · intro j
    rw [System.treat_unwritten]
    exact h.nodup j
  · intro t j
    rw [System.treat_unwritten]
    exact h.mem t j
  · intro t j hj
    rw [hsame t j hj]
    exact h.todo t j hj
  · intro t k
    have hcalls := lastWrite_congr fun j hj =>
      congrArg (fun c : CallState => outcome (c.batches.ns.table t) k) (hsame t j hj)
    rw [hcalls]
    exact h.content t k

omit [Platform] in
theorem write (h : NsWritesInv σ s order) {i : ι} {db : Database} (htodo : (s.calls i).todo = [])
    (hdb : db ∈ (s.calls i).unwritten) :
    NsWritesInv σ (s.writeBatch i db) fun t => if db = .ns t then order t ++ [i] else order t := by
  refine ⟨System.nodup_unwritten_writeBatch s i db h.nodup, ?_, ?_, ?_, ?_⟩
  · intro t j
    rw [System.mem_unwritten_writeBatch s i db (h.nodup i)]
    split
    · rename_i ht
      subst ht
      simp only [List.mem_append, List.mem_singleton, h.mem, and_true]
      tauto
    · rename_i ht
      have hne : ¬ (j = i ∧ Database.ns t = db) := fun hc => ht hc.2.symm
      simp only [h.mem, hne, not_false_eq_true, and_true]
  · intro t
    split
    · rename_i ht
      subst ht
      have hi : i ∉ order t := fun hi => (h.mem t i).mp hi hdb
      refine List.nodup_append.mpr ⟨h.once t, List.nodup_singleton i, ?_⟩
      intro x hx y hy hxy
      rw [hxy, List.mem_singleton.mp hy] at hx
      exact hi hx
    · exact h.once t
  · intro t j hj
    rw [System.writeBatch_todo]
    split at hj
    · rcases List.mem_append.mp hj with hj | hj
      · exact h.todo t j hj
      · rw [List.mem_singleton.mp hj]
        exact htodo
    · exact h.todo t j hj
  · intro t k
    simp only [System.writeBatch_batches]
    show ((s.store.writeDatabase (s.calls i).batches db).nsTable t)[k]? = _
    rw [nsTable_writeDatabase]
    split
    · rename_i ht
      subst ht
      rw [getElem?_write, h.content, lastWrite_append]
      cases ho : outcome ((s.calls i).batches.ns.table t) k <;> simp [lastWrite, ho]
    · exact h.content t k

end NsWritesInv

end Writes

/-! ## What a stream leaves while another one runs -/

omit [Platform] in
theorem NsTables.written_of_unwritten {T : NsTables} {other : List UpdateRequest}
    {w : NsTable → Bool} (hw : ∀ t, w t = false) : T.written other w = T := by
  funext t k
  rw [NsTables.written, hw, if_neg Bool.false_ne_true]

omit [Platform] in
theorem leaves_lastWrite (T : NsTables) (other it : List UpdateRequest) (t : NsTable) (k : Bytes) :
    Leaves T other t k (fun _ => false) it (lastWrite (nsEffect T t k) it) := by
  induction it using List.reverseRecOn with
  | nil => exact .nil
  | append_singleton it r ih =>
    have hsnoc := ih.snoc (fun _ h => h) r
    rwa [NsTables.written_of_unwritten fun _ => rfl, ← lastWrite_concat] at hsnoc

/-! ## Two calls -/

omit [Platform] in
/-- Two writers, each once. -/
theorem lastWrite_pair {ν : Type} {f : Bool → Option (Option ν)} {order : List Bool}
    (honce : order.Nodup) (hall : ∀ i, i ∈ order) :
    lastWrite f order = (f false).or (f true) ∨ lastWrite f order = (f true).or (f false) := by
  have hperm : order.Perm [false, true] :=
    (List.perm_ext_iff_of_nodup honce (by decide)).mpr fun i => by simp [hall i]
  rcases List.perm_pair.mp hperm with rfl | rfl
  · exact Or.inr (by simp [lastWrite])
  · exact Or.inl (by simp [lastWrite])

/-- The call `first` has looked up only the tables before both calls, and the other call has
looked up what `first` had written at each moment. -/
structure RaceInv (σ : Store) (requests : Bool → List UpdateRequest) (s : System Bool)
    (order : NsTable → List Bool) (first : Bool) : Prop where
  closed : ∀ t, order t ≠ [] → (s.calls first).todo = []
  ahead : ∃ treated, requests first = treated ++ (s.calls first).todo ∧ ∀ t k,
    outcome ((s.calls first).batches.ns.table t) k =
      (lastWrite (nsEffect (nsTables σ) t k) treated).map (Option.map namespaceCodec.serialize)
  behind : ∃ treated, requests (!first) = treated ++ (s.calls (!first)).todo ∧ ∀ t k, ∃ w o,
    (∀ t, w t = true → first ∈ order t) ∧ Leaves (nsTables σ) (requests first) t k w treated o ∧
    outcome ((s.calls (!first)).batches.ns.table t) k =
      o.map (Option.map namespaceCodec.serialize)

namespace RaceInv

variable {σ : Store} {requests : Bool → List UpdateRequest} {s : System Bool}
  {order : NsTable → List Bool} {first : Bool}

theorem start (σ : Store) (requests : Bool → List UpdateRequest) (first : Bool) :
    RaceInv σ requests (System.start σ fun i => .update (requests i)) (fun _ => []) first where
  closed _ h := absurd rfl h
  ahead := ⟨[], rfl, fun t _ => by cases t <;> rfl⟩
  behind := ⟨[], rfl, fun t _ => ⟨fun _ => false, none, by simp, .nil, by cases t <;> rfl⟩⟩

/-- As long as the other call still looks up the tables, they are those before both calls with what
the first call has written. -/
theorem nsTables_eq (h : RaceInv σ requests s order first) (hw : NsWritesInv σ s order)
    (hother : ∀ t, (!first) ∉ order t) :
    nsTables s.store =
      (nsTables σ).written (requests first) fun t => decide (first ∈ order t) := by
  funext t k
  have hcases : order t = [] ∨ order t = [first] := by
    have hall : ∀ i ∈ order t, i = first := by
      intro i hi
      by_contra hne
      exact hother t ((Bool.eq_not.mpr hne) ▸ hi)
    have honce := hw.once t
    rcases hl : order t with _ | ⟨x, _ | ⟨y, l⟩⟩
    · exact Or.inl rfl
    · rw [hall x (by simp [hl])]
      exact Or.inr rfl
    · rw [hl, hall x (by simp [hl]), hall y (by simp [hl])] at honce
      simp at honce
  rw [nsTables, hw.content, NsTables.written]
  rcases hcases with hnil | hone
  · simp [hnil, lastWrite, nsTables]
  · obtain ⟨treated, hreq, hout⟩ := h.ahead
    rw [h.closed t (by simp [hone]), List.append_nil] at hreq
    rw [hone, lastWrite, lastWrite, Option.none_or, hout, namespaceCodec.map_parse_getD, hreq]
    simp [nsTables]

theorem outcome_updateStep {τ : Store} {u : UpdateState} {r : UpdateRequest}
    {o : Option (Option Namespace)} {t : NsTable} {k : Bytes}
    (h : outcome (u.ns.table t) k = o.map (Option.map namespaceCodec.serialize)) :
    outcome ((updateStep τ u r).ns.table t) k =
      ((nsEffect (nsTables τ) t k r).or o).map (Option.map namespaceCodec.serialize) := by
  rw [table_updateStep, outcome_append, outcome_nsBatch, h, Option.map_or]

theorem collect (h : RaceInv σ requests s order first) (hw : NsWritesInv σ s order) {i : Bool}
    {r : UpdateRequest} {rest : List UpdateRequest} (htodo : (s.calls i).todo = r :: rest) :
    RaceInv σ requests (s.treat i r rest) order first := by
  obtain ⟨treated, hreq, hout⟩ := h.ahead
  obtain ⟨treated', hreq', hout'⟩ := h.behind
  by_cases hi : i = first
  · -- Nothing is written yet, so the first call looks up the tables before both calls.
    subst hi
    have hnone : ∀ t, order t = [] := by
      intro t
      by_contra hne
      rw [h.closed t hne] at htodo
      cases htodo
    have htables : nsTables s.store = nsTables σ := by
      rw [h.nsTables_eq hw fun t => by simp [hnone t]]
      exact NsTables.written_of_unwritten fun t => by simp [hnone t]
    have hother := System.treat_calls_of_ne s i r rest (Bool.not_ne_self i)
    refine ⟨fun t ht => absurd (hnone t) ht, ⟨treated ++ [r], ?_, ?_⟩, ⟨treated', ?_, ?_⟩⟩
    · rw [System.treat_calls_self, hreq, htodo, List.append_cons]
    · intro t k
      rw [System.treat_calls_self, outcome_updateStep (hout t k), htables, lastWrite_concat]
    · rw [hother]
      exact hreq'
    · rw [hother]
      exact hout'
  · have hi' : i = !first := Bool.eq_not.mpr hi
    subst hi'
    have hnot : ∀ t, (!first) ∉ order t := by
      intro t ht
      rw [hw.todo t _ ht] at htodo
      cases htodo
    have hfirst := System.treat_calls_of_ne s (!first) r rest (Bool.self_ne_not first)
    refine ⟨?_, ⟨treated, ?_, ?_⟩, ⟨treated' ++ [r], ?_, ?_⟩⟩
    · rw [hfirst]
      exact h.closed
    · rw [hfirst]
      exact hreq
    · rw [hfirst]
      exact hout
    · rw [System.treat_calls_self, hreq', htodo, List.append_cons]
    · intro t k
      obtain ⟨w, o, hle, hleaves, ho⟩ := hout' t k
      refine ⟨fun t => decide (first ∈ order t), _, fun t ht => of_decide_eq_true ht,
        hleaves.snoc (fun t ht => decide_eq_true (hle t ht)) r, ?_⟩
      rw [System.treat_calls_self, outcome_updateStep ho, h.nsTables_eq hw hnot]

/-- A write keeps the invariant, unless it is the first one and made by the other call. -/
theorem write (h : RaceInv σ requests s order first) {i : Bool} {db : Database}
    (htodo : (s.calls i).todo = [])
    (hi : i = first ∨ (∃ t, order t ≠ []) ∨ ∀ t, db ≠ .ns t) :
    RaceInv σ requests (s.writeBatch i db)
      (fun t => if db = .ns t then order t ++ [i] else order t) first := by
  obtain ⟨treated, hreq, hout⟩ := h.ahead
  obtain ⟨treated', hreq', hout'⟩ := h.behind
  refine ⟨fun t ht => ?_, ⟨treated, ?_, ?_⟩, ⟨treated', ?_, ?_⟩⟩
  · rw [System.writeBatch_todo]
    rcases hi with rfl | ⟨t', ht'⟩ | hstmt
    · exact htodo
    · exact h.closed t' ht'
    · rw [if_neg (hstmt t)] at ht
      exact h.closed t ht
  · rw [System.writeBatch_todo]
    exact hreq
  · rw [System.writeBatch_batches]
    exact hout
  · rw [System.writeBatch_todo]
    exact hreq'
  · intro t k
    obtain ⟨w, o, hle, hleaves, ho⟩ := hout' t k
    rw [System.writeBatch_batches]
    refine ⟨w, o, fun u hu => ?_, hleaves, ho⟩
    split
    · exact List.mem_append_left _ (hle u hu)
    · exact hle u hu

/-- Every interleaving of two updates has a first writer, and as long as nothing is written either
of them may become it. -/
theorem exec {events : List (Event Bool)}
    (h : (System.start σ fun i => .update (requests i)).exec events = some s) :
    ∃ order, NsWritesInv σ s order ∧ (∃ first, RaceInv σ requests s order first) ∧
      ((∀ t, order t = []) → ∀ first, RaceInv σ requests s order first) := by
  refine System.exec_invariant (P := fun s => ∃ order, NsWritesInv σ s order ∧
    (∃ first, RaceInv σ requests s order first) ∧
      ((∀ t, order t = []) → ∀ first, RaceInv σ requests s order first)) ?_ h
    ⟨_, NsWritesInv.start σ requests, ⟨false, start σ requests false⟩, fun _ => start σ requests⟩
  rintro s e s₁ ⟨order, hw, ⟨first, hfirst⟩, hfree⟩ hstep
  rcases System.step_cases hstep with ⟨i, r, rest, -, htodo, rfl⟩ | ⟨i, db, -, htodo, hdb, rfl⟩
  · exact ⟨order, hw.collect htodo, ⟨first, hfirst.collect hw htodo⟩,
      fun hnone j => (hfree hnone j).collect hw htodo⟩
  · refine ⟨_, hw.write htodo hdb, ?_, ?_⟩
    · by_cases hnone : ∀ t, order t = []
      · exact ⟨i, (hfree hnone i).write htodo (Or.inl rfl)⟩
      · exact ⟨first, hfirst.write htodo (Or.inr (Or.inl (not_forall.mp hnone)))⟩
    · intro hnone j
      have hstmt : ∀ t, db ≠ .ns t := by
        rintro t rfl
        have ht := hnone t
        simp at ht
      refine (hfree (fun t => ?_) j).write htodo (Or.inr (Or.inr hstmt))
      have ht := hnone t
      rwa [if_neg (hstmt t)] at ht

/-- When both calls have returned, a key holds what one of them leaves there, or else what the other
leaves there. -/
theorem nsEntry_of_done (h : RaceInv σ requests s order first) (hw : NsWritesInv σ s order)
    (hdone : s.Done) (t : NsTable) (k : Bytes) :
    ∃ oa ob, RaceLeaves (nsTables σ) (requests false) (requests true) t k oa ob ∧
      ((s.store.nsTable t)[k]? = σ.nsEntry t k (oa.or ob) ∨
        (s.store.nsTable t)[k]? = σ.nsEntry t k (ob.or oa)) := by
  obtain ⟨treated, hreq, hout⟩ := h.ahead
  obtain ⟨treated', hreq', hout'⟩ := h.behind
  rw [(hdone _).1, List.append_nil] at hreq hreq'
  subst hreq hreq'
  obtain ⟨w, o, -, hleaves, ho⟩ := hout' t k
  have horder : ∀ i, i ∈ order t := by
    intro i
    rw [hw.mem, (hdone i).2]
    exact List.not_mem_nil
  have hcontent := hw.content t k
  have hlast := lastWrite_pair (f := fun i => outcome ((s.calls i).batches.ns.table t) k)
    (hw.once t) horder
  cases first with
  | false =>
    simp only [Bool.not_false] at hleaves ho hout hlast
    rw [hout, ho, ← Option.map_or, ← Option.map_or] at hlast
    refine ⟨_, o, Or.inr ⟨rfl, w, hleaves⟩, ?_⟩
    rw [hcontent]
    rcases hlast with hlast | hlast <;> rw [hlast]
    · exact Or.inl rfl
    · exact Or.inr rfl
  | true =>
    simp only [Bool.not_true] at hleaves ho hout hlast
    rw [hout, ho, ← Option.map_or, ← Option.map_or] at hlast
    refine ⟨o, _, Or.inl ⟨⟨w, hleaves⟩, rfl⟩, ?_⟩
    rw [hcontent]
    rcases hlast with hlast | hlast <;> rw [hlast]
    · exact Or.inl rfl
    · exact Or.inr rfl

end RaceInv

/-! ## Every such outcome comes about -/

section Reaches

variable {ι : Type} [DecidableEq ι]

/-- A call that has treated its input can write all its databases. -/
theorem NsWritesInv.reaches_write_all {σ : Store} {s : System ι} {order : NsTable → List ι} {i : ι}
    (hw : NsWritesInv σ s order) (htodo : (s.calls i).todo = []) :
    ∃ s' order', s.Reaches s' ∧ NsWritesInv σ s' order' ∧ (s'.calls i).unwritten = [] ∧
      (s'.calls i).todo = [] ∧ (s'.calls i).batches = (s.calls i).batches ∧
      (∀ j, j ≠ i → s'.calls j = s.calls j) ∧
      ∀ t, order' t = order t ∨ order' t = order t ++ [i] := by
  induction hdbs : (s.calls i).unwritten generalizing s order with
  | nil => exact ⟨s, order, .refl s, hw, hdbs, htodo, rfl, fun _ _ => rfl, fun _ => Or.inl rfl⟩
  | cons db dbs ih =>
    have hdb : db ∈ (s.calls i).unwritten := by simp [hdbs]
    have htodo₁ : ((s.writeBatch i db).calls i).todo = [] := by
      rw [System.writeBatch_todo]
      exact htodo
    have hdbs₁ : ((s.writeBatch i db).calls i).unwritten = dbs := by
      rw [System.writeBatch_calls_self, hdbs, List.erase_cons_head]
    obtain ⟨s', order', hreach, hw', hun, htodo', hbatches, hothers, horder⟩ :=
      ih (hw.write htodo hdb) htodo₁ hdbs₁
    have hnone : ∀ t, db = .ns t → order' t ≠ order t ++ [i] ++ [i] := by
      intro t _ ht
      have honce := hw'.once t
      rw [ht, List.append_assoc] at honce
      exact absurd (List.nodup_append.mp honce).2.1 (by simp)
    refine ⟨s', order', (System.reaches_writeBatch htodo hdb).trans hreach, hw', hun, htodo',
      ?_, ?_, ?_⟩
    · rw [hbatches, System.writeBatch_batches]
    · intro j hj
      rw [hothers j hj, System.writeBatch_calls_of_ne s i db hj]
    · intro t
      rcases horder t with ht | ht
      · split at ht
        · exact Or.inr ht
        · exact Or.inl ht
      · split at ht
        · rename_i hns
          exact absurd ht (hnone t hns)
        · exact Or.inr ht

end Reaches

namespace RaceInv

variable {σ : Store} {requests : Bool → List UpdateRequest} {s : System Bool}
  {order : NsTable → List Bool} {first : Bool}

theorem reaches_treat_all (h : RaceInv σ requests s order first) (hw : NsWritesInv σ s order)
    (i : Bool) :
    ∃ s', s.Reaches s' ∧ NsWritesInv σ s' order ∧ RaceInv σ requests s' order first ∧
      (s'.calls i).todo = [] ∧ ∀ j, j ≠ i → s'.calls j = s.calls j := by
  have hstep : ∀ s r rest, NsWritesInv σ s order ∧ RaceInv σ requests s order first →
      (s.calls i).todo = r :: rest → NsWritesInv σ (s.treat i r rest) order ∧
        RaceInv σ requests (s.treat i r rest) order first := by
    rintro s r rest ⟨hw, h⟩ htodo
    exact ⟨hw.collect htodo, h.collect hw htodo⟩
  obtain ⟨s', hreach, ⟨hw', h'⟩, htodo, -, hothers⟩ := System.reaches_treat_all hstep s ⟨hw, h⟩
  exact ⟨s', hreach, hw', h', htodo, hothers⟩

/-- The first call has treated its input and has written the tables in `w`; the other call has yet
to treat `rest`, and so far leaves `o` under the key. -/
structure Staged (σ : Store) (requests : Bool → List UpdateRequest) (first : Bool) (t : NsTable)
    (k : Bytes) (s : System Bool) (order : NsTable → List Bool) (w : NsTable → Bool)
    (rest : List UpdateRequest) (o : Option (Option Namespace)) : Prop where
  race : RaceInv σ requests s order first
  writes : NsWritesInv σ s order
  closed : (s.calls first).todo = []
  wrote : ∀ t, first ∈ order t ↔ w t = true
  unwritten : ∀ t, (!first) ∉ order t
  todo : (s.calls (!first)).todo = rest
  out : outcome ((s.calls (!first)).batches.ns.table t) k =
    o.map (Option.map namespaceCodec.serialize)

namespace Staged

variable {t : NsTable} {k : Bytes} {w : NsTable → Bool} {rest : List UpdateRequest}
  {o : Option (Option Namespace)}

theorem start (σ : Store) (requests : Bool → List UpdateRequest) (first : Bool) (t : NsTable)
    (k : Bytes) :
    ∃ s, (System.start σ fun i => .update (requests i)).Reaches s ∧
      Staged σ requests first t k s (fun _ => []) (fun _ => false) (requests (!first)) none := by
  obtain ⟨s, hreach, hw, h, htodo, hothers⟩ := (RaceInv.start σ requests first).reaches_treat_all
    (NsWritesInv.start σ requests) first
  refine ⟨s, hreach, h, hw, htodo, by simp, by simp, ?_, ?_⟩
  · rw [hothers _ (Bool.not_ne_self first)]
    rfl
  · rw [hothers _ (Bool.not_ne_self first)]
    cases t <;> rfl

theorem write_table (h : Staged σ requests first t k s order w rest o) (u : NsTable) :
    ∃ s' order', s.Reaches s' ∧
      Staged σ requests first t k s' order' (fun t => w t || decide (t = u)) rest o := by
  by_cases hu : w u = true
  · have hsame : (fun t => w t || decide (t = u)) = w := by
      funext t
      by_cases ht : t = u
      · simp [ht, hu]
      · simp [ht]
    rw [hsame]
    exact ⟨s, order, .refl s, h⟩
  · have hdb : .ns u ∈ (s.calls first).unwritten := by
      by_contra hnot
      exact hu ((h.wrote u).mp ((h.writes.mem u first).mpr hnot))
    refine ⟨_, _, System.reaches_writeBatch h.closed hdb, h.race.write h.closed (Or.inl rfl),
      h.writes.write h.closed hdb, ?_, ?_, ?_, ?_, ?_⟩
    · rw [System.writeBatch_todo]
      exact h.closed
    · intro t
      by_cases ht : t = u
      · subst ht
        simp
      · simpa [ht, Ne.symm ht] using h.wrote t
    · intro t
      by_cases ht : t = u
      · subst ht
        simpa using h.unwritten t
      · simpa [Ne.symm ht] using h.unwritten t
    · rw [System.writeBatch_todo]
      exact h.todo
    · rw [System.writeBatch_batches]
      exact h.out

theorem write_tables (h : Staged σ requests first t k s order w rest o) {w' : NsTable → Bool}
    (hle : ∀ t, w t = true → w' t = true) :
    ∃ s' order', s.Reaches s' ∧ Staged σ requests first t k s' order' w' rest o := by
  have hone : ∀ {s order w} (u : NsTable), Staged σ requests first t k s order w rest o →
      ∃ s' order', s.Reaches s' ∧
        Staged σ requests first t k s' order' (fun t => w t || (decide (t = u) && w' t)) rest o := by
    intro s order w u h
    have hat : (fun t => w t || (decide (t = u) && w' t)) =
        fun t => w t || (decide (t = u) && w' u) := by
      funext t
      by_cases ht : t = u
      · rw [ht]
      · simp [ht]
    rw [hat]
    cases w' u with
    | true => simpa using h.write_table u
    | false => exact ⟨s, order, .refl s, by simpa using h⟩
  obtain ⟨s₁, order₁, hreach₁, h₁⟩ := hone .byPrefix h
  obtain ⟨s₂, order₂, hreach₂, h₂⟩ := hone .byUrl h₁
  refine ⟨s₂, order₂, hreach₁.trans hreach₂, ?_⟩
  convert h₂ using 1
  funext t
  cases hw : w t with
  | true => simp [hle t hw]
  | false => cases t <;> simp

theorem collect {r : UpdateRequest} (h : Staged σ requests first t k s order w (r :: rest) o) :
    ∃ s', s.Reaches s' ∧ Staged σ requests first t k s' order w rest
      ((nsEffect ((nsTables σ).written (requests first) w) t k r).or o) := by
  have hdecide : (fun t => decide (first ∈ order t)) = w := by
    funext t
    rw [Bool.eq_iff_iff, decide_eq_true_iff]
    exact h.wrote t
  have htables := h.race.nsTables_eq h.writes h.unwritten
  rw [hdecide] at htables
  refine ⟨_, System.reaches_treat h.todo, h.race.collect h.writes h.todo,
    h.writes.collect h.todo, ?_, h.wrote, h.unwritten, ?_, ?_⟩
  · rw [System.treat_calls_of_ne s (!first) r rest (Bool.self_ne_not first)]
    exact h.closed
  · rw [System.treat_calls_self]
  · rw [System.treat_calls_self, outcome_updateStep h.out, htables]

/-- The first call writes what is left, then the other writes, over it. -/
theorem finish (h : Staged σ requests first t k s order w [] o) :
    ∃ s', s.Reaches s' ∧ s'.Done ∧ (s'.store.nsTable t)[k]? =
      σ.nsEntry t k (o.or (lastWrite (nsEffect (nsTables σ) t k) (requests first))) := by
  obtain ⟨treated, hreq, hahead⟩ := h.race.ahead
  rw [h.closed, List.append_nil] at hreq
  subst hreq
  obtain ⟨s₁, order₁, hreach₁, hw₁, hun₁, htodo₁, hbatches₁, hothers₁, horder₁⟩ :=
    h.writes.reaches_write_all h.closed
  have htodo' : (s₁.calls (!first)).todo = [] := by
    rw [hothers₁ _ (Bool.not_ne_self first)]
    exact h.todo
  obtain ⟨s₂, order₂, hreach₂, hw₂, hun₂, htodo₂, hbatches₂, hothers₂, horder₂⟩ :=
    hw₁.reaches_write_all htodo'
  have hfirst : s₂.calls first = s₁.calls first := hothers₂ _ (Bool.self_ne_not first)
  have hdone : s₂.Done := by
    intro i
    by_cases hi : i = first
    · rw [hi, hfirst]
      exact ⟨htodo₁, hun₁⟩
    · rw [Bool.eq_not.mpr hi]
      exact ⟨htodo₂, hun₂⟩
  refine ⟨s₂, hreach₁.trans hreach₂, hdone, ?_⟩
  -- The other call is the last writer of every table.
  have hlast : ∃ l, order₂ t = l ++ [!first] ∧ first ∈ l ∧ ∀ i ∈ l, i = first := by
    have hmem : ∀ i, i ∈ order₂ t := fun i => (hw₂.mem t i).mpr (by simp [(hdone i).2])
    have hnot₁ : (!first) ∉ order₁ t := by
      rcases horder₁ t with ht | ht <;> simp [ht, h.unwritten t]
    rcases horder₂ t with ht | ht
    · exact absurd (ht ▸ hmem (!first)) hnot₁
    · refine ⟨order₁ t, ht, ?_, ?_⟩
      · have hf := hmem first
        rw [ht] at hf
        simpa using hf
      · intro i hi
        by_contra hne
        exact hnot₁ (Bool.eq_not.mpr hne ▸ hi)
  obtain ⟨l, hl, hfl, hall⟩ := hlast
  have honly : l = [first] := by
    have honce := hw₂.once t
    rw [hl] at honce
    exact List.perm_singleton.mp ((List.perm_ext_iff_of_nodup
      (List.nodup_append.mp honce).1 (List.nodup_singleton first)).mpr fun i => by
        rw [List.mem_singleton]
        exact ⟨hall i, fun hi => hi ▸ hfl⟩)
  rw [hw₂.content, hl, honly, lastWrite_concat, lastWrite, lastWrite, Option.none_or, hfirst,
    hbatches₁, hahead, hbatches₂, hothers₁ _ (Bool.not_ne_self first), h.out, ← Option.map_or]
  rfl

end Staged

/-- Whatever the other call may leave under a key while the first one runs, some interleaving leaves
it there. -/
theorem exists_exec_of_leaves {t : NsTable} {k : Bytes} {w : NsTable → Bool}
    {o : Option (Option Namespace)} (σ : Store) (requests : Bool → List UpdateRequest) (first : Bool)
    (h : Leaves (nsTables σ) (requests first) t k w (requests (!first)) o) :
    ∃ events s, (System.start σ fun i => .update (requests i)).exec events = some s ∧ s.Done ∧
      (s.store.nsTable t)[k]? =
        σ.nsEntry t k (o.or (lastWrite (nsEffect (nsTables σ) t k) (requests first))) := by
  have hstaged : ∀ {it w o}, Leaves (nsTables σ) (requests first) t k w it o →
      ∀ rest, requests (!first) = it ++ rest →
        ∃ s order, (System.start σ fun i => .update (requests i)).Reaches s ∧
          Staged σ requests first t k s order w rest o := by
    intro it w o h
    induction h with
    | nil =>
      rintro rest hrest
      obtain ⟨s, hreach, hs⟩ := Staged.start σ requests first t k
      rw [hrest] at hs
      exact ⟨s, _, hreach, hs⟩
    | snoc _ hle r ih =>
      intro rest hrest
      obtain ⟨s, order, hreach, hs⟩ := ih (r :: rest) (by rw [hrest, ← List.append_cons])
      obtain ⟨s₁, order₁, hreach₁, hs₁⟩ := hs.write_tables hle
      obtain ⟨s₂, hreach₂, hs₂⟩ := hs₁.collect
      exact ⟨s₂, order₁, (hreach.trans hreach₁).trans hreach₂, hs₂⟩
  obtain ⟨s, order, hreach, hs⟩ := hstaged h [] (by rw [List.append_nil])
  obtain ⟨s', hreach', hdone, hentry⟩ := hs.finish
  obtain ⟨events, hexec⟩ := hreach.trans hreach'
  exact ⟨events, s', hexec, hdone, hentry⟩

end RaceInv

/-! ## Convergence -/

/-- Streams that converge at a key leave there what they leave when both look up the tables before
them. -/
theorem ConvergeAt.nsEntry_of_exec {σ : Store} {requests : Bool → List UpdateRequest} {t : NsTable}
    {k : Bytes} (h : ConvergeAt σ (requests false) (requests true) t k) {events : List (Event Bool)}
    {s : System Bool}
    (hexec : (System.start σ fun i => .update (requests i)).exec events = some s) (hdone : s.Done) :
    (s.store.nsTable t)[k]? =
      σ.nsEntry t k ((lastWrite (nsEffect (nsTables σ) t k) (requests false)).or
        (lastWrite (nsEffect (nsTables σ) t k) (requests true))) := by
  obtain ⟨c, hc⟩ := h
  rw [(hc _ _ (Or.inl ⟨⟨_, leaves_lastWrite _ _ _ _ _⟩, rfl⟩)).1]
  obtain ⟨order, hw, ⟨first, hrace⟩, -⟩ := RaceInv.exec hexec
  obtain ⟨oa, ob, hleaves, hentry | hentry⟩ := hrace.nsEntry_of_done hw hdone t k
  · rw [hentry, (hc oa ob hleaves).1]
  · rw [hentry, (hc oa ob hleaves).2]

/-- Two streams converge at a key exactly when all their interleavings leave the same there. -/
theorem convergeAt_iff (σ : Store) (requests : Bool → List UpdateRequest) (t : NsTable) (k : Bytes) :
    ConvergeAt σ (requests false) (requests true) t k ↔
      ∃ c, ∀ events s, (System.start σ fun i => .update (requests i)).exec events = some s →
        s.Done → (s.store.nsTable t)[k]? = c := by
  constructor
  · intro h
    exact ⟨_, fun events s hexec hdone => h.nsEntry_of_exec hexec hdone⟩
  · rintro ⟨c, hc⟩
    set ea := lastWrite (nsEffect (nsTables σ) t k) (requests false) with hea
    set eb := lastWrite (nsEffect (nsTables σ) t k) (requests true) with heb
    have hsecond : ∀ {w o}, Leaves (nsTables σ) (requests true) t k w (requests false) o →
        σ.nsEntry t k (o.or eb) = c := by
      intro w o h
      obtain ⟨events, s, hexec, hdone, hentry⟩ :=
        RaceInv.exists_exec_of_leaves σ requests true h
      rw [← hentry, hc events s hexec hdone]
    have hfirst : ∀ {w o}, Leaves (nsTables σ) (requests false) t k w (requests true) o →
        σ.nsEntry t k (o.or ea) = c := by
      intro w o h
      obtain ⟨events, s, hexec, hdone, hentry⟩ :=
        RaceInv.exists_exec_of_leaves σ requests false h
      rw [← hentry, hc events s hexec hdone]
    -- If the stream that is written last is about the key, it does not matter what the other did.
    have hover : ∀ {e e' o : Option (Option Namespace)}, σ.nsEntry t k (e.or e') = c →
        σ.nsEntry t k (o.or e) = c → σ.nsEntry t k (e.or o) = c := by
      intro e e' o he ho
      cases e with
      | none => simpa using ho
      | some v => simpa using he
    refine ⟨c, fun oa ob h => ?_⟩
    rcases h with ⟨⟨w, h⟩, rfl⟩ | ⟨rfl, w, h⟩
    · exact ⟨hsecond h, hover (hfirst (leaves_lastWrite _ _ _ _ _)) (hsecond h)⟩
    · exact ⟨hover (hsecond (leaves_lastWrite _ _ _ _ _)) (hfirst h), hfirst h⟩

/-! ## Streams that do not get in each other's way -/

section Independent

variable {T : NsTables} {it other : List UpdateRequest} {t : NsTable} {k : Bytes}

omit [Platform] in
theorem NsTables.finds_iff {pattern ns : Namespace} :
    T.Finds pattern ns ↔ ∃ t₀ k₀, pattern.LooksUp t₀ k₀ ∧ T t₀ k₀ = some ns := by
  unfold NsTables.Finds Namespace.LooksUp
  split
  · simp
  · split <;> simp

omit [Platform] in
/-- A removal finds, while the other stream runs, what it finds in the tables before, or else
something under a key that the other stream changes. -/
theorem NsTables.written_eq_or (w : NsTable → Bool) (t₀ : NsTable) (k₀ : Bytes) :
    T.written other w t₀ k₀ = T t₀ k₀ ∨ T.Changes other t₀ k₀ ∧
      lastWrite (nsEffect T t₀ k₀) other = some (T.written other w t₀ k₀) := by
  rw [NsTables.written]
  split
  · cases hlast : lastWrite (nsEffect T t₀ k₀) other with
    | none => exact Or.inl rfl
    | some o =>
      by_cases ho : o = T t₀ k₀
      · exact Or.inl ho
      · exact Or.inr ⟨⟨o, hlast, ho⟩, rfl⟩
  · exact Or.inl rfl

omit [Platform] in
theorem nsEffect_written_of_steady {pattern : Namespace} (w : NsTable → Bool)
    (h : ∀ t₀ k₀, pattern.LooksUp t₀ k₀ → T.Changes other t₀ k₀ → ∀ ns,
      (T t₀ k₀ = some ns ∨ lastWrite (nsEffect T t₀ k₀) other = some (some ns)) → t.key ns ≠ k) :
    nsEffect (T.written other w) t k (.nsRemoved pattern) = nsEffect T t k (.nsRemoved pattern) := by
  have hfinds : (∃ ns, (T.written other w).Finds pattern ns ∧ t.key ns = k) ↔
      ∃ ns, T.Finds pattern ns ∧ t.key ns = k := by
    refine exists_congr fun ns => and_congr_left fun hkey => ?_
    rw [NsTables.finds_iff, NsTables.finds_iff]
    refine exists₂_congr fun t₀ k₀ => and_congr_right fun hlook => ?_
    rcases NsTables.written_eq_or w t₀ k₀ with hsame | ⟨hchanges, hlast⟩
    · rw [hsame]
    · constructor
      · intro hw
        rw [hw] at hlast
        exact absurd hkey (h t₀ k₀ hlook hchanges ns (Or.inr hlast))
      · intro hT
        exact absurd hkey (h t₀ k₀ hlook hchanges ns (Or.inl hT))
  classical
  exact if_congr hfinds rfl rfl

omit [Platform] in
/-- A steady stream leaves under the key what it leaves when it runs alone. -/
theorem Leaves.eq_lastWrite_of_steady {w : NsTable → Bool} {o : Option (Option Namespace)}
    (h : Leaves T other t k w it o) (hsteady : T.Steady it other t k) :
    o = lastWrite (nsEffect T t k) it := by
  induction h with
  | nil => rfl
  | @snoc w w' it o _ hle r ih =>
    rw [lastWrite_concat]
    by_cases hadds : AddsUnder [r] t k
    · obtain ⟨ns, hr, hkey⟩ := hadds
      have hput : ∀ T', nsEffect T' t k r = some (some ns) := fun T' =>
        nsEffect_eq_put_iff.mpr ⟨(List.mem_singleton.mp hr).symm, hkey⟩
      rw [hput, hput, Option.some_or, Option.some_or]
    · have hbefore : T.Steady it other t k := by
        intro pre pattern post hit hpost
        refine hsteady pre pattern (post ++ [r]) (by rw [hit]; simp) ?_
        rintro ⟨ns, hns, hkey⟩
        rcases List.mem_append.mp hns with hns | hns
        · exact hpost ⟨ns, hns, hkey⟩
        · exact hadds ⟨ns, hns, hkey⟩
      have hr : nsEffect (T.written other w') t k r = nsEffect T t k r := by
        cases r with
        | nsRemoved pattern =>
          exact nsEffect_written_of_steady w' (hsteady it pattern [] rfl (by simp [AddsUnder]))
        | nsAdded ns => rfl
        | stmtAdded s => rfl
        | stmtRemoved pattern => rfl
        | notSet => rfl
      rw [hr, ih hbefore]

omit [Platform] in
theorem Leaves.addsUnder {w : NsTable → Bool} {ns : Namespace}
    (h : Leaves T other t k w it (some (some ns))) : AddsUnder it t k := by
  generalize ho : some (some ns) = o at h
  induction h with
  | nil => cases ho
  | snoc _ _ r ih =>
    rcases Option.or_eq_some_iff.mp ho.symm with hr | ⟨-, hbefore⟩
    · obtain ⟨rfl, hkey⟩ := nsEffect_eq_put_iff.mp hr
      exact ⟨ns, by simp, hkey⟩
    · obtain ⟨ns', hns', hkey⟩ := ih hbefore.symm
      exact ⟨ns', List.mem_append_left _ hns', hkey⟩

omit [Platform] in
/-- Of two streams that race, each leaves something that it may leave while the other runs. -/
theorem RaceLeaves.leaves {a b : List UpdateRequest} {oa ob : Option (Option Namespace)}
    (h : RaceLeaves T a b t k oa ob) :
    (∃ w, Leaves T b t k w a oa) ∧ ∃ w, Leaves T a t k w b ob := by
  rcases h with ⟨hoa, rfl⟩ | ⟨rfl, hob⟩
  · exact ⟨hoa, _, leaves_lastWrite T a b t k⟩
  · exact ⟨⟨_, leaves_lastWrite T b a t k⟩, hob⟩

/-- Nothing is under a key if no stream puts anything there, and it was not in use or is deleted. -/
theorem nsEntry_or_eq_none {σ : Store} {oa ob : Option (Option Namespace)}
    (hputa : ∀ ns, oa ≠ some (some ns)) (hputb : ∀ ns, ob ≠ some (some ns))
    (hfree : nsTables σ t k = none ∨ oa ≠ none ∨ ob ≠ none) :
    σ.nsEntry t k (oa.or ob) = none := by
  rcases oa with _ | _ | ns
  · rcases ob with _ | _ | ns
    · have hnone : nsTables σ t k = none := hfree.resolve_right (by simp)
      rw [nsTables, Option.map_eq_none_iff] at hnone
      simpa [Store.nsEntry] using hnone
    · rfl
    · exact absurd rfl (hputb ns)
  · rfl
  · exact absurd rfl (hputa ns)

/-- Under a key where two streams do not get in each other's way, they converge. -/
theorem NsTables.Independent.convergeAt {σ : Store} {a b : List UpdateRequest}
    (h : (nsTables σ).Independent a b t k) : ConvergeAt σ a b t k := by
  rcases h with ⟨ha, hb, hlast⟩ | ⟨ha, hb, hkey⟩
  · refine ⟨σ.nsEntry t k ((lastWrite (nsEffect (nsTables σ) t k) a).or
      (lastWrite (nsEffect (nsTables σ) t k) b)), fun oa ob hrace => ?_⟩
    obtain ⟨⟨w, hoa⟩, w', hob⟩ := hrace.leaves
    rw [hoa.eq_lastWrite_of_steady ha, hob.eq_lastWrite_of_steady hb]
    refine ⟨rfl, ?_⟩
    rcases hlast with hnone | hnone | hsame
    · rw [hnone, Option.none_or, Option.or_none]
    · rw [hnone, Option.none_or, Option.or_none]
    · rw [hsame]
  · -- Whichever stream is written last, the key is not in use afterwards.
    refine ⟨none, fun oa ob hrace => ?_⟩
    obtain ⟨⟨w, hoa⟩, w', hob⟩ := hrace.leaves
    have hputa : ∀ ns, oa ≠ some (some ns) := by
      rintro ns rfl
      exact ha hoa.addsUnder
    have hputb : ∀ ns, ob ≠ some (some ns) := by
      rintro ns rfl
      exact hb hob.addsUnder
    have hfree : nsTables σ t k = none ∨ oa ≠ none ∨ ob ≠ none := by
      refine hkey.imp_right fun hboth => ?_
      rcases hrace with ⟨-, rfl⟩ | ⟨rfl, -⟩
      · exact Or.inr (hboth.2 ▸ Option.some_ne_none none)
      · exact Or.inl (hboth.1 ▸ Option.some_ne_none none)
    exact ⟨nsEntry_or_eq_none hputa hputb hfree,
      nsEntry_or_eq_none hputb hputa (hfree.imp_right Or.symm)⟩

/-- Under a key where two streams converge, their last requests about it do not contradict each
other. -/
theorem ConvergeAt.sameLast {σ : Store} {a b : List UpdateRequest} (h : ConvergeAt σ a b t k) :
    (nsTables σ).SameLast a b t k := by
  obtain ⟨c, hc⟩ := h
  obtain ⟨hab, hba⟩ := hc _ _ (Or.inl ⟨⟨_, leaves_lastWrite _ _ _ _ _⟩, rfl⟩)
  rw [NsTables.SameLast]
  cases ha : lastWrite (nsEffect (nsTables σ) t k) a with
  | none => exact Or.inl rfl
  | some o =>
    cases hb : lastWrite (nsEffect (nsTables σ) t k) b with
    | none => exact Or.inr (Or.inl rfl)
    | some o' =>
      have hsame : o.map namespaceCodec.serialize = o'.map namespaceCodec.serialize := by
        simpa [ha, hb, Store.nsEntry] using hab.trans hba.symm
      exact Or.inr (Or.inr (congrArg some
        (Option.map_injective namespaceCodec.serialize_injective hsame)))

omit [Platform] in
/-- A stream without removals is steady. -/
theorem NsTables.steady_of_not_removed (hit : ∀ pattern, .nsRemoved pattern ∉ it) :
    T.Steady it other t k := by
  intro pre pattern post h
  exact absurd (by simp [h]) (hit pattern)

omit [Platform] in
/-- Streams of additions do not get in each other's way under a key that one of them does not use, or
that both leave with the same namespace. -/
theorem NsTables.independent_of_not_removed {a b : List UpdateRequest}
    (ha : ∀ pattern, .nsRemoved pattern ∉ a) (hb : ∀ pattern, .nsRemoved pattern ∉ b)
    (h : T.SameLast a b t k) : T.Independent a b t k :=
  Or.inl ⟨steady_of_not_removed ha, steady_of_not_removed hb, h⟩

end Independent

/-! ## Requests about statements -/

section Filter

variable {p : UpdateRequest → Bool}

omit [Platform] in
theorem Leaves.append_silent {T : NsTables} {other it : List UpdateRequest} {t : NsTable} {k : Bytes}
    {w : NsTable → Bool} {o : Option (Option Namespace)} (h : Leaves T other t k w it o)
    {l : List UpdateRequest} (hl : ∀ r ∈ l, ∀ T, nsEffect T t k r = none) :
    Leaves T other t k w (it ++ l) o := by
  induction l using List.reverseRecOn with
  | nil => rwa [List.append_nil]
  | append_singleton l r ih =>
    have hsnoc := (ih fun r hr => hl r (List.mem_append_left _ hr)).snoc (fun _ h => h) r
    rw [hl r (by simp), Option.none_or] at hsnoc
    rwa [← List.append_assoc]

variable (hp : ∀ r, p r = false → ∀ T t k, nsEffect T t k r = none)

include hp

omit [Platform] in
theorem lastWrite_nsEffect_filter (T : NsTables) (t : NsTable) (k : Bytes) (it : List UpdateRequest) :
    lastWrite (nsEffect T t k) (it.filter p) = lastWrite (nsEffect T t k) it :=
  lastWrite_filter fun r _ hr => hp r hr T t k

omit [Platform] in
theorem written_filter (T : NsTables) (it : List UpdateRequest) (w : NsTable → Bool) :
    T.written (it.filter p) w = T.written it w := by
  funext t k
  rw [NsTables.written, NsTables.written, lastWrite_nsEffect_filter hp]

omit [Platform] in
theorem Leaves.filter {T : NsTables} {other it : List UpdateRequest} {t : NsTable} {k : Bytes}
    {w : NsTable → Bool} {o : Option (Option Namespace)} (h : Leaves T other t k w it o) :
    ∃ w₀, (∀ t, w₀ t = true → w t = true) ∧
      Leaves T (other.filter p) t k w₀ (it.filter p) o := by
  induction h with
  | nil => exact ⟨_, fun _ h => h, .nil⟩
  | @snoc w w' it o _ hle r ih =>
    obtain ⟨w₀, hw₀, h₀⟩ := ih
    have hle₀ : ∀ t, w₀ t = true → w' t = true := fun t ht => hle t (hw₀ t ht)
    rw [List.filter_append]
    cases hr : p r with
    | true =>
      have hsnoc := h₀.snoc hle₀ r
      rw [written_filter hp] at hsnoc
      rw [List.filter_cons_of_pos hr]
      exact ⟨w', fun _ h => h, hsnoc⟩
    | false =>
      rw [List.filter_cons_of_neg (by simp [hr]), List.filter_nil, List.append_nil,
        hp r hr, Option.none_or]
      exact ⟨w₀, hle₀, h₀⟩

omit [Platform] in
theorem Leaves.of_filter {T : NsTables} {other it : List UpdateRequest} {t : NsTable} {k : Bytes}
    {w : NsTable → Bool} {o : Option (Option Namespace)}
    (h : Leaves T (other.filter p) t k w (it.filter p) o) : Leaves T other t k w it o := by
  have hsilent : ∀ {l : List UpdateRequest}, l.filter p = [] → ∀ r ∈ l, ∀ T,
      nsEffect T t k r = none := fun hl r hr T =>
    hp r (Bool.eq_false_iff.mpr (List.filter_eq_nil_iff.mp hl r hr)) T t k
  generalize hit : it.filter p = l at h
  induction h generalizing it with
  | nil =>
    have hnil : Leaves T other t k (fun _ => false) [] none := .nil
    exact hnil.append_silent (hsilent hit)
  | @snoc w w' l o _ hle r ih =>
    obtain ⟨it₁, rest, rfl, h₁, hrest⟩ := List.filter_eq_append_iff.mp hit
    obtain ⟨it₂, it₃, rfl, h₂, hr, h₃⟩ := List.filter_eq_cons_iff.mp hrest
    have hbefore := (ih h₁).append_silent
      (hsilent (List.filter_eq_nil_iff.mpr h₂))
    have hsnoc := (hbefore.snoc hle r).append_silent (hsilent h₃)
    rw [← written_filter hp] at hsnoc
    simpa using hsnoc

/-- Requests that are not about namespaces can be left out of both streams. -/
theorem convergeAt_filter_iff {σ : Store} {a b : List UpdateRequest} {t : NsTable} {k : Bytes} :
    ConvergeAt σ (a.filter p) (b.filter p) t k ↔ ConvergeAt σ a b t k := by
  refine exists_congr fun c => forall₂_congr fun oa ob => imp_congr_left ?_
  have hleaves : ∀ {other it : List UpdateRequest} {o},
      (∃ w, Leaves (nsTables σ) (other.filter p) t k w (it.filter p) o) ↔
        ∃ w, Leaves (nsTables σ) other t k w it o := by
    intro other it o
    constructor
    · rintro ⟨w, h⟩
      exact ⟨w, h.of_filter hp⟩
    · rintro ⟨w, h⟩
      obtain ⟨w₀, -, h₀⟩ := h.filter hp
      exact ⟨w₀, h₀⟩
  rw [RaceLeaves, RaceLeaves, hleaves, hleaves, lastWrite_nsEffect_filter hp,
    lastWrite_nsEffect_filter hp]

end Filter

end NsConcurrent

end CMarmotta
