import CMarmotta.Persistence.Proofs.UpdateProofs
import CMarmotta.Model.X64

/-!
# One update for a stream, or one update for each request

A removal inside a stream does not see the additions before it. For the statements this matters
exactly when a removal selects a statement the stream has added under a free key. For the namespaces
it matters exactly when a removal deletes a key in the tables it queries and not in those it should
query, or the other way round (`update_eq_updateInOrder_iff`).
-/

namespace CMarmotta

open KV

section InOrder

variable [Platform]

open Platform

/-! ## Statements -/

namespace Store.Represents

variable {σ : Store} {S : Finset Statement}

theorem updateInOrder (h : σ.Represents S) (it : List UpdateRequest) :
    ∃ S', (CMarmotta.updateInOrder σ it).Represents S' := by
  induction it generalizing σ S with
  | nil => exact ⟨S, h⟩
  | cons r it ih =>
    obtain ⟨S₁, h₁, -⟩ := h.update [r]
    exact ih h₁

theorem stmtAt_updateInOrder (h : σ.Represents S) (it : List UpdateRequest) (s : Statement) :
    stmtAt (CMarmotta.updateInOrder σ it) s =
      (lastWrite (keyEffect s) it).getD (stmtAt σ s) := by
  induction it generalizing σ S with
  | nil => rfl
  | cons r it ih =>
    obtain ⟨S₁, h₁, -⟩ := h.update [r]
    have hstep : stmtAt (CMarmotta.update σ [r]).1 s = (keyEffect s r).getD (stmtAt σ s) := by
      rw [stmtAt_update, lastWrite, lastWrite, Option.none_or, h.stmtEffect_eq]
      -- A removal of a free key leaves it free, whether it acts or not.
      split
      · rename_i hc
        rw [hc.1, hc.2]
        rfl
      · rfl
    show stmtAt (CMarmotta.updateInOrder (CMarmotta.update σ [r]).1 it) s = _
    rw [ih h₁, hstep, lastWrite, Option.getD_or]

end Store.Represents

section StmtRemovals

variable {σ : Store} {S : Finset Statement} {it : List UpdateRequest}

theorem Store.Represents.stmtAt_eq_none_iff (h : σ.Represents S) {s : Statement} :
    stmtAt σ s = none ↔ ¬ ∃ t ∈ contents σ, stmtKey .SPOC t = stmtKey .SPOC s := by
  rw [h.contents_eq, ← not_iff_not, not_not, ← Ne, Option.ne_none_iff_exists']
  simp only [h.stmtAt_eq_some_iff]

/-- A removal that selects a statement nothing later adds leaves nothing, in order. -/
theorem lastWrite_keyEffect_of_removed {pre post : List UpdateRequest} {pattern s : Statement}
    (hsel : Selects pattern s)
    (hpost : ¬ ∃ t, .stmtAdded t ∈ post ∧ stmtKey .SPOC t = stmtKey .SPOC s) :
    lastWrite (keyEffect s) (pre ++ .stmtRemoved pattern :: post) = some none := by
  have hrem : keyEffect s (.stmtRemoved pattern) = some none :=
    keyEffect_eq_delete_iff.mpr ⟨pattern, rfl, hsel⟩
  rw [lastWrite_append, lastWrite, hrem]
  cases hl : lastWrite (keyEffect s) post with
  | none => rfl
  | some o =>
    obtain ⟨pre', r, post', rfl, hr, -⟩ := lastWrite_eq_some_iff.mp hl
    cases o with
    | none => rfl
    | some t =>
      obtain ⟨rfl, hk⟩ := keyEffect_eq_put_iff.mp hr
      exact absurd ⟨t, by simp, hk⟩ hpost

/-- In the batch a free key that the stream adds to is in use afterwards. -/
theorem Store.Represents.stmtAt_update_ne_none (h : σ.Represents S) {s : Statement}
    (hat : stmtAt σ s = none) (hmem : .stmtAdded s ∈ it) :
    stmtAt (CMarmotta.update σ it).1 s ≠ none := by
  rw [stmtAt_update]
  cases hl : lastWrite (stmtEffect σ .SPOC (stmtKey .SPOC s)) it with
  | none =>
    have hadd := lastWrite_eq_none_iff.mp hl (.stmtAdded s) hmem
    simp [stmtEffect] at hadd
  | some o =>
    obtain ⟨_, r, _, _, hr, -⟩ := lastWrite_eq_some_iff.mp hl
    rw [h.stmtEffect_eq] at hr
    split at hr
    · cases hr
    · rename_i hne
      rintro rfl
      exact hne ⟨hat, hr⟩

theorem Store.Represents.stmtRemovalsInOrder (h : σ.Represents S)
    (heq : ∀ s, stmtAt (CMarmotta.update σ it).1 s = stmtAt (CMarmotta.updateInOrder σ it) s) :
    StmtRemovalsInOrder σ it := by
  rintro pre pattern post s rfl hmem hsel
  by_contra hcon
  obtain ⟨hunused, hnot⟩ := not_or.mp hcon
  have hat : stmtAt σ s = none := h.stmtAt_eq_none_iff.mpr hunused
  have hne := h.stmtAt_update_ne_none hat
    (List.mem_append_left (.stmtRemoved pattern :: post) hmem)
  refine hne ?_
  rw [heq, h.stmtAt_updateInOrder, lastWrite_keyEffect_of_removed hsel hnot]
  rfl

/-- Where the removals meet the condition, the batch does nothing to a key that is free before the
stream and that a removal leaves free. -/
theorem StmtRemovalsInOrder.stmtEffect_eq_none (h : σ.Represents S)
    (hcond : StmtRemovalsInOrder σ it) {pre post : List UpdateRequest} {pattern s : Statement}
    (hit : it = pre ++ .stmtRemoved pattern :: post) (hsel : Selects pattern s)
    (hpost : ∀ r ∈ post, keyEffect s r = none) (hat : stmtAt σ s = none) :
    ∀ r ∈ it, stmtEffect σ .SPOC (stmtKey .SPOC s) r = none := by
  intro r hr
  rw [h.stmtEffect_eq]
  split
  · rfl
  · rename_i hne
    rcases hreff : keyEffect s r with _ | _ | t
    · rfl
    · exact absurd ⟨hat, hreff⟩ hne
    · obtain ⟨rfl, hk⟩ := keyEffect_eq_put_iff.mp hreff
      have hpre : .stmtAdded t ∈ pre := by
        rw [hit, List.mem_append, List.mem_cons] at hr
        rcases hr with hr | hr | hr
        · exact hr
        · cases hr
        · rw [hpost _ hr] at hreff
          cases hreff
      rcases hcond pre pattern post t hit hpre ((selects_congr hk).mpr hsel) with
        ⟨u, hu, huk⟩ | ⟨u, hu, huk⟩
      · exact absurd ⟨u, hu, huk.trans hk⟩ (h.stmtAt_eq_none_iff.mp hat)
      · have hueff := keyEffect_eq_put_iff.mpr ⟨rfl, huk.trans hk⟩
        rw [hpost _ hu] at hueff
        cases hueff

theorem StmtRemovalsInOrder.stmtAt_eq (h : σ.Represents S) (hcond : StmtRemovalsInOrder σ it)
    (s : Statement) : stmtAt (update σ it).1 s = stmtAt (updateInOrder σ it) s := by
  rw [Store.Represents.stmtAt_update, h.stmtAt_updateInOrder]
  by_cases hat : stmtAt σ s = none
  · -- A request that does nothing in order does nothing in the batch.
    have hnone : ∀ r, keyEffect s r = none →
        stmtEffect σ .SPOC (stmtKey .SPOC s) r = none := by
      intro r hr
      rw [h.stmtEffect_eq, hr, ite_self]
    rcases hl : lastWrite (keyEffect s) it with _ | _ | t
    · rw [lastWrite_eq_none_iff] at hl
      rw [lastWrite_eq_none_iff.mpr fun r hr => hnone r (hl r hr)]
    · obtain ⟨pre, r, post, hit, hr, hpost⟩ := lastWrite_eq_some_iff.mp hl
      obtain ⟨pattern, rfl, hsel⟩ := keyEffect_eq_delete_iff.mp hr
      rw [lastWrite_eq_none_iff.mpr (hcond.stmtEffect_eq_none h hit hsel hpost hat), hat]
      rfl
    · obtain ⟨pre, r, post, hit, hr, hpost⟩ := lastWrite_eq_some_iff.mp hl
      have hr' : stmtEffect σ .SPOC (stmtKey .SPOC s) r = some (some t) := by
        rw [h.stmtEffect_eq, hr, if_neg (by simp)]
      rw [lastWrite_eq_some_iff.mpr ⟨pre, r, post, hit, hr', fun c hc => hnone c (hpost c hc)⟩]
  · rw [lastWrite_congr fun r _ => ?_]
    rw [h.stmtEffect_eq, if_neg fun hc => hat hc.1]

end StmtRemovals

/-! ## Namespaces -/

theorem nsTables_update (σ : Store) (it : List UpdateRequest) (t : NsTable) (k : Bytes) :
    nsTables (update σ it).1 t k =
      (lastWrite (nsEffect (nsTables σ) t k) it).getD (nsTables σ t k) := by
  rw [nsTables, getElem?_nsTable_update, namespaceCodec.map_parse_getD]
  rfl

omit [Platform] in
theorem foldl_apply_eq_lastWrite (T : NsTables) (it : List UpdateRequest) (t : NsTable)
    (k : Bytes) :
    it.foldl NsTables.apply T t k =
      (lastWrite (fun e => nsEffect e.1 t k e.2) (timeline T it)).getD (T t k) := by
  induction it generalizing T with
  | nil => rfl
  | cons r it ih =>
    rw [List.foldl_cons, ih, timeline, lastWrite, Option.getD_or]
    rfl

omit [Platform] in
theorem lastWrite_timeline (f : UpdateRequest → Option (Option Namespace)) (T : NsTables)
    (it : List UpdateRequest) :
    lastWrite (fun e => f e.2) (timeline T it) = lastWrite f it := by
  induction it generalizing T with
  | nil => rfl
  | cons r it ih => rw [timeline, lastWrite, lastWrite, ih]

theorem nsTables_updateInOrder (σ : Store) (it : List UpdateRequest) :
    nsTables (updateInOrder σ it) = it.foldl NsTables.apply (nsTables σ) := by
  induction it generalizing σ with
  | nil => rfl
  | cons r it ih =>
    have hstep : nsTables (update σ [r]).1 = (nsTables σ).apply r := by
      funext t k
      rw [nsTables_update]
      rfl
    rw [List.foldl_cons, ← hstep, ← ih]
    rfl

theorem nsTables_eq_iff (σ : Store) (it : List UpdateRequest) :
    (∀ t k, nsTables (update σ it).1 t k = nsTables (updateInOrder σ it) t k) ↔
      NsRemovalsInOrder (nsTables σ) it := by
  refine forall_congr' fun t => forall_congr' fun k => ?_
  rw [nsTables_update, nsTables_updateInOrder, foldl_apply_eq_lastWrite,
    ← lastWrite_timeline (nsEffect (nsTables σ) t k) (nsTables σ) it]
  refine lastWrite_getD_eq_iff (fun e ns => ?_) _ _
  rw [nsEffect_eq_put_iff, nsEffect_eq_put_iff]

theorem Store.NsStored.updateInOrder {σ : Store} (h : σ.NsStored) (it : List UpdateRequest) :
    (CMarmotta.updateInOrder σ it).NsStored := by
  induction it generalizing σ with
  | nil => exact h
  | cons r it ih => exact ih (h.update [r])

/-! ## Stores -/

theorem Store.Represents.update_eq_iff {σ : Store} {S : Finset Statement} (hS : σ.Represents S)
    (hns : σ.NsStored) (it : List UpdateRequest) :
    (CMarmotta.update σ it).1 = CMarmotta.updateInOrder σ it ↔
      StmtRemovalsInOrder σ it ∧ NsRemovalsInOrder (nsTables σ) it := by
  obtain ⟨S₁, h₁, -⟩ := hS.update it
  obtain ⟨S₂, h₂⟩ := hS.updateInOrder it
  rw [Store.eq_iff, h₁.index_eq_iff h₂]
  refine and_congr ⟨hS.stmtRemovalsInOrder, fun hc => hc.stmtAt_eq hS⟩ ?_
  simp only [(hns.update it).nsTable_eq_iff (hns.updateInOrder it)]
  exact nsTables_eq_iff _ it

/-- One update for a stream leaves what one update for each request leaves exactly when no removal
of the stream depends on the requests before it. -/
theorem update_eq_updateInOrder_iff (ops : List Op) (it : List UpdateRequest) :
    (update (run ops) it).1 = updateInOrder (run ops) it ↔
      StmtRemovalsInOrder (run ops) it ∧ NsRemovalsInOrder (nsTables (run ops)) it := by
  obtain ⟨S, hS, -⟩ := run_represents ops
  exact hS.update_eq_iff (run_nsStored ops) it

end InOrder

/-- A stream that adds a statement to an empty store and then removes it leaves it there, and
request by request it does not. -/
theorem update_ne_updateInOrder :
    (update (run []) [.stmtAdded (.ofUris "urn:s" "urn:p" "urn:o"),
        .stmtRemoved (.ofUris "urn:s" "urn:p" "urn:o")]).1 ≠
      updateInOrder (run []) [.stmtAdded (.ofUris "urn:s" "urn:p" "urn:o"),
        .stmtRemoved (.ofUris "urn:s" "urn:p" "urn:o")] := by
  decide +kernel

end CMarmotta
