import CMarmotta.Client.Callbacks

/-!
# When a commit reports its own outcome

The future of a stream is set by the first callback that comes after the stream was opened. So the
commits are right in every run in which, until then, no callback of another stream brings the
other outcome (`commits_right`).
-/

namespace CMarmotta.Client

variable {completes : Nat → Bool}

/-- The stream in use is the last one, the future of the last stream is set only to its outcome,
and it is set if the callback of the stream has come. -/
structure Commits.Inv (completes : Nat → Bool) (s : Commits) : Prop where
  last : ∀ i, s.updateRequestObserver = some i → s.opened = i + 1
  future : s.opened ≠ 0 → ∃ f, s.finishFuture = some f ∧
    (f = .pending ∧ s.opened - 1 ∉ s.delivered ∨ f = .done (completes (s.opened - 1)))
  below : ∀ i ∈ s.delivered, i < s.opened
  waits : s.waiting = true → s.completed = true
  failed : ∀ i, s.updateRequestObserver = some i → s.completed = true → s.waiting = false →
    completes i = false
  reports : ∀ i c, (i, c) ∈ s.reports → c = completes i

namespace Commits.Inv

variable {s s' : Commits}

theorem start : Commits.Inv completes {} where
  last _ h := nomatch h
  future h := absurd rfl h
  below _ h := absurd h List.not_mem_nil
  waits h := nomatch h
  failed _ h := nomatch h
  reports _ _ h := absurd h List.not_mem_nil

/-- A future that is set has the outcome of the stream in use. -/
theorem outcome_eq (h : s.Inv completes) {i : Nat} (hi : s.updateRequestObserver = some i)
    {c : Bool} (hf : s.finishFuture = some (.done c)) : c = completes i := by
  have hlast := h.last i hi
  obtain ⟨f, hfuture, hpending | hdone⟩ := h.future (by omega)
  · rw [hf, hpending.1] at hfuture
    simp at hfuture
  · rw [hf, hdone, hlast] at hfuture
    simpa using hfuture

theorem opens (h : s.Inv completes) (hwaiting : s.waiting = false) :
    Commits.Inv completes { s with
      opened := s.opened + 1
      updateRequestObserver := some s.opened
      completed := false
      finishFuture := some .pending } where
  last i hi := by
    obtain rfl := Option.some.inj hi
    rfl
  future _ := ⟨.pending, rfl, Or.inl ⟨rfl, fun hmem => Nat.lt_irrefl _ (h.below _ hmem)⟩⟩
  below i hi := Nat.lt_succ_of_lt (h.below i hi)
  waits hw := by
    rw [hwaiting] at hw
    cases hw
  failed _ _ hc := nomatch hc
  reports := h.reports

theorem commits (h : s.Inv completes) :
    Commits.Inv completes { s with completed := true, waiting := true } where
  last := h.last
  future := h.future
  below := h.below
  waits _ := rfl
  failed _ _ _ hw := nomatch hw
  reports := h.reports

theorem returns (h : s.Inv completes) {i : Nat} (hi : s.updateRequestObserver = some i) {c : Bool}
    (hf : s.finishFuture = some (.done c)) :
    Commits.Inv completes { s with
      updateRequestObserver := if c then none else some i
      waiting := false
      reports := s.reports ++ [(i, c)] } where
  last j hj := by
    refine h.last j ?_
    cases c with
    | true => cases hj
    | false => exact hi.trans hj
  future := h.future
  below := h.below
  waits hw := nomatch hw
  failed j hj _ _ := by
    have hc := h.outcome_eq hi hf
    cases c with
    | true => cases hj
    | false =>
      obtain rfl := Option.some.inj hj
      exact hc.symm
  reports j c' hj := by
    rcases List.mem_append.mp hj with hj | hj
    · exact h.reports j c' hj
    · obtain ⟨rfl, rfl⟩ := Prod.mk.inj (List.mem_singleton.mp hj)
      exact h.outcome_eq hi hf

theorem delivers (h : s.Inv completes) {i : Nat} (hi : i < s.opened)
    (hcallback : s.finishFuture = some .pending → completes i = completes (s.opened - 1)) :
    Commits.Inv completes { s with
      finishFuture := s.finishFuture.map (Future.set (completes i))
      delivered := s.delivered ++ [i] } where
  last := h.last
  future hopened := by
    obtain ⟨f, hfuture, hf⟩ := h.future hopened
    refine ⟨f.set (completes i), by rw [hfuture]; rfl, Or.inr ?_⟩
    rcases hf with ⟨rfl, -⟩ | rfl
    · rw [Future.set, hcallback hfuture]
    · rfl
  below j hj := by
    rcases List.mem_append.mp hj with hj | hj
    · exact h.below j hj
    · rwa [List.mem_singleton.mp hj]
  waits := h.waits
  failed := h.failed
  reports := h.reports

/-- A step keeps the invariant, if a callback does not disturb the future of another stream. -/
theorem step (h : s.Inv completes) {e : CommitEvent} (hstep : s.step completes e = some s')
    (hcallback : ∀ i, e = .deliver i → s.finishFuture = some .pending →
      completes i = completes (s.opened - 1)) : s'.Inv completes := by
  cases e with
  | ensureTransaction =>
    simp only [Commits.step] at hstep
    split at hstep
    · cases hstep
    · rename_i hwaiting
      split at hstep
      · cases hstep
        exact h.opens (Bool.eq_false_iff.mpr hwaiting)
      · cases hstep
        exact h
  | commit =>
    simp only [Commits.step] at hstep
    split at hstep
    · cases hstep
    · rename_i hwaiting
      split at hstep
      · cases hstep
        exact h
      · rename_i i hi
        split at hstep
        · rename_i hcompleted
          cases hstep
          refine ⟨h.last, h.future, h.below, h.waits, h.failed, fun j c hj => ?_⟩
          rcases List.mem_append.mp hj with hj | hj
          · exact h.reports j c hj
          · obtain ⟨rfl, rfl⟩ := Prod.mk.inj (List.mem_singleton.mp hj)
            exact (h.failed j hi hcompleted (Bool.eq_false_iff.mpr hwaiting)).symm
        · cases hstep
          exact h.commits
  | get =>
    simp only [Commits.step] at hstep
    split at hstep
    · rename_i i c hwaiting hi hf
      cases hstep
      exact h.returns hi hf
    · cases hstep
  | rollback =>
    simp only [Commits.step] at hstep
    split at hstep
    · cases hstep
    · cases hstep
      exact ⟨nofun, h.future, h.below, h.waits, nofun, h.reports⟩
  | deliver i =>
    simp only [Commits.step] at hstep
    split at hstep
    · rename_i hi
      cases hstep
      exact h.delivers hi.1 (hcallback i rfl)
    · cases hstep

theorem right (h : s.Inv completes) : s.Right completes where
  reports := h.reports
  ready i hwaiting hi hdelivered := by
    have hlast := h.last i hi
    obtain ⟨f, hfuture, ⟨-, hnot⟩ | rfl⟩ := h.future (by omega)
    · rw [hlast] at hnot
      exact absurd hdelivered hnot
    · rw [hfuture, hlast]
      rfl

end Commits.Inv

theorem Commits.Inv.run {s s' : Commits} (h : s.Inv completes) {events : List CommitEvent}
    (hundisturbed : Undisturbed completes s events) (hrun : s.run completes events = some s') :
    s'.Inv completes := by
  induction events generalizing s with
  | nil =>
    cases hrun
    exact h
  | cons e events ih =>
    obtain ⟨s₁, hstep, hrest⟩ := Option.bind_eq_some_iff.mp hrun
    obtain ⟨hcallback, hafter⟩ := hundisturbed
    exact ih (h.step hstep hcallback) (hafter s₁ hstep) hrest

/-- In every run of a connection in which no callback disturbs the future of another stream, every
commit reports the outcome of its own stream. -/
theorem commits_right {events : List CommitEvent} {s : Commits}
    (hundisturbed : Undisturbed completes {} events)
    (hrun : Commits.run completes {} events = some s) : s.Right completes :=
  (Commits.Inv.start.run hundisturbed hrun).right

/-- A transaction that is rolled back, and one that is committed after the callback of the first. -/
theorem commits_right_after_rollback :
    ∃ s, Commits.run (fun i => i = 1) {} [.ensureTransaction, .rollback, .deliver 0,
        .ensureTransaction, .commit, .deliver 1, .get] = some s ∧
      s.reports = [(1, true)] ∧ s.Right fun i => i = 1 := by
  have hundisturbed : Undisturbed (fun i => i = 1) {} [.ensureTransaction, .rollback, .deliver 0,
      .ensureTransaction, .commit, .deliver 1, .get] := by simp [Undisturbed, Commits.step]
  exact ⟨_, rfl, rfl, commits_right hundisturbed rfl⟩

/-- The same, but the callback of the first stream comes when the second is open already. The
commit of the second fails, although the server completes its stream. -/
theorem commit_reports_other_stream :
    ∃ s, Commits.run (fun i => i = 1) {} [.ensureTransaction, .rollback, .ensureTransaction,
        .deliver 0, .commit, .deliver 1, .get] = some s ∧
      s.reports = [(1, false)] ∧ ¬ s.Right fun i => i = 1 := by
  refine ⟨_, rfl, rfl, fun h => ?_⟩
  have hreport := h.reports 1 false (by simp)
  simp at hreport

end CMarmotta.Client
