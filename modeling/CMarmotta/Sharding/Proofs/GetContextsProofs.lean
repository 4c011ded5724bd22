import CMarmotta.Sharding.Proofs.ShardingProofs
import CMarmotta.Service.Proofs.GraphsProofs
import CMarmotta.Sharding.Concurrent
import Mathlib.Algebra.Order.BigOperators.Group.Finset

/-!
# When the proxy lists all contexts

The loop of `GetContexts` writes what the set holds when the loop comes by. It lists the contexts of
all backends, each once, exactly if they are in the set when the loop starts and at most one of them
is empty (`getContexts_lists_iff`).
-/

namespace CMarmotta

/-! ## What the threads have read -/

namespace ShardingService

variable {n : Nat}

/-- The set and the streams hold what the backends report. An empty context is never found in the
set, so each of them is in the set or in a stream. -/
structure ContextScan.Scanned (reported : Fin (n + 1) → List Resource) (s : ContextScan n) :
    Prop where
  pending : ∀ i, ∀ c ∈ s.incoming i, c ∈ reported i
  known : ∀ c ∈ s.contexts, ∃ i, c ∈ reported i
  kept : ∀ i, ∀ c ∈ reported i, c ∈ s.contexts ∨ c ∈ s.incoming i
  once : ∀ c, c ≠ .notSet → s.contexts.count c ≤ 1
  blank : s.contexts.count .notSet + ∑ i, (s.incoming i).count .notSet =
    ∑ i, (reported i).count .notSet
  unwritten : s.ahead = none → s.written = []

namespace ContextScan

variable {reported : Fin (n + 1) → List Resource} {s s' : ContextScan n}

theorem Scanned.start (reported : Fin (n + 1) → List Resource) :
    (ContextScan.start reported).Scanned reported where
  pending _ _ h := h
  known _ h := absurd h List.not_mem_nil
  kept _ _ h := Or.inr h
  once _ _ := Nat.zero_le 1
  blank := Nat.zero_add _
  unwritten _ := rfl

/-- A context that is set is inserted at most once. -/
theorem count_insertContext_le {contexts : List Resource} {c : Resource} (hc : c ≠ .notSet)
    (honce : contexts.count c ≤ 1) (r : Resource) : (insertContext contexts r).count c ≤ 1 := by
  by_cases hr : r = .notSet ∨ r ∉ contexts
  · rw [insertContext_of_not_mem hr, List.count_append, List.count_singleton]
    split_ifs with heq
    · obtain rfl : r = c := by simpa using heq
      rw [List.count_eq_zero_of_not_mem (hr.resolve_left hc)]
    · exact honce
  · obtain ⟨hr, hmem⟩ := not_or.mp hr
    rw [insertContext_of_mem hr (not_not.mp hmem)]
    exact honce

/-- A context that is not set is inserted each time. -/
theorem count_notSet_insertContext (contexts : List Resource) (r : Resource) :
    (insertContext contexts r).count .notSet = contexts.count .notSet + [r].count .notSet := by
  by_cases hr : r = .notSet ∨ r ∉ contexts
  · rw [insertContext_of_not_mem hr, List.count_append]
  · obtain ⟨hr, hmem⟩ := not_or.mp hr
    rw [insertContext_of_mem hr (not_not.mp hmem), List.count_cons_of_ne hr, List.count_nil,
      Nat.add_zero]

theorem Scanned.read (h : s.Scanned reported) {i : Fin (n + 1)} {r : Resource}
    {rest : List Resource} (hi : s.incoming i = r :: rest) : (s.read i r rest).Scanned reported where
  pending j c hc := by
    by_cases hj : j = i
    · subst hj
      refine h.pending j c ?_
      rw [hi]
      exact List.mem_cons_of_mem r (by simpa [ContextScan.read] using hc)
    · exact h.pending j c (by simpa [ContextScan.read, Function.update_of_ne hj] using hc)
  known c hc := by
    rcases mem_insertContext.mp hc with hc | rfl
    · exact h.known c hc
    · exact ⟨i, h.pending i c (by simp [hi])⟩
  kept j c hc := by
    show c ∈ insertContext s.contexts r ∨ c ∈ Function.update s.incoming i rest j
    rw [mem_insertContext]
    rcases h.kept j c hc with hin | hin
    · exact Or.inl (Or.inl hin)
    · by_cases hj : j = i
      · subst hj
        rw [hi, List.mem_cons] at hin
        rw [Function.update_self]
        exact hin.elim (fun hin => Or.inl (Or.inr hin)) Or.inr
      · rw [Function.update_of_ne hj]
        exact Or.inr hin
  once c hc := count_insertContext_le hc (h.once c hc) r
  blank := by
    have hsum := Threads.sum_update_add (List.count .notSet) s.incoming i rest
    have hblank := h.blank
    have hcons : ([r] ++ rest).count .notSet = [r].count .notSet + rest.count .notSet :=
      List.count_append
    rw [hi, ← List.singleton_append, hcons] at hsum
    show (insertContext s.contexts r).count .notSet +
      ∑ j, (Function.update s.incoming i rest j).count .notSet = _
    rw [count_notSet_insertContext]
    omega
  unwritten := h.unwritten

theorem Scanned.step (h : s.Scanned reported) (hstep : Step s s') : s'.Scanned reported := by
  cases hstep with
  | read hi _ => exact h.read hi
  | relink hi _ _ _ =>
    have hread := h.read hi
    exact ⟨hread.pending, hread.known, hread.kept, hread.once, hread.blank, nofun⟩
  | loop _ _ => exact ⟨h.pending, h.known, h.kept, h.once, h.blank, nofun⟩
  | write _ => exact ⟨h.pending, h.known, h.kept, h.once, h.blank, nofun⟩

theorem Scanned.reaches (h : s.Scanned reported) (hreach : s.Reaches s') : s'.Scanned reported := by
  induction hreach with
  | refl => exact h
  | tail _ hstep ih => exact ih.step hstep

/-! ## The loop -/

/-- The loop can go on to its end with no further read. -/
theorem reaches_write_all {ahead : List Resource} (h : s.ahead = some ahead) :
    s.Reaches { s with ahead := some [], written := s.written ++ ahead } := by
  induction ahead generalizing s with
  | nil =>
    obtain ⟨incoming, contexts, _, written⟩ := s
    obtain rfl : _ = some [] := h
    rw [List.append_nil]
  | cons c rest ih =>
    refine .head (.write h) ?_
    simpa using ih (s := { s with ahead := some rest, written := s.written ++ [c] }) rfl

/-- All reads can come before the next step of the loop, and the loop then goes on with the whole
set. -/
theorem reaches_read_all (h : s.ahead = some s.contexts) :
    ∃ s', s.Reaches s' ∧ (∀ i, s'.incoming i = []) ∧ s'.ahead = some s'.contexts ∧
      s'.written = s.written := by
  induction hm : ∑ i, (s.incoming i).length generalizing s with
  | zero =>
    refine ⟨s, .refl, fun i => ?_, h, rfl⟩
    rw [← List.length_eq_zero_iff]
    exact (Finset.sum_eq_zero_iff.mp hm) i (Finset.mem_univ i)
  | succ m ih =>
    obtain ⟨i, -, hne⟩ : ∃ i ∈ Finset.univ, (s.incoming i).length ≠ 0 :=
      Finset.exists_ne_zero_of_sum_ne_zero (by omega)
    obtain ⟨r, rest, hi⟩ := List.exists_cons_of_length_pos (Nat.pos_of_ne_zero hne)
    have hless : ∑ j, (Function.update s.incoming i rest j).length = m := by
      have hsum := Threads.sum_update_add List.length s.incoming i rest
      rw [hi, List.length_cons] at hsum
      omega
    by_cases hin : insertContext s.contexts r = s.contexts
    · have hahead : (s.read i r rest).ahead = some (s.read i r rest).contexts := by
        show s.ahead = some (insertContext s.contexts r)
        rw [hin, h]
      obtain ⟨s', hreach, hrest⟩ := ih hahead hless
      exact ⟨s', .head (.read hi (Or.inr hin)) hreach, hrest⟩
    · obtain ⟨s', hreach, hrest⟩ :=
        ih (s := { s.read i r rest with ahead := some (insertContext s.contexts r) }) rfl hless
      exact ⟨s', .head (.relink hi h hin (List.Subperm.refl _)) hreach, hrest⟩

/-- If the set holds all contexts and at most one of them is empty, no read changes the set, and the
loop writes it. -/
theorem Scanned.written_perm (h : s.Scanned reported)
    (hall : ∀ i, ∀ c ∈ reported i, c ∈ s.contexts)
    (hblank : ∑ i, (reported i).count .notSet ≤ 1) {ahead : List Resource}
    (hahead : s.ahead = some ahead) (hperm : (s.written ++ ahead).Perm s.contexts)
    (hreach : s.Reaches s') :
    s'.Scanned reported ∧ s'.contexts = s.contexts ∧
      ∃ ahead', s'.ahead = some ahead' ∧ (s'.written ++ ahead').Perm s.contexts := by
  induction hreach with
  | refl => exact ⟨h, rfl, ahead, hahead, hperm⟩
  | @tail t t' _ hstep ih =>
    obtain ⟨ht, hcontexts, ahead', hahead', hperm'⟩ := ih
    have hsame : ∀ {i r rest}, t.incoming i = r :: rest →
        insertContext t.contexts r = t.contexts := by
      intro i r rest hi
      have hmem : r ∈ t.contexts := by
        rw [hcontexts]
        exact hall i r (ht.pending i r (by simp [hi]))
      refine insertContext_of_mem ?_ hmem
      rintro rfl
      have hone := List.count_pos_iff.mpr hmem
      have htwo : 1 ≤ ∑ j, (t.incoming j).count .notSet := by
        have hle : (t.incoming i).count .notSet ≤ ∑ j, (t.incoming j).count .notSet :=
          Finset.single_le_sum (f := fun j => (t.incoming j).count .notSet)
            (fun _ _ => Nat.zero_le _) (Finset.mem_univ i)
        rw [hi, List.count_cons_self] at hle
        omega
      have := ht.blank
      omega
    refine ⟨ht.step hstep, ?_⟩
    cases hstep with
    | read hi _ => exact ⟨(hsame hi).trans hcontexts, ahead', hahead', hperm'⟩
    | relink hi _ hne _ => exact absurd (hsame hi) hne
    | loop hnone _ =>
      rw [hnone] at hahead'
      cases hahead'
    | @write c rest hcons =>
      obtain rfl : ahead' = c :: rest := by
        rw [hcons] at hahead'
        exact (Option.some.inj hahead').symm
      refine ⟨hcontexts, rest, rfl, ?_⟩
      simpa using hperm'

/-! ## All contexts -/

section Lists

variable [Platform] {shards : Shards n}

theorem Scanned.listsAll (h : s.Scanned fun i => LevelDBService.getContexts (shards i))
    (hloop : s.ahead = none)
    (hall : ∀ i, ∀ c ∈ LevelDBService.getContexts (shards i), c ∈ s.contexts)
    (hblank : ∑ i, (LevelDBService.getContexts (shards i)).count .notSet ≤ 1) :
    s.ListsAll shards := by
  intro order s' horder hreach hdone c
  have hstart : Scanned (fun i => LevelDBService.getContexts (shards i))
      { s with ahead := some order } := h.step (.loop hloop horder)
  have hperm : (s.written ++ order).Perm s.contexts := by
    rw [h.unwritten hloop]
    exact horder
  obtain ⟨-, -, ahead', hahead', hwritten⟩ := hstart.written_perm hall hblank rfl hperm hreach
  obtain rfl : ahead' = [] := Option.some.inj (hahead'.symm.trans hdone)
  rw [List.append_nil] at hwritten
  rw [hwritten.count_eq]
  show s.contexts.count c = _
  split_ifs with hc
  · obtain ⟨i, hi⟩ := hc
    have hone := List.count_pos_iff.mpr (hall i c hi)
    by_cases hset : c = .notSet
    · subst hset
      have := h.blank
      omega
    · have := h.once c hset
      omega
  · exact List.count_eq_zero_of_not_mem fun hmem => hc (h.known c hmem)

theorem Scanned.of_listsAll (h : s.Scanned fun i => LevelDBService.getContexts (shards i))
    (hloop : s.ahead = none) (hlists : s.ListsAll shards) :
    (∀ i, ∀ c ∈ LevelDBService.getContexts (shards i), c ∈ s.contexts) ∧
      ∑ i, (LevelDBService.getContexts (shards i)).count .notSet ≤ 1 := by
  have hnil := h.unwritten hloop
  constructor
  · -- No thread reads during the loop.
    intro i c hc
    have hcount : (s.written ++ s.contexts).count c = _ := hlists s.contexts _ (List.Perm.refl _)
      (reaches_write_all (s := { s with ahead := some s.contexts }) rfl) rfl c
    rw [if_pos ⟨i, hc⟩, hnil, List.nil_append] at hcount
    exact List.count_pos_iff.mp (by omega)
  · -- All threads read before the first write.
    obtain ⟨s₁, hreach, hread, hahead, hwritten⟩ :=
      reaches_read_all (s := { s with ahead := some s.contexts }) rfl
    have hcount := hlists s.contexts _ (List.Perm.refl _)
      (hreach.trans (reaches_write_all hahead)) rfl .notSet
    have hblank := ((h.step (.loop hloop (List.Perm.refl _))).reaches hreach).blank
    have hwritten' : s₁.written = [] := hwritten.trans hnil
    simp only [hread, List.count_nil, Finset.sum_const_zero, Nat.add_zero] at hblank
    rw [← hblank]
    simp only [hwritten', List.nil_append] at hcount
    rw [hcount]
    split_ifs <;> omega

end Lists

end ContextScan

theorem ContextScan.Scanned.congr {reported reported' : Fin (n + 1) → List Resource}
    {s : ContextScan n} (h : s.Scanned reported) (hperm : ∀ i, (reported i).Perm (reported' i)) :
    s.Scanned reported' where
  pending i c hc := (hperm i).mem_iff.mp (h.pending i c hc)
  known c hc := by
    obtain ⟨i, hi⟩ := h.known c hc
    exact ⟨i, (hperm i).mem_iff.mp hi⟩
  kept i c hc := h.kept i c ((hperm i).mem_iff.mpr hc)
  once := h.once
  blank := by
    rw [h.blank]
    exact Finset.sum_congr rfl fun i _ => (hperm i).count_eq .notSet
  unwritten := h.unwritten

/-- The loop of `GetContexts` lists the contexts of all backends, each once and nothing else,
exactly when they all are in the set when the loop starts and at most one of them is empty. -/
theorem getContexts_lists_iff [Platform] {shards : Shards n}
    {reported : Fin (n + 1) → List Resource}
    (hreported : ∀ i, (reported i).Perm (LevelDBService.getContexts (shards i)))
    {s : ContextScan n} (hreach : (ContextScan.start reported).Reaches s) (hloop : s.ahead = none) :
    s.ListsAll shards ↔
      (∀ i, ∀ c ∈ LevelDBService.getContexts (shards i), c ∈ s.contexts) ∧
        sumResponses (fun i => (LevelDBService.getContexts (shards i)).count .notSet) ≤ 1 := by
  rw [sumResponses_eq_sum]
  have h := ((ContextScan.Scanned.start reported).reaches hreach).congr hreported
  exact ⟨h.of_listsAll hloop, fun ⟨hall, hblank⟩ => h.listsAll hloop hall hblank⟩

end ShardingService

open ShardingService

/-- A store with one statement, in a context. -/
def oneContext : Store :=
  (addStatements Store.empty [.ofUris "urn:s" "urn:p" "urn:o" "urn:c"]).1

theorem getContexts_oneContext : LevelDBService.getContexts oneContext = [.uri ⟨"urn:c"⟩] := by
  decide +kernel

/-- A backend holds a statement in a context, and its thread has read the context when the loop
starts. -/
theorem getContexts_lists_one :
    (ContextScan.start fun _ : Fin 1 => [Resource.uri ⟨"urn:c"⟩]).Reaches
        ((ContextScan.start fun _ : Fin 1 => [Resource.uri ⟨"urn:c"⟩]).read 0 (.uri ⟨"urn:c"⟩) []) ∧
      ((ContextScan.start fun _ : Fin 1 => [Resource.uri ⟨"urn:c"⟩]).read 0
        (.uri ⟨"urn:c"⟩) []).ListsAll fun _ => oneContext := by
  have hreach : (ContextScan.start fun _ : Fin 1 => [Resource.uri ⟨"urn:c"⟩]).Reaches
      ((ContextScan.start fun _ : Fin 1 => [Resource.uri ⟨"urn:c"⟩]).read 0 (.uri ⟨"urn:c"⟩) []) :=
    .single (.read rfl (Or.inl rfl))
  refine ⟨hreach, (getContexts_lists_iff (fun _ => ?_) hreach rfl).mpr ⟨fun _ c hc => ?_, ?_⟩⟩
  · rw [getContexts_oneContext]
  · rw [getContexts_oneContext] at hc
    exact hc
  · simp only [getContexts_oneContext]
    decide

/-- A backend holds a statement in a context. The loop ends before the thread has read the
context, and nothing is written. -/
theorem getContexts_lists_nothing :
    ∃ s : ContextScan 0,
      (ContextScan.start fun _ : Fin 1 => LevelDBService.getContexts oneContext).Reaches
        s ∧ s.Done ∧ s.written = [] ∧ .uri ⟨"urn:c"⟩ ∈ LevelDBService.getContexts oneContext :=
  ⟨_, .single (.loop rfl (List.Perm.refl _)), rfl, rfl, by rw [getContexts_oneContext]; simp⟩

end CMarmotta
