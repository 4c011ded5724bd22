import CMarmotta.Persistence.Proofs.InOrderProofs

/-!
# When the two namespace tables agree

A namespace is stored under its prefix and under its uri. An addition overwrites what its two keys
hold, and leaves the other key of what it overwrites; a removal deletes the two keys of what it
finds, and the uri may be that of another prefix. So the tables agree in all states of a run
exactly if no call does either to a namespace that stays (`run_agree_iff`).
-/

namespace CMarmotta

open KV

section Namespaces

variable [Platform]

open Platform

theorem Store.NsStored.key_eq {σ : Store} (h : σ.NsStored) {t : NsTable} {k : Bytes}
    {ns : Namespace} (hns : nsTables σ t k = some ns) : t.key ns = k := by
  obtain ⟨v, hv, rfl⟩ := Option.map_eq_some_iff.mp hns
  obtain ⟨ns, hkey, rfl⟩ := h t k v hv
  rw [namespaceCodec.parse_serialize, hkey]

omit [Platform] in
/-- A request that adds a namespace is about both its keys. -/
theorem lastWrite_ne_none_of_added {T : NsTables} {t u : NsTable} {k : Bytes} {ns : Namespace}
    {it : List UpdateRequest} (h : lastWrite (nsEffect T t k) it = some (some ns)) :
    lastWrite (nsEffect T u (u.key ns)) it ≠ none := by
  obtain ⟨pre, r, post, rfl, hr, -⟩ := lastWrite_eq_some_iff.mp h
  obtain ⟨rfl, -⟩ := nsEffect_eq_put_iff.mp hr
  intro hnone
  have hadd := lastWrite_eq_none_iff.mp hnone (.nsAdded ns) (by simp)
  rw [nsEffect_eq_put_iff.mpr ⟨rfl, rfl⟩] at hadd
  cases hadd

/-- What is under a key of the new tables. -/
theorem nsTables_update_eq_some_iff {σ : Store} {it : List UpdateRequest} {t : NsTable} {k : Bytes}
    {ns : Namespace} :
    nsTables (update σ it).1 t k = some ns ↔
      lastWrite (nsEffect (nsTables σ) t k) it = some (some ns) ∨
        lastWrite (nsEffect (nsTables σ) t k) it = none ∧ nsTables σ t k = some ns := by
  rw [nsTables_update]
  cases lastWrite (nsEffect (nsTables σ) t k) it <;> simp

/-- A stream keeps the agreement of the tables exactly when it does not part them. -/
theorem agree_update_iff {σ : Store} (hns : σ.NsStored) (h : (nsTables σ).Agree)
    (it : List UpdateRequest) :
    (nsTables (update σ it).1).Agree ↔ (nsTables σ).Keeps it := by
  constructor
  · intro h'
    constructor
    · intro ns hurl
      have hpre := h'.byUrl _ ns (nsTables_update_eq_some_iff.mpr hurl)
      exact (nsTables_update_eq_some_iff.mp hpre).imp_right And.left
    · intro ns hpre hnone
      refine h'.byPrefix _ ns (nsTables_update_eq_some_iff.mpr hpre) ?_
      rw [nsTables_update, hnone]
      rfl
  · intro hkeeps
    have hstored := hns.update it
    constructor
    · intro k ns hurl
      obtain rfl : utf8 ns.uri = k := hstored.key_eq hurl
      have hurl' := nsTables_update_eq_some_iff.mp hurl
      rw [nsTables_update_eq_some_iff]
      refine (hkeeps.bound ns hurl').imp_right fun hnone => ⟨hnone, ?_⟩
      rcases hurl' with hadded | ⟨-, hold⟩
      · exact absurd hnone (lastWrite_ne_none_of_added (u := .byPrefix) hadded)
      · exact h.byUrl _ ns hold
    · intro k ns hpre
      obtain rfl : utf8 ns.nsPrefix = k := hstored.key_eq hpre
      have hpre' := nsTables_update_eq_some_iff.mp hpre
      have hnot := hkeeps.used ns hpre'
      rw [nsTables_update]
      cases hl : lastWrite (nsEffect (nsTables σ) .byUrl (utf8 ns.uri)) it with
      | none =>
        rcases hpre' with hadded | ⟨-, hold⟩
        · exact absurd hl (lastWrite_ne_none_of_added (u := .byUrl) hadded)
        · exact h.byPrefix _ ns hold
      | some o =>
        rw [hl] at hnot
        cases o with
        | none => exact absurd rfl hnot
        | some ns' => simp

theorem run_concat (ops : List Op) (op : Op) :
    run (ops ++ [op]) = (update (run ops) op.requests).1 := by
  rw [run, List.foldl_append, ← Op.apply_eq_update]
  rfl

/-- If `P` holds of the empty store, and a stream keeps `P` exactly when `Q`, then `P` holds in every
state of a run exactly when `Q` holds at every call. -/
theorem run_always_iff {P : Store → Prop} {Q : Store → List UpdateRequest → Prop}
    (hempty : P Store.empty)
    (hstep : ∀ pre it, P (run pre) → (P (update (run pre) it).1 ↔ Q (run pre) it))
    (ops : List Op) :
    (∀ pre post, ops = pre ++ post → P (run pre)) ↔
      ∀ pre op post, ops = pre ++ op :: post → Q (run pre) op.requests := by
  constructor
  · rintro h pre op post rfl
    have hnext := h (pre ++ [op]) post (by simp)
    rw [run_concat] at hnext
    exact (hstep pre op.requests (h pre _ rfl)).mp hnext
  · intro h pre
    induction pre using List.reverseRecOn with
    | nil =>
      intro post hpost
      exact hempty
    | append_singleton pre op ih =>
      intro post hpost
      have hops : ops = pre ++ op :: post := by simpa using hpost
      rw [run_concat]
      exact (hstep pre op.requests (ih (op :: post) hops)).mpr (h pre op post hops)

/-- The tables agree in every state of a run exactly when no call of the run parts them. -/
theorem run_agree_iff (ops : List Op) :
    (∀ pre post, ops = pre ++ post → (nsTables (run pre)).Agree) ↔
      ∀ pre op post, ops = pre ++ op :: post → (nsTables (run pre)).Keeps op.requests := by
  have hempty : (nsTables Store.empty).Agree := by
    constructor <;> simp [nsTables, Store.empty, Store.nsTable]
  exact run_always_iff (P := fun σ => (nsTables σ).Agree) (Q := fun σ => (nsTables σ).Keeps) hempty
    (fun pre it h => agree_update_iff (run_nsStored pre) h it) ops

end Namespaces

/-- A prefix is bound to a uri and then to another one. The first uri keeps its entry, and its
prefix has another namespace. -/
theorem run_rebound_disagrees :
    nsTables (run [.addNamespaces [⟨"ex", "http://a/"⟩], .addNamespaces [⟨"ex", "http://b/"⟩]])
        .byUrl (utf8 "http://a/") = some ⟨"ex", "http://a/"⟩ ∧
      nsTables (run [.addNamespaces [⟨"ex", "http://a/"⟩], .addNamespaces [⟨"ex", "http://b/"⟩]])
        .byPrefix (utf8 "ex") = some ⟨"ex", "http://b/"⟩ ∧
      ¬ (nsTables (run [.addNamespaces [⟨"ex", "http://a/"⟩],
        .addNamespaces [⟨"ex", "http://b/"⟩]])).Agree := by
  have hurl : nsTables (run [.addNamespaces [⟨"ex", "http://a/"⟩],
      .addNamespaces [⟨"ex", "http://b/"⟩]]) .byUrl (utf8 "http://a/") =
        some ⟨"ex", "http://a/"⟩ := by decide +kernel
  have hpre : nsTables (run [.addNamespaces [⟨"ex", "http://a/"⟩],
      .addNamespaces [⟨"ex", "http://b/"⟩]]) .byPrefix (utf8 "ex") =
        some ⟨"ex", "http://b/"⟩ := by decide +kernel
  refine ⟨hurl, hpre, fun h => ?_⟩
  have hsame := h.byUrl _ _ hurl
  rw [hpre] at hsame
  simp at hsame

end CMarmotta
