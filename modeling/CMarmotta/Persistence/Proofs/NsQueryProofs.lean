import CMarmotta.Persistence.Proofs.NamespaceProofs

/-!
# What a query for namespaces delivers

`GetNamespaces` looks up the prefix of its pattern if there is one, else the uri, else it scans the
prefix table. The scan is right in every state. The lookup by prefix does not look at the uri of the
pattern (`nsQueryExact_of_prefix_iff`). The lookup by uri delivers the namespace that the last
request about the uri leaves, and that is right as long as every call treats the uri and the
prefixes bound to it alike (`run_paired_iff`).
-/

namespace CMarmotta

open KV

theorem utf8_inj {s t : String} : utf8 s = utf8 t ↔ s = t := by
  constructor
  · intro h
    have hdata : s.toByteArray.data = t.toByteArray.data := Array.toList_inj.mp h
    have hbytes : s.toByteArray = t.toByteArray := ByteArray.ext hdata
    exact String.toByteArray_inj.mp hbytes
  · rintro rfl
    rfl

section Queries

variable [Platform]

open Platform

theorem Store.NsStored.bound_iff {σ : Store} (h : σ.NsStored) {k : Bytes} {ns : Namespace} :
    nsTables σ .byPrefix k = some ns ↔ utf8 ns.nsPrefix = k ∧ (nsTables σ).Bound ns := by
  constructor
  · intro hns
    obtain rfl : utf8 ns.nsPrefix = k := h.key_eq hns
    exact ⟨rfl, hns⟩
  · rintro ⟨rfl, hns⟩
    exact hns

/-! ## By prefix -/

theorem nsQueryExact_of_prefix_iff {σ : Store} (h : σ.NsStored) {pattern : Namespace}
    (hset : pattern.nsPrefix ≠ "") :
    NsQueryExact σ pattern ↔ pattern.uri = "" ∨
      ∀ ns, nsTables σ .byPrefix (utf8 pattern.nsPrefix) = some ns → ns.uri = pattern.uri := by
  have hmem : ∀ ns, ns ∈ getNamespaces σ pattern ↔
      ns.nsPrefix = pattern.nsPrefix ∧ (nsTables σ).Bound ns := by
    intro ns
    rw [mem_getNamespaces, NsTables.Finds, if_pos hset, h.bound_iff, utf8_inj]
  have hnodup : (getNamespaces σ pattern).Nodup := by
    rw [getNamespaces, if_pos hset]
    exact Option.toList_nodup _
  constructor
  · rintro ⟨-, hexact⟩
    refine Classical.or_iff_not_imp_left.mpr fun huri ns hns => ?_
    have hns' := (hmem ns).mpr ⟨utf8_inj.mp (h.bound_iff.mp hns).1, (h.bound_iff.mp hns).2⟩
    exact ((hexact ns).mp hns').2.2.resolve_left huri
  · intro huri
    refine ⟨hnodup, fun ns => ?_⟩
    rw [hmem]
    constructor
    · rintro ⟨hpre, hbound⟩
      refine ⟨hbound, Or.inr hpre, huri.imp_right fun hall => hall ns ?_⟩
      exact h.bound_iff.mpr ⟨congrArg utf8 hpre, hbound⟩
    · rintro ⟨hbound, hpre, -⟩
      exact ⟨hpre.resolve_left hset, hbound⟩

/-! ## All namespaces -/

/-- A scan delivers the namespaces in the order of their prefixes. -/
theorem Store.NsStored.pairwise_scan {σ : Store} (h : σ.NsStored) :
    (getNamespaces σ ⟨"", ""⟩).Pairwise fun a b =>
      sliceCompare (utf8 a.nsPrefix) (utf8 b.nsPrefix) = .lt := by
  have hkey : ∀ {k v}, (k, v) ∈ σ.dbNsPrefix.toList →
      utf8 (namespaceCodec.parse v).nsPrefix = k := by
    intro k v hkv
    have hget := Std.ExtTreeMap.mem_toList_iff_getElem?_eq_some.mp hkv
    refine h.key_eq (t := .byPrefix) ?_
    exact congrArg (Option.map namespaceCodec.parse) hget
  show (σ.dbNsPrefix.toList.map fun e => namespaceCodec.parse e.2).Pairwise _
  rw [List.pairwise_map]
  refine List.Pairwise.imp_of_mem ?_ (Std.ExtTreeMap.ordered_keys_toList (t := σ.dbNsPrefix))
  rintro ⟨k, v⟩ ⟨k', v'⟩ hk hk' hlt
  rw [hkey hk, hkey hk']
  exact hlt

theorem Store.NsStored.mem_scan_iff {σ : Store} (h : σ.NsStored) {ns : Namespace} :
    ns ∈ getNamespaces σ ⟨"", ""⟩ ↔ (nsTables σ).Bound ns := by
  rw [mem_getNamespaces]
  simp only [NsTables.Finds, ne_eq, not_true_eq_false, if_false]
  constructor
  · rintro ⟨k, hk⟩
    exact (h.bound_iff.mp hk).2
  · exact fun hbound => ⟨_, hbound⟩

theorem nsQueryExact_all {σ : Store} (h : σ.NsStored) : NsQueryExact σ ⟨"", ""⟩ := by
  constructor
  · refine h.pairwise_scan.imp fun {a b} hlt hab => ?_
    have heq : sliceCompare (utf8 b.nsPrefix) (utf8 b.nsPrefix) = .eq := Std.ReflCmp.compare_self
    rw [hab, heq] at hlt
    cases hlt
  · intro ns
    rw [h.mem_scan_iff]
    simp [Namespace.Agrees]

/-! ## By uri -/

theorem nsQueryExact_of_uri_iff {σ : Store} (h : σ.NsStored) {uri : String} (huri : uri ≠ "") :
    NsQueryExact σ ⟨"", uri⟩ ↔ (nsTables σ).Paired uri := by
  have hmem : ∀ ns, ns ∈ getNamespaces σ ⟨"", uri⟩ ↔
      nsTables σ .byUrl (utf8 uri) = some ns := by
    intro ns
    rw [mem_getNamespaces, NsTables.Finds, if_neg (by simp), if_pos huri]
  have hnodup : (getNamespaces σ ⟨"", uri⟩).Nodup := by
    rw [getNamespaces, if_neg (by simp), if_pos huri]
    exact Option.toList_nodup _
  have hagrees : ∀ ns : Namespace, ns.Agrees ⟨"", uri⟩ ↔ ns.uri = uri := by
    intro ns
    simp [Namespace.Agrees, huri]
  constructor
  · rintro ⟨-, hexact⟩ ns hns
    rw [← hmem, hexact, hagrees]
    exact and_iff_left hns
  · intro hpaired
    refine ⟨hnodup, fun ns => ?_⟩
    rw [hmem, hagrees]
    constructor
    · intro hns
      have hns' : ns.uri = uri := utf8_inj.mp (h.key_eq hns)
      exact ⟨(hpaired ns hns').mp hns, hns'⟩
    · rintro ⟨hbound, hns⟩
      exact (hpaired ns hns).mpr hbound

/-- A stream that adds a namespace under one key, and leaves it under its key in the other table, has
added it there. -/
theorem added_of_added {σ : Store} {it : List UpdateRequest} {t u : NsTable} {k : Bytes}
    {ns : Namespace} (hadded : lastWrite (nsEffect (nsTables σ) t k) it = some (some ns))
    (h : nsTables (update σ it).1 u (u.key ns) = some ns) :
    lastWrite (nsEffect (nsTables σ) u (u.key ns)) it = some (some ns) := by
  rcases nsTables_update_eq_some_iff.mp h with h | ⟨hnone, -⟩
  · exact h
  · exact absurd hnone (lastWrite_ne_none_of_added hadded)

/-- A stream that is not about one key of a namespace, and leaves the namespace somewhere, is not
about that place. -/
theorem untouched_of_untouched {σ : Store} {it : List UpdateRequest} {t u : NsTable} {k : Bytes}
    {ns : Namespace} (hnone : lastWrite (nsEffect (nsTables σ) t (t.key ns)) it = none)
    (h : nsTables (update σ it).1 u k = some ns) :
    lastWrite (nsEffect (nsTables σ) u k) it = none := by
  rcases nsTables_update_eq_some_iff.mp h with hadded | ⟨h, -⟩
  · exact absurd hnone (lastWrite_ne_none_of_added hadded)
  · exact h

/-- A stream leaves a uri with the namespaces bound to it exactly when it treats them alike. -/
theorem paired_update_iff {σ : Store} {uri : String} (h : (nsTables σ).Paired uri)
    (it : List UpdateRequest) :
    (nsTables (update σ it).1).Paired uri ↔ (nsTables σ).KeepsUri uri it := by
  constructor
  · intro h'
    constructor
    · rintro ns rfl
      constructor
      · intro hadded
        have hbound := (h' ns rfl).mp (nsTables_update_eq_some_iff.mpr (Or.inl hadded))
        exact added_of_added (u := .byPrefix) hadded hbound
      · intro hadded
        have hurl := (h' ns rfl).mpr (nsTables_update_eq_some_iff.mpr (Or.inl hadded))
        exact added_of_added (u := .byUrl) hadded hurl
    · rintro ns rfl hbound
      constructor
      · intro hnone
        have hold := (h ns rfl).mpr hbound
        have hnew := (h' ns rfl).mp (nsTables_update_eq_some_iff.mpr (Or.inr ⟨hnone, hold⟩))
        exact untouched_of_untouched (t := .byUrl) hnone hnew
      · intro hnone
        have hnew := (h' ns rfl).mpr (nsTables_update_eq_some_iff.mpr (Or.inr ⟨hnone, hbound⟩))
        exact untouched_of_untouched (t := .byPrefix) hnone hnew
  · rintro hkeeps ns rfl
    rw [NsTables.Bound, nsTables_update_eq_some_iff, nsTables_update_eq_some_iff]
    refine or_congr (hkeeps.added ns rfl) ?_
    constructor
    · rintro ⟨hnone, hold⟩
      have hbound := (h ns rfl).mp hold
      exact ⟨(hkeeps.bound ns rfl hbound).mp hnone, hbound⟩
    · rintro ⟨hnone, hbound⟩
      exact ⟨(hkeeps.bound ns rfl hbound).mpr hnone, (h ns rfl).mpr hbound⟩

/-- A uri has the namespaces bound to it in every state of a run exactly when every call treats them
alike. -/
theorem run_paired_iff (ops : List Op) (uri : String) :
    (∀ pre post, ops = pre ++ post → (nsTables (run pre)).Paired uri) ↔
      ∀ pre op post, ops = pre ++ op :: post → (nsTables (run pre)).KeepsUri uri op.requests := by
  have hempty : (nsTables Store.empty).Paired uri := by
    intro ns hns
    simp [nsTables, NsTables.Bound, Store.empty, Store.nsTable]
  exact run_always_iff (P := fun σ => (nsTables σ).Paired uri)
    (Q := fun σ => (nsTables σ).KeepsUri uri) hempty (fun pre it h => paired_update_iff h it) ops

/-- When a query is right. A pattern with a prefix: if it has no uri, or the prefix is bound to that
uri or not at all. The empty pattern: always. A pattern with a uri only: in all states of a run
exactly if every call of the run treats the uri and the prefixes bound to it alike. -/
theorem getNamespaces_exact_iff (ops : List Op) (pattern : Namespace) :
    (pattern.nsPrefix ≠ "" → (NsQueryExact (run ops) pattern ↔ pattern.uri = "" ∨
      ∀ ns, nsTables (run ops) .byPrefix (utf8 pattern.nsPrefix) = some ns →
        ns.uri = pattern.uri)) ∧
    (pattern.nsPrefix = "" → pattern.uri = "" → NsQueryExact (run ops) pattern) ∧
    (pattern.nsPrefix = "" → pattern.uri ≠ "" →
      ((∀ pre post, ops = pre ++ post → NsQueryExact (run pre) pattern) ↔
        ∀ pre op post, ops = pre ++ op :: post →
          (nsTables (run pre)).KeepsUri pattern.uri op.requests)) := by
  obtain ⟨nsPrefix, uri⟩ := pattern
  refine ⟨nsQueryExact_of_prefix_iff (run_nsStored ops), ?_, ?_⟩
  · rintro rfl rfl
    exact nsQueryExact_all (run_nsStored ops)
  · rintro rfl huri
    rw [← run_paired_iff]
    simp only [nsQueryExact_of_uri_iff (run_nsStored _) huri]

end Queries

/-- A prefix is bound to a uri and then to another one. The query for the first uri still delivers
the first namespace; the query for the prefix with the first uri delivers the second one. -/
theorem getNamespaces_rebound_not_exact :
    ¬ NsQueryExact (run [.addNamespaces [⟨"ex", "http://a/"⟩],
        .addNamespaces [⟨"ex", "http://b/"⟩]]) ⟨"", "http://a/"⟩ ∧
      ¬ NsQueryExact (run [.addNamespaces [⟨"ex", "http://a/"⟩],
        .addNamespaces [⟨"ex", "http://b/"⟩]]) ⟨"ex", "http://a/"⟩ := by
  constructor
  · rintro ⟨-, hexact⟩
    have hmem : (⟨"ex", "http://a/"⟩ : Namespace) ∈ getNamespaces (run
        [.addNamespaces [⟨"ex", "http://a/"⟩], .addNamespaces [⟨"ex", "http://b/"⟩]])
        ⟨"", "http://a/"⟩ := by decide +kernel
    have hbound : nsTables (run [.addNamespaces [⟨"ex", "http://a/"⟩],
        .addNamespaces [⟨"ex", "http://b/"⟩]]) .byPrefix (utf8 "ex") =
          some ⟨"ex", "http://a/"⟩ := ((hexact _).mp hmem).1
    revert hbound
    decide +kernel
  · rintro ⟨-, hexact⟩
    have hmem : (⟨"ex", "http://b/"⟩ : Namespace) ∈ getNamespaces (run
        [.addNamespaces [⟨"ex", "http://a/"⟩], .addNamespaces [⟨"ex", "http://b/"⟩]])
        ⟨"ex", "http://a/"⟩ := by decide +kernel
    have huri := ((hexact _).mp hmem).2.2
    simp at huri

end CMarmotta
