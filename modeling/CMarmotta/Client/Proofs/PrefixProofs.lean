import CMarmotta.Client.Proofs.StreamProofs
import CMarmotta.Persistence.Proofs.NsQueryProofs

/-!
# What the client's operations on a prefix do

A message cannot tell the empty prefix from no prefix, and the server takes a pattern without a
prefix and a uri for the pattern of all namespaces. So `getNamespace` and `removeNamespace` do what
they are for with every prefix but the empty one, which is that of the default namespace
(`prefix_operations_iff`).
-/

namespace CMarmotta.Client

open KV

/-! ## Sessions in which all calls of the server succeed -/

section Sessions

variable [Platform] {σ : Store} {calls : List (Env × Call)} {P : Store → Prop}

/-- The method keeps a property of the store of the server. -/
def Method.Preserves (P : Store → Prop) (m : Method) : Prop :=
  ∀ s, P s.server → P (m s).1.server

namespace Method.Preserves

omit [Platform] in
theorem andThen {m m' : Method} (h : m.Preserves P) (h' : m'.Preserves P) :
    (m.andThen m').Preserves P := by
  intro s hs
  have hm := h s hs
  unfold Method.andThen
  cases hms : m s with
  | mk s' thrown =>
    rw [hms] at hm
    cases thrown with
    | none => exact h' s' hm
    | some e => exact hm

omit [Platform] in
theorem call (c : StreamCall) : (Client.call c).Preserves P := by
  intro s hs
  unfold Client.call
  cases s.updateRequestObserver with
  | none => exact hs
  | some stream => exact hs

omit [Platform] in
theorem addition (requests : List UpdateRequest) : (Client.addition requests).Preserves P := by
  have hensure : ensureTransaction.Preserves P := by
    intro s hs
    unfold ensureTransaction
    split <;> exact hs
  refine hensure.andThen ?_
  induction requests with
  | nil => exact fun s hs => hs
  | cons u requests ih => exact (call (.onNext u)).andThen ih

variable (hP : ∀ σ it, P σ → P (CMarmotta.update σ it).1)

include hP

theorem commitInternal (env : Env) : (Client.commitInternal env).Preserves P := by
  have hawait : (awaitFinish env).Preserves P := by
    intro s hs
    unfold awaitFinish
    split
    · exact hP _ _ hs
    · exact hs
  intro s hs
  unfold Client.commitInternal
  split
  · exact (call .onCompleted).andThen (hawait.andThen fun s hs => hs) s hs
  · exact hs

theorem commitForQuery (env : Env) : (Client.commitForQuery env).Preserves P := by
  intro s hs
  unfold Client.commitForQuery
  split
  · exact commitInternal hP env s hs
  · exact hs

theorem operation (env : Env) (op : Operation) : (op.method env).Preserves P := by
  cases op with
  | query q => exact commitForQuery hP env
  | update u =>
    show (u.method env).Preserves P
    rw [Update.method_eq]
    split
    · exact (commitForQuery hP env).andThen (addition u.requests)
    · exact addition u.requests

/-- A property that every update keeps holds of the server after every call. -/
theorem next (c : Env × Call) (s : Session) (hs : P s.server) : P (c.2.next c.1 s).server := by
  obtain ⟨env, c⟩ := c
  cases c with
  | operation op => exact operation hP env op s hs
  | commit =>
    rw [Call.next]
    split
    · exact commitInternal hP env s hs
    · exact hs
  | close =>
    rw [Call.next]
    split
    · exact commitInternal hP env s hs
    · exact hs
  | rollback =>
    rw [Call.next]
    split
    · exact (call _).andThen (fun s hs => hs) s hs
    · exact hs

theorem sessionAfter (hσ : P σ) (calls : List (Env × Call)) :
    P (Client.sessionAfter σ calls).server := by
  induction calls using List.reverseRecOn with
  | nil => exact hσ
  | append_singleton calls c ih =>
    rw [sessionAfter_concat]
    exact next hP c _ ih

end Method.Preserves

/-- As long as every commit succeeds, the stream in use is not ended. -/
theorem not_stale_of_completes (hrpc : ∀ c ∈ calls, c.1.completes = true) :
    ¬ (sessionAfter σ calls).Stale := by
  induction calls using List.reverseRecOn with
  | nil =>
    rintro ⟨stream, hobserver, -⟩
    cases hobserver
  | append_singleton calls c ih =>
    intro hstale
    rcases hstale.of_next (next_sessionAfter calls c) with ⟨hbefore, -⟩ | ⟨-, -, -, hfails⟩
    · exact ih (fun d hd => hrpc d (List.mem_append_left _ hd)) hbefore
    · rw [hrpc c (by simp)] at hfails
      cases hfails

/-- Then a query and a removal find the stream committed. -/
theorem commitForQuery_of_not_stale {s : Session} (h : ¬ s.Stale) (active : Bool) :
    ∃ s', commitForQuery ⟨active, true⟩ s = (s', none) ∧
      (active = true → s'.updateRequestObserver = none) := by
  obtain ⟨closed, observer, τ⟩ := s
  cases active with
  | false => exact ⟨_, rfl, by simp⟩
  | true =>
    cases observer with
    | none => exact ⟨_, rfl, fun _ => rfl⟩
    | some stream =>
      have hopen : stream.ended = false := by
        cases hended : stream.ended with
        | false => rfl
        | true => exact absurd ⟨stream, rfl, hended⟩ h
      rw [commitForQuery_of_active rfl, commitInternal_of_open hopen rfl]
      exact ⟨_, rfl, fun _ => rfl⟩

end Sessions

/-! ## Looking up and removing -/

section Prefixes

variable [Platform] {ρ : Type} {σ : Store}

/-- `getNamespace` returns the uri bound to the prefix, or `null`. -/
def GetsBinding (tupleQuery : Store → String → ρ) (env : Env) (s : Session) (nsPrefix : String) :
    Prop :=
  ((Operation.query (.getNamespace nsPrefix)).run tupleQuery env s).2 =
    .answers (.namespace (.ok ((nsTables (commitForQuery env s).1.server .byPrefix
      (utf8 nsPrefix)).map Namespace.uri)))

/-- `removeNamespace` and then `commit`. -/
def removeAndCommit (nsPrefix : String) : Method :=
  (removeNamespaceInternal .good nsPrefix).andThen (commitInternal .good)

/-- Removing the prefix and committing succeeds, unbinds the prefix and leaves all other ones bound
as they are. -/
def Unbinds (s : Session) (nsPrefix : String) : Prop :=
  (removeAndCommit nsPrefix s).2 = none ∧
    ∀ other, nsTables (removeAndCommit nsPrefix s).1.server .byPrefix (utf8 other) =
      if other = nsPrefix then none
      else nsTables (commitForQuery .good s).1.server .byPrefix (utf8 other)

omit [Platform] in
/-- If some prefix is bound, the empty one is bound to the uri of the greatest. -/
def GreatestIsDefault (T : NsTables) : Prop :=
  ∀ greatest, T.Bound greatest →
    (∀ ns, T.Bound ns → (sliceCompare (utf8 ns.nsPrefix) (utf8 greatest.nsPrefix)).isLE = true) →
    T .byPrefix (utf8 "") = some ⟨"", greatest.uri⟩

/-- The server answers with the last namespace it finds. -/
theorem getNamespace_eq (pattern : Namespace) :
    LevelDBService.getNamespace σ pattern =
      match (getNamespaces σ pattern).getLast? with
      | some ns => .ok ns
      | none => .error ⟨.NOT_FOUND, "Namespace not found"⟩ := by
  rw [LevelDBService.getNamespace, forEach_eq_foldl]
  cases getNamespaces σ pattern using List.reverseRecOn with
  | nil => rfl
  | append_singleton l ns =>
    rw [List.foldl_append, List.getLast?_concat]
    rfl

/-- `getNamespace` returns the uri of that namespace. -/
theorem getsBinding_iff {s : Session} (h : ¬ s.Stale) (tupleQuery : Store → String → ρ)
    (active : Bool) (nsPrefix : String) :
    GetsBinding tupleQuery ⟨active, true⟩ s nsPrefix ↔
      (getNamespaces (commitForQuery ⟨active, true⟩ s).1.server ⟨nsPrefix, ""⟩).getLast?.map
          Namespace.uri =
        (nsTables (commitForQuery ⟨active, true⟩ s).1.server .byPrefix (utf8 nsPrefix)).map
          Namespace.uri := by
  obtain ⟨s', hcommit, -⟩ := commitForQuery_of_not_stale h active
  have hrun : ((Operation.query (.getNamespace nsPrefix)).run tupleQuery ⟨active, true⟩ s).2 =
      .answers (.namespace (.ok ((getNamespaces s'.server ⟨nsPrefix, ""⟩).getLast?.map
        Namespace.uri))) := by
    have hmethod : (Operation.query (.getNamespace nsPrefix)).method ⟨active, true⟩ s =
        (s', none) := hcommit
    simp only [Operation.run, hmethod, Query.answer, getNamespace_eq]
    cases (getNamespaces s'.server ⟨nsPrefix, ""⟩).getLast? <;> rfl
  rw [GetsBinding, hrun, hcommit]
  simp

/-- The last namespace of a scan is the one with the greatest prefix. -/
theorem greatest_iff_last (h : σ.NsStored) {l : List Namespace} {last : Namespace}
    (hscan : getNamespaces σ ⟨"", ""⟩ = l ++ [last]) {greatest : Namespace} :
    ((nsTables σ).Bound greatest ∧ ∀ ns, (nsTables σ).Bound ns →
        (sliceCompare (utf8 ns.nsPrefix) (utf8 greatest.nsPrefix)).isLE = true) ↔
      greatest = last := by
  have hmem := @Store.NsStored.mem_scan_iff _ σ h
  have hsorted := h.pairwise_scan
  rw [hscan] at hmem hsorted
  have hlast : (nsTables σ).Bound last := hmem.mp (by simp)
  have hle : ∀ ns, (nsTables σ).Bound ns →
      (sliceCompare (utf8 ns.nsPrefix) (utf8 last.nsPrefix)).isLE = true := by
    intro ns hns
    rcases List.mem_append.mp (hmem.mpr hns) with hns | hns
    · rw [(List.pairwise_append.mp hsorted).2.2 ns hns last (by simp)]
      rfl
    · have heq : sliceCompare (utf8 last.nsPrefix) (utf8 last.nsPrefix) = .eq :=
        Std.ReflCmp.compare_self
      rw [List.mem_singleton.mp hns, heq]
      rfl
  constructor
  · rintro ⟨hbound, hgreatest⟩
    have hkey : utf8 greatest.nsPrefix = utf8 last.nsPrefix :=
      Std.LawfulEqCmp.eq_of_compare (Std.OrientedCmp.isLE_antisymm
        (hle greatest hbound) (hgreatest last hlast))
    rw [NsTables.Bound, hkey] at hbound
    exact Option.some.inj (hbound.symm.trans hlast)
  · rintro rfl
    exact ⟨hlast, hle⟩

/-- A scan ends with the uri of the empty prefix exactly if that is the uri of the greatest one. -/
theorem getLast_scan_iff (h : σ.NsStored) :
    (getNamespaces σ ⟨"", ""⟩).getLast?.map Namespace.uri =
        (nsTables σ .byPrefix (utf8 "")).map Namespace.uri ↔
      GreatestIsDefault (nsTables σ) := by
  cases hscan : getNamespaces σ ⟨"", ""⟩ using List.reverseRecOn with
  | nil =>
    have hunbound : ∀ ns, ¬ (nsTables σ).Bound ns := by
      intro ns hns
      have hmem := h.mem_scan_iff.mpr hns
      rw [hscan] at hmem
      exact absurd hmem List.not_mem_nil
    have hnone : nsTables σ .byPrefix (utf8 "") = none := by
      rw [Option.eq_none_iff_forall_ne_some]
      intro ns hns
      exact hunbound ns (h.bound_iff.mp hns).2
    rw [hnone]
    exact iff_of_true rfl fun greatest hbound _ => absurd hbound (hunbound greatest)
  | append_singleton l last =>
    rw [List.getLast?_concat, Option.map_some, eq_comm, Option.map_eq_some_iff]
    constructor
    · rintro ⟨⟨nsPrefix, uri⟩, hns, huri⟩ greatest hbound hgreatest
      obtain rfl : nsPrefix = "" := utf8_inj.mp (h.bound_iff.mp hns).1
      rw [(greatest_iff_last h hscan).mp ⟨hbound, hgreatest⟩, hns, ← huri]
    · intro hdefault
      obtain ⟨hlast, hle⟩ := (greatest_iff_last h hscan).mpr rfl
      exact ⟨_, hdefault last hlast hle, rfl⟩

/-- Removing a prefix and committing sends one request, in a stream of its own. -/
theorem removeAndCommit_of_not_stale {s : Session} (h : ¬ s.Stale) (nsPrefix : String) :
    (removeAndCommit nsPrefix s).2 = none ∧
      (removeAndCommit nsPrefix s).1.server =
        (CMarmotta.update (commitForQuery .good s).1.server [.nsRemoved ⟨nsPrefix, ""⟩]).1 := by
  obtain ⟨⟨closed, observer, τ⟩, hcommit, hobserver⟩ := commitForQuery_of_not_stale h true
  obtain rfl : observer = none := hobserver rfl
  have hremove : removeNamespaceInternal .good nsPrefix s =
      (⟨closed, some [.onNext (.nsRemoved ⟨nsPrefix, ""⟩)], τ⟩, none) := by
    rw [removeNamespaceInternal, removal, Method.andThen, Env.good, hcommit]
    exact addition_of_none [.nsRemoved ⟨nsPrefix, ""⟩]
  rw [removeAndCommit, Method.andThen, hremove, Env.good, hcommit]
  show (commitInternal ⟨true, true⟩ _).2 = none ∧ (commitInternal ⟨true, true⟩ _).1.server = _
  rw [commitInternal_of_open rfl rfl]
  exact ⟨rfl, rfl⟩

/-- A removal by prefix empties the prefix, and all prefixes if it is the empty one. -/
theorem nsTables_removed {τ : Store} (h : τ.NsStored) (nsPrefix other : String) :
    nsTables (CMarmotta.update τ [.nsRemoved ⟨nsPrefix, ""⟩]).1 .byPrefix (utf8 other) =
      if nsPrefix = "" ∨ other = nsPrefix then none else nsTables τ .byPrefix (utf8 other) := by
  have hfinds : ∀ ns, (nsTables τ).Finds ⟨nsPrefix, ""⟩ ns ↔
      (nsPrefix = "" ∨ ns.nsPrefix = nsPrefix) ∧ (nsTables τ).Bound ns := by
    intro ns
    by_cases hempty : nsPrefix = ""
    · subst hempty
      rw [← mem_getNamespaces, h.mem_scan_iff]
      simp
    · rw [NsTables.Finds, if_pos hempty, h.bound_iff, utf8_inj]
      simp [hempty]
  have hfound : (∃ ns, (nsTables τ).Finds ⟨nsPrefix, ""⟩ ns ∧ NsTable.byPrefix.key ns = utf8 other) ↔
      (nsPrefix = "" ∨ other = nsPrefix) ∧ nsTables τ .byPrefix (utf8 other) ≠ none := by
    rw [Option.ne_none_iff_exists']
    constructor
    · rintro ⟨ns, hns, hkey⟩
      obtain rfl : ns.nsPrefix = other := utf8_inj.mp hkey
      exact ⟨((hfinds ns).mp hns).1, ns, ((hfinds ns).mp hns).2⟩
    · rintro ⟨hor, ns, hns⟩
      obtain ⟨hkey, hbound⟩ := h.bound_iff.mp hns
      obtain rfl : ns.nsPrefix = other := utf8_inj.mp hkey
      exact ⟨ns, (hfinds ns).mpr ⟨hor, hbound⟩, rfl⟩
  rw [nsTables_update]
  show ((nsEffect (nsTables τ) .byPrefix (utf8 other) (.nsRemoved ⟨nsPrefix, ""⟩)).getD _) = _
  rw [nsEffect]
  by_cases hor : nsPrefix = "" ∨ other = nsPrefix
  · by_cases hnone : nsTables τ .byPrefix (utf8 other) = none
    · rw [if_neg fun hex => (hfound.mp hex).2 hnone, if_pos hor, hnone]
      rfl
    · rw [if_pos (hfound.mpr ⟨hor, hnone⟩), if_pos hor]
      rfl
  · rw [if_neg fun hex => hor (hfound.mp hex).1, if_neg hor]
    rfl

theorem unbinds_iff {s : Session} (h : ¬ s.Stale)
    (hstored : (commitForQuery .good s).1.server.NsStored) (nsPrefix : String) :
    Unbinds s nsPrefix ↔ nsPrefix ≠ "" ∨
      ∀ ns, (nsTables (commitForQuery .good s).1.server).Bound ns → ns.nsPrefix = "" := by
  obtain ⟨hthrown, hserver⟩ := removeAndCommit_of_not_stale h nsPrefix
  rw [Unbinds, hserver]
  generalize (commitForQuery .good s).1.server = τ at hstored
  simp only [hthrown, true_and, nsTables_removed hstored]
  by_cases hempty : nsPrefix = ""
  · subst hempty
    simp only [true_or, if_true, ne_eq, not_true_eq_false, false_or]
    constructor
    · intro hall ns hbound
      by_contra hne
      have hother := hall ns.nsPrefix
      rw [if_neg hne, hbound] at hother
      cases hother
    · intro hall other
      by_cases hother : other = ""
      · rw [if_pos hother]
      · rw [if_neg hother, eq_comm, Option.eq_none_iff_forall_ne_some]
        intro ns hns
        obtain ⟨hkey, hbound⟩ := hstored.bound_iff.mp hns
        exact hother ((utf8_inj.mp hkey).symm.trans (hall ns hbound))
  · exact iff_of_true (fun other => by simp only [hempty, false_or]) (Or.inl hempty)

/-- When the operations on a prefix are about that prefix, in every session in which all calls of
the server succeed. `getNamespace` is if the prefix is not empty, or no prefix is bound, or the
empty prefix is bound to the uri of the greatest bound prefix. `removeNamespace` is if the prefix is
not empty or no other prefix is bound. -/
theorem prefix_operations_iff (tupleQuery : Store → String → ρ) (ops : List Op)
    (calls : List (Env × Call)) (hrpc : ∀ c ∈ calls, c.1.completes = true) (nsPrefix : String) :
    (∀ active, GetsBinding tupleQuery ⟨active, true⟩ (sessionAfter (run ops) calls) nsPrefix ↔
      nsPrefix ≠ "" ∨ GreatestIsDefault
        (nsTables (commitForQuery ⟨active, true⟩ (sessionAfter (run ops) calls)).1.server)) ∧
    (Unbinds (sessionAfter (run ops) calls) nsPrefix ↔ nsPrefix ≠ "" ∨
      ∀ ns, (nsTables (commitForQuery .good (sessionAfter (run ops) calls)).1.server).Bound ns →
        ns.nsPrefix = "") := by
  have hstale := not_stale_of_completes (σ := run ops) hrpc
  have hupdate : ∀ (τ : Store) it, τ.NsStored → (CMarmotta.update τ it).1.NsStored :=
    fun τ it hτ => hτ.update it
  have hserver : (sessionAfter (run ops) calls).server.NsStored :=
    Method.Preserves.sessionAfter hupdate (run_nsStored ops) calls
  have hcommit : ∀ env, (commitForQuery env (sessionAfter (run ops) calls)).1.server.NsStored :=
    fun env => Method.Preserves.commitForQuery hupdate env _ hserver
  refine ⟨fun active => ?_, unbinds_iff hstale (hcommit _) nsPrefix⟩
  rw [getsBinding_iff hstale]
  have hstored := hcommit ⟨active, true⟩
  generalize (commitForQuery ⟨active, true⟩ (sessionAfter (run ops) calls)).1.server = τ at hstored
  by_cases hempty : nsPrefix = ""
  · subst hempty
    rw [getLast_scan_iff hstored]
    simp
  · refine iff_of_true ?_ (Or.inl hempty)
    have hlookup : getNamespaces τ ⟨nsPrefix, ""⟩ =
        (nsTables τ .byPrefix (utf8 nsPrefix)).toList := by
      rw [getNamespaces, if_pos hempty]
      rfl
    rw [hlookup]
    cases nsTables τ .byPrefix (utf8 nsPrefix) <;> rfl

end Prefixes

/-- A client binds a prefix, which its transaction has not committed yet. -/
def bindOne : List (Env × Call) :=
  [(.good, .operation (.update (.setNamespace "ex" "http://e/")))]

theorem prefix_operations_of_bindOne :
    GetsBinding (fun _ _ => ()) .good (sessionAfter (run []) bindOne) "ex" ∧
      Unbinds (sessionAfter (run []) bindOne) "ex" := by
  have hrpc : ∀ c ∈ bindOne, c.1.completes = true := by
    intro c hc
    rw [List.mem_singleton.mp hc]
    rfl
  have h := prefix_operations_iff (fun _ _ => ()) [] bindOne hrpc "ex"
  exact ⟨(h.1 true).mpr (Or.inl (by simp)), h.2.mpr (Or.inl (by simp))⟩

/-- A default namespace and another one. -/
def defaultAndOther : List Op := [.addNamespaces [⟨"", "http://d/"⟩, ⟨"ex", "http://e/"⟩]]

/-- The client gets the uri of the other namespace for the empty prefix, and removes both. -/
theorem prefix_operations_of_empty_prefix :
    ¬ GetsBinding (fun _ _ => ()) .good (sessionAfter (run defaultAndOther) []) "" ∧
      ¬ Unbinds (sessionAfter (run defaultAndOther) []) "" := by
  have hstale : ¬ (sessionAfter (run defaultAndOther) []).Stale :=
    not_stale_of_completes (by simp)
  constructor
  · intro h
    have huri := (getsBinding_iff hstale _ true "").mp h
    revert huri
    decide +kernel
  · intro h
    have hstored : (commitForQuery .good (sessionAfter (run defaultAndOther) [])).1.server.NsStored :=
      run_nsStored defaultAndOther
    have hbound : nsTables (run defaultAndOther) .byPrefix (utf8 "ex") =
        some ⟨"ex", "http://e/"⟩ := by decide +kernel
    rcases (unbinds_iff hstale hstored "").mp h with hne | hall
    · exact hne rfl
    · have hempty : "ex" = "" := hall ⟨"ex", "http://e/"⟩ hbound
      simp at hempty

end CMarmotta.Client
