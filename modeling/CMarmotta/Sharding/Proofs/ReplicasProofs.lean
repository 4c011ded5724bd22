import CMarmotta.Persistence.Proofs.NsConcurrentProofs
import CMarmotta.Sharding.Proofs.ShardingProofs
import CMarmotta.Sharding.Concurrent

/-!
# When the namespaces of the backends stay the same

Two clients change namespaces through the proxy. The backends treat the two streams in interleavings
of their own, so they end with the same tables if under every key the two streams do not get in each
other's way (`replicas_converge`).
-/

namespace CMarmotta

section Replicas

variable [Platform] {n : Nat}

open KV ShardingService

/-- A backend gets all requests about namespaces. -/
theorem NsCall.forwarded_eq_filter (c : NsCall) (i : Fin (n + 1)) :
    c.forwarded i = c.requests.filter (routedTo i) := by
  cases c with
  | addNamespaces it =>
    have hall : (it.map UpdateRequest.nsAdded).filter (routedTo i) = it.map .nsAdded := by
      simp [List.filter_eq_self, routedTo]
    rw [NsCall.forwarded, NsCall.requests, foldl_writeAll, List.nil_append, hall]
  | update it => rw [NsCall.forwarded, NsCall.requests, foldl_route, List.nil_append]

theorem nsEffect_of_not_routedTo {i : Fin (n + 1)} {r : UpdateRequest} (h : routedTo i r = false)
    (T : NsTables) (t : NsTable) (k : Bytes) : nsEffect T t k r = none := by
  obtain ⟨s, rfl, -⟩ := exists_of_not_routedTo h
  rfl

theorem nsTables_congr {σ σ' : Store} (h : ∀ t, σ.nsTable t = σ'.nsTable t) :
    nsTables σ = nsTables σ' := by
  funext t k
  rw [nsTables, nsTables, h]

theorem ConvergeAt.congr {σ σ' : Store} (h : ∀ t, σ.nsTable t = σ'.nsTable t)
    {a b : List UpdateRequest} {t : NsTable} {k : Bytes} (hσ : ConvergeAt σ a b t k) :
    ConvergeAt σ' a b t k := by
  obtain ⟨c, hc⟩ := hσ
  refine ⟨c, fun oa ob hrace => ?_⟩
  rw [← nsTables_congr h] at hrace
  simpa only [Store.nsEntry, h] using hc oa ob hrace

/-- The streams of a backend meet the condition exactly when those of the clients do. -/
theorem convergeAt_forwarded_iff {shards : Shards n}
    (h : ∀ i j t, (shards i).nsTable t = (shards j).nsTable t) (a b : NsCall) (i j : Fin (n + 1))
    (t : NsTable) (k : Bytes) :
    ConvergeAt (shards i) (a.forwarded i) (b.forwarded i) t k ↔
      ConvergeAt (shards j) a.requests b.requests t k := by
  rw [NsCall.forwarded_eq_filter, NsCall.forwarded_eq_filter,
    convergeAt_filter_iff fun r hr => nsEffect_of_not_routedTo hr]
  exact ⟨ConvergeAt.congr (h i j), ConvergeAt.congr (h j i)⟩

theorem SameNamespaces.of_tables {shards : Shards n}
    (h : ∀ i j t, (shards i).nsTable t = (shards j).nsTable t) : SameNamespaces shards where
  tables := h
  answers i j pattern := by
    rw [LevelDBService.getNamespace, LevelDBService.getNamespace, getNamespaces_congr (h i j)]

omit [Platform] in
theorem pair_update (a b : List UpdateRequest) :
    Call.pair (.update a) (.update b) = fun i => .update (bif i then b else a) := by
  funext i
  cases i <;> rfl

theorem ConvergeAt.nsEntry_of_pair {σ : Store} {a b : List UpdateRequest} {t : NsTable} {k : Bytes}
    (h : ConvergeAt σ a b t k) {events : List (Event Bool)} {s : System Bool}
    (hexec : (System.start σ (.pair (.update a) (.update b))).exec events = some s)
    (hdone : s.Done) :
    (s.store.nsTable t)[k]? = σ.nsEntry t k ((lastWrite (nsEffect (nsTables σ) t k) a).or
      (lastWrite (nsEffect (nsTables σ) t k) b)) := by
  rw [pair_update] at hexec
  exact @ConvergeAt.nsEntry_of_exec _ σ (fun i => bif i then b else a) t k h events s hexec hdone

/-- What a backend ends with under a key is always the same exactly when the streams converge
there. -/
theorem convergeAt_iff_pair (σ : Store) (a b : List UpdateRequest) (t : NsTable) (k : Bytes) :
    ConvergeAt σ a b t k ↔ ∃ c, ∀ events s,
      (System.start σ (.pair (.update a) (.update b))).exec events = some s → s.Done →
        (s.store.nsTable t)[k]? = c := by
  rw [pair_update]
  exact convergeAt_iff σ (fun i => bif i then b else a) t k

/-- A backend can treat two update streams. -/
theorem exists_exec_pair (σ : Store) (a b : List UpdateRequest) :
    ∃ events s, (System.start σ (.pair (.update a) (.update b))).exec events = some s ∧ s.Done := by
  rw [pair_update]
  obtain ⟨events, s, hexec, hdone, -⟩ :=
    RaceInv.exists_exec_of_leaves σ (fun i => bif i then b else a) false
    (leaves_lastWrite (nsTables σ) a b .byPrefix [])
  exact ⟨events, s, hexec, hdone⟩

/-- If the streams converge under a key, every backend ends with the same entry there. -/
theorem ServesBoth.getElem?_eq {shards shards' : Shards n} (hsame : SameNamespaces shards)
    {a b : NsCall} {t : NsTable} {k : Bytes}
    (hconv : ConvergeAt (shards 0) a.requests b.requests t k) (h : ServesBoth a b shards shards')
    (i : Fin (n + 1)) :
    ((shards' i).nsTable t)[k]? =
      (shards 0).nsEntry t k ((lastWrite (nsEffect (nsTables (shards 0)) t k) a.requests).or
        (lastWrite (nsEffect (nsTables (shards 0)) t k) b.requests)) := by
  obtain ⟨events, s, -, -, hexec, hdone, hstore⟩ := h i
  have hconv' := (convergeAt_forwarded_iff hsame.tables a b i 0 t k).mpr hconv
  have hlast : ∀ c : NsCall, lastWrite (nsEffect (nsTables (shards i)) t k) (c.forwarded i) =
      lastWrite (nsEffect (nsTables (shards 0)) t k) c.requests := by
    intro c
    rw [c.forwarded_eq_filter, nsTables_congr (hsame.tables i 0),
      lastWrite_nsEffect_filter fun r hr => nsEffect_of_not_routedTo hr]
  have hentry := hconv'.nsEntry_of_pair hexec hdone
  rw [hlast, hlast, Store.nsEntry, hsame.tables i 0] at hentry
  rw [← hstore, hentry, Store.nsEntry]

/-- If every run keeps the namespaces of several backends the same, two update streams converge. -/
theorem convergeAt_of_sameNamespaces {shards : Shards (n + 1)} (hsame : SameNamespaces shards)
    (it it' : List UpdateRequest)
    (h : ∀ shards', ServesBoth (.update it) (.update it') shards shards' → SameNamespaces shards')
    (t : NsTable) (k : Bytes) : ConvergeAt (shards 0) it it' t k := by
  change ConvergeAt (shards 0) (NsCall.update it).requests (NsCall.update it').requests t k
  rw [← convergeAt_forwarded_iff hsame.tables _ _ 0 0, convergeAt_iff_pair]
  -- The other backends run somehow; whatever the first does, it ends like the second.
  choose events s hexec hdone using fun i => exists_exec_pair (shards i)
    (NsCall.forwarded (.update it) i) (NsCall.forwarded (.update it') i)
  refine ⟨((s 1).store.nsTable t)[k]?, fun events₀ s₀ hexec₀ hdone₀ => ?_⟩
  have hserves : ServesBoth (.update it) (.update it') shards
      (Function.update (fun i => (s i).store) 0 s₀.store) := by
    intro i
    by_cases hi : i = 0
    · subst hi
      refine ⟨events₀, s₀, trivial, trivial, hexec₀, hdone₀, ?_⟩
      rw [Function.update_self]
    · refine ⟨events i, s i, trivial, trivial, hexec i, hdone i, ?_⟩
      rw [Function.update_of_ne hi]
  have hsame' := (h _ hserves).tables 0 1 t
  rw [Function.update_self, Function.update_of_ne (by simp)] at hsame'
  rw [hsame']

/-- Two clients change namespaces through the proxy, and all backends hold the same namespaces
before. If there is one backend only, or under every key the two streams do not get in each
other's way, all backends hold the same namespaces after every run. For two `Update` streams
without removals the condition is necessary as well. -/
theorem replicas_converge {shards : Shards n} (hsame : SameNamespaces shards) (a b : NsCall) :
    ((n = 0 ∨ ∀ t k, (nsTables (shards 0)).Independent a.requests b.requests t k) →
      ∀ shards', ServesBoth a b shards shards' → SameNamespaces shards') ∧
    (∀ it it', a = .update it → b = .update it' → (∀ pattern, .nsRemoved pattern ∉ it ++ it') →
      (∀ shards', ServesBoth a b shards shards' → SameNamespaces shards') →
        n = 0 ∨ ∀ t k, (nsTables (shards 0)).Independent a.requests b.requests t k) := by
  constructor
  · rintro (rfl | hind) shards' h
    · refine SameNamespaces.of_tables fun i j t => ?_
      obtain rfl : i = j := by omega
      rfl
    · refine SameNamespaces.of_tables fun i j t => Std.ExtTreeMap.ext_getElem? ?_
      intro k
      have hconv := (hind t k).convergeAt
      rw [h.getElem?_eq hsame hconv i, h.getElem?_eq hsame hconv j]
  · rintro it it' rfl rfl hremoved h
    refine (Nat.eq_zero_or_pos n).imp_right fun hn t k => ?_
    obtain ⟨m, rfl⟩ : ∃ m, n = m + 1 := ⟨n - 1, by omega⟩
    refine NsTables.independent_of_not_removed
      (fun pattern hp => hremoved pattern (List.mem_append_left _ hp))
      (fun pattern hp => hremoved pattern (List.mem_append_right _ hp)) ?_
    exact (convergeAt_of_sameNamespaces hsame it it' h t k).sameLast

end Replicas

/-- An addition of one namespace. -/
def addNs (p uri : String) : NsCall := .update [.nsAdded ⟨p, uri⟩]

/-- A store with one namespace. -/
def storeOld : Store := (addNamespaces Store.empty [⟨"old", "http://old/"⟩]).1

/-- One client replaces a namespace by another one, while a second client adds a third. -/
theorem replicas_converge_of_replaced :
    SameNamespaces (fun _ : Fin 2 => storeOld) ∧
      LevelDBService.getNamespace storeOld ⟨"old", ""⟩ = .ok ⟨"old", "http://old/"⟩ ∧
      ∀ shards', ServesBoth (.update [.nsRemoved ⟨"old", ""⟩, .nsAdded ⟨"a", "http://a/"⟩])
        (.addNamespaces [⟨"b", "http://b/"⟩]) (fun _ : Fin 2 => storeOld) shards' →
          SameNamespaces shards' := by
  have hsame : SameNamespaces (fun _ : Fin 2 => storeOld) := .of_tables fun _ _ _ => rfl
  refine ⟨hsame, by decide +kernel, (replicas_converge hsame
    (.update [.nsRemoved ⟨"old", ""⟩, .nsAdded ⟨"a", "http://a/"⟩])
    (.addNamespaces [⟨"b", "http://b/"⟩])).1 (Or.inr fun t k => Or.inl ⟨?_, ?_, ?_⟩)⟩
  · -- The removal looks up the prefix `old`, which the second client does not change.
    intro pre pattern post h _ t₀ k₀ hlook hchanges
    obtain rfl : pattern = ⟨"old", ""⟩ := by
      have hmem : UpdateRequest.nsRemoved pattern ∈ pre ++ .nsRemoved pattern :: post := by simp
      rw [← h] at hmem
      simpa [NsCall.requests] using hmem
    obtain ⟨rfl, rfl⟩ : t₀ = .byPrefix ∧ k₀ = utf8 "old" := by simpa [Namespace.LooksUp] using hlook
    obtain ⟨o, ho, -⟩ := hchanges
    have hkey : NsTable.byPrefix.key ⟨"b", "http://b/"⟩ ≠ utf8 "old" := by decide +kernel
    simp [NsCall.requests, KV.lastWrite, nsEffect, hkey] at ho
  · exact NsTables.steady_of_not_removed (by simp [NsCall.requests])
  · by_cases hk : t.key ⟨"b", "http://b/"⟩ = k
    · -- Neither the removed nor the added namespace has a key of the third one.
      have ha : t.key ⟨"a", "http://a/"⟩ ≠ k := by rw [← hk]; cases t <;> decide +kernel
      have hold : nsTables storeOld .byPrefix (utf8 "old") = some ⟨"old", "http://old/"⟩ := by
        decide +kernel
      have hnot : ¬ ∃ ns, (nsTables storeOld).Finds ⟨"old", ""⟩ ns ∧ t.key ns = k := by
        rintro ⟨ns, hfinds, hkey⟩
        rw [NsTables.Finds, if_pos (by decide), hold, Option.some.injEq] at hfinds
        rw [← hfinds, ← hk] at hkey
        revert hkey
        cases t <;> decide +kernel
      refine Or.inl ?_
      simp [NsCall.requests, KV.lastWrite, nsEffect, ha, hnot]
    · exact Or.inr (Or.inl (by simp [NsCall.requests, KV.lastWrite, nsEffect, hk]))

/-- A backend treats the stream of one client, and then that of the other. -/
def oneThenOther (first : Bool) : List (Event Bool) :=
  .collect first :: (Call.update []).writers.map (.write first) ++
    .collect (!first) :: (Call.update []).writers.map (.write (!first))

/-- Two clients bind a prefix to different uris. The first backend treats their streams in one order
and the second in the other, and then each has a binding of its own. -/
theorem replicas_diverge :
    SameNamespaces (fun _ : Fin 2 => Store.empty) ∧
      ∃ shards', ServesBoth (addNs "ex" "http://a/") (addNs "ex" "http://b/")
          (fun _ : Fin 2 => Store.empty) shards' ∧
        LevelDBService.getNamespace (shards' 0) ⟨"ex", ""⟩ = .ok ⟨"ex", "http://b/"⟩ ∧
        LevelDBService.getNamespace (shards' 1) ⟨"ex", ""⟩ = .ok ⟨"ex", "http://a/"⟩ ∧
        ¬ SameNamespaces shards' := by
  refine ⟨.of_tables fun _ _ _ => rfl, ?_⟩
  have hexec : ∀ i : Fin 2, ((System.start Store.empty (.pair
      (.update ((addNs "ex" "http://a/").forwarded i))
      (.update ((addNs "ex" "http://b/").forwarded i)))).exec (oneThenOther (i = 1))).map
        (fun s => (s.returned, LevelDBService.getNamespace s.store ⟨"ex", ""⟩)) =
      some (true, .ok ⟨"ex", if i = 1 then "http://a/" else "http://b/"⟩) := by decide +kernel
  simp only [Option.map_eq_some_iff, Prod.mk.injEq] at hexec
  choose s hs hret hns using hexec
  have h0 : LevelDBService.getNamespace (s 0).store ⟨"ex", ""⟩ = .ok ⟨"ex", "http://b/"⟩ := hns 0
  have h1 : LevelDBService.getNamespace (s 1).store ⟨"ex", ""⟩ = .ok ⟨"ex", "http://a/"⟩ := hns 1
  refine ⟨fun i => (s i).store, fun i => ⟨oneThenOther (i = 1), s i, trivial, trivial, hs i,
    System.done_of_returned (hret i), rfl⟩, h0, h1, fun h => ?_⟩
  have hsame := h.answers 0 1 ⟨"ex", ""⟩
  rw [h0, h1] at hsame
  simp at hsame

end CMarmotta
