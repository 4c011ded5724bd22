import CMarmotta.Client.Transactions
import CMarmotta.Client.Proofs.ConnectionProofs
import CMarmotta.Service.Proofs.DatasetProofs

/-!
# Several connections read what is committed

In whatever order the clients make their calls and their requests arrive, a query is answered from
the dataset that the commits so far have left, with what its own client has asked for, and never
with what another client has not committed (`acts_refine_transactions`). A removal takes away what
was committed when its request arrived. The one exception is a transaction that is rolled back, of
which the server may carry out the first requests later.

With one client, and when nothing arrives before a commit, a call does what the method of
`CMarmottaSailConnection` does (`SessionOf.call`).
-/

namespace CMarmotta.Client

open KV Refinement

section Refinement

variable [Platform] {ι ρ : Type} [DecidableEq ι] {K : List Statement}

open Platform

/-! ## One request -/

section Request

variable {σ τ : Store} {u : UpdateState} {D seen : Dataset} {r : UpdateRequest}

/-- A request adds its changes to every batch of statements. -/
theorem index_writeUpdate_updateStep (σ τ : Store) (u : UpdateState) (r : UpdateRequest)
    (idx : IndexType) :
    (writeUpdate σ (updateStep τ u r)).index idx =
      write ((writeUpdate σ u).index idx) ((stmtOps τ r).map (StmtOp.batchOp idx)) := by
  simp only [writeUpdate, index_writeNs, index_writeStmts, index_updateStep]
  exact List.foldl_append

/-- A request adds its changes to both batches of namespaces. -/
theorem getElem?_writeUpdate_updateStep (σ τ : Store) (u : UpdateState) (r : UpdateRequest)
    (t : NsTable) (k : Bytes) :
    ((writeUpdate σ (updateStep τ u r)).nsTable t)[k]? =
      ((nsEffect (nsTables τ) t k r).map (Option.map namespaceCodec.serialize)).getD
        ((writeUpdate σ u).nsTable t)[k]? := by
  simp only [writeUpdate, nsTable_writeNs, nsTable_writeStmts, table_updateStep, getElem?_write,
    outcome_append, outcome_nsBatch, Option.getD_or]

theorem nsTables_writeUpdate_updateStep (σ τ : Store) (u : UpdateState) (r : UpdateRequest)
    (t : NsTable) (k : Bytes) :
    nsTables (writeUpdate σ (updateStep τ u r)) t k =
      (nsEffect (nsTables τ) t k r).getD (nsTables (writeUpdate σ u) t k) := by
  rw [nsTables, getElem?_writeUpdate_updateStep, namespaceCodec.map_parse_getD]
  rfl

theorem nsStored_writeUpdate_updateStep (h : (writeUpdate σ u).NsStored) (τ : Store)
    (r : UpdateRequest) : (writeUpdate σ (updateStep τ u r)).NsStored := by
  intro t k v hv
  rw [getElem?_writeUpdate_updateStep] at hv
  cases hr : nsEffect (nsTables τ) t k r with
  | none =>
    rw [hr] at hv
    exact h t k v hv
  | some o =>
    rw [hr] at hv
    obtain ⟨ns, rfl, rfl⟩ := Option.map_eq_some_iff.mp hv
    exact ⟨ns, (nsEffect_eq_put_iff.mp hr).2, rfl⟩

/-- The changes of the indexes are those of the dataset. -/
theorem foldl_stmtOps_eq (hseen : Implements K τ seen) (hK : Known K)
    (hD : ∀ s ∈ D.statements, s ∈ K) (hr : r.Regular K) :
    (stmtOps τ r).foldl StmtOp.apply D.statements = (applySeen seen D r).statements := by
  cases r with
  | stmtAdded s =>
    have hadd := foldl_add [s] D.statements fun t ht t' ht' hkey => by
      obtain rfl := List.mem_singleton.mp ht'
      have htK : t ∈ K := by
        rcases Finset.mem_union.mp ht with ht | ht
        · exact hD t ht
        · rw [List.mem_singleton.mp (List.mem_toFinset.mp ht)]
          exact hr
      exact hK.collisionFree.key_inj hK.wellFormed .SPOC htK hr hkey
    refine hadd.trans ?_
    rw [List.toFinset_cons, List.toFinset_nil, Finset.union_comm]
    rfl
  | stmtRemoved pattern =>
    refine (foldl_remove (getStatements τ pattern) D.statements).trans ?_
    ext t
    simp only [applySeen, Finset.mem_filter, Finset.mem_sdiff]
    refine and_congr_right fun ht => ?_
    rw [← hseen.mem_getStatements hK hr]
    constructor
    · intro hnone hfound
      exact hnone t hfound rfl
    · intro hnot s hs hkey
      have hsK := hseen.known s (hseen.mem_getStatements hK hr |>.mp hs).1
      rw [hK.collisionFree.key_inj hK.wellFormed .SPOC (hD t ht) hsK hkey] at hnot
      exact hnot hs
  | nsAdded ns => rfl
  | nsRemoved pattern => rfl
  | notSet => rfl

/-- The changes of the prefix table are those of the dataset. -/
theorem prefixes_applySeen {T : NsTables} (hseen : Implements K τ seen)
    (hD : ∀ p, (T .byPrefix (utf8 p)).map Namespace.uri = D.prefixes p) (hr : r.Regular K)
    (p : String) :
    ((nsEffect (nsTables τ) .byPrefix (utf8 p) r).getD (T .byPrefix (utf8 p))).map Namespace.uri =
      (applySeen seen D r).prefixes p := by
  cases r with
  | stmtAdded s => exact hD p
  | stmtRemoved pattern => exact hD p
  | notSet => exact hD p
  | nsAdded ns =>
    by_cases hp : ns.nsPrefix = p
    · subst hp
      simp [nsEffect, NsTable.key, applySeen]
    · have hnone : nsEffect (nsTables τ) .byPrefix (utf8 p) (.nsAdded ns) = none :=
        if_neg fun heq => hp (utf8_inj.mp heq)
      rw [hnone, Option.getD_none, hD]
      exact (Function.update_of_ne (Ne.symm hp) _ _).symm
  | nsRemoved pattern =>
    have hdelete := hseen.nsEffect_removed_iff hr p
    have hany : ((seen.prefixes p).any fun uri => decide (Namespace.Agrees ⟨p, uri⟩ pattern)) =
        true ↔ ∃ uri, seen.prefixes p = some uri ∧ Namespace.Agrees ⟨p, uri⟩ pattern := by
      cases seen.prefixes p <;> simp
    simp only [applySeen]
    split
    · rename_i hfound
      rw [hdelete.mpr (hany.mp hfound)]
      rfl
    · rename_i hfound
      have hnone : nsEffect (nsTables τ) .byPrefix (utf8 p) (.nsRemoved pattern) = none := by
        cases heffect : nsEffect (nsTables τ) .byPrefix (utf8 p) (.nsRemoved pattern) with
        | none => rfl
        | some o =>
          cases o with
          | none => exact absurd (hany.mpr (hdelete.mp heffect)) hfound
          | some ns =>
            obtain ⟨⟨⟩, -⟩ := nsEffect_eq_put_iff.mp heffect
      rw [hnone, Option.getD_none, hD]

/-- A request that arrives while the server holds the dataset `seen` adds to the batches what it makes
of a dataset then, whatever the batches are written over. -/
theorem implements_updateStep (hseen : Implements K τ seen) (hK : Known K) (hr : r.Regular K)
    (h : Implements K (writeUpdate σ u) D) :
    Implements K (writeUpdate σ (updateStep τ u r)) (applySeen seen D r) where
  known s hs := by
    cases r with
    | stmtAdded t =>
      obtain rfl | hs := Finset.mem_insert.mp hs
      · exact hr
      · exact h.known s hs
    | stmtRemoved pattern => exact h.known s (Finset.mem_sdiff.mp hs).1
    | nsAdded ns => exact h.known s hs
    | nsRemoved pattern => exact h.known s hs
    | notSet => exact h.known s hs
  statements idx := by
    rw [index_writeUpdate_updateStep, ← foldl_stmtOps_eq hseen hK h.known hr]
    exact (h.statements idx).write (stmtOps τ r)
  nsStored := nsStored_writeUpdate_updateStep h.nsStored τ r
  prefixes p := by
    rw [nsTables_writeUpdate_updateStep]
    exact prefixes_applySeen hseen h.prefixes hr p

end Request

/-! ## Streams -/

/-- The stream of a client, and what the client has asked for: whatever the batches are written over,
what has arrived takes effect. -/
structure Collects (K : List Statement) (stream : UpdateStream) (p : Pending) : Prop where
  effect : ∀ σ D, Implements K σ D → Implements K (writeUpdate σ stream.batches) (p.takeEffect D)
  sent : stream.sent = p.sent
  regular : ∀ r ∈ p.sent, r.Regular K

namespace Collects

variable {stream : UpdateStream} {p : Pending} {σ : Store} {D : Dataset}

theorem new (K : List Statement) : Collects K {} {} where
  effect _ _ h := h
  sent := rfl
  regular _ h := absurd h List.not_mem_nil

theorem send (h : Collects K stream p) {requests : List UpdateRequest}
    (hregular : ∀ r ∈ requests, r.Regular K) :
    Collects K { stream with sent := stream.sent ++ requests }
      { p with sent := p.sent ++ requests } where
  effect := h.effect
  sent := congrArg (· ++ requests) h.sent
  regular := List.forall_mem_append.mpr ⟨h.regular, hregular⟩

theorem arrive (h : Collects K stream p) (hσ : Implements K σ D) (hK : Known K) :
    Collects K (stream.arrive σ) (p.arrive D) := by
  obtain ⟨batches, sent⟩ := stream
  obtain ⟨arrived, sent'⟩ := p
  obtain rfl : sent = sent' := h.sent
  cases sent with
  | nil => exact h
  | cons r rest =>
    obtain ⟨hr, hrest⟩ := List.forall_mem_cons.mp h.regular
    refine ⟨fun σ' D' h' => ?_, rfl, hrest⟩
    simp only [UpdateStream.arrive, Pending.arrive, Pending.takeEffect, List.foldl_append]
    exact implements_updateStep hσ hK hr (h.effect σ' D' h')

/-- The server completes a stream. -/
theorem complete (h : Collects K stream p) (hσ : Implements K σ D) (hK : Known K) :
    Implements K (stream.complete σ) (p.complete D) := by
  have hrest : ∀ (rest : List UpdateRequest) (u : UpdateState) (E : Dataset),
      (∀ r ∈ rest, r.Regular K) → Implements K (writeUpdate σ u) E →
        Implements K (writeUpdate σ (rest.foldl (updateStep σ) u)) (rest.foldl (applySeen D) E) := by
    intro rest
    induction rest with
    | nil => exact fun _ _ _ hE => hE
    | cons r rest ih =>
      intro u E hregular hE
      obtain ⟨hr, hrest⟩ := List.forall_mem_cons.mp hregular
      exact ih _ _ hrest (implements_updateStep hσ hK hr hE)
  rw [UpdateStream.complete, Pending.complete, h.sent]
  exact hrest p.sent stream.batches _ h.regular (h.effect σ D hσ)

end Collects

/-! ## Queries -/

section Queries

variable {σ : Store} {D : Dataset} (h : Implements K σ D) (hK : Known K)

include h hK

theorem getContexts_spec :
    (LevelDBService.getContexts σ).Nodup ∧
      ∀ c, c ∈ LevelDBService.getContexts σ ↔ ∃ s ∈ D.statements, s.context = some c := by
  have hall : ∀ s, s ∈ getStatements σ {} ↔ s ∈ D.statements := by
    intro s
    rw [← getStatements_all h.statements, List.mem_toFinset]
  have hctx : ∀ s ∈ getStatements σ {}, s.context ≠ some .notSet := by
    intro s hs hnot
    have hterm := (hK.wellFormed s (h.known s ((hall s).mp hs))).context
    rw [hnot] at hterm
    cases hterm
  obtain ⟨hnodup, hmem⟩ := foldl_collectContext hctx List.nodup_nil
  rw [getContexts_eq_foldl]
  refine ⟨hnodup, fun c => ?_⟩
  rw [hmem]
  simp [hall]

/-- The server answers a query of a client as the dataset does that it holds. -/
theorem Query.answered (tupleQuery : Store → String → ρ) {q : Query} (hq : q.Regular K) :
    q.Answered (Implements K) tupleQuery D (q.answer tupleQuery σ) := by
  cases q with
  | getStatements subj pred obj contexts =>
    rw [Query.answer, List.flatMap_def]
    refine .getStatements (List.forall₂_map_right_iff.mpr (List.forall₂_same.mpr ?_))
    intro pattern hpattern
    exact (h.handle hK (show (Request.getStatements pattern).Regular K from hq pattern hpattern)).1
  | size contexts =>
    exact .size (h.handle hK (show (Request.size (contextRequest contexts)).Regular K from hq)).1
  | getContextIDs =>
    obtain ⟨hnodup, hmem⟩ := getContexts_spec h hK
    exact .getContextIDs hnodup hmem
  | getNamespaces =>
    exact .getNamespaces (h.handle hK (show Request.getNamespaces.Regular K from trivial)).1
  | getNamespace nsPrefix =>
    have hanswer : D.Answers (.getNamespace ⟨nsPrefix, ""⟩)
        (.namespace (LevelDBService.getNamespace σ ⟨nsPrefix, ""⟩)) := h.getNamespace rfl
    rw [Query.answer]
    cases hns : LevelDBService.getNamespace σ ⟨nsPrefix, ""⟩ with
    | ok ns =>
      rw [hns] at hanswer
      exact .getNamespace hanswer
    | error status =>
      rw [hns] at hanswer
      have hcode : status.code = .NOT_FOUND := by
        cases hanswer
        rfl
      simp only [hcode, if_true]
      exact .noNamespace hanswer
  | directTupleQuery query => exact .directTupleQuery h query

end Queries

/-! ## One connection -/

/-- The session of a client, when nothing of its stream has arrived. -/
structure SessionOf (c : Connections ι) (i : ι) (s : Session) : Prop where
  server : s.server = c.server
  stream : s.updateRequestObserver =
    (c.updateRequestObserver i).map fun stream => stream.sent.map .onNext
  batches : ∀ stream ∈ c.updateRequestObserver i, stream.batches = {}

namespace SessionOf

variable {c : Connections ι} {i : ι} {s : Session}

theorem commitInternal (h : SessionOf c i s) :
    ∃ s', Client.commitInternal .good s = (s', none) ∧ SessionOf (c.commitInternal i) i s' := by
  obtain ⟨closed, observer, σ⟩ := s
  obtain rfl : σ = c.server := h.server
  have hobserver : observer = _ := h.stream
  unfold Connections.commitInternal
  cases hstream : c.updateRequestObserver i with
  | none =>
    rw [hstream] at hobserver
    subst hobserver
    exact ⟨_, rfl, h⟩
  | some stream =>
    rw [hstream] at hobserver
    subst hobserver
    refine ⟨_, commitInternal_of_open (Stream.ended_map_onNext stream.sent) rfl, ?_, ?_, ?_⟩
    · simp only [Stream.requests_map_onNext, UpdateStream.complete, h.batches stream hstream]
      rfl
    · simp [Connections.setStream]
    · simp [Connections.setStream]

omit [Platform] in
theorem addition (h : SessionOf c i s) (requests : List UpdateRequest) :
    ∃ s', Client.addition requests s = (s', none) ∧ SessionOf (c.send i requests) i s' := by
  obtain ⟨closed, observer, σ⟩ := s
  obtain rfl : σ = c.server := h.server
  have hobserver : observer = _ := h.stream
  unfold Connections.send
  cases hstream : c.updateRequestObserver i with
  | none =>
    rw [hstream] at hobserver
    subst hobserver
    refine ⟨_, addition_of_none requests, rfl, ?_, ?_⟩ <;> simp [Connections.setStream]
  | some stream =>
    rw [hstream] at hobserver
    subst hobserver
    refine ⟨_, addition_of_open (Stream.ended_map_onNext stream.sent) requests, rfl, ?_, ?_⟩
    · simp [Connections.setStream]
    · simpa [Connections.setStream] using h.batches stream hstream

/-- An update: removals commit first. -/
theorem update (h : SessionOf c i s) (u : Update) :
    ∃ s', u.method .good s = (s', none) ∧
      SessionOf ((if u.isRemoval then c.commitInternal i else c).send i u.requests) i s' := by
  rw [Update.method_eq]
  cases u.isRemoval with
  | false => exact h.addition u.requests
  | true =>
    obtain ⟨s', hcommit, hs'⟩ := h.commitInternal
    obtain ⟨s'', hadd, hs''⟩ := hs'.addition u.requests
    refine ⟨s'', ?_, hs''⟩
    rw [if_pos rfl, Client.removal, Method.andThen, commitForQuery_of_active rfl, hcommit]
    exact hadd

omit [Platform] in
theorem rollbackInternal (h : SessionOf c i s) :
    (c.rollbackInternal i).2 = (Client.rollbackInternal s).2 ∧
      SessionOf (c.rollbackInternal i).1 i (Client.rollbackInternal s).1 := by
  obtain ⟨closed, observer, σ⟩ := s
  obtain rfl : σ = c.server := h.server
  have hobserver : observer = _ := h.stream
  rw [Connections.rollbackInternal]
  cases hstream : c.updateRequestObserver i with
  | none =>
    rw [hstream] at hobserver
    subst hobserver
    exact ⟨rfl, h⟩
  | some stream =>
    rw [hstream] at hobserver
    subst hobserver
    refine ⟨rfl, rfl, ?_, ?_⟩ <;>
      simp [Connections.setStream, Client.rollbackInternal, Method.andThen, Client.call, Session.drop]

/-- A call on a connection of which nothing has arrived yet does what the method of the connection
does that sends its stream to the server at once. -/
theorem call (h : SessionOf c i s) (tupleQuery : Store → String → ρ) (call : Call) :
    (c.call tupleQuery i call).2 = (call.run tupleQuery .good s).2 ∧
      SessionOf (c.call tupleQuery i call).1 i (call.run tupleQuery .good s).1 := by
  obtain ⟨s', hcommit, hs'⟩ := h.commitInternal
  have hbase : (if Env.good.active then Client.commitInternal .good s else (s, none)) = (s', none) :=
    hcommit
  cases call with
  | operation op =>
    cases op with
    | update u =>
      obtain ⟨s'', hs, hof⟩ := h.update u
      simp only [Connections.call, Call.run, Operation.run, Operation.method, hs]
      exact ⟨trivial, hof⟩
    | query q =>
      have hquery : commitForQuery .good s = (s', none) := hcommit
      simp only [Connections.call, Call.run, Operation.run, Operation.method, hquery, hs'.server]
      exact ⟨trivial, hs'⟩
  | commit =>
    simp only [Connections.call, Call.run, hbase]
    exact ⟨rfl, hs'⟩
  | close =>
    simp only [Connections.call, Call.run, hbase]
    exact ⟨rfl, hs'⟩
  | rollback => exact ⟨congrArg Result.ofThrown h.rollbackInternal.1, h.rollbackInternal.2⟩

end SessionOf

/-! ## Actions -/

section Lists

variable {α β : Type} {R : α → β → Prop} {l : List α} {l' : List β}

omit [Platform] in
theorem forall₂_modify {f : α → α} {g : β → β} (h : List.Forall₂ R l l')
    (hfg : ∀ a b, R a b → R (f a) (g b)) (k : Nat) :
    List.Forall₂ R (l.modify k f) (l'.modify k g) := by
  induction h generalizing k with
  | nil => cases k <;> exact .nil
  | cons hab hl ih =>
    cases k with
    | zero => exact .cons (hfg _ _ hab) hl
    | succ k => exact .cons hab (ih k)

omit [Platform] in
theorem forall₂_eraseIdx (h : List.Forall₂ R l l') (k : Nat) :
    List.Forall₂ R (l.eraseIdx k) (l'.eraseIdx k) := by
  induction h generalizing k with
  | nil => exact .nil
  | cons hab hl ih =>
    cases k with
    | zero => exact hl
    | succ k => exact .cons hab (ih k)

omit [Platform] in
theorem forall₂_getElem? (h : List.Forall₂ R l l') (k : Nat) : Option.Rel R l[k]? l'[k]? := by
  induction h generalizing k with
  | nil => exact .none
  | cons hab _ ih =>
    cases k with
    | zero => exact .some hab
    | succ k => simpa using ih k

end Lists

/-- The connections and the state of the specification: the server holds what is committed, and the
streams that are open hold what the clients have asked for. -/
structure Tracks (K : List Statement) (c : Connections ι) (T : Transactions ι) : Prop where
  committed : Implements K c.server T.committed
  pending : ∀ i, Option.Rel (Collects K) (c.updateRequestObserver i) (T.pending i)
  cancelled : List.Forall₂ (Collects K) c.cancelled T.cancelled

namespace Tracks

variable {c : Connections ι} {T : Transactions ι}

omit [DecidableEq ι] in
theorem new (K : List Statement) :
    Tracks K ({ server := Store.empty } : Connections ι) { committed := Dataset.empty } where
  committed := Implements.empty K
  pending _ := .none
  cancelled := .nil

/-- The stream of a client changes with what the client has asked for. -/
theorem setStream (h : Tracks K c T) (i : ι) {stream : Option UpdateStream} {p : Option Pending}
    (hstream : Option.Rel (Collects K) stream p) :
    Tracks K (c.setStream i stream) (T.setPending i p) where
  committed := h.committed
  pending j := by
    by_cases hj : j = i
    · subst hj
      simpa [Connections.setStream, Transactions.setPending] using hstream
    · simpa [Connections.setStream, Transactions.setPending, hj] using h.pending j
  cancelled := h.cancelled

/-- A commit leaves no stream, and the server with what the client has asked for. -/
theorem commitInternal (h : Tracks K c T) (hK : Known K) (i : ι) :
    Tracks K (c.commitInternal i) (T.flush i) := by
  have hpending := h.pending i
  unfold Connections.commitInternal Transactions.flush
  cases hstream : c.updateRequestObserver i with
  | none =>
    rw [hstream] at hpending
    cases hp : T.pending i with
    | none => exact h
    | some p =>
      rw [hp] at hpending
      cases hpending
  | some stream =>
    rw [hstream] at hpending
    cases hp : T.pending i with
    | none =>
      rw [hp] at hpending
      cases hpending
    | some p =>
      rw [hp] at hpending
      cases hpending with
      | some hcollects =>
        have hset := h.setStream i (.none : Option.Rel (Collects K) none none)
        exact ⟨hcollects.complete h.committed hK, hset.pending, hset.cancelled⟩

/-- A client asks for more. -/
theorem send (h : Tracks K c T) (i : ι) {requests : List UpdateRequest}
    (hregular : ∀ r ∈ requests, r.Regular K) :
    Tracks K (c.send i requests) (T.ask i requests) := by
  refine h.setStream i (.some ?_)
  have hpending := h.pending i
  generalize c.updateRequestObserver i = stream at hpending
  generalize T.pending i = p at hpending
  cases hpending with
  | none => exact (Collects.new K).send hregular
  | some hcollects => exact hcollects.send hregular

theorem rollback (h : Tracks K c T) (tupleQuery : Store → String → ρ) (i : ι) :
    T.Permits (Implements K) tupleQuery (.call i .rollback)
        (c.act tupleQuery (.call i .rollback)).2 ∧
      Tracks K (c.act tupleQuery (.call i .rollback)).1 (T.next (.call i .rollback)) := by
  have hpending := h.pending i
  simp only [Connections.act, Connections.call, Connections.rollbackInternal, Transactions.next]
  cases hstream : c.updateRequestObserver i with
  | none =>
    rw [hstream] at hpending
    cases hp : T.pending i with
    | some p =>
      rw [hp] at hpending
      cases hpending
    | none =>
      refine ⟨.nothingToRollback hp, h.committed, fun j => ?_, ?_⟩
      · by_cases hj : j = i
        · subst hj
          simp [Transactions.setPending, hstream]
        · simpa [Transactions.setPending, hj] using h.pending j
      · simpa using h.cancelled
  | some stream =>
    rw [hstream] at hpending
    cases hp : T.pending i with
    | none =>
      rw [hp] at hpending
      cases hpending
    | some p =>
      rw [hp] at hpending
      cases hpending with
      | some hcollects =>
        have hset := h.setStream i (.none : Option.Rel (Collects K) none none)
        refine ⟨.rollback (by simp [hp]), hset.committed, hset.pending, ?_⟩
        exact List.rel_append h.cancelled (.cons hcollects .nil)

/-- A cancelled stream ends for the server. -/
theorem endCancelled (h : Tracks K c T) (tupleQuery : Store → String → ρ) (k : Nat) :
    (c.act tupleQuery (.endCancelled k)).2 = none ∧
      Tracks K (c.act tupleQuery (.endCancelled k)).1 (T.next (.endCancelled k)) := by
  have hk := forall₂_getElem? h.cancelled k
  simp only [Connections.act, Transactions.next]
  cases hstream : c.cancelled[k]? with
  | none =>
    rw [hstream] at hk
    cases hp : T.cancelled[k]? with
    | none => exact ⟨rfl, h⟩
    | some p =>
      rw [hp] at hk
      cases hk
  | some stream =>
    rw [hstream] at hk
    cases hp : T.cancelled[k]? with
    | none =>
      rw [hp] at hk
      cases hk
    | some p =>
      rw [hp] at hk
      cases hk with
      | some hcollects =>
        exact ⟨rfl, hcollects.effect _ _ h.committed, h.pending, forall₂_eraseIdx h.cancelled k⟩

/-- Every regular action ends as the specification permits, and is tracked. -/
theorem act (h : Tracks K c T) (hK : Known K) (tupleQuery : Store → String → ρ)
    {action : Action ι} (hregular : action.Regular K) :
    T.Permits (Implements K) tupleQuery action (c.act tupleQuery action).2 ∧
      Tracks K (c.act tupleQuery action).1 (T.next action) := by
  cases action with
  | arrive i =>
    refine ⟨.arrive i, h.setStream i ?_⟩
    have hpending := h.pending i
    generalize c.updateRequestObserver i = stream at hpending
    generalize T.pending i = p at hpending
    cases hpending with
    | none => exact .none
    | some hcollects => exact .some (hcollects.arrive h.committed hK)
  | arriveCancelled k =>
    refine ⟨.arriveCancelled k, h.committed, h.pending, ?_⟩
    exact forall₂_modify h.cancelled (fun _ _ hcollects => hcollects.arrive h.committed hK) k
  | endCancelled k =>
    obtain ⟨hnone, htracks⟩ := h.endCancelled tupleQuery k
    refine ⟨?_, htracks⟩
    rw [hnone]
    exact .endCancelled k
  | call i call =>
    have hcommit := h.commitInternal hK i
    cases call with
    | operation op =>
      cases op with
      | update u =>
        refine ⟨.update i u, ?_⟩
        simp only [Connections.act, Connections.call, Transactions.next]
        cases u.isRemoval with
        | false => exact h.send i hregular
        | true => exact hcommit.send i hregular
      | query q => exact ⟨.query (Query.answered hcommit.committed hK tupleQuery hregular), hcommit⟩
    | commit => exact ⟨.commit i, hcommit⟩
    | close => exact ⟨.close i, hcommit⟩
    | rollback => exact h.rollback tupleQuery i

end Tracks

/-! ## Runs -/

/-- What happens, one action after another. -/
def Connections.Step (tupleQuery : Store → String → ρ) (c : Connections ι)
    (e : Action ι × Option (Result ρ)) (c' : Connections ι) : Prop :=
  c.act tupleQuery e.1 = (c', e.2)

theorem Connections.simulates (hK : Known K) (tupleQuery : Store → String → ρ) :
    Simulates (Connections.Step tupleQuery) (Transactions.spec (Implements K) tupleQuery) id
      (fun e => e.1.Regular K) (Tracks K : Connections ι → Transactions ι → Prop) := by
  intro c T e c' h hregular hstep
  have hact := h.act hK tupleQuery hregular
  rw [Connections.Step] at hstep
  rw [hstep] at hact
  exact hact

end Refinement

end CMarmotta.Client
