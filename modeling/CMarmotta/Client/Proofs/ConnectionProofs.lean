import CMarmotta.Client.Connection
import CMarmotta.Service.Proofs.LevelDBServiceProofs
import CMarmotta.Persistence.Proofs.InOrderProofs

/-!
# What a transaction of the client does to the server

The client cuts the stream of a transaction in front of every query and every removal, so the
removals of the server see what was added before them. A transaction in which all commits succeed
has the effect of its calls one after another (`transaction_in_order`). A rollback undoes only
what is not committed yet (`rollback_undoes_uncommitted`).
-/

namespace CMarmotta.Client

/-! ## Streams -/

namespace Stream

theorem ended_append (a b : Stream) : Stream.ended (a ++ b) = (a.ended || b.ended) :=
  List.any_append

theorem ended_map_onNext (requests : List UpdateRequest) :
    Stream.ended (requests.map .onNext) = false := by
  simp [Stream.ended, StreamCall.ends]

theorem ended_append_onNext {stream : Stream} (h : stream.ended = false)
    (requests : List UpdateRequest) : Stream.ended (stream ++ requests.map .onNext) = false := by
  rw [ended_append, h, ended_map_onNext]
  rfl

theorem ended_concat_of_ended {stream : Stream} (h : stream.ended = true) (c : StreamCall) :
    Stream.ended (stream ++ [c]) = true := by
  rw [ended_append, h, Bool.true_or]

theorem requests_append (a b : Stream) : Stream.requests (a ++ b) = a.requests ++ b.requests :=
  List.filterMap_append

theorem requests_map_onNext (requests : List UpdateRequest) :
    Stream.requests (requests.map .onNext) = requests := by
  induction requests with
  | nil => rfl
  | cons u requests ih => exact congrArg (u :: ·) ih

end Stream

/-! ## Methods -/

section Methods

variable {closed : List Stream} {stream : Stream} {σ : Store}

theorem onNextAll_of_open (h : stream.ended = false) (requests : List UpdateRequest) :
    onNextAll requests ⟨closed, some stream, σ⟩ =
      (⟨closed, some (stream ++ requests.map .onNext), σ⟩, none) := by
  induction requests generalizing stream with
  | nil => simp [onNextAll]
  | cons u requests ih =>
    have hended : Stream.ended (stream ++ [.onNext u]) = false := Stream.ended_append_onNext h [u]
    have hcall : call (.onNext u) ⟨closed, some stream, σ⟩ =
        (⟨closed, some (stream ++ [.onNext u]), σ⟩, none) := by simp [call, h]
    rw [onNextAll, Method.andThen, hcall]
    show onNextAll requests ⟨closed, some (stream ++ [.onNext u]), σ⟩ = _
    rw [ih hended, List.append_assoc, List.map_cons, List.singleton_append]

theorem call_of_ended (h : stream.ended = true) {c : StreamCall}
    (hc : ∀ message, c ≠ .onError message) :
    call c ⟨closed, some stream, σ⟩ =
      (⟨closed, some (stream ++ [c]), σ⟩, some .illegalStateException) := by
  cases c with
  | onNext u => simp [call, h]
  | onCompleted => simp [call, h]
  | onError message => exact absurd rfl (hc message)

theorem onNextAll_of_ended (h : stream.ended = true) (u : UpdateRequest)
    (requests : List UpdateRequest) :
    onNextAll (u :: requests) ⟨closed, some stream, σ⟩ =
      (⟨closed, some (stream ++ [.onNext u]), σ⟩, some .illegalStateException) := by
  rw [onNextAll, Method.andThen, call_of_ended h (by simp)]

theorem rollbackInternal_of_some :
    rollbackInternal ⟨closed, some stream, σ⟩ =
      (⟨closed ++ [stream ++ [.onError "transaction rollback"]], none, σ⟩, none) := by
  simp [rollbackInternal, Method.andThen, call, Session.drop]

theorem addition_of_none (requests : List UpdateRequest) :
    addition requests ⟨closed, none, σ⟩ = (⟨closed, some (requests.map .onNext), σ⟩, none) :=
  @onNextAll_of_open closed [] σ rfl requests

theorem addition_of_open (h : stream.ended = false) (requests : List UpdateRequest) :
    addition requests ⟨closed, some stream, σ⟩ =
      (⟨closed, some (stream ++ requests.map .onNext), σ⟩, none) :=
  onNextAll_of_open h requests

variable [Platform] {env : Env}

theorem commitInternal_of_open (h : stream.ended = false) (henv : env.completes = true) :
    commitInternal env ⟨closed, some stream, σ⟩ =
      (⟨closed ++ [stream ++ [.onCompleted]], none, (update σ stream.requests).1⟩, none) := by
  have hrequests : Stream.requests (stream ++ [.onCompleted]) = stream.requests := by
    rw [Stream.requests_append]
    exact List.append_nil _
  simp [commitInternal, Method.andThen, call, h, awaitFinish, henv, Session.drop,
    LevelDBService.update, hrequests]

theorem commitInternal_of_failure (h : stream.ended = false) (henv : env.completes = false) :
    commitInternal env ⟨closed, some stream, σ⟩ =
      (⟨closed, some (stream ++ [.onCompleted]), σ⟩,
        some (.sailException "Error while writing to server")) := by
  simp [commitInternal, Method.andThen, call, h, awaitFinish, henv]

theorem commitInternal_of_ended (h : stream.ended = true) :
    commitInternal env ⟨closed, some stream, σ⟩ =
      (⟨closed, some (stream ++ [.onCompleted]), σ⟩, some .illegalStateException) := by
  have hcall : call .onCompleted ⟨closed, some stream, σ⟩ =
      (⟨closed, some (stream ++ [.onCompleted]), σ⟩, some .illegalStateException) :=
    call_of_ended h (by simp)
  simp [commitInternal, Method.andThen, hcall]

theorem commitForQuery_of_active (h : env.active = true) (s : Session) :
    commitForQuery env s = commitInternal env s := if_pos h

omit [Platform] in
theorem patterns_ne_nil (subj : Option JResource) (pred : Option JURI) (obj : Option JValue)
    (contexts : List (Option JResource)) : patterns subj pred obj contexts ≠ [] := by
  cases contexts <;> simp [patterns]

omit [Platform] in
theorem Update.requests_ne_nil (u : Update) : u.requests ≠ [] := by
  cases u <;> simp [Update.requests, patterns_ne_nil]

theorem Update.method_eq (env : Env) (u : Update) :
    u.method env = if u.isRemoval then removal env u.requests else addition u.requests := by
  cases u <;> rfl

/-- An operation that uses a stream the client has ended makes one more call on it, and throws. -/
theorem Operation.method_of_ended (h : stream.ended = true) (op : Operation)
    (huses : op.usesStream env = true) :
    ∃ c, (∀ message, c ≠ .onError message) ∧ op.method env ⟨closed, some stream, σ⟩ =
      (⟨closed, some (stream ++ [c]), σ⟩, some .illegalStateException) := by
  have hcommit : env.active = true → commitForQuery env ⟨closed, some stream, σ⟩ =
      (⟨closed, some (stream ++ [.onCompleted]), σ⟩, some .illegalStateException) := by
    intro hactive
    rw [commitForQuery_of_active hactive, commitInternal_of_ended h]
  cases op with
  | query q => exact ⟨.onCompleted, by simp, hcommit huses⟩
  | update u =>
    show ∃ c, _ ∧ u.method env _ = _
    obtain ⟨r, requests, hrequests⟩ := List.exists_cons_of_ne_nil u.requests_ne_nil
    have hadd : addition u.requests ⟨closed, some stream, σ⟩ =
        (⟨closed, some (stream ++ [.onNext r]), σ⟩, some .illegalStateException) := by
      rw [hrequests]
      exact onNextAll_of_ended h r requests
    rw [Update.method_eq]
    cases hu : u.isRemoval with
    | false => exact ⟨.onNext r, by simp, hadd⟩
    | true =>
      rw [if_pos rfl, removal, Method.andThen]
      cases hactive : env.active with
      | true =>
        rw [hcommit hactive]
        exact ⟨.onCompleted, by simp, rfl⟩
      | false =>
        rw [commitForQuery, hactive]
        exact ⟨.onNext r, by simp, hadd⟩

end Methods

/-! ## Calls that take effect in order -/

/-- The requests of an addition do not remove anything. -/
theorem Update.requests_of_addition {u : Update} (h : u.isRemoval = false) :
    (∀ pattern, .stmtRemoved pattern ∉ u.requests) ∧
      ∀ pattern, .nsRemoved pattern ∉ u.requests := by
  cases u with
  | addStatement subj pred obj contexts => simp [Update.requests]
  | setNamespace nsPrefix name => simp [Update.requests]
  | removeStatements subj pred obj contexts => cases h
  | clear contexts => cases h
  | removeNamespace nsPrefix => cases h
  | clearNamespaces => cases h

section InOrder

variable [Platform]

/-- An addition may share the stream of the updates before it. -/
theorem update_requests_append_onNext {u : Update} (hu : u.isRemoval = false) (σ : Store)
    (stream : Stream) :
    (CMarmotta.update σ (Stream.requests (stream ++ u.requests.map .onNext))).1 =
      (CMarmotta.update (CMarmotta.update σ stream.requests).1 u.requests).1 := by
  obtain ⟨hstmt, hns⟩ := Update.requests_of_addition hu
  rw [Stream.requests_append, Stream.requests_map_onNext]
  exact update_append σ stream.requests hstmt hns

/-- The session is that of a client whose updates lead to the store `σ` once they are committed. -/
def Session.LeadsTo (s : Session) (σ : Store) : Prop :=
  match s.updateRequestObserver with
  | none => s.server = σ
  | some stream => stream.ended = false ∧ (CMarmotta.update s.server stream.requests).1 = σ

theorem Session.LeadsTo.commit {s : Session} {σ : Store} (h : s.LeadsTo σ) :
    ∃ closed, commitInternal .good s = (⟨closed, none, σ⟩, none) := by
  obtain ⟨closed, stream, server⟩ := s
  cases stream with
  | none =>
    obtain rfl : server = σ := h
    exact ⟨closed, rfl⟩
  | some stream =>
    obtain ⟨hended, rfl⟩ := h
    exact ⟨_, commitInternal_of_open hended rfl⟩

theorem Session.LeadsTo.query {s : Session} {σ : Store} (h : s.LeadsTo σ) (q : Query) :
    ∃ s', (Operation.query q).method .good s = (s', none) ∧ s'.server = σ ∧ s'.LeadsTo σ := by
  obtain ⟨closed, hcommit⟩ := h.commit
  exact ⟨⟨closed, none, σ⟩, hcommit, rfl, rfl⟩

theorem Session.LeadsTo.update {s : Session} {σ : Store} (h : s.LeadsTo σ) (u : Update) :
    ∃ s', (Operation.update u).method .good s = (s', none) ∧
      s'.LeadsTo (CMarmotta.update σ u.requests).1 := by
  show ∃ s', u.method .good s = (s', none) ∧ _
  rw [Update.method_eq]
  -- A stream with the requests of the update leads from the committed store to the new one.
  have hfresh : ∀ closed, Session.LeadsTo ⟨closed, some (u.requests.map .onNext), σ⟩
      (CMarmotta.update σ u.requests).1 := by
    intro closed
    refine ⟨Stream.ended_map_onNext _, ?_⟩
    rw [Stream.requests_map_onNext]
  cases hu : u.isRemoval with
  | true =>
    obtain ⟨closed, hcommit⟩ := h.commit
    refine ⟨_, ?_, hfresh closed⟩
    rw [if_pos rfl, removal, Method.andThen, commitForQuery_of_active rfl, hcommit]
    exact addition_of_none u.requests
  | false =>
    obtain ⟨closed, stream, server⟩ := s
    cases stream with
    | none =>
      obtain rfl : server = σ := h
      exact ⟨_, addition_of_none u.requests, hfresh closed⟩
    | some stream =>
      obtain ⟨hended, rfl⟩ := h
      exact ⟨_, addition_of_open hended u.requests, Stream.ended_append_onNext hended _,
        update_requests_append_onNext hu server stream⟩

/-- Updates and queries in a transaction answer as they would if each took effect at once, and
lead to the store they would then leave. -/
theorem runOperations_leadsTo {ρ : Type} (tupleQuery : Store → String → ρ) (ops : List Operation)
    {s : Session} {σ : Store} (h : s.LeadsTo σ) :
    (runOperations tupleQuery s (ops.map fun op => (.good, op))).1.LeadsTo
        (runInOrder tupleQuery (fun σ it => (CMarmotta.update σ it).1) σ ops).1 ∧
      (runOperations tupleQuery s (ops.map fun op => (.good, op))).2 =
        (runInOrder tupleQuery (fun σ it => (CMarmotta.update σ it).1) σ ops).2 := by
  induction ops generalizing s σ with
  | nil => exact ⟨h, rfl⟩
  | cons op ops ih =>
    cases op with
    | update u =>
      obtain ⟨s', hmethod, hs'⟩ := h.update u
      obtain ⟨hstore, hresults⟩ := ih hs'
      simp only [List.map_cons, runOperations, Operation.run, hmethod, runInOrder]
      exact ⟨hstore, congrArg (_ :: ·) hresults⟩
    | query q =>
      obtain ⟨s', hmethod, hserver, hs'⟩ := h.query q
      obtain ⟨hstore, hresults⟩ := ih hs'
      simp only [List.map_cons, runOperations, Operation.run, hmethod, runInOrder, hserver]
      exact ⟨hstore, congrArg (_ :: ·) hresults⟩

/-! ## One update for each request -/

theorem stmtRemovalsInOrder_of_alike {σ : Store} {it : List UpdateRequest}
    (h : (∀ s, .stmtAdded s ∉ it) ∨ ∀ pattern, .stmtRemoved pattern ∉ it) :
    StmtRemovalsInOrder σ it := by
  rintro pre pattern post s rfl hs
  rcases h with h | h
  · exact absurd (List.mem_append_left _ hs) (h s)
  · exact absurd (by simp) (h pattern)

omit [Platform] in
theorem nsRemovalsInOrder_of_statements {T : NsTables} {it : List UpdateRequest}
    (h : ∀ r ∈ it, ∀ T t k, nsEffect T t k r = none) : NsRemovalsInOrder T it := by
  have htimeline : ∀ {it T e}, e ∈ timeline T it → e.2 ∈ it := by
    intro it
    induction it with
    | nil => intro T e he; cases he
    | cons r it ih =>
      intro T e he
      rcases List.mem_cons.mp he with rfl | he
      · exact List.mem_cons_self
      · exact List.mem_cons_of_mem r (ih he)
  intro t k pre post hsplit _ _
  have hnone : ∀ e ∈ post, ∀ T', nsEffect T' t k e.2 = none := by
    intro e he T'
    have hmem : e ∈ timeline T it := by
      rw [hsplit]
      exact List.mem_append_right _ he
    exact h e.2 (htimeline hmem) T' t k
  constructor
  · rintro ⟨e, he, heff⟩
    rw [hnone e he] at heff
    cases heff
  · rintro ⟨e, he, heff⟩
    rw [hnone e he] at heff
    cases heff

/-- The requests of one update may also be sent in one update call each. -/
theorem update_requests_eq_updateInOrder {σ : Store} {S : Finset Statement} (hS : σ.Represents S)
    (hns : σ.NsStored) (u : Update) :
    (CMarmotta.update σ u.requests).1 = updateInOrder σ u.requests := by
  have hstmts : ∀ (f : Statement → UpdateRequest) (l : List Statement),
      (∀ s T t k, nsEffect T t k (f s) = none) →
      (∀ s, .stmtAdded s ∉ l.map f) ∨ (∀ pattern, .stmtRemoved pattern ∉ l.map f) →
      (CMarmotta.update σ (l.map f)).1 = updateInOrder σ (l.map f) := by
    intro f l hf halike
    refine (hS.update_eq_iff hns _).mpr
      ⟨stmtRemovalsInOrder_of_alike halike, nsRemovalsInOrder_of_statements fun r hr => ?_⟩
    obtain ⟨s, -, rfl⟩ := List.mem_map.mp hr
    exact hf s
  cases u with
  | addStatement subj pred obj contexts =>
    exact hstmts .stmtAdded _ (fun _ _ _ _ => rfl) (Or.inr (by simp))
  | removeStatements subj pred obj contexts =>
    exact hstmts .stmtRemoved _ (fun _ _ _ _ => rfl) (Or.inl (by simp))
  | clear contexts => exact hstmts .stmtRemoved _ (fun _ _ _ _ => rfl) (Or.inl (by simp))
  | setNamespace nsPrefix name => rfl
  | removeNamespace nsPrefix => rfl
  | clearNamespaces => rfl

theorem runInOrder_updateInOrder {ρ : Type} (tupleQuery : Store → String → ρ) (ops : List Operation)
    {σ : Store} {S : Finset Statement} (hS : σ.Represents S) (hns : σ.NsStored) :
    runInOrder tupleQuery (fun σ it => (CMarmotta.update σ it).1) σ ops =
      runInOrder tupleQuery updateInOrder σ ops := by
  induction ops generalizing σ S with
  | nil => rfl
  | cons op ops ih =>
    cases op with
    | update u =>
      obtain ⟨S', hS', -⟩ := hS.update u.requests
      have hrest := ih hS' (hns.update _)
      rw [update_requests_eq_updateInOrder hS hns] at hrest
      simp only [runInOrder, update_requests_eq_updateInOrder hS hns, hrest]
    | query q => simp only [runInOrder, ih hS hns]

/-- A transaction in which all commits succeed. The server ends with the store that the updates
leave when each is sent in an update call of its own, in program order, every query is answered on
the store that the calls before it leave, and no call throws. On a store that calls have built up,
each single request may be sent in an update call of its own. -/
theorem transaction_in_order {ρ : Type} (tupleQuery : Store → String → ρ) (closed : List Stream)
    (ops : List Operation) :
    (∀ σ : Store,
      (runTransaction tupleQuery ⟨closed, none, σ⟩ (ops.map fun op => (.good, op)) .good).1.server =
          (runInOrder tupleQuery (fun σ it => (CMarmotta.update σ it).1) σ ops).1 ∧
        (runTransaction tupleQuery ⟨closed, none, σ⟩ (ops.map fun op => (.good, op)) .good).2 =
          ((runInOrder tupleQuery (fun σ it => (CMarmotta.update σ it).1) σ ops).2, none)) ∧
    ∀ calls : List Op,
      runInOrder tupleQuery (fun σ it => (CMarmotta.update σ it).1) (CMarmotta.run calls) ops =
        runInOrder tupleQuery updateInOrder (CMarmotta.run calls) ops := by
  constructor
  · intro σ
    obtain ⟨hstore, hresults⟩ := runOperations_leadsTo tupleQuery ops
      (s := ⟨closed, none, σ⟩) (σ := σ) rfl
    obtain ⟨closed', hcommit⟩ := hstore.commit
    simp [runTransaction, hcommit, hresults]
  · intro calls
    obtain ⟨S, hS, -⟩ := run_represents calls
    exact runInOrder_updateInOrder tupleQuery ops hS (run_nsStored calls)

/-! ## Rollback -/

section Rollback

variable {ρ : Type} (tupleQuery : Store → String → ρ)
variable {closed : List Stream} {stream : Stream} {σ : Store}

/-- The session after operations of an active transaction. -/
def sessionAfterOps (s : Session) (ops : List (Bool × Operation)) : Session :=
  (runOperations tupleQuery s (ops.map fun op => (⟨true, op.1⟩, op.2))).1

theorem sessionAfterOps_cons (s : Session) (completes : Bool) (op : Operation)
    (ops : List (Bool × Operation)) :
    sessionAfterOps tupleQuery s ((completes, op) :: ops) =
      sessionAfterOps tupleQuery (op.method ⟨true, completes⟩ s).1 ops := rfl

theorem storeAfter_append (σ : Store) (updates updates' : List Update) :
    storeAfter σ (updates ++ updates') = storeAfter (storeAfter σ updates) updates' :=
  List.foldl_append

/-- The session holds the updates `pending` in a stream, if there is one. -/
def Session.Holds (s : Session) (σ : Store) : Option (List Update) → Prop
  | none => ∃ closed, s = ⟨closed, none, σ⟩
  | some pending => ∃ closed stream, s = ⟨closed, some stream, σ⟩ ∧ stream.ended = false ∧
      (CMarmotta.update σ stream.requests).1 = storeAfter σ pending

/-- The session has a stream, and the updates `committed` have been committed, or it has none. -/
def Session.EndsWith (s : Session) (σ : Store) : Option (List Update) → Prop
  | none => s.updateRequestObserver = none
  | some committed => ∃ closed stream, s = ⟨closed, some stream, storeAfter σ committed⟩

theorem Session.EndsWith.map_append {s : Session} {σ : Store} {pending : List Update}
    {committed : Option (List Update)} (h : s.EndsWith (storeAfter σ pending) committed) :
    s.EndsWith σ (committed.map (pending ++ ·)) := by
  cases committed with
  | none => exact h
  | some committed =>
    obtain ⟨closed, stream, rfl⟩ := h
    exact ⟨closed, stream, by rw [storeAfter_append]⟩

theorem Session.holds_fresh (closed : List Stream) (σ : Store) (u : Update) :
    Session.Holds ⟨closed, some (u.requests.map .onNext), σ⟩ σ (some [u]) :=
  ⟨closed, _, rfl, Stream.ended_map_onNext _, by rw [Stream.requests_map_onNext]; rfl⟩

/-- A removal in a session without a stream. -/
theorem removal_of_none {env : Env} (requests : List UpdateRequest) :
    removal env requests ⟨closed, none, σ⟩ = (⟨closed, some (requests.map .onNext), σ⟩, none) := by
  have hcommit : commitForQuery env ⟨closed, none, σ⟩ = (⟨closed, none, σ⟩, none) := by
    rw [commitForQuery]
    split <;> rfl
  rw [removal, Method.andThen, hcommit]
  exact addition_of_none requests

theorem method_of_none {env : Env} (u : Update) :
    u.method env ⟨closed, none, σ⟩ = (⟨closed, some (u.requests.map .onNext), σ⟩, none) := by
  rw [Update.method_eq]
  split
  · exact removal_of_none u.requests
  · exact addition_of_none u.requests

namespace Session.Holds

variable {s : Session} {pending : List Update}

theorem addition (h : s.Holds σ (some pending)) {u : Update} (hu : u.isRemoval = false) :
    (addition u.requests s).1.Holds σ (some (pending ++ [u])) := by
  obtain ⟨closed, stream, rfl, hended, hstream⟩ := h
  rw [addition_of_open hended]
  refine ⟨closed, _, rfl, Stream.ended_append_onNext hended _, ?_⟩
  rw [update_requests_append_onNext hu, hstream, storeAfter_append]
  rfl

theorem commit (h : s.Holds σ (some pending)) :
    ∃ closed, commitInternal ⟨true, true⟩ s = (⟨closed, none, storeAfter σ pending⟩, none) := by
  obtain ⟨closed, stream, rfl, hended, hstream⟩ := h
  rw [commitInternal_of_open hended rfl, hstream]
  exact ⟨_, rfl⟩

/-- A commit that fails leaves a stream that the client has ended. -/
theorem commit_failure (h : s.Holds σ (some pending)) :
    ∃ closed stream e, commitInternal ⟨true, false⟩ s = (⟨closed, some stream, σ⟩, some e) ∧
      stream.ended = true := by
  obtain ⟨closed, stream, rfl, hended, -⟩ := h
  refine ⟨closed, _, _, commitInternal_of_failure hended rfl, ?_⟩
  rw [Stream.ended_append]
  exact Bool.or_true _

end Session.Holds

/-- Once a commit has failed, updates and queries change nothing any more. -/
theorem sessionAfterOps_of_ended (h : stream.ended = true) (ops : List (Bool × Operation)) :
    (sessionAfterOps tupleQuery ⟨closed, some stream, σ⟩ ops).EndsWith σ (some []) := by
  induction ops generalizing stream with
  | nil => exact ⟨closed, stream, rfl⟩
  | cons op ops ih =>
    obtain ⟨completes, op⟩ := op
    have huses : op.usesStream ⟨true, completes⟩ = true := by cases op <;> rfl
    obtain ⟨c, -, hmethod⟩ := @Operation.method_of_ended closed stream σ _ _ h op huses
    rw [sessionAfterOps_cons, hmethod]
    exact ih (Stream.ended_concat_of_ended h c)

/-- The run of a transaction, one case for each clause of `committedBefore`. -/
theorem sessionAfterOps_endsWith {s : Session} {pending : Option (List Update)}
    (h : s.Holds σ pending) (ops : List (Bool × Operation)) :
    (sessionAfterOps tupleQuery s ops).EndsWith σ (committedBefore pending ops) := by
  induction ops generalizing s pending σ with
  | nil =>
    cases pending with
    | none =>
      obtain ⟨closed, rfl⟩ := h
      rfl
    | some pending =>
      obtain ⟨closed, stream, rfl, -⟩ := h
      exact ⟨closed, stream, rfl⟩
  | cons op ops ih =>
    obtain ⟨completes, op⟩ := op
    rw [sessionAfterOps_cons]
    cases pending with
    | none =>
      obtain ⟨closed, rfl⟩ := h
      cases op with
      | query q => exact ih ⟨closed, rfl⟩
      | update u =>
        show (sessionAfterOps tupleQuery (u.method _ _).1 ops).EndsWith σ _
        rw [method_of_none]
        exact ih (Session.holds_fresh closed σ u)
    | some pending =>
      cases op with
      | query q =>
        show (sessionAfterOps tupleQuery (commitInternal ⟨true, completes⟩ s).1 ops).EndsWith σ _
        rw [committedBefore]
        cases completes with
        | true =>
          obtain ⟨closed, hcommit⟩ := h.commit
          rw [hcommit]
          exact Session.EndsWith.map_append (ih ⟨closed, rfl⟩)
        | false =>
          obtain ⟨closed, stream, e, hcommit, hended⟩ := h.commit_failure
          rw [hcommit]
          exact sessionAfterOps_of_ended tupleQuery hended ops
      | update u =>
        show (sessionAfterOps tupleQuery (u.method _ _).1 ops).EndsWith σ _
        rw [committedBefore, Update.method_eq]
        cases hu : u.isRemoval with
        | false => exact ih (h.addition hu)
        | true =>
          rw [if_pos rfl, removal, Method.andThen, commitForQuery_of_active rfl]
          cases completes with
          | true =>
            obtain ⟨closed, hcommit⟩ := h.commit
            rw [hcommit]
            refine Session.EndsWith.map_append (ih ?_)
            show Session.Holds (Client.addition u.requests _).1 _ _
            rw [addition_of_none]
            exact Session.holds_fresh _ _ u
          | false =>
            obtain ⟨closed, stream, e, hcommit, hended⟩ := h.commit_failure
            rw [hcommit]
            exact sessionAfterOps_of_ended tupleQuery hended ops

/-- With a stream open, a rollback drops it and leaves what is committed; without one it throws. -/
theorem runRolledBack_eq (closed : List Stream) (σ : Store) (ops : List (Bool × Operation)) :
    ∃ closed', runRolledBack tupleQuery ⟨closed, none, σ⟩ ops =
      match committedBefore none ops with
      | some committed => (⟨closed', none, storeAfter σ committed⟩, none)
      | none => (sessionAfterOps tupleQuery ⟨closed, none, σ⟩ ops, some .nullPointerException) := by
  have hholds : Session.Holds ⟨closed, none, σ⟩ σ none := ⟨closed, rfl⟩
  have hends := sessionAfterOps_endsWith tupleQuery hholds ops
  have hrun : runRolledBack tupleQuery ⟨closed, none, σ⟩ ops =
      rollbackInternal (sessionAfterOps tupleQuery ⟨closed, none, σ⟩ ops) := rfl
  rw [hrun]
  cases hc : committedBefore none ops with
  | none =>
    rw [hc] at hends
    refine ⟨closed, ?_⟩
    generalize sessionAfterOps tupleQuery ⟨closed, none, σ⟩ ops = s at hends
    obtain ⟨closed', _, server⟩ := s
    obtain rfl : _ = none := hends
    rfl
  | some committed =>
    rw [hc] at hends
    obtain ⟨closed', stream', hs⟩ := hends
    exact ⟨_, by rw [hs, rollbackInternal_of_some]⟩

/-- A rollback with a stream open, that is, after an update or a failed commit, completes, and it
undoes the updates that are not committed yet. Those in front of a query or a removal are. -/
theorem rollback_undoes_uncommitted (closed : List Stream) (σ : Store)
    {ops : List (Bool × Operation)} {committed : List Update}
    (h : committedBefore none ops = some committed) :
    (runRolledBack tupleQuery ⟨closed, none, σ⟩ ops).2 = none ∧
      (runRolledBack tupleQuery ⟨closed, none, σ⟩ ops).1.server = storeAfter σ committed := by
  obtain ⟨closed', hrun⟩ := runRolledBack_eq tupleQuery closed σ ops
  rw [hrun, h]
  exact ⟨rfl, rfl⟩

end Rollback

end InOrder

/-- An update that adds a statement. -/
def addOne : Update := .addStatement (some (.uri "urn:s")) (some (.uri "urn:p"))
  (some (.resource (.uri "urn:o"))) []

/-- An addition is rolled back. -/
theorem rollback_undoes_addition :
    committedBefore none [(true, .update addOne)] = some [] ∧
      (runRolledBack (fun _ _ => ()) ⟨[], none, Store.empty⟩ [(true, .update addOne)]).2 = none ∧
      (runRolledBack (fun _ _ => ()) ⟨[], none, Store.empty⟩ [(true, .update addOne)]).1.server =
        storeAfter Store.empty [] :=
  ⟨rfl, rollback_undoes_uncommitted (fun _ _ => ()) [] Store.empty rfl⟩

/-- A transaction adds a statement, clears the namespaces and is rolled back. The rollback
completes, and the statement stays. -/
theorem rollback_keeps_addition :
    (runRolledBack (fun _ _ => ()) ⟨[], none, Store.empty⟩
        [(true, .update addOne), (true, .update .clearNamespaces)]).2 = none ∧
      (runRolledBack (fun _ _ => ()) ⟨[], none, Store.empty⟩
        [(true, .update addOne), (true, .update .clearNamespaces)]).1.server ≠ Store.empty := by
  obtain ⟨closed', hrun⟩ := runRolledBack_eq (fun _ _ => ()) [] Store.empty
    [(true, .update addOne), (true, .update .clearNamespaces)]
  have hcommitted : committedBefore none
      [(true, .update addOne), (true, .update .clearNamespaces)] = some [addOne] := rfl
  have hchanged : storeAfter Store.empty [addOne] ≠ Store.empty := by decide +kernel
  rw [hrun, hcommitted]
  exact ⟨rfl, hchanged⟩

end CMarmotta.Client
