import CMarmotta.Client.Proofs.ConnectionProofs

/-!
# When the client uses its streams with discipline

A commit that fails leaves `updateRequestObserver` at the stream it has completed, and only a
rollback takes it away. So the client breaks the discipline exactly when it goes on after a failed
commit without a rollback (`streamDiscipline_iff`).
-/

namespace CMarmotta.Client

/-! ## Streams -/

namespace Stream

/-- One more call keeps the discipline if it is an error, or the stream is not ended. -/
theorem disciplined_concat_iff {stream : Stream} {c : StreamCall} :
    Disciplined (stream ++ [c]) ↔
      stream.Disciplined ∧ ((∃ message, c = .onError message) ∨ stream.ended = false) := by
  constructor
  · intro h
    constructor
    · rintro pre d post rfl hd
      exact h pre d (post ++ [c]) (by simp) hd
    · by_cases hc : ∃ message, c = .onError message
      · exact Or.inl hc
      · exact Or.inr (h stream c [] rfl fun message hm => hc ⟨message, hm⟩)
  · rintro ⟨h, hc⟩ pre d post hsplit hd
    rcases List.eq_nil_or_concat post with rfl | ⟨post', e, rfl⟩
    · obtain ⟨rfl, rfl⟩ := List.append_singleton_inj.mp hsplit
      exact hc.resolve_left fun ⟨message, hm⟩ => hd message hm
    · have hsplit' : stream ++ [c] = (pre ++ d :: post') ++ [e] := by simpa using hsplit
      obtain ⟨rfl, -⟩ := List.append_singleton_inj.mp hsplit'
      exact h pre d post' rfl hd

theorem disciplined_of_append {a b : Stream} (h : Disciplined (a ++ b)) : a.Disciplined := by
  rintro pre c post rfl hc
  exact h pre c (post ++ b) (by simp) hc

theorem Disciplined.append_onNext {stream : Stream} (h : stream.Disciplined)
    (hended : stream.ended = false) (requests : List UpdateRequest) :
    Disciplined (stream ++ requests.map .onNext) := by
  induction requests using List.reverseRecOn with
  | nil => rwa [List.map_nil, List.append_nil]
  | append_singleton requests u ih =>
    rw [List.map_append, ← List.append_assoc]
    exact disciplined_concat_iff.mpr ⟨ih, Or.inr (ended_append_onNext hended requests)⟩

theorem disciplined_nil : Disciplined [] := by
  rintro pre c post h
  simp at h

theorem disciplined_map_onNext (requests : List UpdateRequest) :
    Disciplined (requests.map .onNext) :=
  disciplined_nil.append_onNext rfl requests

end Stream

/-! ## One call -/

section Next

/-- What a call makes of a session. -/
inductive Next : Session → Env × Call → Session → Prop
  /-- An update opens a stream. -/
  | opens {closed : List Stream} {σ : Store} {c : Env × Call} (u : Update)
      (hc : c.2 = .operation (.update u)) :
      Next ⟨closed, none, σ⟩ c ⟨closed, some (u.requests.map .onNext), σ⟩
  /-- Nothing else needs a stream. -/
  | idle {closed : List Stream} {σ : Store} {c : Env × Call} (hc : ¬ IsUpdate c) :
      Next ⟨closed, none, σ⟩ c ⟨closed, none, σ⟩
  /-- The call sends requests over the open stream, perhaps none. -/
  | sends {closed : List Stream} {stream : Stream} {σ : Store} {c : Env × Call}
      (h : stream.ended = false) (hc : ¬ FailsCommit ⟨closed, some stream, σ⟩ c)
      (requests : List UpdateRequest) :
      Next ⟨closed, some stream, σ⟩ c ⟨closed, some (stream ++ requests.map .onNext), σ⟩
  /-- It makes a commit that fails. -/
  | fails {closed : List Stream} {stream : Stream} {σ : Store} {c : Env × Call}
      (h : stream.ended = false) (hc : FailsCommit ⟨closed, some stream, σ⟩ c) :
      Next ⟨closed, some stream, σ⟩ c ⟨closed, some (stream ++ [.onCompleted]), σ⟩
  /-- It ends the open stream and gives it up, and perhaps opens another one. -/
  | gives {closed : List Stream} {stream : Stream} {σ : Store} {c : Env × Call}
      (h : stream.ended = false) (hc : ¬ FailsCommit ⟨closed, some stream, σ⟩ c) (last : StreamCall)
      (requests : Option (List UpdateRequest)) (σ' : Store) :
      Next ⟨closed, some stream, σ⟩ c
        ⟨closed ++ [stream ++ [last]], requests.map (List.map .onNext), σ'⟩
  /-- It does not touch the stream that the client has ended. -/
  | keeps {closed : List Stream} {stream : Stream} {σ : Store} {c : Env × Call}
      (h : stream.ended = true) (huses : c.2.usesStream c.1 = false) (hrolls : ¬ RollsBack c) :
      Next ⟨closed, some stream, σ⟩ c ⟨closed, some stream, σ⟩
  /-- It sends over that stream, or completes it again. -/
  | uses {closed : List Stream} {stream : Stream} {σ : Store} {c : Env × Call}
      (h : stream.ended = true) (huses : c.2.usesStream c.1 = true) (hrolls : ¬ RollsBack c)
      (last : StreamCall) (hlast : ∀ message, last ≠ .onError message) :
      Next ⟨closed, some stream, σ⟩ c ⟨closed, some (stream ++ [last]), σ⟩
  /-- It gives up that stream. -/
  | rolls {closed : List Stream} {stream : Stream} {σ : Store} {c : Env × Call}
      (h : stream.ended = true) (hrolls : RollsBack c) (message : String) :
      Next ⟨closed, some stream, σ⟩ c ⟨closed ++ [stream ++ [.onError message]], none, σ⟩

theorem Next.same {closed : List Stream} {stream : Stream} {σ : Store} (h : stream.ended = false)
    {c : Env × Call} (hc : ¬ FailsCommit ⟨closed, some stream, σ⟩ c) :
    Next ⟨closed, some stream, σ⟩ c ⟨closed, some stream, σ⟩ := by
  have hsends : Next ⟨closed, some stream, σ⟩ c ⟨closed, some (stream ++ [].map .onNext), σ⟩ :=
    .sends h hc []
  rwa [List.map_nil, List.append_nil] at hsends

variable [Platform] {closed : List Stream} {stream : Stream} {σ : Store} {env : Env}

theorem next_of_none (c : Call) :
    Next ⟨closed, none, σ⟩ (env, c) (c.next env ⟨closed, none, σ⟩) := by
  have hcommit : (if env.active then (commitInternal env ⟨closed, none, σ⟩).1
      else ⟨closed, none, σ⟩) = ⟨closed, none, σ⟩ := by
    split <;> rfl
  cases c with
  | operation op =>
    cases op with
    | update u =>
      show Next _ _ (u.method env _).1
      rw [method_of_none]
      exact .opens u rfl
    | query q =>
      show Next _ _ (commitForQuery env _).1
      rw [commitForQuery, apply_ite Prod.fst, hcommit]
      exact .idle (by simp [IsUpdate])
  | commit =>
    rw [Call.next, hcommit]
    exact .idle (by simp [IsUpdate])
  | close =>
    rw [Call.next, hcommit]
    exact .idle (by simp [IsUpdate])
  | rollback =>
    have hrollback : (Call.rollback.next env ⟨closed, none, σ⟩) = ⟨closed, none, σ⟩ := by
      rw [Call.next]
      split <;> rfl
    rw [hrollback]
    exact .idle (by simp [IsUpdate])

theorem next_of_commitInternal (h : stream.ended = false) {c : Call} (hc : c.commits = true)
    (hactive : env.active = true) :
    Next ⟨closed, some stream, σ⟩ (env, c) (commitInternal env ⟨closed, some stream, σ⟩).1 := by
  cases hcompletes : env.completes with
  | true =>
    rw [commitInternal_of_open h hcompletes]
    exact .gives h (by simp [FailsCommit, hcompletes]) .onCompleted none _
  | false =>
    rw [commitInternal_of_failure h hcompletes]
    exact .fails h ⟨hactive, hc, by simp, hcompletes⟩

theorem next_of_update (h : stream.ended = false) (u : Update) :
    Next ⟨closed, some stream, σ⟩ (env, .operation (.update u))
      (u.method env ⟨closed, some stream, σ⟩).1 := by
  rw [Update.method_eq]
  cases hu : u.isRemoval with
  | false =>
    rw [if_neg Bool.false_ne_true, addition_of_open h]
    exact .sends h (by simp [FailsCommit, Call.commits, hu]) u.requests
  | true =>
    rw [if_pos rfl, removal, Method.andThen]
    cases hactive : env.active with
    | false =>
      rw [commitForQuery, hactive, if_neg Bool.false_ne_true]
      show Next _ _ (addition u.requests _).1
      rw [addition_of_open h]
      exact .sends h (by simp [FailsCommit, hactive]) u.requests
    | true =>
      rw [commitForQuery_of_active hactive]
      cases hcompletes : env.completes with
      | true =>
        rw [commitInternal_of_open h hcompletes]
        show Next _ _ (addition u.requests _).1
        rw [addition_of_none]
        exact .gives h (by simp [FailsCommit, hcompletes]) .onCompleted (some u.requests) _
      | false =>
        rw [commitInternal_of_failure h hcompletes]
        exact .fails h ⟨hactive, hu, by simp, hcompletes⟩

theorem next_of_open (h : stream.ended = false) (c : Call) :
    Next ⟨closed, some stream, σ⟩ (env, c) (c.next env ⟨closed, some stream, σ⟩) := by
  -- What `commit`, `close` and the queries do.
  have hcommit : ∀ {c : Call}, c.commits = true → Next ⟨closed, some stream, σ⟩ (env, c)
      (if env.active then (commitInternal env ⟨closed, some stream, σ⟩).1
        else ⟨closed, some stream, σ⟩) := by
    intro c hc
    split
    · rename_i hactive
      exact next_of_commitInternal h hc hactive
    · rename_i hactive
      exact .same h fun hfails => hactive hfails.1
  cases c with
  | operation op =>
    cases op with
    | update u => exact next_of_update h u
    | query q =>
      show Next _ _ (commitForQuery env _).1
      rw [commitForQuery, apply_ite Prod.fst]
      exact hcommit rfl
  | commit => exact hcommit rfl
  | close => exact hcommit rfl
  | rollback =>
    rw [Call.next]
    split
    · rw [rollbackInternal_of_some]
      exact .gives h (by simp [FailsCommit, Call.commits]) _ none σ
    · exact .same h (by simp [FailsCommit, Call.commits])

theorem next_of_ended (h : stream.ended = true) (c : Call) :
    Next ⟨closed, some stream, σ⟩ (env, c) (c.next env ⟨closed, some stream, σ⟩) := by
  have hcommit : ∀ {c : Call}, c.usesStream env = env.active → c ≠ .rollback →
      Next ⟨closed, some stream, σ⟩ (env, c)
        (if env.active then (commitInternal env ⟨closed, some stream, σ⟩).1
          else ⟨closed, some stream, σ⟩) := by
    intro c huses hc
    have hrolls : ¬ RollsBack (env, c) := fun hr => hc hr.1
    split
    · rename_i hactive
      rw [commitInternal_of_ended h]
      exact .uses h (huses.trans hactive) hrolls .onCompleted (by simp)
    · rename_i hactive
      exact .keeps h (huses.trans (Bool.eq_false_iff.mpr hactive)) hrolls
  cases c with
  | operation op =>
    cases op with
    | update u =>
      obtain ⟨last, hlast, hmethod⟩ :=
        @Operation.method_of_ended closed stream σ _ env h (.update u) rfl
      show Next _ _ ((Operation.update u).method env _).1
      rw [hmethod]
      exact .uses h rfl (by simp [RollsBack]) last hlast
    | query q =>
      show Next _ _ (commitForQuery env _).1
      rw [commitForQuery, apply_ite Prod.fst]
      exact hcommit rfl (by simp)
  | commit => exact hcommit rfl (by simp)
  | close => exact hcommit rfl (by simp)
  | rollback =>
    rw [Call.next]
    split
    · rename_i hactive
      rw [rollbackInternal_of_some]
      exact .rolls h ⟨rfl, hactive⟩ _
    · rename_i hactive
      exact .keeps h rfl fun hr => hactive hr.2

/-- Every call does one of these things. -/
theorem next_cases (s : Session) (c : Env × Call) : Next s c (c.2.next c.1 s) := by
  obtain ⟨closed, observer, σ⟩ := s
  cases observer with
  | none => exact next_of_none c.2
  | some stream =>
    cases h : stream.ended with
    | false => exact next_of_open h c.2
    | true => exact next_of_ended h c.2

end Next

/-! ## The streams of a session -/

namespace Session

variable {closed : List Stream} {stream : Stream} {σ : Store} {s s' : Session} {c : Env × Call}

/-- All streams of the session are used with discipline. -/
def Disciplined (s : Session) : Prop := ∀ stream ∈ s.streams, stream.Disciplined

theorem disciplined_iff :
    s.Disciplined ↔ (∀ stream ∈ s.closed, stream.Disciplined) ∧
      ∀ stream, s.updateRequestObserver = some stream → stream.Disciplined := by
  simp only [Disciplined, streams, List.mem_append, Option.mem_toList, or_imp, forall_and]

theorem disciplined_none_iff :
    Disciplined ⟨closed, none, σ⟩ ↔ ∀ stream ∈ closed, stream.Disciplined := by
  simp [disciplined_iff]

theorem disciplined_some_iff :
    Disciplined ⟨closed, some stream, σ⟩ ↔
      (∀ stream ∈ closed, stream.Disciplined) ∧ stream.Disciplined := by
  simp [disciplined_iff]

theorem forall_mem_concat {p : Stream → Prop} {last : Stream} :
    (∀ stream ∈ closed ++ [last], p stream) ↔ (∀ stream ∈ closed, p stream) ∧ p last := by
  simp [or_imp, forall_and]

/-- A call keeps the discipline unless it uses a stream that is ended. -/
theorem Disciplined.next (h : s.Disciplined) (hnext : Next s c s')
    (hsafe : ∀ stream, s.updateRequestObserver = some stream → stream.ended = true →
      c.2.usesStream c.1 = false) : s'.Disciplined := by
  cases hnext with
  | opens u _ =>
    rw [disciplined_none_iff] at h
    exact disciplined_some_iff.mpr ⟨h, Stream.disciplined_map_onNext _⟩
  | idle _ => exact h
  | sends hended _ requests =>
    rw [disciplined_some_iff] at h
    exact disciplined_some_iff.mpr ⟨h.1, h.2.append_onNext hended requests⟩
  | fails hended _ =>
    rw [disciplined_some_iff] at h
    exact disciplined_some_iff.mpr
      ⟨h.1, Stream.disciplined_concat_iff.mpr ⟨h.2, Or.inr hended⟩⟩
  | @gives closed stream _ _ hended _ last requests _ =>
    rw [disciplined_some_iff] at h
    have hclosed : ∀ s ∈ closed ++ [stream ++ [last]], s.Disciplined :=
      forall_mem_concat.mpr ⟨h.1, Stream.disciplined_concat_iff.mpr ⟨h.2, Or.inr hended⟩⟩
    cases requests with
    | none => exact disciplined_none_iff.mpr hclosed
    | some it => exact disciplined_some_iff.mpr ⟨hclosed, Stream.disciplined_map_onNext it⟩
  | keeps _ _ _ => exact h
  | uses hended huses _ _ _ =>
    rw [hsafe _ rfl hended] at huses
    cases huses
  | rolls _ _ message =>
    rw [disciplined_some_iff] at h
    exact disciplined_none_iff.mpr (forall_mem_concat.mpr
      ⟨h.1, Stream.disciplined_concat_iff.mpr ⟨h.2, Or.inl ⟨message, rfl⟩⟩⟩)

/-- The calls on a stream are never taken back. -/
theorem Disciplined.of_next (hnext : Next s c s') (h : s'.Disciplined) : s.Disciplined := by
  have hclosed := (disciplined_iff.mp h).1
  cases hnext with
  | opens u _ => exact disciplined_none_iff.mpr hclosed
  | idle _ => exact h
  | sends _ _ _ =>
    rw [disciplined_some_iff] at h ⊢
    exact ⟨h.1, Stream.disciplined_of_append h.2⟩
  | fails _ _ =>
    rw [disciplined_some_iff] at h ⊢
    exact ⟨h.1, Stream.disciplined_of_append h.2⟩
  | gives _ _ _ _ _ =>
    obtain ⟨hclosed, hlast⟩ := forall_mem_concat.mp hclosed
    exact disciplined_some_iff.mpr ⟨hclosed, Stream.disciplined_of_append hlast⟩
  | keeps _ _ _ => exact h
  | uses _ _ _ _ _ =>
    rw [disciplined_some_iff] at h ⊢
    exact ⟨h.1, Stream.disciplined_of_append h.2⟩
  | rolls _ _ _ =>
    obtain ⟨hclosed, hlast⟩ := forall_mem_concat.mp hclosed
    exact disciplined_some_iff.mpr ⟨hclosed, Stream.disciplined_of_append hlast⟩

/-- The stream in use is one that the client has ended. -/
def Stale (s : Session) : Prop :=
  ∃ stream, s.updateRequestObserver = some stream ∧ stream.ended = true

/-- A stream in use is ended because a commit has failed, and there was no rollback since. -/
theorem Stale.of_next (hnext : Next s c s') (h : s'.Stale) :
    s.Stale ∧ ¬ RollsBack c ∨ FailsCommit s c := by
  obtain ⟨stream', hobserver, hended'⟩ := h
  cases hnext with
  | opens u _ =>
    cases hobserver
    rw [Stream.ended_map_onNext] at hended'
    cases hended'
  | idle _ => cases hobserver
  | sends hended _ requests =>
    cases hobserver
    rw [Stream.ended_append_onNext hended requests] at hended'
    cases hended'
  | fails _ hfails => exact Or.inr hfails
  | gives _ _ _ requests _ =>
    obtain ⟨it, -, rfl⟩ := Option.map_eq_some_iff.mp hobserver
    rw [Stream.ended_map_onNext] at hended'
    cases hended'
  | keeps hended _ hrolls => exact Or.inl ⟨⟨_, rfl, hended⟩, hrolls⟩
  | uses hended _ hrolls _ _ => exact Or.inl ⟨⟨_, rfl, hended⟩, hrolls⟩
  | rolls _ _ _ => cases hobserver

/-- With an ended stream in use, a call leaves it alone, or makes one more call on it that is no
error, or rolls back. -/
theorem Stale.next_cases (h : s.Stale) (hnext : Next s c s') :
    (c.2.usesStream c.1 = false ∧ s' = s) ∨
      (c.2.usesStream c.1 = true ∧ ∃ (stream : Stream) (last : StreamCall), stream.ended = true ∧
        (∀ message, last ≠ .onError message) ∧
        s'.updateRequestObserver = some (stream ++ [last])) ∨ RollsBack c := by
  obtain ⟨stream, hobserver, hended⟩ := h
  have hnot : ∀ {stream' : Stream},
      s.updateRequestObserver = some stream' → stream'.ended ≠ false := by
    intro stream' hs hfalse
    obtain rfl := Option.some.inj (hobserver.symm.trans hs)
    rw [hended] at hfalse
    cases hfalse
  cases hnext with
  | opens u _ => cases hobserver
  | idle _ => cases hobserver
  | sends hopen _ _ => exact absurd hopen (hnot rfl)
  | fails hopen _ => exact absurd hopen (hnot rfl)
  | gives hopen _ _ _ _ => exact absurd hopen (hnot rfl)
  | keeps _ huses _ => exact Or.inl ⟨huses, rfl⟩
  | uses hend huses _ last hlast => exact Or.inr (Or.inl ⟨huses, _, last, hend, hlast, rfl⟩)
  | rolls _ hrolls _ => exact Or.inr (Or.inr hrolls)

/-- An ended stream stays in use until a rollback. -/
theorem Stale.next (h : s.Stale) (hnext : Next s c s') (hrolls : ¬ RollsBack c) : s'.Stale := by
  rcases h.next_cases hnext with ⟨-, rfl⟩ | ⟨-, stream, last, hended, -, hobserver⟩ | hr
  · exact h
  · exact ⟨_, hobserver, Stream.ended_concat_of_ended hended last⟩
  · exact absurd hr hrolls

/-- A call that uses an ended stream breaks the discipline. -/
theorem Stale.not_disciplined (h : s.Stale) (hnext : Next s c s')
    (huses : c.2.usesStream c.1 = true) : ¬ s'.Disciplined := by
  intro hd
  rcases h.next_cases hnext with ⟨hnot, -⟩ | ⟨-, stream, last, hended, hlast, hobserver⟩ | hrolls
  · rw [huses] at hnot
    cases hnot
  · have hstream := (disciplined_iff.mp hd).2 _ hobserver
    rcases (Stream.disciplined_concat_iff.mp hstream).2 with ⟨message, rfl⟩ | hfalse
    · exact hlast message rfl
    · rw [hended] at hfalse
      cases hfalse
  · rw [hrolls.1] at huses
    cases huses

/-- A failed commit leaves a stream in use that is ended. -/
theorem stale_of_failsCommit (h : FailsCommit s c) (hnext : Next s c s') : s'.Stale := by
  have huses : c.2.usesStream c.1 = true := by
    obtain ⟨hactive, hcommits, -⟩ := h
    obtain ⟨env, c⟩ := c
    cases c with
    | operation op =>
      cases op with
      | update u => rfl
      | query q => exact hactive
    | commit => exact hactive
    | close => exact hactive
    | rollback => cases hcommits
  cases hnext with
  | opens u _ => exact absurd rfl h.2.2.1
  | idle _ => exact absurd rfl h.2.2.1
  | sends _ hc _ => exact absurd h hc
  | gives _ hc _ _ _ => exact absurd h hc
  | fails _ _ =>
    refine ⟨_, rfl, ?_⟩
    rw [Stream.ended_append]
    exact Bool.or_true _
  | keeps _ hnot _ =>
    rw [huses] at hnot
    cases hnot
  | uses hend _ _ last _ => exact ⟨_, rfl, Stream.ended_concat_of_ended hend last⟩
  | rolls _ hrolls _ =>
    have hcommits := h.2.1
    rw [hrolls.1] at hcommits
    cases hcommits

end Session

/-! ## Runs -/

section Runs

variable [Platform] {σ : Store}

theorem sessionAfter_concat (calls : List (Env × Call)) (c : Env × Call) :
    sessionAfter σ (calls ++ [c]) = c.2.next c.1 (sessionAfter σ calls) := by
  rw [sessionAfter, List.foldl_append]
  rfl

theorem next_sessionAfter (calls : List (Env × Call)) (c : Env × Call) :
    Next (sessionAfter σ calls) c (sessionAfter σ (calls ++ [c])) := by
  rw [sessionAfter_concat]
  exact next_cases _ c

theorem Session.Stale.sessionAfter {pre mid : List (Env × Call)} (h : (sessionAfter σ pre).Stale)
    (hmid : ∀ m ∈ mid, ¬ RollsBack m) : (Client.sessionAfter σ (pre ++ mid)).Stale := by
  induction mid using List.reverseRecOn with
  | nil => rwa [List.append_nil]
  | append_singleton mid c ih =>
    have hstale := ih fun m hm => hmid m (List.mem_append_left _ hm)
    rw [← List.append_assoc]
    exact hstale.next (next_sessionAfter _ c) (hmid c (by simp))

/-- The first calls of a disciplined run are disciplined. -/
theorem Session.Disciplined.of_sessionAfter {pre post : List (Env × Call)}
    (h : (sessionAfter σ (pre ++ post)).Disciplined) : (sessionAfter σ pre).Disciplined := by
  induction post using List.reverseRecOn with
  | nil => rwa [List.append_nil] at h
  | append_singleton post c ih =>
    rw [← List.append_assoc] at h
    exact ih (.of_next (next_sessionAfter _ c) h)

/-- If the client rolls back after every failed commit, its streams are used with discipline, and
one that is ended and in use stems from the last commit. -/
theorem RollsBackFirst.sessionAfter {calls : List (Env × Call)} (h : RollsBackFirst σ calls)
    (pre : List (Env × Call)) : ∀ post, calls = pre ++ post →
    (Client.sessionAfter σ pre).Disciplined ∧ ((Client.sessionAfter σ pre).Stale →
      ∃ before c mid, pre = before ++ c :: mid ∧ FailsCommit (Client.sessionAfter σ before) c ∧
        ∀ m ∈ mid, ¬ RollsBack m) := by
  induction pre using List.reverseRecOn with
  | nil =>
    intro post _
    refine ⟨by simp [Session.Disciplined, Session.streams, Client.sessionAfter], ?_⟩
    rintro ⟨stream, hobserver, -⟩
    cases hobserver
  | append_singleton pre d ih =>
    intro post hcalls
    have hcalls' : calls = pre ++ d :: post := by simpa using hcalls
    obtain ⟨hdisciplined, hstale⟩ := ih _ hcalls'
    have hnext := next_sessionAfter (σ := σ) pre d
    constructor
    · refine hdisciplined.next hnext fun stream hobserver hended => ?_
      obtain ⟨before, c, mid, rfl, hfails, hmid⟩ := hstale ⟨stream, hobserver, hended⟩
      exact h before c mid d post (by simpa using hcalls') hfails hmid
    · intro hafter
      rcases hafter.of_next hnext with ⟨hbefore, hrolls⟩ | hfails
      · obtain ⟨before, c, mid, rfl, hfails, hmid⟩ := hstale hbefore
        refine ⟨before, c, mid ++ [d], by simp, hfails, fun m hm => ?_⟩
        rcases List.mem_append.mp hm with hm | hm
        · exact hmid m hm
        · rwa [List.mem_singleton.mp hm]
      · exact ⟨pre, d, [], rfl, hfails, by simp⟩

/-- After a rollback there is no stream until the next update. -/
theorem observer_of_rollsBack {before mid : List (Env × Call)} {c : Env × Call} (hc : RollsBack c)
    (hmid : ∀ m ∈ mid, ¬ IsUpdate m) :
    (sessionAfter σ (before ++ c :: mid)).updateRequestObserver = none := by
  induction mid using List.reverseRecOn with
  | nil =>
    obtain ⟨hrollback, hactive⟩ := hc
    rw [sessionAfter_concat, hrollback, Call.next, if_pos hactive]
    obtain ⟨closed, observer, τ⟩ := sessionAfter σ before
    cases observer with
    | none => rfl
    | some stream => rw [rollbackInternal_of_some]
  | append_singleton mid d ih =>
    have hnone := ih fun m hm => hmid m (List.mem_append_left _ hm)
    have hnext := next_sessionAfter (σ := σ) (before ++ c :: mid) d
    rw [List.append_assoc, List.cons_append] at hnext
    generalize sessionAfter σ (before ++ c :: mid) = s at hnext hnone
    generalize sessionAfter σ (before ++ c :: (mid ++ [d])) = s' at hnext
    cases hnext with
    | opens u hd => exact absurd ⟨u, hd⟩ (hmid d (by simp))
    | idle _ => rfl
    | sends _ _ _ => cases hnone
    | fails _ _ => cases hnone
    | gives _ _ _ _ _ => cases hnone
    | keeps _ _ _ => cases hnone
    | uses _ _ _ _ _ => cases hnone
    | rolls _ _ _ => cases hnone

/-- An update opens a stream of its own if none is in use. -/
theorem observer_of_update {calls : List (Env × Call)} {env : Env} {u : Update}
    (h : (sessionAfter σ calls).updateRequestObserver = none) :
    (sessionAfter σ (calls ++ [(env, .operation (.update u))])).updateRequestObserver =
      some (u.requests.map .onNext) := by
  rw [sessionAfter_concat]
  generalize sessionAfter σ calls = s at h
  obtain ⟨closed, observer, τ⟩ := s
  obtain rfl : observer = none := h
  show (u.method env ⟨closed, none, τ⟩).1.updateRequestObserver = _
  rw [method_of_none]

/-- The client uses its streams with discipline, and a stream of its own after a failed commit,
exactly when it rolls back after a failed commit before it goes on. -/
theorem streamDiscipline_iff (σ : Store) (calls : List (Env × Call)) :
    StreamDiscipline σ calls ↔ RollsBackFirst σ calls := by
  constructor
  · rintro h pre c mid d post rfl hfails hmid
    cases huses : d.2.usesStream d.1 with
    | false => rfl
    | true =>
      have hstale := Session.stale_of_failsCommit hfails (next_sessionAfter pre c)
      have hstale' : (sessionAfter σ (pre ++ [c] ++ mid)).Stale := hstale.sessionAfter hmid
      have hnot := hstale'.not_disciplined (next_sessionAfter _ d) huses
      have hall : (sessionAfter σ (pre ++ [c] ++ mid ++ [d] ++ post)).Disciplined := by
        rw [Session.Disciplined]
        simpa using h.streams
      exact absurd hall.of_sessionAfter hnot
  · intro h
    constructor
    · exact (h.sessionAfter calls [] (by simp)).1
    · rintro pre c mid env u post rfl hfails hmid
      refine observer_of_update ?_
      -- Some call in between rolls back, since the update uses a stream.
      have hrolls : ∃ m ∈ mid, RollsBack m := by
        by_contra hnone
        have huses := h pre c mid _ post rfl hfails fun m hm hr => hnone ⟨m, hm, hr⟩
        cases huses
      obtain ⟨m, hm, hr⟩ := hrolls
      obtain ⟨before, after, rfl⟩ := List.append_of_mem hm
      have hsplit : pre ++ c :: (before ++ m :: after) = (pre ++ c :: before) ++ m :: after := by
        simp
      rw [hsplit]
      exact observer_of_rollsBack hr fun m' hm' => hmid m' (by simp [hm'])

end Runs

/-- A query whose commit fails, and then the same query again. -/
def queryTwice : List (Env × Call) :=
  [(⟨true, true⟩, .operation (.update addOne)), (⟨true, false⟩, .operation (.query .getNamespaces)),
    (⟨true, true⟩, .operation (.query .getNamespaces))]

/-- The second query completes the stream that the first has completed. -/
theorem streamDiscipline_fails_after_failure :
    (sessionAfter Store.empty queryTwice).updateRequestObserver =
        some (addOne.requests.map .onNext ++ [.onCompleted, .onCompleted]) ∧
      ¬ StreamDiscipline Store.empty queryTwice := by
  have hobserver : (sessionAfter Store.empty queryTwice).updateRequestObserver =
      some (addOne.requests.map .onNext ++ [.onCompleted, .onCompleted]) := rfl
  refine ⟨hobserver, fun h => ?_⟩
  have hstream := h.streams _ (List.mem_append_right _ (Option.mem_toList.mpr hobserver))
  have hended := hstream (addOne.requests.map .onNext ++ [.onCompleted]) .onCompleted [] rfl
    (by simp)
  rw [Stream.ended_append] at hended
  simp [Stream.ended, StreamCall.ends] at hended

end CMarmotta.Client
