import CMarmotta.Client.ResponseStream

/-!
# The response stream is a list with a status

Of the messages that were requested and not yet returned there is one at a time: it is with the
transport, in the buffer or in `last`. So the buffer holds a message and the end mark at most
(`Sound.buffer_length`), and what the calls on a stream return is what they return on the list of the
messages (`responseStream_correct`).
-/

namespace CMarmotta.Client

/-! ## Iterating over a list -/

section Lists

variable {α : Type} {status : Status} {messages rest : List α} {calls : List IteratorCall}
  {outcomes : List (Outcome α)}

theorem listCalls_concat (h : listCalls status messages calls = (outcomes, rest))
    (c : IteratorCall) :
    listCalls status messages (calls ++ [c]) =
      (outcomes ++ [(listCall status rest c).1], (listCall status rest c).2) := by
  rw [listCalls, List.foldl_append, ← listCalls, h]
  rfl

/-- What the calls but the last one do, and what the last one adds to it. -/
theorem listCalls_concat_eq {c : IteratorCall}
    (h : listCalls status messages (calls ++ [c]) = (outcomes, rest)) :
    ∃ outcomes' rest', listCalls status messages calls = (outcomes', rest') ∧
      outcomes = outcomes' ++ [(listCall status rest' c).1] ∧
      rest = (listCall status rest' c).2 := by
  cases hcalls : listCalls status messages calls with
  | mk outcomes' rest' =>
    rw [listCalls_concat hcalls, Prod.mk.injEq] at h
    exact ⟨outcomes', rest', rfl, h.1.symm, h.2.symm⟩

theorem listCall_value (rest : List α) (c : IteratorCall) :
    (listCall status rest c).1.value?.toList ++ (listCall status rest c).2 = rest := by
  cases rest with
  | cons value rest => cases c <;> rfl
  | nil =>
    cases c <;> simp only [listCall] <;> split <;> rfl

/-- The elements returned and those that are left are the list. -/
theorem listCalls_values (h : listCalls status messages calls = (outcomes, rest)) :
    outcomes.filterMap Outcome.value? ++ rest = messages := by
  induction calls using List.reverseRecOn generalizing outcomes rest with
  | nil =>
    obtain ⟨rfl, rfl⟩ := Prod.mk.inj h
    rfl
  | append_singleton calls c ih =>
    obtain ⟨outcomes', rest', hcalls, rfl, rfl⟩ := listCalls_concat_eq h
    have hvalue : (listCall status rest' c).1.value?.toList ++ (listCall status rest' c).2 = rest' :=
      listCall_value rest' c
    have hfilter : List.filterMap Outcome.value? [(listCall status rest' c).1] =
        (listCall status rest' c).1.value?.toList := by
      rw [List.filterMap_cons, List.filterMap_nil]
      cases (listCall status rest' c).1.value? <;> rfl
    rw [List.filterMap_append, hfilter, List.append_assoc, hvalue]
    exact ih hcalls

/-- A call that says that there are no more elements has none left. -/
theorem listCalls_ends (h : listCalls status messages calls = (outcomes, rest))
    (hends : ∃ o ∈ outcomes, o.ends = true) : rest = [] := by
  induction calls using List.reverseRecOn generalizing outcomes rest with
  | nil =>
    obtain ⟨rfl, rfl⟩ := Prod.mk.inj h
    obtain ⟨o, ho, -⟩ := hends
    exact absurd ho List.not_mem_nil
  | append_singleton calls c ih =>
    obtain ⟨outcomes', rest', hcalls, rfl, rfl⟩ := listCalls_concat_eq h
    have hnil : rest' = [] := by
      obtain ⟨o, ho, hend⟩ := hends
      rcases List.mem_append.mp ho with ho | ho
      · exact ih hcalls ⟨o, ho, hend⟩
      · rw [List.mem_singleton.mp ho] at hend
        cases rest' with
        | nil => rfl
        | cons value rest => cases c <;> cases hend
    subst hnil
    cases c <;> rfl

theorem endMark_hasNext : (endMark status : Item α).hasNext = (listCall status [] .hasNext).1 := by
  by_cases hok : status.code = .OK <;> simp [endMark, listCall, Item.hasNext, hok]

theorem endMark_next? :
    (endMark status : Item α).next? = some (listCall status [] .next).1 := by
  by_cases hok : status.code = .OK <;> simp [endMark, listCall, Item.next?, hok]

theorem endMark_ne_message (value : α) : endMark status ≠ Item.message value := by
  unfold endMark
  split <;> simp

end Lists

/-! ## One step -/

namespace ResponseStream

variable {α : Type} {messages : List α} {status : Status} {s s' : ResponseStream α}

/-- The item in `last`, unless its message has been requested again and is being returned. -/
def held (s : ResponseStream α) : List (Item α) :=
  if s.consumer = .finish then [] else s.last.toList

/-- The message that is being returned. -/
def returning (s : ResponseStream α) : List α :=
  match s.consumer, s.last with
  | .finish, some (.message value) => [value]
  | _, _ => []

theorem held_of_ne (hc : s.consumer ≠ .finish) : s.held = s.last.toList := if_neg hc

theorem returning_of_ne (hc : s.consumer ≠ .finish) : s.returning = [] := by
  unfold returning
  split
  · rename_i hfinish _
    exact absurd hfinish hc
  · rfl

/-- The messages `ms` are those that wait in the buffer or in `last`, before the end mark. The calls
so far had the outcome that they have on the list of all messages, and one message at a time is
requested and not delivered, or waits. -/
structure Sound (messages : List α) (status : Status) (s : ResponseStream α) (ms : List α) :
    Prop where
  status_eq : s.status = status
  items : s.held ++ s.buffer = ms.map .message ++ if s.done then [endMark status] else []
  calls : listCalls status messages s.calls = (s.outcomes, s.returning ++ (ms ++ s.incoming))
  credit : s.requested + ms.length = s.delivered + 1
  granted : s.delivered ≤ s.requested
  closed : s.done = true → s.incoming = []
  room : s.overflow = false
  testing : ∀ c, s.consumer = .test c → s.last ≠ none
  message : s.consumer = .request ∨ s.consumer = .finish → ∃ value, s.last = some (.message value)
  reported : (∃ o ∈ s.outcomes, o.ends = true) → s.done = true

namespace Sound

variable {ms : List α}

theorem start (messages : List α) (status : Status) :
    (ResponseStream.start messages status).Sound messages status [] where
  status_eq := rfl
  items := rfl
  calls := rfl
  credit := rfl
  granted := Nat.zero_le 1
  closed h := by cases h
  room := rfl
  testing c h := by cases h
  message h := by rcases h with h | h <;> cases h
  reported := by
    rintro ⟨o, ho, -⟩
    exact absurd ho List.not_mem_nil

/-- Before the stream is closed the buffer holds the waiting messages at most. -/
theorem buffer_length (h : s.Sound messages status ms) (hdone : s.done = false) :
    s.buffer.length ≤ ms.length := by
  have hlength := congrArg List.length h.items
  rw [hdone] at hlength
  simp only [List.length_append, List.length_map, Bool.false_eq_true, if_false,
    List.length_nil] at hlength
  omega

/-- There is room in the buffer whenever the transport has something to add. -/
theorem buffer_lt (h : s.Sound messages status ms) (hdone : s.done = false) :
    s.buffer.length < 2 := by
  have hlength := h.buffer_length hdone
  have hcredit := h.credit
  have hgranted := h.granted
  omega

/-- What `last` holds comes first: a waiting message, or the end mark if none waits. -/
theorem last_cases (h : s.Sound messages status ms) (hc : s.consumer ≠ .finish) {x : Item α}
    (hlast : s.last = some x) :
    (∃ value ms', ms = value :: ms' ∧ x = .message value ∧
      s.buffer = ms'.map .message ++ if s.done then [endMark status] else []) ∨
    (ms = [] ∧ s.done = true ∧ s.incoming = [] ∧ x = endMark status ∧ s.buffer = []) := by
  have hitems := h.items
  rw [held_of_ne hc, hlast] at hitems
  cases ms with
  | cons value ms' =>
    obtain ⟨hx, hbuffer⟩ := List.cons.inj hitems
    exact Or.inl ⟨value, ms', rfl, hx, hbuffer⟩
  | nil =>
    cases hdone : s.done with
    | false =>
      rw [hdone] at hitems
      cases hitems
    | true =>
      rw [hdone] at hitems
      obtain ⟨hx, hbuffer⟩ := List.cons.inj hitems
      exact Or.inr ⟨rfl, rfl, h.closed hdone, hx, hbuffer⟩

theorem transport (h : s.Sound messages status ms) (hstep : Transport s s') :
    ∃ ms', s'.Sound messages status ms' := by
  cases hstep with
  | @onMessage value rest hdone hincoming hrequested _ =>
    have hcredit := h.credit
    refine ⟨ms ++ [value], h.status_eq, ?_, ?_, ?_, hrequested, ?_, h.room, h.testing, h.message,
      h.reported⟩
    · have hitems := h.items
      rw [hdone] at hitems ⊢
      rw [if_neg Bool.false_ne_true, List.append_nil] at hitems ⊢
      rw [List.map_append, ← hitems, List.append_assoc]
      rfl
    · have hcalls := h.calls
      rw [hincoming] at hcalls
      rw [List.append_assoc]
      exact hcalls
    · rw [List.length_append, List.length_singleton]
      show s.requested + (ms.length + 1) = s.delivered + 1 + 1
      omega
    · intro hdone'
      rw [show s.done = true from hdone'] at hdone
      cases hdone
  | onMessageFull hdone _ _ hfull =>
    have hroom := h.buffer_lt hdone
    omega
  | onClose hdone hincoming _ =>
    refine ⟨ms, h.status_eq, ?_, h.calls, h.credit, h.granted, fun _ => hincoming, h.room,
      h.testing, h.message, fun _ => rfl⟩
    have hitems := h.items
    rw [hdone, if_neg Bool.false_ne_true, List.append_nil] at hitems
    rw [if_pos rfl, ← hitems, ← h.status_eq, List.append_assoc]
    rfl
  | onCloseFull hdone _ hfull =>
    have hroom := h.buffer_lt hdone
    omega

/-- The iterating thread goes on without touching what waits. -/
theorem moves (h : s.Sound messages status ms) {k : Consumer} (hc : s.consumer ≠ .finish)
    (hk : k ≠ .finish) (htest : ∀ c, k = .test c → s.last ≠ none)
    (hmessage : k = .request → ∃ value, s.last = some (.message value)) :
    Sound messages status { s with consumer := k } ms := by
  have hitems := h.items
  have hcalls := h.calls
  rw [held_of_ne hc] at hitems
  rw [returning_of_ne hc] at hcalls
  refine ⟨h.status_eq, ?_, ?_, h.credit, h.granted, h.closed, h.room, htest, ?_, h.reported⟩
  · rw [held_of_ne hk]
    exact hitems
  · rw [returning_of_ne hk]
    exact hcalls
  · rintro (hrequest | hfinish)
    · exact hmessage hrequest
    · exact absurd hfinish hk

/-- A call that ends without returning a message leaves what waits. -/
theorem ends (h : s.Sound messages status ms) {c c' : IteratorCall} (hc : s.consumer = .test c)
    {o : Outcome α} (ho : listCall status (ms ++ s.incoming) c' = (o, ms ++ s.incoming))
    (hreported : o.ends = true → s.done = true) : (s.ends c' o).Sound messages status ms := by
  have hne : s.consumer ≠ .finish := by simp [hc]
  have hidle := h.moves (k := .idle) hne (by simp) (by simp) (by simp)
  refine ⟨h.status_eq, hidle.items, ?_, h.credit, h.granted, h.closed, h.room, nofun,
    hidle.message, ?_⟩
  · have hcalls := h.calls
    rw [returning_of_ne hne, List.nil_append] at hcalls
    have hconcat := listCalls_concat hcalls c'
    rw [ho] at hconcat
    exact hconcat
  · rintro ⟨o', ho', hend⟩
    rcases List.mem_append.mp ho' with ho' | ho'
    · exact h.reported ⟨o', ho', hend⟩
    · rw [List.mem_singleton.mp ho'] at hend
      exact hreported hend

/-- After `call.request(1)` the message in `last` no longer waits: it is being returned. -/
theorem requests (h : s.Sound messages status ms) (hc : s.consumer = .request) :
    ∃ ms', Sound messages status
      { s with
        requested := s.requested + 1
        consumer := .finish } ms' := by
  obtain ⟨value, hlast⟩ := h.message (Or.inl hc)
  have hne : s.consumer ≠ .finish := by simp [hc]
  rcases h.last_cases hne hlast with ⟨value', ms', rfl, hvalue, hbuffer⟩ | ⟨-, -, -, hmark, -⟩
  · obtain rfl := Item.message.inj hvalue
    have hcredit := h.credit
    rw [List.length_cons] at hcredit
    refine ⟨ms', h.status_eq, hbuffer, ?_, ?_, Nat.le_succ_of_le h.granted, h.closed, h.room,
      by simp, fun _ => ⟨value, hlast⟩, h.reported⟩
    · have hcalls := h.calls
      rw [returning_of_ne hne] at hcalls
      have hreturning : returning { s with
          requested := s.requested + 1
          consumer := .finish } = [value] := by
        rw [returning, hlast]
      rw [hreturning]
      exact hcalls
    · show s.requested + 1 + ms'.length = s.delivered + 1
      omega
  · exact absurd hmark.symm (endMark_ne_message value)

/-- `next` returns the message in `last`, which is the next one of the list. -/
theorem returns (h : s.Sound messages status ms) {value : α} (hc : s.consumer = .finish)
    (hlast : s.last = some (.message value)) :
    Sound messages status { s.ends .next (.value value) with last := none } ms := by
  have hitems := h.items
  have hcalls := h.calls
  rw [held, if_pos hc] at hitems
  rw [returning, hc, hlast] at hcalls
  refine ⟨h.status_eq, hitems, ?_, h.credit, h.granted, h.closed, h.room, nofun, ?_, ?_⟩
  · exact listCalls_concat hcalls .next
  · rintro (hrequest | hfinish)
    · cases hrequest
    · cases hfinish
  · rintro ⟨o, ho, hend⟩
    rcases List.mem_append.mp ho with ho | ho
    · exact h.reported ⟨o, ho, hend⟩
    · rw [List.mem_singleton.mp ho] at hend
      cases hend

theorem iterate (h : s.Sound messages status ms) (hstep : Iterate s s') :
    ∃ ms', s'.Sound messages status ms' := by
  cases hstep with
  | call c hc => exact ⟨ms, h.moves (by simp [hc]) (by simp) (by simp) (by simp)⟩
  | @keep c x hc hlast => exact ⟨ms, h.moves (by simp [hc]) (by simp) (by simp [hlast]) (by simp)⟩
  | @take c x rest hc hlast hbuffer =>
    have hmoves := h.moves (k := .take c) (by simp [hc]) (by simp) (by simp) (by simp)
    refine ⟨ms, h.status_eq, ?_, hmoves.calls, h.credit, h.granted, h.closed, h.room, by simp,
      by simp, h.reported⟩
    have hitems := h.items
    rw [held_of_ne (by simp [hc]), hlast, hbuffer] at hitems
    exact hitems
  | @hasNext x hc hlast =>
    refine ⟨ms, ?_⟩
    rcases h.last_cases (by simp [hc]) hlast with
      ⟨value, ms', rfl, rfl, -⟩ | ⟨rfl, hdone, hincoming, rfl, -⟩
    · refine h.ends hc rfl fun hend => ?_
      cases hend
    · refine h.ends hc ?_ fun _ => hdone
      rw [hincoming, endMark_hasNext]
      rfl
  | @nextThrows x o hc hlast ho =>
    rcases h.last_cases (by simp [hc]) hlast with
      ⟨value, ms', rfl, rfl, -⟩ | ⟨rfl, hdone, hincoming, rfl, -⟩
    · cases ho
    · rw [endMark_next?] at ho
      obtain rfl := Option.some.inj ho
      refine ⟨[], h.ends hc ?_ fun _ => hdone⟩
      rw [hincoming]
      rfl
  | @next value hc hlast =>
    exact ⟨ms, h.moves (by simp [hc]) (by simp) (by simp) fun _ => ⟨value, hlast⟩⟩
  | request hc => exact h.requests hc
  | @finish value hc hlast => exact ⟨ms, h.returns hc hlast⟩

/-- Every reachable state is sound. -/
theorem reaches (h : (ResponseStream.start messages status).Reaches s) :
    ∃ ms, s.Sound messages status ms := by
  induction h with
  | refl => exact ⟨[], Sound.start messages status⟩
  | tail _ hstep ih =>
    obtain ⟨ms, hms⟩ := ih
    rcases hstep with htransport | hiterate
    · exact hms.transport htransport
    · exact hms.iterate hiterate

/-! ## The end -/

/-- What has been returned and what is still there are the messages. -/
theorem returned_append (h : s.Sound messages status ms) :
    s.returned ++ (s.returning ++ (ms ++ s.incoming)) = messages :=
  listCalls_values h.calls

/-- A thread that waits gets a message, or the end mark. -/
theorem transport_of_waits (h : s.Sound messages status ms) (hwaits : s.Waits) :
    ∃ s', Transport s s' := by
  obtain ⟨⟨c, hc⟩, hlast, hbuffer⟩ := hwaits
  have hitems := h.items
  rw [held_of_ne (by simp [hc]), hlast, hbuffer] at hitems
  obtain ⟨hms, hmark⟩ := List.append_eq_nil_iff.mp hitems.symm
  have hdone : s.done = false := by
    cases hd : s.done with
    | false => rfl
    | true => simp [hd] at hmark
  have hroom := h.buffer_lt hdone
  cases hincoming : s.incoming with
  | nil => exact ⟨_, .onClose hdone hincoming hroom⟩
  | cons value rest =>
    have hcredit := h.credit
    rw [List.map_eq_nil_iff.mp hms, List.length_nil] at hcredit
    exact ⟨_, .onMessage hdone hincoming (by omega) hroom⟩

/-- When all messages are returned and the stream is closed, the end mark is all that is left. -/
theorem items_of_end (h : s.Sound messages status ms) (hdone : s.done = true)
    (hreturned : s.returned = messages) : s.held ++ s.buffer = [endMark status] := by
  have happend : messages ++ (s.returning ++ (ms ++ s.incoming)) = messages ++ [] := by
    rw [← hreturned, h.returned_append, List.append_nil, hreturned]
  obtain ⟨-, hrest⟩ := List.append_eq_nil_iff.mp (List.append_cancel_left happend)
  have hitems := h.items
  rw [(List.append_eq_nil_iff.mp hrest).1, hdone] at hitems
  exact hitems

theorem not_waits_of_end (h : s.Sound messages status ms) (hdone : s.done = true)
    (hreturned : s.returned = messages) : ¬ s.Waits := by
  rintro ⟨⟨c, hc⟩, hlast, hbuffer⟩
  have hitems := h.items_of_end hdone hreturned
  rw [held_of_ne (by simp [hc]), hlast, hbuffer] at hitems
  cases hitems

/-- Then `hasNext` finds the end mark in `last` or in the buffer, and needs nobody else. -/
theorem hasNext_of_end (h : s.Sound messages status ms) (hdone : s.done = true)
    (hreturned : s.returned = messages) (hidle : s.consumer = .idle) :
    ∃ s', Relation.ReflTransGen Iterate s s' ∧ s'.calls = s.calls ++ [.hasNext] ∧
      s'.outcomes = s.outcomes ++ [(listCall status [] .hasNext).1] := by
  have hitems := h.items_of_end hdone hreturned
  rw [held_of_ne (by simp [hidle])] at hitems
  rw [← endMark_hasNext]
  have hcall : Iterate s { s with consumer := .take .hasNext } := .call .hasNext hidle
  cases hlast : s.last with
  | some x =>
    rw [hlast] at hitems
    obtain rfl := (List.cons.inj hitems).1
    have hkeep : Iterate { s with consumer := .take .hasNext }
        { s with consumer := .test .hasNext } := .keep rfl hlast
    exact ⟨_, ((Relation.ReflTransGen.single hcall).tail hkeep).tail (.hasNext rfl hlast), rfl, rfl⟩
  | none =>
    rw [hlast] at hitems
    have htake : Iterate { s with consumer := .take .hasNext }
        { s with
          buffer := []
          last := some (endMark status)
          consumer := .test .hasNext } := .take rfl hlast hitems
    exact ⟨_, ((Relation.ReflTransGen.single hcall).tail htake).tail (.hasNext rfl rfl), rfl, rfl⟩

end Sound

end ResponseStream

open ResponseStream

/-- In every state that a stream reaches, whatever the order of the steps: the buffer has room when
the transport has something to add; the calls have had the outcomes that they have on the list of the
messages, so the elements returned are the first ones, in order; a thread that waits is given
something; a call that says that there are no more elements is right; and once the stream is closed
and all messages are returned, the thread never waits, and `hasNext` ends by steps of its own, with
false or with the error of the server. -/
theorem responseStream_correct {α : Type} {messages : List α} {status : Status}
    {s : ResponseStream α} (h : (start messages status).Reaches s) :
    s.overflow = false ∧ (∀ s', Transport s s' → s.buffer.length < 2) ∧
    s.outcomes = (listCalls status messages s.calls).1 ∧ s.returned <+: messages ∧
    (s.Waits → ∃ s', Transport s s') ∧
    ((∃ o ∈ s.outcomes, o.ends = true) → s.done = true ∧ s.returned = messages) ∧
    (s.done = true → s.returned = messages → ¬ s.Waits ∧
      (s.consumer = .idle → ∃ s', Relation.ReflTransGen Iterate s s' ∧
        s'.calls = s.calls ++ [.hasNext] ∧ s'.outcomes = s.outcomes ++
          [if status.code = .OK then .answer false else .sailException status])) := by
  obtain ⟨ms, hms⟩ := Sound.reaches h
  refine ⟨hms.room, fun s' hstep => ?_, ?_, ⟨_, hms.returned_append⟩, hms.transport_of_waits,
    fun hends => ⟨hms.reported hends, ?_⟩, fun hdone hreturned =>
      ⟨hms.not_waits_of_end hdone hreturned, hms.hasNext_of_end hdone hreturned⟩⟩
  · cases hstep with
    | onMessage _ _ _ hroom => exact hroom
    | onClose _ _ hroom => exact hroom
    | onMessageFull hdone _ _ _ => exact hms.buffer_lt hdone
    | onCloseFull hdone _ _ => exact hms.buffer_lt hdone
  · rw [hms.calls]
  · have happend := hms.returned_append
    rw [listCalls_ends hms.calls hends, List.append_nil] at happend
    exact happend

/-- Both places of the buffer are taken: by a message and, since the server has closed the stream, by
the end mark. -/
def delivered : ResponseStream String :=
  { start [] ⟨.OK, ""⟩ with
    delivered := 1
    buffer := [.message "a", .self]
    done := true }

theorem responseStream_correct_of_delivered :
    (start ["a"] ⟨.OK, ""⟩).Reaches delivered ∧ delivered.overflow = false ∧
      delivered.returned <+: ["a"] := by
  have hmessage : Step (start ["a"] ⟨.OK, ""⟩)
      { start [] ⟨.OK, ""⟩ with
        delivered := 1
        buffer := [.message "a"] } := Or.inl (.onMessage rfl rfl (by decide) (by decide))
  have hclose : Step
      { start [] ⟨.OK, ""⟩ with
        delivered := 1
        buffer := [.message "a"] } delivered := Or.inl (.onClose rfl rfl (by decide))
  have hreach : (start ["a"] ⟨.OK, ""⟩).Reaches delivered :=
    (Relation.ReflTransGen.single hmessage).tail hclose
  have hcorrect := responseStream_correct hreach
  exact ⟨hreach, hcorrect.1, hcorrect.2.2.2.1⟩

end CMarmotta.Client
