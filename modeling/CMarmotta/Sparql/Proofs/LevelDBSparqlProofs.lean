import CMarmotta.Sparql.LevelDBSparql
import CMarmotta.Persistence.Proofs.QueryProofs

/-!
# The iterator over the statements of a query

The outer iterator shows the statements of the inner one, whatever the order of the calls, once its
flag tells whether its statement is the one the inner iterator stands at (`Synced`). Every increment
makes the flag tell so; before the first one it has the value found in memory
(`wrapProtoStatementIterator_view_iff`).
-/

namespace CMarmotta

namespace WrapProtoStatementIterator

variable {codec : Codec Statement} {w : WrapProtoStatementIterator} {statements : List Statement}

/-! ## What the iterators know of each other -/

/-- The inner iterator has the statements still to come, and its flag is not set. -/
structure Over (codec : Codec Statement) (w : WrapProtoStatementIterator)
    (statements : List Statement) : Prop where
  values : w.it.values.map codec.parse = statements
  unparsed : w.it.parsed = false

/-- If the flag of the outer iterator is set, its statement is the current one. -/
structure Synced (codec : Codec Statement) (w : WrapProtoStatementIterator)
    (statements : List Statement) : Prop extends Over codec w statements where
  current : w.parsed = true → ∀ st ∈ statements.head?, w.current = st

theorem Over.hasNext (h : Over codec w statements) : w.hasNext = !statements.isEmpty := by
  rw [← h.values]
  simp [WrapProtoStatementIterator.hasNext, LevelDBIterator.hasNext]

/-- An increment goes to the next statement and leaves the iterators in step. -/
theorem Over.increment {st : Statement} {rest : List Statement}
    (h : Over codec w (st :: rest)) :
    ∃ w', w.increment = some w' ∧ Synced codec w' rest := by
  obtain ⟨⟨values, proto, flag⟩, current, parsed⟩ := w
  obtain ⟨hvalues, hflag⟩ := h
  cases values with
  | nil => cases hvalues
  | cons value values =>
    have hrest : values.map codec.parse = rest := (List.cons.inj hvalues).2
    exact ⟨_, rfl, ⟨hrest, rfl⟩, fun hparsed => absurd hparsed Bool.false_ne_true⟩

/-- Dereferencing shows the current statement. The statement that was shown before goes into the
buffer of the inner iterator, which is parsed anew at the next position. -/
theorem Synced.deref {st : Statement} {rest : List Statement}
    (h : Synced codec w (st :: rest)) :
    ∃ w', w.deref codec = some w' ∧ w'.current = st ∧
      Synced codec w' (st :: rest) := by
  obtain ⟨⟨values, proto, flag⟩, current, parsed⟩ := w
  obtain ⟨⟨hvalues, hflag⟩, hcurrent⟩ := h
  cases parsed with
  | true => exact ⟨_, rfl, hcurrent rfl st rfl, ⟨hvalues, hflag⟩, hcurrent⟩
  | false =>
    cases values with
    | nil => cases hvalues
    | cons value values =>
      have hst : codec.parse value = st := (List.cons.inj hvalues).1
      have hinner : LevelDBIterator.deref codec ⟨value :: values, proto, flag⟩ =
          some ⟨value :: values, codec.parse value, flag⟩ := by
        rw [LevelDBIterator.deref, if_neg (by simp [show flag = false from hflag])]
      refine ⟨⟨⟨value :: values, current, flag⟩, codec.parse value, true⟩, ?_, hst,
        ⟨hvalues, hflag⟩, fun _ st' hst' => ?_⟩
      · rw [WrapProtoStatementIterator.deref, if_neg Bool.false_ne_true, hinner]
        rfl
      · exact hst.trans (Option.some.inj hst')

/-- `operator->` is `operator*`, for the iterators and for the list. -/
theorem viewCall_arrow (statements : List Statement) :
    viewCall statements .arrow = viewCall statements .deref := by
  cases statements with
  | nil => rfl
  | cons st rest => rfl

theorem Synced.call_deref {a : IteratorAnswer} {statements' : List Statement}
    (h : Synced codec w statements) (hview : viewCall statements .deref = some (a, statements')) :
    ∃ w', w.call codec .deref = some (a, w') ∧ Synced codec w' statements' := by
  cases statements with
  | nil => cases hview
  | cons st rest =>
    obtain ⟨rfl, rfl⟩ := Prod.mk.inj (Option.some.inj hview)
    obtain ⟨w', hderef, hst, h'⟩ := h.deref
    exact ⟨w', by rw [WrapProtoStatementIterator.call, hderef, Option.map_some, hst], h'⟩

/-- One call of iterators in step is answered as by the list of statements. -/
theorem Synced.call_spec {c : IteratorCall} {a : IteratorAnswer} {statements' : List Statement}
    (h : Synced codec w statements) (hview : viewCall statements c = some (a, statements')) :
    ∃ w', w.call codec c = some (a, w') ∧ Synced codec w' statements' := by
  cases c with
  | hasNext =>
    obtain ⟨rfl, rfl⟩ := Prod.mk.inj (Option.some.inj hview)
    exact ⟨w, by rw [WrapProtoStatementIterator.call, h.toOver.hasNext], h⟩
  | deref => exact h.call_deref hview
  | arrow =>
    rw [viewCall_arrow] at hview
    exact h.call_deref hview
  | increment =>
    cases statements with
    | nil => cases hview
    | cons st rest =>
      obtain ⟨rfl, rfl⟩ := Prod.mk.inj (Option.some.inj hview)
      obtain ⟨w', hincr, h'⟩ := h.toOver.increment
      exact ⟨w', by rw [WrapProtoStatementIterator.call, hincr, Option.map_some], h'⟩

/-! ## Sequences of calls -/

theorem runCalls_cons_iff {S : Type} {call : S → IteratorCall → Option (IteratorAnswer × S)} {s : S}
    {c : IteratorCall} {calls : List IteratorCall} {as : List IteratorAnswer} :
    runCalls call s (c :: calls) = some as ↔
      ∃ a s' as', call s c = some (a, s') ∧ runCalls call s' calls = some as' ∧ as = a :: as' := by
  rw [runCalls]
  show (call s c).bind _ = some as ↔ _
  rw [Option.bind_eq_some_iff]
  constructor
  · rintro ⟨⟨a, s'⟩, hcall, hrest⟩
    obtain ⟨as', hrun, has⟩ := Option.bind_eq_some_iff.mp hrest
    exact ⟨a, s', as', hcall, hrun, (Option.some.inj has).symm⟩
  · rintro ⟨a, s', as', hcall, hrun, rfl⟩
    exact ⟨(a, s'), hcall, Option.bind_eq_some_iff.mpr ⟨as', hrun, rfl⟩⟩

/-- Iterators in step answer every sequence of calls as the list of statements does. -/
theorem Synced.runCalls_eq {calls : List IteratorCall} {as : List IteratorAnswer}
    (h : Synced codec w statements) (hview : runCalls viewCall statements calls = some as) :
    runCalls (call codec) w calls = some as := by
  induction calls generalizing w statements as with
  | nil => exact hview
  | cons c calls ih =>
    obtain ⟨a, statements', as', hc, hrest, rfl⟩ := runCalls_cons_iff.mp hview
    obtain ⟨w', hw, h'⟩ := h.call_spec hc
    exact runCalls_cons_iff.mpr ⟨a, w', as', hw, ih h' hrest, rfl⟩

/-- Some statement is looked at before the first increment. -/
def looksFirst : List IteratorCall → Bool
  | [] => false
  | .deref :: _ => true
  | .arrow :: _ => true
  | .increment :: _ => false
  | .hasNext :: calls => looksFirst calls

/-- If no statement is looked at before the first increment, the flag does not matter. -/
theorem Over.runCalls_eq {calls : List IteratorCall} {as : List IteratorAnswer}
    (h : Over codec w statements) (hcalls : looksFirst calls = false)
    (hview : runCalls viewCall statements calls = some as) :
    runCalls (call codec) w calls = some as := by
  induction calls generalizing as with
  | nil => exact hview
  | cons c calls ih =>
    obtain ⟨a, statements', as', hc, hrest, rfl⟩ := runCalls_cons_iff.mp hview
    rw [runCalls_cons_iff]
    cases c with
    | hasNext =>
      obtain ⟨rfl, rfl⟩ := Prod.mk.inj (Option.some.inj hc)
      exact ⟨_, w, as', by rw [call, h.hasNext], ih hcalls hrest, rfl⟩
    | deref => cases hcalls
    | arrow => cases hcalls
    | increment =>
      cases statements with
      | nil => cases hc
      | cons st rest =>
        obtain ⟨rfl, rfl⟩ := Prod.mk.inj (Option.some.inj hc)
        obtain ⟨w', hincr, h'⟩ := h.increment
        exact ⟨_, w', as', by rw [call, hincr, Option.map_some], h'.runCalls_eq hrest, rfl⟩

/-- With the flag set, the statement in the outer iterator is shown. -/
theorem head_of_deref {a : IteratorAnswer} {statements' : List Statement}
    {w' : WrapProtoStatementIterator} (hparsed : w.parsed = true)
    (hview : viewCall statements .deref = some (a, statements'))
    (hcall : w.call codec .deref = some (a, w')) : statements.head? = some w.current := by
  have hderef : w.deref codec = some w := if_pos hparsed
  cases statements with
  | nil => cases hview
  | cons st rest =>
    rw [call, hderef] at hcall
    obtain ⟨rfl, -⟩ := Prod.mk.inj (Option.some.inj hview)
    obtain ⟨hst, -⟩ := Prod.mk.inj (Option.some.inj hcall)
    exact congrArg some (IteratorAnswer.statement.inj hst).symm

/-- If the flag is set at the start, the first statement looked at is the one in the outer
iterator. -/
theorem head_of_runCalls {calls : List IteratorCall} {as : List IteratorAnswer}
    (hparsed : w.parsed = true) (hcalls : looksFirst calls = true)
    (hview : runCalls viewCall statements calls = some as)
    (hanswers : runCalls (call codec) w calls = some as) :
    statements.head? = some w.current := by
  induction calls generalizing as with
  | nil => cases hcalls
  | cons c calls ih =>
    obtain ⟨a, statements', as', hc, hrest, rfl⟩ := runCalls_cons_iff.mp hview
    obtain ⟨a', w', as'', hw, hrest', heq⟩ := runCalls_cons_iff.mp hanswers
    obtain ⟨rfl, rfl⟩ := List.cons.inj heq
    cases c with
    | hasNext =>
      obtain ⟨-, rfl⟩ := Prod.mk.inj (Option.some.inj hc)
      obtain ⟨-, rfl⟩ := Prod.mk.inj (Option.some.inj hw)
      exact ih hcalls hrest hrest'
    | increment => cases hcalls
    | deref => exact head_of_deref hparsed hc hw
    | arrow =>
      rw [viewCall_arrow] at hc
      exact head_of_deref hparsed hc hw

end WrapProtoStatementIterator

open WrapProtoStatementIterator

/-- For every sequence of calls that the underlying iterator allows, the iterator over it answers as
the sequence of its statements does, if and only if the memory it is built in reads false in the
place of the flag, or no statement is looked at before the first increment, or the first statement
is the empty message. -/
theorem wrapProtoStatementIterator_view_iff (codec : Codec Statement) (values : List Bytes)
    (memory : Bool) {calls : List IteratorCall} {as : List IteratorAnswer}
    (hview : runCalls viewCall (values.map codec.parse) calls = some as) :
    runCalls (WrapProtoStatementIterator.call codec) (.new (.new {} values) memory) calls =
        some as ↔
      memory = false ∨ looksFirst calls = false ∨ (values.map codec.parse).head? = some {} := by
  have hover : Over codec (.new (.new {} values) memory) (values.map codec.parse) := ⟨rfl, rfl⟩
  constructor
  · intro h
    cases hm : memory with
    | false => exact Or.inl rfl
    | true =>
      refine Or.inr ?_
      cases hlook : looksFirst calls with
      | false => exact Or.inl rfl
      | true => exact Or.inr (head_of_runCalls (hm : memory = true) hlook hview h)
  · rintro (hm | hlook | hhead)
    · refine Synced.runCalls_eq ⟨hover, fun hparsed => ?_⟩ hview
      exact absurd (hm.symm.trans hparsed) Bool.false_ne_true
    · exact hover.runCalls_eq hlook hview
    · refine Synced.runCalls_eq ⟨hover, fun _ st hst => ?_⟩ hview
      exact Option.some.inj (hhead.symm.trans hst)

/-- Two looks at the first of two statements, and one at the second, with the flag not set. -/
theorem wrapProtoStatementIterator_two_statements :
    let values := [Statement.ofUris "s" "p" "o", Statement.ofUris "s" "p" "q"].map
      X64.statementCodec.serialize
    runCalls (WrapProtoStatementIterator.call X64.statementCodec) (.new (.new {} values) false)
        [.hasNext, .deref, .arrow, .increment, .deref, .increment, .hasNext] =
      some [.hasNext true, .statement (.ofUris "s" "p" "o"), .statement (.ofUris "s" "p" "o"),
        .incremented, .statement (.ofUris "s" "p" "q"), .incremented, .hasNext false] := by
  intro values
  have hvalues : values.map X64.statementCodec.parse =
      [Statement.ofUris "s" "p" "o", Statement.ofUris "s" "p" "q"] := by
    simp [values, X64.statementCodec.parse_serialize]
  refine (wrapProtoStatementIterator_view_iff X64.statementCodec values false ?_).mpr (Or.inl rfl)
  rw [hvalues]
  rfl

/-- With the flag set in memory the first look finds an empty statement. -/
theorem wrapProtoStatementIterator_stale_flag :
    let values := [X64.statementCodec.serialize (Statement.ofUris "s" "p" "o")]
    runCalls viewCall (values.map X64.statementCodec.parse) [.hasNext, .deref] =
        some [.hasNext true, .statement (.ofUris "s" "p" "o")] ∧
      runCalls (WrapProtoStatementIterator.call X64.statementCodec) (.new (.new {} values) true)
        [.hasNext, .deref] = some [.hasNext true, .statement {}] ∧
      Statement.ofUris "s" "p" "o" ≠ {} := by
  intro values
  have hvalues : values.map X64.statementCodec.parse = [Statement.ofUris "s" "p" "o"] := by
    simp [values, X64.statementCodec.parse_serialize]
  refine ⟨?_, rfl, by decide⟩
  rw [hvalues]
  rfl

/-! ## The triple source -/

namespace WrapProtoStatementIterator

variable {codec : Codec Statement} {w : WrapProtoStatementIterator} {st : Statement}
  {statements rest : List Statement}

/-- A loop over iterators in step looks at the statements. -/
theorem Synced.loop_eq (h : Synced codec w statements) :
    w.loop codec (statements.length + 1) = some statements := by
  induction statements generalizing w with
  | nil => rw [loop, h.toOver.hasNext, if_neg (by simp)]
  | cons st rest ih =>
    obtain ⟨w', hderef, hst, h'⟩ := h.deref
    obtain ⟨w'', hincrement, h''⟩ := h'.toOver.increment
    rw [List.length_cons, loop, h.toOver.hasNext, if_pos (by simp), hderef]
    simp only [bind, Option.bind, hincrement, ih h'', hst]

/-- With the flag set at the start, the statement in the outer iterator stands in the place of the
first one. -/
theorem Over.loop_eq_of_parsed (h : Over codec w (st :: rest)) (hparsed : w.parsed = true) :
    w.loop codec (rest.length + 2) = some (w.current :: rest) := by
  have hderef : w.deref codec = some w := if_pos hparsed
  obtain ⟨w', hincrement, h'⟩ := h.increment
  rw [loop, h.hasNext, if_pos (by simp), hderef]
  simp only [bind, Option.bind, hincrement, h'.loop_eq]

/-- The same for any sequence of calls. -/
theorem Over.runCalls_eq_of_parsed {calls : List IteratorCall} {as : List IteratorAnswer}
    (h : Over codec w (st :: rest)) (hparsed : w.parsed = true)
    (hview : runCalls viewCall (w.current :: rest) calls = some as) :
    runCalls (call codec) w calls = some as := by
  have hderef : w.deref codec = some w := if_pos hparsed
  induction calls generalizing as with
  | nil => exact hview
  | cons c calls ih =>
    obtain ⟨a, statements', as', hc, hrest, rfl⟩ := runCalls_cons_iff.mp hview
    rw [runCalls_cons_iff]
    cases c with
    | hasNext =>
      obtain ⟨rfl, rfl⟩ := Prod.mk.inj (Option.some.inj hc)
      exact ⟨_, w, as', by rw [call, h.hasNext]; rfl, ih hrest, rfl⟩
    | deref =>
      obtain ⟨rfl, rfl⟩ := Prod.mk.inj (Option.some.inj hc)
      exact ⟨_, w, as', by rw [call, hderef]; rfl, ih hrest, rfl⟩
    | arrow =>
      obtain ⟨rfl, rfl⟩ := Prod.mk.inj (Option.some.inj hc)
      exact ⟨_, w, as', by rw [call, hderef]; rfl, ih hrest, rfl⟩
    | increment =>
      obtain ⟨rfl, rfl⟩ := Prod.mk.inj (Option.some.inj hc)
      obtain ⟨w', hincrement, h'⟩ := h.increment
      exact ⟨_, w', as', by rw [call, hincrement]; rfl, h'.runCalls_eq hrest, rfl⟩

end WrapProtoStatementIterator

namespace LevelDBTripleSource

section Source

variable [Platform] (σ : Store) (args : Arguments)

/-- The iterator of the triple source is over the statements of the query. -/
theorem iterator_over (memory : Bool) :
    Over Platform.statementCodec (iterator σ args memory)
      (CMarmotta.getStatements σ args.pattern) := by
  refine ⟨?_, rfl⟩
  show (List.map Prod.snd _).map _ = CMarmotta.getStatements σ args.pattern
  rw [List.map_map]
  rfl

theorem length_values_iterator (memory : Bool) :
    (iterator σ args memory).it.values.length = (CMarmotta.getStatements σ args.pattern).length := by
  rw [← (iterator_over σ args memory).values, List.length_map]

variable {args} {memory : Arguments → Bool}

/-- If the memory reads false in the place of the flag, the source shows the statements of the
query. -/
theorem getStatements_of_unset (h : memory args = false) :
    (LevelDBTripleSource σ memory).getStatements args = CMarmotta.getStatements σ args.pattern := by
  have hsynced : Synced Platform.statementCodec (iterator σ args (memory args))
      (CMarmotta.getStatements σ args.pattern) :=
    ⟨iterator_over σ args _, fun hparsed => absurd (h.symm.trans hparsed) Bool.false_ne_true⟩
  show Option.getD _ [] = _
  rw [length_values_iterator, hsynced.loop_eq, Option.getD_some]

/-- Otherwise an empty statement stands in the place of the first one. -/
theorem getStatements_of_set (h : memory args = true) {st : Statement} {rest : List Statement}
    (hstored : CMarmotta.getStatements σ args.pattern = st :: rest) :
    (LevelDBTripleSource σ memory).getStatements args = {} :: rest := by
  have hover := iterator_over σ args (memory args)
  rw [hstored] at hover
  show Option.getD _ [] = _
  rw [length_values_iterator, hstored, List.length_cons, hover.loop_eq_of_parsed h]
  rfl

theorem getStatements_eq_nil_iff :
    (LevelDBTripleSource σ memory).getStatements args = [] ↔
      CMarmotta.getStatements σ args.pattern = [] := by
  cases hmemory : memory args with
  | false => rw [getStatements_of_unset σ hmemory]
  | true =>
    cases hstored : CMarmotta.getStatements σ args.pattern with
    | cons st rest => simp [getStatements_of_set σ hmemory hstored]
    | nil =>
      have hover := iterator_over σ args (memory args)
      rw [hstored] at hover
      have hsynced : Synced Platform.statementCodec (iterator σ args (memory args)) [] :=
        ⟨hover, fun _ _ h => by cases h⟩
      refine iff_of_true ?_ rfl
      show Option.getD _ [] = _
      rw [length_values_iterator, hstored, hsynced.loop_eq, Option.getD_some]

/-- The iterator answers every sequence of calls as the statements do that the source shows. -/
theorem iterator_answers {calls : List IteratorCall} {as : List IteratorAnswer}
    (hview : runCalls viewCall ((LevelDBTripleSource σ memory).getStatements args) calls =
      some as) :
    runCalls (WrapProtoStatementIterator.call Platform.statementCodec)
      (iterator σ args (memory args)) calls = some as := by
  have hover := iterator_over σ args (memory args)
  cases hmemory : memory args with
  | false =>
    rw [getStatements_of_unset σ hmemory] at hview
    rw [hmemory] at hover
    exact Synced.runCalls_eq ⟨hover, fun hparsed => absurd hparsed Bool.false_ne_true⟩ hview
  | true =>
    rw [hmemory] at hover
    cases hstored : CMarmotta.getStatements σ args.pattern with
    | nil =>
      rw [(getStatements_eq_nil_iff σ).mpr hstored] at hview
      rw [hstored] at hover
      exact Synced.runCalls_eq ⟨hover, fun _ _ h => by cases h⟩ hview
    | cons st rest =>
      rw [getStatements_of_set σ hmemory hstored] at hview
      rw [hstored] at hover
      exact hover.runCalls_eq_of_parsed rfl hview

/-- The persistence layer has a statement for the arguments exactly if it delivers one. -/
theorem coherent (memory : Arguments → Bool) : (LevelDBTripleSource σ memory).Coherent := by
  intro args
  rw [ne_eq, getStatements_eq_nil_iff]
  show LevelDBTripleSource.hasStatement σ args = true ↔ ¬ CMarmotta.getStatements σ args.pattern = []
  unfold LevelDBTripleSource.hasStatement
  cases CMarmotta.getStatements σ args.pattern <;> simp [forEach]

/-- Over well-formed statements the persistence layer delivers each statement that matches the
arguments once and no other, for arguments whose hashes do not collide and that the key range of one
index covers: not for a subject and an object without a predicate, and not for an object and a
context without a subject. -/
theorem exact_of_onlyLeading {σ : Store} {S : Finset Statement} (hS : σ.Represents S)
    (hwf : ∀ st ∈ S, st.WellFormed) (hmemory : memory args = false)
    (hcf : CollisionFreePattern args.pattern S.toList) (hlead : args.pattern.onlyLeading = true)
    (hctx : args.pattern.context ≠ some .notSet) :
    ((LevelDBTripleSource σ memory).getStatements args).Nodup ∧
      ∀ st, st ∈ (LevelDBTripleSource σ memory).getStatements args ↔
        st ∈ S ∧ st.Agrees args.pattern := by
  rw [getStatements_of_unset σ hmemory]
  refine ⟨hS.nodup_getStatements args.pattern, fun st => hS.mem_getStatements.trans ?_⟩
  refine and_congr_right fun hst => ⟨fun hsel => ?_, fun hagree => ?_⟩
  · exact agrees_of_selects (hwf st hst) hcf (Finset.mem_toList.mpr hst) hsel hlead hctx
  · exact selects_of_part_eq fun pos _ m hm => part_of_mem_part? hagree hm

end Source

end LevelDBTripleSource

end CMarmotta
