import CMarmotta.Serializer.SerializerProto
import CMarmotta.Lib.Proofs.WireProofs

/-!
# Round trip of the binary format

However often a serializer is used, and for whatever streams, each stream holds one message with the
statements written to it, in their order, and what is left of a stream that was cut off is no message
or holds the first of them (`performAll_parse`).
-/

namespace CMarmotta

open Platform

namespace Statements

variable [Platform]

theorem serialize_append (l l' : Statements) :
    serialize (l ++ l') = l.serialize ++ l'.serialize := by
  rw [serialize, List.map_append, Wire.encodeFields_append]
  rfl

/-- The elements of the repeated field. -/
theorem parse_fields (l : Statements) :
    ((l.map fun stmt => (statementField, statementCodec.serialize stmt)).filter fun f =>
      f.1 == statementField).map (fun f => statementCodec.parse f.2) = l := by
  simp [List.filter_map, Function.comp_def, statementCodec.parse_serialize]

theorem parse_serialize (l : Statements) : parse l.serialize = some l := by
  rw [parse, serialize, Wire.decodeFields_encodeFields, Option.map_some, parse_fields]

theorem parse_of_prefix {l l' : Statements} {input : Bytes} (h : input <+: l.serialize)
    (hparse : parse input = some l') : l' <+: l := by
  obtain ⟨fields, hfields, hl'⟩ := Option.map_eq_some_iff.mp hparse
  have hfirst := Wire.decodeFields_of_prefix h hfields
  rw [← hl', ← parse_fields l]
  exact (hfirst.filter _).map _

end Statements

namespace ProtoSerializer

variable {ι : Type}

theorem foldl_serialize (s : ProtoSerializer ι) (it : List Statement) :
    it.foldl serialize s = { s with stmts := s.stmts ++ it } := by
  induction it generalizing s with
  | nil => simp
  | cons stmt it ih =>
    rw [List.foldl_cons, ih]
    simp [serialize]

variable [Platform] [DecidableEq ι]

/-- A call leaves the serializer as it was made, and appends to its stream only. -/
theorem perform_eq (streams : ι → Bytes) (job : Job ι) :
    (perform {} streams job).1 = {} ∧
      ∀ i, (perform {} streams job).2 i = streams i ++ Statements.serialize (job.statementsFor i) := by
  have hwrite : ∀ (out : ι) (l : Statements) (i : ι),
      Function.update streams out (streams out ++ l.serialize) i =
        streams i ++ Statements.serialize (if out = i then l else []) := by
    intro out l i
    by_cases h : out = i
    · subst h
      rw [Function.update_self, if_pos rfl]
    · rw [Function.update_of_ne (Ne.symm h), if_neg h]
      exact (List.append_nil _).symm
  cases job with
  | one stmt out =>
    refine ⟨rfl, fun i => ?_⟩
    rw [perform, serialize, Merge.merge_empty]
    exact hwrite out [stmt] i
  | all it out =>
    rw [perform, foldl_serialize]
    exact ⟨rfl, hwrite out it⟩

theorem performAll_eq (streams : ι → Bytes) (jobs : List (Job ι)) (i : ι) :
    performAll {} streams jobs i =
      streams i ++ Statements.serialize (jobs.flatMap (Job.statementsFor i)) := by
  induction jobs generalizing streams with
  | nil => exact (List.append_nil _).symm
  | cons job jobs ih =>
    obtain ⟨hnew, hstreams⟩ := perform_eq streams job
    simp only [performAll]
    rw [hnew, ih, hstreams, List.append_assoc, ← Statements.serialize_append, List.flatMap_cons]

/-- Whatever calls a serializer is used for, each stream is read back as the statements that were
written to it, one call after another, and a stream that is cut off is not read or as the first of
them. -/
theorem performAll_parse (jobs : List (Job ι)) (i : ι) :
    Statements.parse (performAll {} (fun _ => []) jobs i) =
        some (jobs.flatMap (Job.statementsFor i)) ∧
      ∀ n l, Statements.parse ((performAll {} (fun _ => []) jobs i).take n) = some l →
        l <+: jobs.flatMap (Job.statementsFor i) := by
  rw [performAll_eq, List.nil_append]
  refine ⟨Statements.parse_serialize _, fun n l hparse => ?_⟩
  exact Statements.parse_of_prefix (List.take_prefix n _) hparse

end ProtoSerializer

end CMarmotta
