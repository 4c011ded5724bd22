import CMarmotta.Model.Classes
import CMarmotta.Model.Platform

/-!
# `serializer/serializer_proto.cc`: statements in the binary format

The serializer collects statements in a message `Statements`, and `close` writes the message to the
stream that `prepare` was given. One serializer may be used any number of times, for the same stream
or for different ones. The message has the documented wire format of protobuf, which repeats the
number of a repeated field before each of its elements; how a statement is encoded is up to the
platform.
-/

namespace CMarmotta

/-- `message Statements`: one repeated field. -/
abbrev Statements := List Statement

namespace Statements

variable [Platform]

open Platform

/-- The number of the field `statement`. -/
def statementField : Nat := 1

/-- `SerializeToCodedStream`: the bytes it writes. -/
def serialize (message : Statements) : Bytes :=
  Wire.encodeFields (message.map fun stmt => (statementField, statementCodec.serialize stmt))

/-- `ParseFromString`, if it succeeds. -/
def parse (input : Bytes) : Option Statements :=
  (Wire.decodeFields input).map fun fields =>
    (fields.filter fun f => f.1 == statementField).map fun f => statementCodec.parse f.2

end Statements

/-- `class ProtoSerializer`: the stream of `out_`, one of those that `ι` names, and the statements
that wait for `close`. -/
structure ProtoSerializer (ι : Type) where
  out : Option ι := none
  stmts : Statements := []

namespace ProtoSerializer

variable {ι : Type}

/-- `ProtoSerializer::prepare`. -/
def prepare (s : ProtoSerializer ι) (out : ι) : ProtoSerializer ι := { s with out := some out }

/-- `ProtoSerializer::serialize`: the statement is merged into a new element. -/
def serialize (s : ProtoSerializer ι) (stmt : Statement) : ProtoSerializer ι :=
  { s with stmts := s.stmts ++ [Merge.merge Merge.empty stmt] }

variable [Platform] [DecidableEq ι]

/-- `ProtoSerializer::close` in the format `PROTO`. -/
def close (s : ProtoSerializer ι) (streams : ι → Bytes) : ProtoSerializer ι × (ι → Bytes) :=
  match s.out with
  | some i => ({}, Function.update streams i (streams i ++ s.stmts.serialize))
  | none => ({}, streams)

/-- The calls of `SerializerBase::serialize`, with one statement and with an iterator. -/
inductive Job (ι : Type) where
  | one (stmt : Statement) (out : ι)
  | all (it : List Statement) (out : ι)

/-- `SerializerBase::serialize`. -/
def perform (s : ProtoSerializer ι) (streams : ι → Bytes) :
    Job ι → ProtoSerializer ι × (ι → Bytes)
  | .one stmt out => ((s.prepare out).serialize stmt).close streams
  | .all it out => (it.foldl serialize (s.prepare out)).close streams

/-- What the streams hold after some calls, one after another. -/
def performAll (s : ProtoSerializer ι) (streams : ι → Bytes) : List (Job ι) → ι → Bytes
  | [] => streams
  | job :: jobs =>
    let (s', streams') := s.perform streams job
    s'.performAll streams' jobs

omit [Platform] in
/-- The statements that a call is to write to a stream. -/
def Job.statementsFor (i : ι) : Job ι → List Statement
  | .one stmt out => if out = i then [stmt] else []
  | .all it out => if out = i then it else []

end ProtoSerializer

end CMarmotta
