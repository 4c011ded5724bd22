import CMarmotta.Persistence.LevelDB

/-!
# What the store represents

The statement databases are four copies of one set of statements. This file says when a database
represents a set under the keys of an index, which statements a scan for a pattern visits, and what
the batches of an operation do to a set. The hash may collide: a statement then replaces the one
stored under its key.
-/

namespace CMarmotta

open KV

/-- The parts of a statement in the order an index has them in its keys. -/
def IndexType.order : IndexType → List Position
  | .SPOC => [.S, .P, .O, .C]
  | .CSPO => [.C, .S, .P, .O]
  | .OPSC => [.O, .P, .S, .C]
  | .PCOS => [.P, .C, .O, .S]

section Spec

variable [Platform]

open Platform

namespace Statement

/-- The serialized part of a statement at a position, that of the default instance if the field is
absent. -/
def part (s : Statement) : Position → Bytes
  | .S => resourceCodec.serialize s.getSubject
  | .P => uriCodec.serialize s.getPredicate
  | .O => valueCodec.serialize s.getObject
  | .C => resourceCodec.serialize s.getContext

/-- The serialized part of a pattern at a position, if the pattern sets it. -/
def part? (pattern : Statement) : Position → Option Bytes
  | .S => pattern.subject.map resourceCodec.serialize
  | .P => pattern.predicate.map uriCodec.serialize
  | .O => pattern.object.map valueCodec.serialize
  | .C => pattern.context.map resourceCodec.serialize

end Statement

/-- The hash of a part of a statement. -/
def stmtHash (s : Statement) (pos : Position) : Hash := murmur3 (s.part pos)

/-- The key of a statement in an index: the hashes of its parts in the order of the index. -/
def stmtKey (idx : IndexType) (s : Statement) : Key where
  bytes := idx.order.flatMap fun pos => (stmtHash s pos).bytes
  length_eq := by cases idx <;> simp [IndexType.order, Hash.length_eq, keyLength]

/-! ## Scans -/

/-- The positions whose hashes the bounds of a pattern's key range start with: `computeKey` stops at
the first field the pattern leaves unset. -/
def leading (pattern : Statement) : List Position :=
  (indexType pattern).order.takeWhile fun pos => (pattern.part? pos).isSome

/-- The scan for a pattern visits the statement. -/
def Selects (pattern s : Statement) : Prop :=
  ∀ pos ∈ leading pattern, (pattern.part? pos).map murmur3 = some (stmtHash s pos)

instance (pattern s : Statement) : Decidable (Selects pattern s) :=
  inferInstanceAs (Decidable (∀ _ ∈ _, _))

/-- The statement agrees with the pattern on every field the pattern sets. -/
structure Statement.Agrees (s pattern : Statement) : Prop where
  subject : ∀ r ∈ pattern.subject, s.subject = some r
  predicate : ∀ u ∈ pattern.predicate, s.predicate = some u
  object : ∀ v ∈ pattern.object, s.object = some v
  context : ∀ r ∈ pattern.context, s.context = some r

instance (s pattern : Statement) : Decidable (s.Agrees pattern) :=
  decidable_of_iff ((∀ r ∈ pattern.subject, s.subject = some r) ∧
      (∀ u ∈ pattern.predicate, s.predicate = some u) ∧
      (∀ v ∈ pattern.object, s.object = some v) ∧ ∀ r ∈ pattern.context, s.context = some r)
    ⟨fun ⟨hs, hp, ho, hc⟩ => ⟨hs, hp, ho, hc⟩, fun ⟨hs, hp, ho, hc⟩ => ⟨hs, hp, ho, hc⟩⟩

/-- The fields the pattern sets are the leading ones: it does not set the object together with the
subject but without the predicate, nor the object together with the context but without the
subject. -/
def Statement.onlyLeading (pattern : Statement) : Bool :=
  !(pattern.object.isSome &&
    ((pattern.subject.isSome && !pattern.predicate.isSome) ||
      (!pattern.subject.isSome && pattern.context.isSome)))

/-- A leading field of the pattern is set but holds no term, so no statement matches it. -/
def Statement.unmatchable (pattern : Statement) : Bool :=
  (leading pattern).any fun
    | .S => !pattern.subject.all Resource.isTerm
    | .O => !pattern.object.all Value.isTerm
    | _ => false

/-! ## Sets of statements -/

/-- A statement database holds one entry for each statement of a set, and nothing else. -/
def Represents (db : StmtDB) (idx : IndexType) (S : Finset Statement) : Prop :=
  ∀ k v, db[k]? = some v ↔ ∃ s ∈ S, stmtKey idx s = k ∧ statementCodec.serialize s = v

/-- All four statement databases represent the same set. -/
def Store.Represents (σ : Store) (S : Finset Statement) : Prop :=
  ∀ idx, CMarmotta.Represents (σ.index idx) idx S

/-- The four statement databases agree. -/
def Store.IndexesAgree (σ : Store) : Prop := ∃ S, σ.Represents S

/-- The statements of a store, as `db_spoc` holds them. -/
def contents (σ : Store) : Finset Statement :=
  (σ.dbSpoc.toList.map fun e => statementCodec.parse e.2).toFinset

/-! ## Changes of a set -/

/-- A change of the set of statements, made in all four databases. -/
inductive StmtOp where
  | add (s : Statement)
  | remove (s : Statement)

/-- The statement a change is about. -/
def StmtOp.stmt : StmtOp → Statement
  | .add s => s
  | .remove s => s

/-- The statement a change leaves in the set, if any. -/
def StmtOp.value? : StmtOp → Option Statement
  | .add s => some s
  | .remove _ => none

/-- The operation a change puts into the batch of an index. -/
def StmtOp.batchOp (idx : IndexType) : StmtOp → BatchOp Key Bytes
  | .add s => .put (stmtKey idx s) (statementCodec.serialize s)
  | .remove s => .delete (stmtKey idx s)

/-- The effect of a change: whatever is stored under the key of the statement goes, and an added
statement comes. -/
def StmtOp.apply (S : Finset Statement) : StmtOp → Finset Statement
  | .add s => insert s (S.filter fun t => stmtKey .SPOC t ≠ stmtKey .SPOC s)
  | .remove s => S.filter fun t => stmtKey .SPOC t ≠ stmtKey .SPOC s

/-- The changes a request makes when its removals scan the store `σ`. -/
def stmtOps (σ : Store) : UpdateRequest → List StmtOp
  | .stmtAdded s => [.add s]
  | .stmtRemoved pattern => (getStatements σ pattern).map .remove
  | _ => []

/-- The changes of the set of statements a call makes. -/
def Op.stmtOps (σ : Store) : Op → List StmtOp
  | .addNamespaces _ => []
  | .addStatements it => it.map .add
  | .removeStatements pattern => (getStatements σ pattern).map .remove
  | .update it => it.flatMap (CMarmotta.stmtOps σ)

/-! ## Collisions -/

/-- The hash does not collide on the parts of the statements, position by position. -/
def CollisionFree (T : List Statement) : Prop :=
  ∀ a ∈ T, ∀ b ∈ T, ∀ pos, stmtHash a pos = stmtHash b pos → a.part pos = b.part pos

/-- The hash does not collide on the fields a pattern sets and the parts of the statements. -/
def CollisionFreePattern (pattern : Statement) (T : List Statement) : Prop :=
  ∀ b ∈ T, ∀ pos, ∀ m ∈ pattern.part? pos, murmur3 m = stmtHash b pos → m = b.part pos

instance (T : List Statement) : Decidable (CollisionFree T) :=
  inferInstanceAs (Decidable (∀ _ ∈ T, ∀ _ ∈ T, ∀ _, _))

instance (pattern : Statement) (T : List Statement) : Decidable (CollisionFreePattern pattern T) :=
  inferInstanceAs (Decidable (∀ _ ∈ T, ∀ _, ∀ _ ∈ _, _))

/-- The hash tells some two values apart, and some two contexts. -/
structure HashSeparates : Prop where
  values : ∃ v w : Value, v.isTerm = true ∧ w.isTerm = true ∧
    murmur3 (valueCodec.serialize v) ≠ murmur3 (valueCodec.serialize w)
  contexts : ∃ c d : Resource, c.isTerm = true ∧ d.isTerm = true ∧
    murmur3 (resourceCodec.serialize c) ≠ murmur3 (resourceCodec.serialize d)

end Spec

end CMarmotta
