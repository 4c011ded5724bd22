import Mathlib.Data.Finset.Basic

/-!
# Ordered key-value stores with write batches

A database is a finite map ordered by a comparator. It is written by batches, lists of puts and
deletes applied in order in one atomic step, and read by point lookups and by iterators that seek a
key and move upwards from there. An iterator sees the database as it was when it was created, so it
is the list of the entries still ahead of it.
-/

namespace KV

variable {κ ν : Type} {cmp : κ → κ → Ordering}

/-- A database: a map from keys to values, ordered by `cmp`. -/
abbrev DB (κ ν : Type) (cmp : κ → κ → Ordering) := Std.ExtTreeMap κ ν cmp

/-- One operation of a write batch. -/
inductive BatchOp (κ ν : Type) where
  | put (k : κ) (v : ν)
  | delete (k : κ)
  deriving DecidableEq

/-- The key an operation is about. -/
def BatchOp.key : BatchOp κ ν → κ
  | .put k _ => k
  | .delete k => k

/-- What an operation leaves under its key. -/
def BatchOp.value? : BatchOp κ ν → Option ν
  | .put _ v => some v
  | .delete _ => none

/-- A write batch. -/
abbrev WriteBatch (κ ν : Type) := List (BatchOp κ ν)

/-- Apply one operation. -/
def applyOp [Std.TransCmp cmp] (db : DB κ ν cmp) : BatchOp κ ν → DB κ ν cmp
  | .put k v => db.insert k v
  | .delete k => db.erase k

/-- Apply a batch, operation by operation. -/
def write [Std.TransCmp cmp] (db : DB κ ν cmp) (batch : WriteBatch κ ν) : DB κ ν cmp :=
  batch.foldl applyOp db

/-- What a batch makes of the key `k`: `none` if no operation is about `k`, otherwise what the last
one leaves there. -/
def outcome [DecidableEq κ] (batch : WriteBatch κ ν) (k : κ) : Option (Option ν) :=
  match batch with
  | [] => none
  | op :: ops => (outcome ops k).or (if op.key = k then some op.value? else none)

/-- What the last writer of a list makes of a key. A writer leaves the key alone (`none`), or it
leaves a value or no value there. -/
def lastWrite {β : Type} (f : β → Option (Option ν)) : List β → Option (Option ν)
  | [] => none
  | b :: l => (lastWrite f l).or (f b)

/-- What a writer makes of a key that has the given value, or none. A delete that finds no value
leaves the key alone. -/
def effective {β : Type} (f : β → Option (Option ν)) : Option ν → β → Option (Option ν)
  | some _, b => f b
  | none, b => (f b).filter Option.isSome

/-- An iterator after seeking `lo`: the entries from the first key that is not below `lo` on. -/
def seek [Std.TransCmp cmp] (db : DB κ ν cmp) (lo : κ) : List (κ × ν) :=
  db.toList.dropWhile fun e => cmp e.1 lo == .lt

end KV
