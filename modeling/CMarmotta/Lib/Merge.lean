import Mathlib.Tactic.SplitIfs

/-!
# Merging records with optional parts

`merge old new` writes the parts that `new` has over those of `old`, as `MergeFrom` of protobuf
does: a scalar that has its default value counts as missing, and a record inside a record is merged
in its turn. The result is `new` exactly if `new` has whatever part `old` has, which is what
`Overwritten old new` says part by part.
-/

/-- A type of records that can be merged. -/
class Merge (M : Type) where
  /-- The record without any part. -/
  empty : M
  /-- `merge old new`: the parts of `new` over those of `old`. -/
  merge : M → M → M
  /-- No part of the old record is missing in the new one. -/
  Overwritten : M → M → Prop
  /-- Merging replaces the old record exactly if the new one overwrites it. -/
  merge_eq_iff : ∀ {old new : M}, merge old new = new ↔ Overwritten old new
  /-- There is nothing to overwrite in the empty record. -/
  empty_overwritten : ∀ new : M, Overwritten empty new

namespace Merge

@[simp] theorem merge_empty {M : Type} [Merge M] (new : M) : merge empty new = new :=
  merge_eq_iff.mpr (empty_overwritten new)

/-! ## Scalar fields -/

section Scalar

variable {α : Type} [DecidableEq α]

/-- A scalar field: the default value does not overwrite. -/
def scalar (default old new : α) : α := if new = default then old else new

/-- The new value is there or the old one is not. -/
def ScalarOverwritten (default old new : α) : Prop := new = default → old = default

theorem scalar_eq_iff {default old new : α} :
    scalar default old new = new ↔ ScalarOverwritten default old new := by
  unfold scalar ScalarOverwritten
  split_ifs with h
  · rw [h]
    exact ⟨fun hold _ => hold, fun hold => hold rfl⟩
  · exact ⟨fun _ hnew => absurd hnew h, fun _ => rfl⟩

end Scalar

/-! ## Fields that hold a record -/

section Field

variable {M : Type} [Merge M]

/-- An optional record: an absent one does not overwrite, a present one is merged into the old one,
which is created if need be. -/
def field (old : Option M) : Option M → Option M
  | none => old
  | some new => some (merge (old.getD empty) new)

/-- An absent record overwrites an absent one only, a present one what it overwrites as a record. -/
def FieldOverwritten (old : Option M) : Option M → Prop
  | none => old = none
  | some new => Overwritten (old.getD empty) new

theorem field_eq_iff {old new : Option M} : field old new = new ↔ FieldOverwritten old new := by
  cases new with
  | none => exact Iff.rfl
  | some new => exact Option.some_inj.trans merge_eq_iff

theorem none_fieldOverwritten (new : Option M) : FieldOverwritten none new := by
  cases new with
  | none => rfl
  | some new => exact empty_overwritten new

end Field

end Merge
