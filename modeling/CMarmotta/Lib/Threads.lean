import Mathlib.Data.Fintype.Basic

/-!
# Threads that share a writer or a counter

A family of threads indexed by `ι` runs to completion. Threads that write to one stream behind a
lock produce an interleaving of their items. Threads that add to one variable without a lock load
it, add their amount and store the sum, and the loads and stores of different threads may mix.
-/

namespace Threads

variable {ι α : Type} [DecidableEq ι]

/-- A list is an interleaving of the items of the threads, each thread's items in its own order. -/
inductive Interleaves : (ι → List α) → List α → Prop
  | nil {items : ι → List α} (h : ∀ i, items i = []) : Interleaves items []
  | cons {items : ι → List α} {l : List α} (i : ι) (a : α) (rest : List α)
      (hi : items i = a :: rest) (h : Interleaves (Function.update items i rest) l) :
      Interleaves items (a :: l)

/-- How far a thread has got with its addition. -/
inductive Phase where
  | waiting
  | loaded (v : Nat)
  | finished
  deriving DecidableEq

/-- An access of a thread to the variable. -/
inductive Access (ι : Type) where
  | load (i : ι)
  | store (i : ι)

/-- The variable and the threads. -/
structure Counter (ι : Type) where
  value : Nat
  phase : ι → Phase

/-- The variable before the first access. -/
def Counter.start : Counter ι where
  value := 0
  phase _ := .waiting

/-- One access, when the thread `i` adds `amount i`. -/
def Counter.step (amount : ι → Nat) (c : Counter ι) : Access ι → Option (Counter ι)
  | .load i =>
    if c.phase i = .waiting then
      some { c with phase := Function.update c.phase i (.loaded c.value) }
    else none
  | .store i =>
    match c.phase i with
    | .loaded v => some { value := v + amount i, phase := Function.update c.phase i .finished }
    | _ => none

/-- The variable after the accesses, if all threads have finished. -/
def addAll [Fintype ι] (amount : ι → Nat) (accesses : List (Access ι)) : Option Nat :=
  (accesses.foldlM (Counter.step amount) Counter.start).bind fun c =>
    if ∀ i, c.phase i = .finished then some c.value else none

/-- The accesses of one thread. -/
def addition (i : ι) : List (Access ι) := [.load i, .store i]

omit [DecidableEq ι] in
/-- The additions do not overlap. -/
def OneAfterAnother (accesses : List (Access ι)) : Prop := 
  ∃ order : List ι, accesses = order.flatMap addition

end Threads
