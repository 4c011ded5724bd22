import CMarmotta.Persistence.Concurrent
import CMarmotta.Sharding.Sharding
import Mathlib.Logic.Relation
import Mathlib.Data.List.Perm.Subperm

/-!
# `sharding/sharding.cc`: concurrent use of the proxy

Two clients change namespaces through the proxy. Each of their streams goes to all backends over a
connection of its own, and each backend treats the two streams it gets at its own pace. In the same
way any number of clients add and remove statements.

`GetContexts` starts a thread for each backend, which inserts the contexts it receives into a set,
and then loops over the set. It does not join the threads before the loop, as `GetStatements`
does. The destructors of the threads, which are joinable still, end the process after the loop.
-/

namespace CMarmotta

/-! ## Two clients that change namespaces -/

/-- The calls of a client that change namespaces. -/
inductive NsCall where
  | addNamespaces (it : List Namespace)
  | update (it : List UpdateRequest)

/-- The messages of the client as update requests. -/
def NsCall.requests : NsCall → List UpdateRequest
  | .addNamespaces it => it.map .nsAdded
  | .update it => it

/-- In which order a backend may write the batches of the call of client `i`. The two writes of
`AddNamespaces` come one after the other, those of `Update` come from threads. -/
def NsCall.Admits (c : NsCall) (i : Bool) (events : List (Event Bool)) : Prop :=
  match c with
  | .addNamespaces _ => ∀ pre post, events = pre ++ .write i (.ns .byUrl) :: post →
      .write i (.ns .byPrefix) ∈ pre
  | .update _ => True

section Replicas

variable [Platform] {n : Nat}

open ShardingService

/-- The stream that the proxy sends to a backend for a call. -/
def NsCall.forwarded (c : NsCall) (i : Fin (n + 1)) : List UpdateRequest :=
  match c with
  | .addNamespaces it => ((it.foldl Writers.writeAll fun _ => []) i).map .nsAdded
  | .update it => (it.foldl route fun _ => []) i

/-- The proxy is done with the calls `a` and `b` of two clients, and has left the stores
`shards'`: each backend has treated its two streams in an interleaving of its own. -/
def ServesBoth (a b : NsCall) (shards shards' : Shards n) : Prop :=
  ∀ i, ∃ events s, a.Admits false events ∧ b.Admits true events ∧
    (System.start (shards i) (.pair (.update (a.forwarded i)) (.update (b.forwarded i)))).exec
      events = some s ∧ s.Done ∧ s.store = shards' i

/-- All backends hold the same namespaces, and give the same answers about them. -/
structure SameNamespaces (shards : Shards n) : Prop where
  tables : ∀ i j t, (shards i).nsTable t = (shards j).nsTable t
  answers : ∀ i j pattern,
    LevelDBService.getNamespace (shards i) pattern = LevelDBService.getNamespace (shards j) pattern

end Replicas

/-! ## Clients that change statements -/

section Statements

variable [Platform] {n : Nat} {ι : Type} [DecidableEq ι]

open ShardingService

omit [DecidableEq ι] in
/-- What a backend is called with for a call of the proxy. -/
def Call.forwarded (c : Call) (i : Fin (n + 1)) : Call :=
  match c with
  | .addStatements it =>
    let writers : Writers n Statement :=
      it.foldl (fun writers stmt => writers.write (bucket n stmt) stmt) fun _ => []
    .addStatements (writers i)
  | .removeStatements pattern => .removeStatements pattern
  | .update it => .update ((it.foldl route fun _ => []) i)

/-- The proxy is done with the calls of any number of clients, and has left the stores `shards'`: each
backend has treated what it was called with in an interleaving of its own. -/
def ServesAll (calls : ι → Call) (shards shards' : Shards n) : Prop :=
  ∀ i, ∃ events s, (System.start (shards i) fun j => (calls j).forwarded i).exec events = some s ∧
    s.Done ∧ s.store = shards' i

end Statements

/-! ## `GetContexts` -/

namespace ShardingService

variable {n : Nat}

/-- The state of `ShardingService::GetContexts`: the contexts that each thread has still to read,
the set, what the iterator of the final loop has ahead of it once the loop runs, and what is
written. -/
structure ContextScan (n : Nat) where
  incoming : Fin (n + 1) → List Resource
  contexts : List Resource := []
  ahead : Option (List Resource) := none
  written : List Resource := []

/-- Before the first read, when backend `i` writes `reported i`. -/
def ContextScan.start (reported : Fin (n + 1) → List Resource) : ContextScan n where
  incoming := reported

/-- A thread inserts the next context it reads. -/
def ContextScan.read (s : ContextScan n) (i : Fin (n + 1)) (r : Resource) (rest : List Resource) :
    ContextScan n :=
  { s with
    incoming := Function.update s.incoming i rest
    contexts := insertContext s.contexts r }

/-- The steps of the threads and of the loop. -/
inductive ContextScan.Step : ContextScan n → ContextScan n → Prop
  /-- A read before the loop, or one of a context that is in the set already. -/
  | read {s : ContextScan n} {i : Fin (n + 1)} {r : Resource} {rest : List Resource}
      (hi : s.incoming i = r :: rest)
      (h : s.ahead = none ∨ insertContext s.contexts r = s.contexts) : Step s (s.read i r rest)
  /-- An insertion during the loop. It may relink the elements of the set, and the iterator goes on
  with the elements that then come after its own. -/
  | relink {s : ContextScan n} {i : Fin (n + 1)} {r : Resource}
      {rest ahead relinked : List Resource}
      (hi : s.incoming i = r :: rest) (hahead : s.ahead = some ahead)
      (h : insertContext s.contexts r ≠ s.contexts)
      (hsub : relinked.Subperm (insertContext s.contexts r)) :
      Step s { s.read i r rest with ahead := some relinked }
  /-- The loop starts, in the order the set has. -/
  | loop {s : ContextScan n} {order : List Resource} (hahead : s.ahead = none)
      (h : order.Perm s.contexts) : Step s { s with ahead := some order }
  /-- `result->Write(c)`. -/
  | write {s : ContextScan n} {c : Resource} {rest : List Resource}
      (hahead : s.ahead = some (c :: rest)) :
      Step s { s with ahead := some rest, written := s.written ++ [c] }

/-- Any number of steps. -/
abbrev ContextScan.Reaches : ContextScan n → ContextScan n → Prop :=
  Relation.ReflTransGen ContextScan.Step

/-- The loop has come to its end. -/
def ContextScan.Done (s : ContextScan n) : Prop := s.ahead = some []

/-- When the loop starts in the state `s`, and whatever the threads and the loop then do, each
context that a backend reports is written once, and nothing else is. -/
def ContextScan.ListsAll [Platform] (shards : Shards n) (s : ContextScan n) : Prop :=
  ∀ order s', order.Perm s.contexts → Reaches { s with ahead := some order } s' → s'.Done → ∀ c,
    s'.written.count c = if ∃ i, c ∈ LevelDBService.getContexts (shards i) then 1 else 0

end ShardingService

end CMarmotta
