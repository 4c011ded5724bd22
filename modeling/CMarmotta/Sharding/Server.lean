import CMarmotta.Sharding.Sharding
import CMarmotta.Util.Split

/-!
# `sharding/server.cc`: the backends of the proxy

The proxy gets its backends from a flag, the comma-separated list of their addresses, and opens a
channel to each of them when it starts. Nothing checks the flag, so there may be no backend at all,
and an address may be empty. The handlers compute the index of a backend as a remainder by their
number, or take the first one. Here these operations have their preconditions: a division by zero
and an index past the end of a vector are faults.
-/

namespace CMarmotta

/-- What goes wrong in the arithmetic of the proxy. -/
inductive Fault where
  /-- `x % 0`. -/
  | divisionByZero
  /-- `v[i]`, when `v` has at most `i` elements. -/
  | outOfRange
  deriving DecidableEq

/-- `x % size`. -/
def modulo (x size : Nat) : Except Fault Nat :=
  if size = 0 then .error .divisionByZero else .ok (x % size)

/-- `v[i]`. -/
def index {α : Type} (v : List α) (i : Nat) : Except Fault α :=
  match v[i]? with
  | some a => .ok a
  | none => .error .outOfRange

/-- The loop that makes a stub for each of the given channels. -/
def stubLoop (channels : List Bytes) (size : Nat) : Except Fault (List Bytes) :=
  (List.range size).mapM (index channels)

/-- A stream to a backend, with the messages written so far. -/
structure BackendWriter (α : Type) where
  stub : Bytes
  written : List α := []

/-- `w->Write(m)`. -/
def BackendWriter.write {α : Type} (w : BackendWriter α) (m : α) : BackendWriter α :=
  { w with written := w.written ++ [m] }

/-- One iteration of the loops that distribute a stream over `size` backends. A message with a hash
goes to the backend that the hash selects, and any other to all of them. -/
def distribute {α : Type} (size : Nat) (hash? : α → Option Nat) (writers : List (BackendWriter α))
    (m : α) : Except Fault (List (BackendWriter α)) :=
  match hash? m with
  | some hash => do
    let bucket ← modulo hash size
    let w ← index writers bucket
    return writers.set bucket (w.write m)
  | none => return writers.map (·.write m)

/-- The requests to the proxy. -/
inductive ProxyCall where
  | sail (request : Request)
  | getContexts

/-- The request needs one particular backend. -/
def ProxyCall.selectsBackend : ProxyCall → Bool
  | .sail (.addNamespaces _) => true
  | .sail (.getNamespace _) => true
  | .sail .getNamespaces => true
  | .sail (.addStatements it) => !it.isEmpty
  | .sail (.update it) => it.any fun
    | .stmtAdded _ => true
    | _ => false
  | _ => false

/-- The fields of `ShardingService`. A channel is the address it was created for. -/
structure ShardingServer where
  backends : List Bytes
  channels : List Bytes

namespace ShardingServer

/-- The constructor of `ShardingService`. -/
def new (backends : List Bytes) : ShardingServer where
  backends
  channels := backends.foldl (fun channels server => channels ++ [server]) []

/-- The separator of the flag `backends`. -/
def comma : UInt8 := 0x2C

/-- The service that `main` creates. -/
def main (flag : Bytes) : ShardingServer := new (split flag comma)

variable (service : ShardingServer)

/-- `ShardingService::makeStub`. -/
def makeStub (i : Nat) : Except Fault Bytes := index service.channels i

/-- The streams that a handler opens, one to each backend. -/
def openWriters (α : Type) : Except Fault (List (BackendWriter α)) := do
  let stubs ← stubLoop service.channels service.backends.length
  return stubs.map fun stub => { stub }

/-- What a handler writes to the backends, for the messages of a stream. -/
def forward {α : Type} (hash? : α → Option Nat) (it : List α) :
    Except Fault (List (BackendWriter α)) := do
  let writers ← service.openWriters α
  it.foldlM (distribute service.backends.length hash?) writers

/-- `ShardingService::AddNamespaces`, where `answer` is what the backend at an address returns. -/
def addNamespaces (answer : Bytes → List Namespace → Nat) (it : List Namespace) :
    Except Fault Nat := do
  let writers ← service.forward (fun _ => none) it
  let stats := writers.map fun w => answer w.stub w.written
  index stats 0

/-- The stub that `ShardingService::GetNamespace` and `ShardingService::GetNamespaces` use. -/
def randomStub (rand : Nat) : Except Fault Bytes := do
  let bucket ← modulo rand service.backends.length
  service.makeStub bucket

/-- The stubs that the threads of `Fanout` use. -/
def fanout : Except Fault (List Bytes) := stubLoop service.channels service.channels.length

/-- The stubs that the threads of `ShardingService::GetStatements` and
`ShardingService::GetContexts` use. -/
def readers : Except Fault (List Bytes) := stubLoop service.channels service.backends.length

variable [Platform]

open Platform

/-- `ShardingService::AddStatements`. -/
def addStatements (it : List Statement) : Except Fault (List (BackendWriter Statement)) :=
  service.forward (fun stmt => some (stdHash (statementCodec.serialize stmt))) it

/-- The hash that the loop of `ShardingService::Update` computes. -/
def updateHash? : UpdateRequest → Option Nat
  | .stmtAdded stmt => some (stdHash (statementCodec.serialize stmt))
  | _ => none

/-- `ShardingService::Update`. -/
def update (it : List UpdateRequest) : Except Fault (List (BackendWriter UpdateRequest)) :=
  service.forward updateHash? it

/-- The stubs and indices that the proxy needs to serve a request, with the next number of `rand`.
What the threads of a handler do with their stubs is not looked at. -/
def serve (answer : Bytes → List Namespace → Nat) (rand : Nat) : ProxyCall → Except Fault Unit
  | .sail (.addNamespaces it) => discard (service.addNamespaces answer it)
  | .sail (.getNamespace _) => discard (service.randomStub rand)
  | .sail .getNamespaces => discard (service.randomStub rand)
  | .sail (.addStatements it) => discard (service.addStatements it)
  | .sail (.getStatements _) => discard service.readers
  | .sail (.removeStatements _) => discard service.fanout
  | .sail (.clear _) => discard service.fanout
  | .sail (.size _) => discard service.fanout
  | .sail (.update it) => discard (service.update it)
  | .getContexts => discard service.readers

/-- With a value of the flag, a request computes only indices of channels, and the channels lead to
the pieces of the flag, none of which is empty. -/
structure InRange (flag : Bytes) (answer : Bytes → List Namespace → Nat) (rand : Nat)
    (call : ProxyCall) : Prop where
  served : ∃ u, (main flag).serve answer rand call = .ok u
  addresses : ∀ address ∈ (main flag).channels, address ≠ [] ∧ comma ∉ address
  pieces : flag = [comma].intercalate (main flag).channels ∨
    flag = [comma].intercalate (main flag).channels ++ [comma]

end ShardingServer

end CMarmotta
