import CMarmotta.Persistence.UpdateSpec
import Mathlib.Logic.Function.Basic

/-!
# Concurrent calls

`AddStatements`, `RemoveStatements` and `Update` hold no lock. A call first goes through its input and
fills its batches, a removal scanning the database as it is at that moment; then one thread for each
database writes the batch of that database. The calls of several clients interleave freely. A step
is the treatment of one element of the input, or the atomic write of one batch. A process that stops,
also on a failed `CHECK_STATUS`, leaves the store of some state of a run.
-/

namespace CMarmotta

open KV

/-- The databases of a store. -/
inductive Database where
  | stmt (idx : IndexType)
  | ns (t : NsTable)
  deriving DecidableEq

/-- The calls that write their batches from concurrent threads. -/
inductive Call where
  | addStatements (it : List Statement)
  | removeStatements (pattern : Statement)
  | update (it : List UpdateRequest)

/-- The call as an operation on a store of its own. -/
def Call.op : Call → Op
  | .addStatements it => .addStatements it
  | .removeStatements pattern => .removeStatements pattern
  | .update it => .update it

/-- Two calls, one for each client. -/
def Call.pair (a b : Call) : Bool → Call
  | false => a
  | true => b

/-- The databases a call starts a writer thread for. -/
def Call.writers : Call → List Database
  | .addStatements _ => [.stmt .PCOS, .stmt .OPSC, .stmt .CSPO, .stmt .SPOC]
  | .removeStatements _ => [.stmt .PCOS, .stmt .OPSC, .stmt .CSPO, .stmt .SPOC]
  | .update _ =>
    [.stmt .PCOS, .stmt .OPSC, .stmt .CSPO, .stmt .SPOC, .ns .byPrefix, .ns .byUrl]

section Run

variable [Platform]

/-- The write of one batch. -/
def Store.writeDatabase (σ : Store) (u : UpdateState) : Database → Store
  | .stmt .SPOC => { σ with dbSpoc := write σ.dbSpoc u.stmts.spoc }
  | .stmt .CSPO => { σ with dbCspo := write σ.dbCspo u.stmts.cspo }
  | .stmt .OPSC => { σ with dbOpsc := write σ.dbOpsc u.stmts.opsc }
  | .stmt .PCOS => { σ with dbPcos := write σ.dbPcos u.stmts.pcos }
  | .ns .byPrefix => { σ with dbNsPrefix := write σ.dbNsPrefix u.ns.nsPrefix }
  | .ns .byUrl => { σ with dbNsUrl := write σ.dbNsUrl u.ns.nsUrl }

/-- Where a call stands: the input it still has to treat, its batches, and the databases it still
has to write. -/
structure CallState where
  todo : List UpdateRequest
  batches : UpdateState
  unwritten : List Database

/-- A call before its first step. The loops over the input of `AddStatements` and of `Update` treat an
addition alike, and `RemoveStatements` treats its one pattern as `Update` does. -/
def Call.start (c : Call) : CallState where
  todo := c.op.requests
  batches := {}
  unwritten := c.writers

/-- A store with the calls that run on it. -/
structure System (ι : Type) where
  store : Store
  calls : ι → CallState

/-- The steps of the calls. -/
inductive Event (ι : Type) where
  | collect (i : ι)
  | write (i : ι) (db : Database)

variable {ι : Type} [DecidableEq ι]

/-- Calls that start on a store. -/
def System.start (σ : Store) (calls : ι → Call) : System ι where
  store := σ
  calls i := (calls i).start

/-- One step. A call writes when it has gone through its input, and each database once. -/
def System.step (s : System ι) : Event ι → Option (System ι)
  | .collect i =>
    match (s.calls i).todo with
    | [] => none
    | r :: rest => some { s with calls := Function.update s.calls i { s.calls i with
        todo := rest
        batches := updateStep s.store (s.calls i).batches r } }
  | .write i db =>
    if (s.calls i).todo.isEmpty ∧ db ∈ (s.calls i).unwritten then
      some {
        store := s.store.writeDatabase (s.calls i).batches db
        calls := Function.update s.calls i { s.calls i with
          unwritten := (s.calls i).unwritten.erase db } }
    else none

/-- An interleaving of steps. -/
def System.exec (s : System ι) (events : List (Event ι)) : Option (System ι) :=
  events.foldlM System.step s

omit [DecidableEq ι] in
/-- All calls have returned. -/
def System.Done (s : System ι) : Prop :=
  ∀ i, (s.calls i).todo = [] ∧ (s.calls i).unwritten = []

end Run

section Compatible

variable [Platform]

/-- What two streams of requests do to the key of `s` does not depend on their order: at most one of
them adds to the key or selects it, or neither adds to it, or the last request about the key adds
the same statement in both. -/
def CompatibleAt (s : Statement) (a b : List UpdateRequest) : Prop :=
  (∀ r ∈ a, keyEffect s r = none) ∨ (∀ r ∈ b, keyEffect s r = none) ∨
    (∀ t, .stmtAdded t ∈ a ++ b → stmtKey .SPOC t ≠ stmtKey .SPOC s) ∨
    ∃ t, lastWrite (keyEffect s) a = some (some t) ∧ lastWrite (keyEffect s) b = some (some t)

/-- The hash tells the terms of the statements of `T` apart from those of the statements of `U`,
position by position. -/
structure TermCollisionFree (T U : Set Statement) : Prop where
  subject : ∀ a ∈ T, ∀ b ∈ U, stmtHash a .S = stmtHash b .S → a.subject = b.subject
  predicate : ∀ a ∈ T, ∀ b ∈ U, stmtHash a .P = stmtHash b .P → a.predicate = b.predicate
  object : ∀ a ∈ T, ∀ b ∈ U, stmtHash a .O = stmtHash b .O → a.object = b.object
  context : ∀ a ∈ T, ∀ b ∈ U, stmtHash a .C = stmtHash b .C → a.context = b.context

end Compatible

/-! ## Two streams that change namespaces -/

section Namespaces

/-- The tables that a removal of one stream looks up while another stream runs that was started on the
tables `T`: those in `w` have the changes of the other stream already. -/
noncomputable def NsTables.written (T : NsTables) (other : List UpdateRequest) (w : NsTable → Bool) :
    NsTables :=
  fun t k => if w t then (lastWrite (nsEffect T t k) other).getD (T t k) else T t k

/-- A stream may leave `o` under the key `k` of the table `t` while another stream runs that was
started on the tables `T`. Each request looks up the tables as they are at its moment, and `w` is what
the other stream has written at the last of them. -/
inductive Leaves (T : NsTables) (other : List UpdateRequest) (t : NsTable) (k : Bytes) :
    (NsTable → Bool) → List UpdateRequest → Option (Option Namespace) → Prop
  | nil : Leaves T other t k (fun _ => false) [] none
  | snoc {w w' : NsTable → Bool} {it : List UpdateRequest} {o : Option (Option Namespace)}
      (h : Leaves T other t k w it o) (hw : ∀ t, w t = true → w' t = true) (r : UpdateRequest) :
      Leaves T other t k w' (it ++ [r]) ((nsEffect (T.written other w') t k r).or o)

/-- What two streams that run on the tables `T` at the same time may leave under a key. One of them
looks up the tables before both, and the other what the first has written at each moment. -/
def RaceLeaves (T : NsTables) (a b : List UpdateRequest) (t : NsTable) (k : Bytes)
    (oa ob : Option (Option Namespace)) : Prop :=
  (∃ w, Leaves T b t k w a oa) ∧ ob = lastWrite (nsEffect T t k) b ∨
    oa = lastWrite (nsEffect T t k) a ∧ ∃ w, Leaves T a t k w b ob

/-- The pattern looks up the key `k` of the table `t`: its prefix, else its uri, else all prefixes. -/
def Namespace.LooksUp (pattern : Namespace) (t : NsTable) (k : Bytes) : Prop :=
  if pattern.nsPrefix ≠ "" then t = .byPrefix ∧ k = utf8 pattern.nsPrefix
  else if pattern.uri ≠ "" then t = .byUrl ∧ k = utf8 pattern.uri
  else t = .byPrefix

/-- The last request of the stream about a key leaves there something else than the table has. -/
def NsTables.Changes (T : NsTables) (it : List UpdateRequest) (t : NsTable) (k : Bytes) : Prop :=
  ∃ o, lastWrite (nsEffect T t k) it = some o ∧ o ≠ T t k

/-- The stream adds a namespace under the key. -/
def AddsUnder (it : List UpdateRequest) (t : NsTable) (k : Bytes) : Prop :=
  ∃ ns, .nsAdded ns ∈ it ∧ t.key ns = k

/-- The removals of a stream are not about the key `k` of the table `t`, as far as the other stream
can change what they find: under a key that a removal looks up and the other stream changes,
neither the namespace that the tables have nor the one that the other stream leaves there has the
key `k`. A removal does not matter if an addition under `k` comes after it. -/
def NsTables.Steady (T : NsTables) (it other : List UpdateRequest) (t : NsTable) (k : Bytes) : Prop :=
  ∀ pre pattern post, it = pre ++ .nsRemoved pattern :: post → ¬ AddsUnder post t k →
    ∀ t₀ k₀, pattern.LooksUp t₀ k₀ → T.Changes other t₀ k₀ →
      ∀ ns, (T t₀ k₀ = some ns ∨ lastWrite (nsEffect T t₀ k₀) other = some (some ns)) → t.key ns ≠ k

/-- Of two streams, at most one has requests about the key, or the last request about it leaves the
same there in both. The removals find what is in the tables `T`. -/
def NsTables.SameLast (T : NsTables) (a b : List UpdateRequest) (t : NsTable) (k : Bytes) : Prop :=
  lastWrite (nsEffect T t k) a = none ∨ lastWrite (nsEffect T t k) b = none ∨
    lastWrite (nsEffect T t k) a = lastWrite (nsEffect T t k) b

/-- Two streams do not get in each other's way under a key. Either no removal that matters for the
key looks up what the other stream changes, and the last requests about the key do not contradict
each other; or neither stream adds under the key, and the key is not in use or both streams
delete it. -/
def NsTables.Independent (T : NsTables) (a b : List UpdateRequest) (t : NsTable) (k : Bytes) : Prop :=
  T.Steady a b t k ∧ T.Steady b a t k ∧ T.SameLast a b t k ∨
    ¬ AddsUnder a t k ∧ ¬ AddsUnder b t k ∧
      (T t k = none ∨ lastWrite (nsEffect T t k) a = some none ∧
        lastWrite (nsEffect T t k) b = some none)

variable [Platform]

open Platform

/-- What is under a key after a stream that leaves `o` there. -/
def Store.nsEntry (σ : Store) (t : NsTable) (k : Bytes) (o : Option (Option Namespace)) :
    Option Bytes :=
  (o.map (Option.map namespaceCodec.serialize)).getD (σ.nsTable t)[k]?

/-- What two streams leave under a key does not depend on which of them is written last, nor on what
one of them has written when the removals of the other look up the tables. -/
def ConvergeAt (σ : Store) (a b : List UpdateRequest) (t : NsTable) (k : Bytes) : Prop :=
  ∃ c, ∀ oa ob, RaceLeaves (nsTables σ) a b t k oa ob →
    σ.nsEntry t k (oa.or ob) = c ∧ σ.nsEntry t k (ob.or oa) = c

end Namespaces

end CMarmotta
