import CMarmotta.Sparql.RasqalAdapter

/-!
# `persistence/leveldb_sparql.cc`: the triple source over the persistence layer

The statements of a query go through two iterators. The inner one parses the value it stands at into
a buffer and returns the buffer; the outer one swaps the buffer with a statement of its own and
remembers that it has done so until it is incremented. Its flag for that is not initialised by the
constructor.
-/

namespace CMarmotta

/-! ## `LevelDBIterator` -/

/-- `LevelDBIterator<T>`: the values from the current position on, a buffer and a flag. -/
structure LevelDBIterator (T : Type) where
  values : List Bytes
  proto : T
  parsed : Bool

namespace LevelDBIterator

variable {T : Type}

/-- The constructor, with the default message in the buffer. -/
def new (default : T) (values : List Bytes) : LevelDBIterator T where
  values := values
  proto := default
  parsed := false

/-- `operator++`; behind the end `none`. -/
def increment (self : LevelDBIterator T) : Option (LevelDBIterator T) :=
  match self.values with
  | [] => none
  | _ :: rest => some { self with values := rest, parsed := false }

/-- `operator*` and `operator->`: parse the value unless the flag is set, which no function sets;
behind the end `none`. -/
def deref (codec : Codec T) (self : LevelDBIterator T) : Option (LevelDBIterator T) :=
  if self.parsed = true then some self
  else match self.values with
    | [] => none
    | value :: _ => some { self with proto := codec.parse value }

/-- `hasNext`. -/
def hasNext (self : LevelDBIterator T) : Bool := !self.values.isEmpty

end LevelDBIterator

/-! ## `WrapProtoStatementIterator` -/

/-- `WrapProtoStatementIterator`. -/
structure WrapProtoStatementIterator where
  it : LevelDBIterator Statement
  current : Statement
  parsed : Bool

namespace WrapProtoStatementIterator

/-- The constructor. The flag has the value that `memory` has in its place. -/
def new (it : LevelDBIterator Statement) (memory : Bool) : WrapProtoStatementIterator where
  it := it
  current := {}
  parsed := memory

/-- `operator++`. -/
def increment (self : WrapProtoStatementIterator) : Option WrapProtoStatementIterator :=
  self.it.increment.map fun it => { self with it := it, parsed := false }

/-- `operator*` and `operator->`: the statement to look at is `current` afterwards. The assignment
from the buffer of the inner iterator is a swap. -/
def deref (codec : Codec Statement) (self : WrapProtoStatementIterator) :
    Option WrapProtoStatementIterator :=
  if self.parsed = true then some self
  else (self.it.deref codec).map fun it =>
    let (current, proto) := self.current.moveAssign it.proto
    { it := { it with proto := proto }, current := current, parsed := true }

/-- `hasNext`. -/
def hasNext (self : WrapProtoStatementIterator) : Bool := self.it.hasNext

/-- A loop over the iterator: the statements it looks at, one after another. -/
def loop (codec : Codec Statement) : Nat → WrapProtoStatementIterator → Option (List Statement)
  | 0, _ => none
  | fuel + 1, self =>
    if self.hasNext = true then do
      let it ← self.deref codec
      let next ← it.increment
      let rest ← loop codec fuel next
      some (it.current :: rest)
    else some []

end WrapProtoStatementIterator

/-! ## Calls -/

/-- A call of the user of an iterator. -/
inductive IteratorCall where
  | deref
  | arrow
  | increment
  | hasNext
  deriving DecidableEq

/-- What a call returns. -/
inductive IteratorAnswer where
  | statement (st : Statement)
  | incremented
  | hasNext (b : Bool)
  deriving DecidableEq

/-- The answers to a sequence of calls, each of which returns an answer and a new state. -/
def runCalls {S : Type} (call : S → IteratorCall → Option (IteratorAnswer × S)) :
    S → List IteratorCall → Option (List IteratorAnswer)
  | _, [] => some []
  | s, c :: calls => do
    let (answer, s') ← call s c
    let answers ← runCalls call s' calls
    some (answer :: answers)

/-- One call of the iterator. -/
def WrapProtoStatementIterator.call (codec : Codec Statement)
    (self : WrapProtoStatementIterator) :
    IteratorCall → Option (IteratorAnswer × WrapProtoStatementIterator)
  | .deref => (self.deref codec).map fun it => (.statement it.current, it)
  | .arrow => (self.deref codec).map fun it => (.statement it.current, it)
  | .increment => self.increment.map fun it => (.incremented, it)
  | .hasNext => some (.hasNext self.hasNext, self)

/-- One call of an iterator over a list of statements. A call for the statement behind the end and
an increment there are not allowed. -/
def viewCall : List Statement → IteratorCall → Option (IteratorAnswer × List Statement)
  | statements, .hasNext => some (.hasNext (!statements.isEmpty), statements)
  | [], _ => none
  | st :: rest, .deref => some (.statement st, st :: rest)
  | st :: rest, .arrow => some (.statement st, st :: rest)
  | _ :: rest, .increment => some (.incremented, rest)

/-! ## `LevelDBTripleSource` -/

section Source

variable [Platform]

/-- `LevelDBTripleSource::HasStatement`: the callback stops at the first statement. -/
def LevelDBTripleSource.hasStatement (σ : Store) (args : Arguments) : Bool :=
  forEach (fun _ _ => (true, false)) false (CMarmotta.getStatements σ args.pattern)

/-- `LevelDBTripleSource::GetStatements`: the iterator, built in `memory`, over the values in the
key range of the pattern. -/
def LevelDBTripleSource.iterator (σ : Store) (args : Arguments) (memory : Bool) :
    WrapProtoStatementIterator :=
  let query := patternQuery args.pattern
  let entries := rangeIterator (σ.index query.type) query.minKey query.maxKey
  .new (.new {} (entries.map Prod.snd)) memory

/-- `LevelDBTripleSource`, with the statements that its iterator shows. The iterator for some arguments
is built in the memory that `memory` has for them. The loop tests for the end once for each value
and once more. -/
def LevelDBTripleSource (σ : Store) (memory : Arguments → Bool) : TripleSource where
  hasStatement := LevelDBTripleSource.hasStatement σ
  getStatements args :=
    let it := LevelDBTripleSource.iterator σ args (memory args)
    (it.loop Platform.statementCodec (it.it.values.length + 1)).getD []

end Source

end CMarmotta
