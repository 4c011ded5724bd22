import CMarmotta.Persistence.Spec
import CMarmotta.Sparql.RasqalModel

/-!
# `sparql/rasqal_adapter.cc`: the callbacks for rasqal, and `TupleQuery`

To evaluate a triple pattern rasqal calls `init_triples_match`, and then `bind_match` and
`next_match` until `is_end`; a triple without variables it looks up with `triple_present`. The
values of rasqal's variables are a state that the callbacks read and write. The statements of a
`TripleSource` are behind an iterator, which is the list of the statements still to come.
-/

namespace CMarmotta

/-- Arguments of `HasStatement` and `GetStatements`: a null pointer is a wildcard. -/
structure Arguments where
  s : Option Rdf.Resource
  p : Option URI
  o : Option Rdf.Value
  c : Option Rdf.Resource
  deriving DecidableEq

/-- The pattern that has the messages of the arguments in its fields. -/
def Arguments.pattern (args : Arguments) : Statement where
  subject := args.s.map Rdf.Resource.internal
  predicate := args.p
  object := args.o.map Rdf.Value.internal
  context := args.c.map Rdf.Resource.internal

/-- `class TripleSource`. -/
structure TripleSource where
  /-- Check for presence of a complete statement. -/
  hasStatement : Arguments → Bool
  /-- The statements matching the arguments. -/
  getStatements : Arguments → List Statement

/-- The source delivers each statement of `S` that matches the arguments once, and nothing else. -/
def TripleSource.Exact (source : TripleSource) (S : Finset Statement) : Prop :=
  ∀ args, (source.getStatements args).Nodup ∧
    ∀ st, st ∈ source.getStatements args ↔ st ∈ S ∧ st.Agrees args.pattern

/-- The source has a statement for the arguments exactly if it delivers one. -/
def TripleSource.Coherent (source : TripleSource) : Prop :=
  ∀ args, source.hasStatement args = true ↔ source.getStatements args ≠ []

/-- The source over a list of statements. -/
def TripleSource.ofList (statements : List Statement) : TripleSource where
  hasStatement args := statements.any fun st => st.Agrees args.pattern
  getStatements args := statements.filter fun st => st.Agrees args.pattern

namespace RasqalAdapter

open RasqalModel

/-- The values of the variables; `none` is the null pointer of an unbound one. -/
abbrev Variables := String → Option RasqalLiteral

/-- `rasqal_triple`. The flags name the parts that are in use. -/
structure Triple where
  subject : RasqalLiteral
  predicate : RasqalLiteral
  object : RasqalLiteral
  origin : Option RasqalLiteral
  flags : Position → Bool

/-- The literal at a position of a triple. -/
def Triple.part (t : Triple) : Position → Option RasqalLiteral
  | .S => some t.subject
  | .P => some t.predicate
  | .O => some t.object
  | .C => t.origin

/-- `rasqal_literal_as_variable`. -/
def asVariable : RasqalLiteral → Option String
  | .variable name => some name
  | _ => none

/-- The parts of `rasqal_triples_match` and `rasqal_triple_meta` that the callbacks use. -/
structure TriplesMatch where
  bindings : Position → Option String
  iterator : List Statement

/-! ## `init_triples_match` -/

/-- What is passed for a literal of the pattern: nothing for a variable without a value. -/
def argument {α : Type} (convert : RasqalLiteral → α) (vars : Variables) (l : RasqalLiteral) :
    Option α :=
  match asVariable l with
  | some var => (vars var).map convert
  | none => some (convert l)

/-- The arguments `init_triples_match` passes to `GetStatements`. -/
def arguments (vars : Variables) (t : Triple) : Arguments where
  s := argument convertResource vars t.subject
  p := argument convertURI vars t.predicate
  o := argument convertValue vars t.object
  c := t.origin.bind (argument convertResource vars)

/-- `m->bindings`: the variables at the positions of the pattern. -/
def bindings (t : Triple) (pos : Position) : Option String := (t.part pos).bind asVariable

/-- `init_triples_match`. -/
def initTriplesMatch (source : TripleSource) (vars : Variables) (t : Triple) : TriplesMatch where
  bindings := bindings t
  iterator := source.getStatements (arguments vars t)

/-! ## Iteration -/

/-- `is_end`. -/
def isEnd (rtm : TriplesMatch) : Bool := rtm.iterator.isEmpty

/-- `next_match`. -/
def nextMatch (rtm : TriplesMatch) : TriplesMatch := { rtm with iterator := rtm.iterator.tail }

/-- `triple_present`. Reading the origin through a null pointer is `none`. -/
def triplePresent (source : TripleSource) (t : Triple) : Option Bool :=
  let s := convertResource t.subject
  let p := convertURI t.predicate
  let o := convertValue t.object
  if t.flags .C = true then
    t.origin.map fun origin =>
      source.hasStatement { s := s, p := p, o := o, c := convertResource origin }
  else
    some (source.hasStatement { s := s, p := p, o := o, c := none })

variable [Rasqal]

/-- The literal for the part of a statement at a position. -/
def literalAt (st : Statement) : Position → Option RasqalLiteral
  | .S => asLiteralResource (Rdf.Statement.getSubject st)
  | .P => asLiteralURI (Rdf.Statement.getPredicate st)
  | .O => asLiteral (Rdf.Statement.getObject st)
  | .C => asLiteralResource (Rdf.Statement.getContext st)

/-- One of the four cases of `bind_match`. Setting the value of a null variable is `none`. -/
def bindPart (bindings : Position → Option String) (parts : Position → Bool) (st : Statement)
    (vars : Variables) (pos : Position) : Option Variables :=
  if parts pos = true then
    (bindings pos).map fun var => Function.update vars var (literalAt st pos)
  else
    some vars

/-- `bind_match`. Reading a statement behind the end is `none`. -/
def bindMatch (rtm : TriplesMatch) (parts : Position → Bool) (vars : Variables) :
    Option Variables :=
  match rtm.iterator with
  | [] => none
  | st :: _ => [Position.S, .P, .O, .C].foldlM (bindPart rtm.bindings parts st) vars

/-- The loop in rasqal: the values of the variables for one match after the other. -/
def runMatch (parts : Position → Bool) : Nat → TriplesMatch → Variables → Option (List Variables)
  | 0, _, _ => none
  | fuel + 1, rtm, vars =>
    if isEnd rtm = true then some []
    else do
      let row ← bindMatch rtm parts vars
      let rows ← runMatch parts fuel (nextMatch rtm) row
      some (row :: rows)

/-- The parts rasqal asks `bind_match` for: those whose variable had no value at the start. -/
def requested (vars : Variables) (t : Triple) (pos : Position) : Bool :=
  match bindings t pos with
  | some var => (vars var).isNone
  | none => false

/-- The rows for a triple pattern. The loop tests for the end once for each statement and once
more. -/
def matchTriple (source : TripleSource) (vars : Variables) (t : Triple) :
    Option (List Variables) :=
  let rtm := initTriplesMatch source vars t
  runMatch (requested vars t) (rtm.iterator.length + 1) rtm vars

end RasqalAdapter

/-! ## `TupleQuery` -/

namespace SparqlService

open RasqalModel

/-- The results of a query: a value, which may be null, for each variable in each row. -/
structure Results (n : Nat) where
  names : Fin n → String
  names_injective : Function.Injective names
  rows : List (Fin n → Option RasqalLiteral)

/-- `RowType`, a map from names to values. -/
abbrev RowType := String → Option Rdf.Value

/-- The loop over the bindings of a row: `ConvertValue` of a null literal is `none`. -/
def readRow {n : Nat} (names : Fin n → String) (values : Fin n → Option RasqalLiteral) :
    Option RowType :=
  (List.finRange n).foldlM
    (fun row i => (values i).map fun l => Function.update row (names i) (some (convertValue l)))
    fun _ => none

/-- The loop of `TupleQuery` over the rows. The handler threads a state of its own; `none` is a read
through a null pointer. -/
def rowLoop {n : Nat} {S : Type} (names : Fin n → String) (rowHandler : S → RowType → S × Bool) :
    S → List (Fin n → Option RasqalLiteral) → Option S
  | s, [] => some s
  | s, values :: rest => do
    let row ← readRow names values
    let (s', next) := rowHandler s row
    if next = true then rowLoop names rowHandler s' rest else some s'

/-- `SparqlService::TupleQuery` for a query that is prepared and executed without an error. -/
def tupleQuery {n : Nat} {S : Type} (results : Results n) (rowHandler : S → RowType → S × Bool)
    (s : S) : Option S :=
  rowLoop results.names rowHandler s results.rows

end SparqlService

end CMarmotta
