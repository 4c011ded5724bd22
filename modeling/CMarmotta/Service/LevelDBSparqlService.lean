import CMarmotta.Service.LevelDBService
import CMarmotta.Sparql.GraphPattern

/-!
# `persistence/leveldb_service.cc`: `LevelDBSparqlService`

The handler of `TupleQuery` copies each row of the results into a message and writes it, whether or
not the message before it could be written. What the results of a query are is up to rasqal. For
`SELECT *` with a basic graph pattern they have all variables of the pattern and one row for each of
its rows.
-/

namespace CMarmotta

/-- `message SparqlResponse`: variables with their values. -/
abbrev SparqlResponse := List (String × Value)

namespace LevelDBSparqlService

open SparqlService RasqalAdapter

/-- The loop over the entries of a row, where `keys` are the keys of the map in its order. -/
def response (keys : List String) (row : RowType) : SparqlResponse :=
  keys.filterMap fun key => (row key).map fun value => (key, value.internal)

/-- The handler of the rows, which goes on in any case. -/
def writeRow (keys : List String) (result : ServerWriter SparqlResponse) (row : RowType) :
    ServerWriter SparqlResponse × Bool :=
  ((result.write (response keys row)).1, true)

/-- The keys of the rows. A `std::map` has them in the order of the strings. -/
def keys {n : Nat} (results : Results n) : List String :=
  ((List.finRange n).map results.names).mergeSort fun a b => a ≤ b

/-- `LevelDBSparqlService::TupleQuery`, for the results of the query. -/
def tupleQuery {n : Nat} (results : Results n) (result : ServerWriter SparqlResponse) :
    Option (ServerWriter SparqlResponse) :=
  SparqlService.tupleQuery results (writeRow (keys results)) result

/-- The results for `SELECT *`, where `rows` are those for a basic graph pattern: rasqal names all
variables of the triples and no other, in any order, and has one row for each. -/
structure SelectsAll {n : Nat} (triples : List Triple) (rows : List Variables)
    (results : Results n) : Prop where
  names : ∀ x, (∃ i, results.names i = x) ↔ ∃ t ∈ triples, x ∈ t.varNames
  rows : results.rows = rows.map fun row i => row (results.names i)

end LevelDBSparqlService

end CMarmotta
