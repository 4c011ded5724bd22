import CMarmotta.Sparql.RasqalAdapter

/-!
# Basic graph patterns

How rasqal evaluates the triples of a basic graph pattern is not part of this repository. The
callbacks rely on it that rasqal takes one triple after another: a triple without a variable as
subject, predicate or object is looked up with `triple_present`; for any other one
`init_triples_match` reads the values that the triples before it have set, and `bind_match` sets
those of the variables that are new.
-/

namespace CMarmotta.RasqalAdapter

open RasqalModel

namespace Triple

/-- `is_exact` of rasqal: neither the subject nor the predicate nor the object is a variable. -/
def isExact (t : Triple) : Bool := [Position.S, .P, .O].all fun pos => (bindings t pos).isNone

/-- The variables of a triple. -/
def varNames (t : Triple) : List String := [Position.S, .P, .O, .C].filterMap (bindings t)

/-- The triple passes an argument at the position when the variables in `bound` have values. -/
def fixes (t : Triple) (bound : List String) (pos : Position) : Bool :=
  match t.part pos with
  | none => false
  | some l =>
    match asVariable l with
    | some x => bound.contains x
    | none => true

/-- The arguments that the triple passes are the leading ones of an index. -/
def fixesLeading (t : Triple) (bound : List String) : Bool :=
  !(t.fixes bound .O &&
    ((t.fixes bound .S && !t.fixes bound .P) || (!t.fixes bound .S && t.fixes bound .C)))

/-- The literals of a triple that are no variables. -/
def constants (t : Triple) : List RasqalLiteral :=
  ([Position.S, .P, .O, .C].filterMap t.part).filter fun l => (asVariable l).isNone

end Triple

/-- What is relied on of rasqal, where `evaluate` gives the rows for the triples of a basic graph
pattern when some variables have values already; `none` is a read through a null pointer in a
callback. Rasqal takes one triple after another. If an exact one is present, it goes on with the
next triple; for any other it does so for each match, with the values that the match has set. -/
structure EvaluatesInOrder [Rasqal] (source : TripleSource)
    (evaluate : Variables → List Triple → Option (List Variables)) : Prop where
  nil : ∀ vars, evaluate vars [] = some [vars]
  exact : ∀ vars t ts, t.isExact = true → evaluate vars (t :: ts) =
    (triplePresent source t).bind fun found =>
      if found = true then evaluate vars ts else some []
  other : ∀ vars t ts, t.isExact = false → evaluate vars (t :: ts) =
    (matchTriple source vars t).bind fun rows =>
      (rows.mapM fun row => evaluate row ts).map List.flatten

end CMarmotta.RasqalAdapter
