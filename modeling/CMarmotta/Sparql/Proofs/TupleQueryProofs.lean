import CMarmotta.Sparql.RasqalAdapter

/-!
# Rows of query results

`TupleQuery` converts the value of every variable of a row, bound or not. It delivers the rows to
the handler exactly if none of the rows that it comes to has an unbound variable
(`tupleQuery_delivers_iff`).
-/

namespace CMarmotta

namespace SparqlService

open RasqalModel

variable {n : Nat} {names : Fin n → String} {values : Fin n → Option RasqalLiteral}

/-! ## One row -/

/-- The row that maps the bound variables to their values. -/
def boundRow (names : Fin n → String) (values : Fin n → Option RasqalLiteral) : RowType :=
  fun x => ((List.finRange n).find? fun i => names i = x).bind fun i =>
    (values i).map convertValue

theorem boundRow_apply (hnames : Function.Injective names) (i : Fin n) :
    boundRow names values (names i) = (values i).map convertValue := by
  have hfind : ((List.finRange n).find? fun j => names j = names i) = some i := by
    have hsome : ((List.finRange n).find? fun j => names j = names i).isSome = true :=
      List.find?_isSome.mpr ⟨i, List.mem_finRange i, by simp⟩
    obtain ⟨j, hj⟩ := Option.isSome_iff_exists.mp hsome
    have hji : names j = names i := by simpa using List.find?_some hj
    rw [hj, hnames hji]
  rw [boundRow, hfind]
  rfl

theorem boundRow_of_not_name {x : String} (hx : ∀ i, names i ≠ x) :
    boundRow names values x = none := by
  have hfind : ((List.finRange n).find? fun j => names j = x) = none :=
    List.find?_eq_none.mpr fun j _ => by simpa using hx j
  rw [boundRow, hfind]
  rfl

/-- The loop over the bindings, if all of them have a value: it sets the names it comes to and
leaves all others. -/
theorem foldlM_bindings (hnames : Function.Injective names) (hbound : ∀ i, (values i).isSome = true)
    (is : List (Fin n)) (row : RowType) :
    ∃ row', is.foldlM (fun (row : RowType) i => (values i).map fun l =>
        Function.update row (names i) (some (convertValue l))) row = some row' ∧
      (∀ i ∈ is, row' (names i) = (values i).map convertValue) ∧
      ∀ x, (∀ i ∈ is, names i ≠ x) → row' x = row x := by
  induction is generalizing row with
  | nil => exact ⟨row, rfl, fun _ h => absurd h List.not_mem_nil, fun _ _ => rfl⟩
  | cons i is ih =>
    obtain ⟨l, hl⟩ := Option.isSome_iff_exists.mp (hbound i)
    obtain ⟨row', hrow', hset, hkeep⟩ :=
      ih (Function.update row (names i) (some (convertValue l)))
    refine ⟨row', ?_, ?_, ?_⟩
    · rw [List.foldlM_cons, hl]
      exact hrow'
    · intro j hj
      by_cases hmem : j ∈ is
      · exact hset j hmem
      · obtain rfl : j = i := (List.mem_cons.mp hj).resolve_right hmem
        have hother : ∀ k ∈ is, names k ≠ names j := by
          intro k hk hkj
          exact hmem (hnames hkj ▸ hk)
        rw [hkeep _ hother, Function.update_self, hl]
        rfl
    · intro x hx
      rw [hkeep x fun j hj => hx j (List.mem_cons_of_mem i hj),
        Function.update_of_ne (hx i List.mem_cons_self).symm]

theorem readRow_of_bound (hnames : Function.Injective names)
    (hbound : ∀ i, (values i).isSome = true) :
    readRow names values = some (boundRow names values) := by
  obtain ⟨row, hrow, hset, hkeep⟩ := foldlM_bindings hnames hbound (List.finRange n) fun _ => none
  rw [readRow, hrow]
  congr 1
  funext x
  by_cases hx : ∃ i, names i = x
  · obtain ⟨i, rfl⟩ := hx
    rw [hset i (List.mem_finRange i), boundRow_apply hnames]
  · have hx' : ∀ i, names i ≠ x := fun i hi => hx ⟨i, hi⟩
    rw [hkeep x fun i _ => hx' i, boundRow_of_not_name hx']

/-- A value that is null is dereferenced. -/
theorem readRow_of_unbound {i : Fin n} (hi : values i = none) : readRow names values = none := by
  have hloop : ∀ (is : List (Fin n)) (row : RowType), i ∈ is →
      is.foldlM (fun (row : RowType) i => (values i).map fun l =>
        Function.update row (names i) (some (convertValue l))) row = none := by
    intro is
    induction is with
    | nil => exact fun _ h => absurd h List.not_mem_nil
    | cons j is ih =>
      intro row hmem
      rw [List.foldlM_cons]
      cases hj : values j with
      | none => rfl
      | some l =>
        have hne : i ≠ j := by
          rintro rfl
          rw [hi] at hj
          cases hj
        exact ih _ ((List.mem_cons.mp hmem).resolve_left hne)
  exact hloop _ _ (List.mem_finRange i)

/-! ## All rows -/

/-- No row that the loop comes to has an unbound variable: not the first one, and none behind a row
for which the handler returns true. -/
def ReachedBound {S : Type} (names : Fin n → String) (rowHandler : S → RowType → S × Bool) :
    S → List (Fin n → Option RasqalLiteral) → Prop
  | _, [] => True
  | s, values :: rest =>
    (∀ i, (values i).isSome = true) ∧
      ((rowHandler s (boundRow names values)).2 = true →
        ReachedBound names rowHandler (rowHandler s (boundRow names values)).1 rest)

/-- The loop, as long as it comes to bound rows only. -/
theorem rowLoop_of_reachedBound {S : Type} (hnames : Function.Injective names)
    (rowHandler : S → RowType → S × Bool) (rows : List (Fin n → Option RasqalLiteral)) (s : S)
    (h : ReachedBound names rowHandler s rows) :
    rowLoop names rowHandler s rows =
      some (forEach rowHandler s (rows.map (boundRow names))) := by
  induction rows generalizing s with
  | nil => rfl
  | cons values rest ih =>
    obtain ⟨hbound, hrest⟩ := h
    rw [rowLoop, readRow_of_bound hnames hbound, List.map_cons, forEach]
    cases hnext : (rowHandler s (boundRow names values)).2 with
    | true =>
      simp only [bind, Option.bind, hnext, if_true]
      exact ih _ (hrest hnext)
    | false => simp [bind, Option.bind, hnext]

/-- If the loop comes through, it has come to bound rows only. -/
theorem reachedBound_of_rowLoop {S : Type} (hnames : Function.Injective names)
    (rowHandler : S → RowType → S × Bool) (rows : List (Fin n → Option RasqalLiteral)) (s : S)
    (h : (rowLoop names rowHandler s rows).isSome = true) :
    ReachedBound names rowHandler s rows := by
  induction rows generalizing s with
  | nil => trivial
  | cons values rest ih =>
    have hbound : ∀ i, (values i).isSome = true := by
      intro i
      by_contra hi
      have hnone : values i = none := by simpa using hi
      rw [rowLoop, readRow_of_unbound hnone] at h
      exact absurd h (by simp)
    refine ⟨hbound, fun hnext => ih _ ?_⟩
    rw [rowLoop, readRow_of_bound hnames hbound] at h
    simpa [bind, Option.bind, hnext] using h

/-- `TupleQuery` calls the handler for one row after the other until it returns false or the rows
end, with the bound variables of each row, and reads through no null pointer, if and only if no row
that it comes to has an unbound variable. -/
theorem tupleQuery_delivers_iff {S : Type} (results : Results n)
    (rowHandler : S → RowType → S × Bool) (s : S) :
    tupleQuery results rowHandler s =
      some (forEach rowHandler s (results.rows.map (boundRow results.names))) ↔
      ReachedBound results.names rowHandler s results.rows := by
  constructor
  · intro h
    refine reachedBound_of_rowLoop results.names_injective rowHandler results.rows s ?_
    rw [tupleQuery] at h
    rw [h]
    rfl
  · exact rowLoop_of_reachedBound results.names_injective rowHandler results.rows s

/-- Two rows of two variables, of which the second row has no value for the second one, as
`OPTIONAL` leaves it. -/
def optionalResults : Results 2 where
  names i := if i.val = 0 then "x" else "y"
  names_injective := by
    unfold Function.Injective
    decide
  rows :=
    [fun i => if i.val = 0 then some (.uri (.ofString "a")) else some (.uri (.ofString "b")),
      fun i => if i.val = 0 then some (.uri (.ofString "c")) else none]

/-- A handler that counts the rows sees the first one only, and then a null literal is read. -/
theorem tupleQuery_unbound :
    tupleQuery optionalResults (fun count _ => (count + 1, true)) 0 = none ∧
      tupleQuery optionalResults (fun count _ => (count + 1, true)) 0 ≠
        some (forEach (fun count _ => (count + 1, true)) 0
          (optionalResults.rows.map (boundRow optionalResults.names))) := by
  have hnone : tupleQuery optionalResults (fun count _ => (count + 1, true)) 0 = none := rfl
  rw [hnone]
  exact ⟨rfl, (Option.some_ne_none _).symm⟩

end SparqlService

end CMarmotta
