import CMarmotta.Service.LevelDBSparqlService
import CMarmotta.Sparql.Proofs.GraphPatternProofs
import CMarmotta.Sparql.Proofs.TupleQueryProofs
import Mathlib.Data.String.Basic

/-!
# What the SPARQL service answers

All variables of a basic graph pattern have values in all rows, so that `TupleQuery` reads through no
null pointer, and the messages are the solutions of the pattern (`tupleQuery_answers`). If the stream
to the client breaks, the first of them have been written.
-/

namespace CMarmotta.LevelDBSparqlService

open SparqlService RasqalAdapter RasqalModel NestedLoops

/-! ## Messages -/

/-- The messages that are written to a stream that may break. -/
theorem written_foldl {α : Type} (w : ServerWriter α) (l : List α) :
    (l.foldl (fun w m => (w.write m).1) w).written =
      w.written ++ w.capacity.elim l fun n => l.take n := by
  induction l generalizing w with
  | nil => cases w.capacity <;> simp
  | cons m l ih =>
    obtain ⟨written, capacity⟩ := w
    rw [List.foldl_cons, ih]
    rcases capacity with _ | _ | n
    · simp [ServerWriter.write]
    · simp [ServerWriter.write]
    · simp [ServerWriter.write]

section Rows

variable {n : Nat} {results : Results n}

theorem mem_keys {x : String} : x ∈ keys results ↔ ∃ i, results.names i = x := by
  rw [keys, List.mem_mergeSort, List.mem_map]
  exact ⟨fun ⟨i, _, hi⟩ => ⟨i, hi⟩, fun ⟨i, hi⟩ => ⟨i, List.mem_finRange i, hi⟩⟩

/-- A map has its keys in order, each once. -/
theorem pairwise_keys (results : Results n) : (keys results).Pairwise (· < ·) := by
  have hsorted : (keys results).Pairwise fun a b => decide (a ≤ b) = true := by
    refine List.pairwise_mergeSort (fun a b c hab hbc => ?_) (fun a b => ?_) _
    · exact decide_eq_true (le_trans (of_decide_eq_true hab) (of_decide_eq_true hbc))
    · rw [Bool.or_eq_true, decide_eq_true_eq, decide_eq_true_eq]
      exact le_total a b
  have hnodup : (keys results).Nodup := by
    rw [keys, (List.mergeSort_perm _ _).nodup_iff]
    exact (List.nodup_finRange n).map results.names_injective
  exact (hsorted.and hnodup).imp fun h => lt_of_le_of_ne (of_decide_eq_true h.1) h.2

/-- The loop over the rows, if all variables have values in all of them. -/
theorem tupleQuery_of_bound (hbound : ∀ values ∈ results.rows, ∀ i, (values i).isSome = true)
    (result : ServerWriter SparqlResponse) :
    tupleQuery results result =
      some ((results.rows.map fun values =>
        response (keys results) (boundRow results.names values)).foldl
          (fun w m => (w.write m).1) result) := by
  have hreached : ∀ (rows : List (Fin n → Option RasqalLiteral)) (s : ServerWriter SparqlResponse),
      (∀ values ∈ rows, ∀ i, (values i).isSome = true) →
        ReachedBound results.names (writeRow (keys results)) s rows := by
    intro rows
    induction rows with
    | nil => exact fun _ _ => trivial
    | cons values rows ih =>
      intro s h
      obtain ⟨hvalues, hrest⟩ := List.forall_mem_cons.mp h
      exact ⟨hvalues, fun _ => ih _ hrest⟩
  rw [tupleQuery, SparqlService.tupleQuery,
    rowLoop_of_reachedBound results.names_injective _ _ _ (hreached _ result hbound)]
  congr 1
  rw [show writeRow (keys results) = fun w row => ((w.write (response (keys results) row)).1, true)
    from rfl, forEach_eq_foldl, List.foldl_map, List.foldl_map]

end Rows

/-! ## Solutions -/

section Solutions

variable {S : Finset Statement} {triples : List Triple} {cs : List (Option Statement)}
  {θ : Assignment}

/-- A solution has terms for exactly the variables of the pattern. -/
theorem ne_none_iff_of_solves (h : Solves S triples cs θ) (x : String) :
    θ x ≠ none ↔ ∃ t ∈ triples, x ∈ t.varNames := by
  constructor
  · intro hx
    exact (h.adds x hx).resolve_left (· rfl)
  · rintro ⟨t, ht, hname⟩
    obtain ⟨pos, hpos⟩ := Triple.mem_varNames.mp hname
    obtain ⟨i, hi, rfl⟩ := List.getElem_of_mem ht
    have hchoice := (List.forall₂_iff_get.mp h.instances).2 i hi (h.instances.length_eq ▸ hi)
    obtain ⟨st, hinstance⟩ := hchoice.exists_isInstance
    obtain ⟨l, hl, -⟩ := part_of_bindings hpos
    obtain ⟨v, hv, -⟩ := hinstance pos l hl
    rw [hinstance.apply hpos, hv]
    exact Option.some_ne_none v

/-- A message has the terms of an assignment, each variable once and in order. -/
structure Carries (response : SparqlResponse) (θ : Assignment) : Prop where
  pairwise : (response.map Prod.fst).Pairwise (· < ·)
  mem_iff : ∀ x v, (x, v) ∈ response ↔ θ x = some v

/-- The terms of an assignment for the keys of the rows. -/
def message (keys : List String) (θ : Assignment) : SparqlResponse :=
  keys.filterMap fun x => (θ x).map fun v => (x, v)

theorem carries_message {keys : List String} (hkeys : keys.Pairwise (· < ·))
    (hθ : ∀ x, θ x ≠ none ↔ x ∈ keys) : Carries (message keys θ) θ := by
  refine ⟨?_, fun x v => ?_⟩
  · rw [message, List.map_filterMap]
    have hself : (keys.filterMap fun x => ((θ x).map fun v => (x, v)).map Prod.fst) = keys := by
      have hsome : ∀ x ∈ keys, ((θ x).map fun v => (x, v)).map Prod.fst = some x := by
        intro x hx
        obtain ⟨v, hv⟩ := Option.ne_none_iff_exists'.mp ((hθ x).mpr hx)
        rw [hv]
        rfl
      rw [List.filterMap_congr hsome, List.filterMap_some]
    rw [hself]
    exact hkeys
  · rw [message, List.mem_filterMap]
    constructor
    · rintro ⟨y, -, hy⟩
      obtain ⟨v', hv', heq⟩ := Option.map_eq_some_iff.mp hy
      obtain ⟨rfl, rfl⟩ := Prod.mk.inj heq
      exact hv'
    · intro hx
      refine ⟨x, (hθ x).mp (hx ▸ Option.some_ne_none v), ?_⟩
      rw [hx]
      rfl

section SelectsAll

variable {n : Nat} {rows : List Variables} {results : Results n}

theorem SelectsAll.mem_keys_iff (h : SelectsAll triples rows results) {x : String} :
    x ∈ keys results ↔ ∃ t ∈ triples, x ∈ t.varNames :=
  mem_keys.trans (h.names x)

/-- The message of a row. -/
theorem response_boundRow (results : Results n) (row : Variables) :
    response (keys results) (boundRow results.names fun i => row (results.names i)) =
      message (keys results) (terms row) := by
  refine List.filterMap_congr fun x hx => ?_
  obtain ⟨i, rfl⟩ := mem_keys.mp hx
  rw [boundRow_apply results.names_injective, terms, Option.map_map, Option.map_map]
  rfl

/-- `TupleQuery` writes a message for each row, if the rows have values for exactly the variables of
the pattern. -/
theorem SelectsAll.written_tupleQuery (h : SelectsAll triples rows results)
    (hvalues : ∀ row ∈ rows, ∀ x, terms row x ≠ none ↔ ∃ t ∈ triples, x ∈ t.varNames)
    (capacity : Option Nat) :
    (tupleQuery results { capacity := capacity }).map ServerWriter.written =
      some (capacity.elim ((rows.map terms).map (message (keys results)))
        fun n => ((rows.map terms).map (message (keys results))).take n) := by
  have hbound : ∀ values ∈ results.rows, ∀ i, (values i).isSome = true := by
    intro values hmem i
    rw [h.rows] at hmem
    obtain ⟨row, hrow, rfl⟩ := List.mem_map.mp hmem
    have hterm := (hvalues row hrow _).mpr ((h.names _).mp ⟨i, rfl⟩)
    rw [terms, Option.ne_none_iff_isSome, Option.isSome_map] at hterm
    exact hterm
  have hresponses : (results.rows.map fun values =>
      response (keys results) (boundRow results.names values)) =
        (rows.map terms).map (message (keys results)) := by
    rw [h.rows, List.map_map, List.map_map]
    exact List.map_congr_left fun row _ => response_boundRow results row
  rw [tupleQuery_of_bound hbound, Option.map_some, written_foldl, hresponses]
  rfl

end SelectsAll

variable [Platform] [Rasqal] {memory : Arguments → Bool}
  {evaluate : Variables → List Triple → Option (List Variables)}

/-- After any calls of the persistence layer, rasqal has rows for a regular basic graph pattern, and
`TupleQuery` answers `SELECT *` with it by its solutions over the statements in the databases, one
message for each. If the stream breaks, the first of the messages have been written. -/
theorem tupleQuery_answers (ops : List Op) (hwf : ∀ s ∈ added ops, s.WellFormed)
    (hmemory : ∀ args, memory args = false)
    (heval : EvaluatesInOrder (LevelDBTripleSource (run ops) memory) evaluate)
    (hpattern : RegularPattern (added ops) triples) :
    ∃ rows, evaluate (fun _ => none) triples = some rows ∧
      ∀ {n : Nat} (results : Results n), SelectsAll triples rows results →
        ∃ responses, Enumerates (fun cs response =>
            ∃ θ, Solves (contents (run ops)) triples cs θ ∧ Carries response θ) responses ∧
          ∀ capacity, (tupleQuery results { capacity := capacity }).map ServerWriter.written =
            some (capacity.elim responses fun n => responses.take n) := by
  obtain ⟨rows, hrows, henumerates⟩ := exists_rows ops hwf hmemory heval hpattern
  have hvalues : ∀ row ∈ rows, ∀ x, terms row x ≠ none ↔ ∃ t ∈ triples, x ∈ t.varNames := by
    intro row hrow x
    obtain ⟨cs, hsolves⟩ := henumerates.exists_of_mem (List.mem_map_of_mem hrow)
    exact ne_none_iff_of_solves hsolves x
  refine ⟨rows, hrows, fun results hselects =>
    ⟨_, ?_, fun capacity => hselects.written_tupleQuery hvalues capacity⟩⟩
  refine henumerates.map (fun cs θ hsolves => ⟨θ, hsolves, ?_⟩) fun _ _ h => ?_
  · refine carries_message (pairwise_keys _) fun x => ?_
    rw [ne_none_iff_of_solves hsolves, hselects.mem_keys_iff]
  · obtain ⟨θ, hsolves, -⟩ := h
    exact ⟨θ, hsolves⟩

end Solutions

/-- The results for the rows of the pattern `joinPattern`. -/
def joinResults (rows : List Variables) : Results 5 where
  names := ["s", "p1", "o1", "p2", "o"].get
  names_injective := List.nodup_iff_injective_get.mp (by decide)
  rows := rows.map fun row i => row (["s", "p1", "o1", "p2", "o"].get i)

theorem selectsAll_joinResults (rows : List Variables) :
    SelectsAll joinPattern rows (joinResults rows) := by
  refine ⟨fun x => ?_, rfl⟩
  have hmem : (∃ i, (joinResults rows).names i = x) ↔ x ∈ ["s", "p1", "o1", "p2", "o"] :=
    (List.mem_iff_get (l := ["s", "p1", "o1", "p2", "o"])).symm
  have hnames : joinPattern.flatMap Triple.varNames = ["s", "p1", "o1", "o1", "p2", "o"] := by decide
  rw [hmem, ← List.mem_flatMap, hnames]
  simp

/-- The stream to the client breaks after one message. -/
theorem tupleQuery_answers_join :
    ∃ rows, joinLoops (fun _ => none) joinPattern = some rows ∧
      ∃ responses, Enumerates (fun cs response => ∃ θ,
          Solves (contents (run joinImport)) joinPattern cs θ ∧ Carries response θ) responses ∧
        (tupleQuery (joinResults rows) { capacity := some 1 }).map ServerWriter.written =
          some (responses.take 1) := by
  let _ := Rasqal.basic
  obtain ⟨rows, hrows, hanswers⟩ := tupleQuery_answers joinImport (by decide) (fun _ => rfl)
    (evaluatesInOrder_run _) regularPattern_join
  obtain ⟨responses, henumerates, hwritten⟩ := hanswers _ (selectsAll_joinResults rows)
  exact ⟨rows, hrows, responses, henumerates, hwritten (some 1)⟩

end CMarmotta.LevelDBSparqlService
