import Mathlib.Data.List.Forall2
import Mathlib.Data.List.Nodup
import Mathlib.Data.List.Perm.Subperm

/-!
# Nested loops

There is one loop for each element of a list. A loop goes through the matches of its element in the
state that the loops around it have left, and each match leaves a state for the loops inside. If each
loop goes through all matches once, the innermost one comes to all sequences of matches once
(`run_enumerates`).
-/

namespace NestedLoops

variable {V T A : Type}

/-- The states that the innermost loop comes to, where `step` is one loop; `none` if one of the loops
fails. -/
def run (step : V → T → Option (List V)) : V → List T → Option (List V)
  | v, [] => some [v]
  | v, t :: ts => do
    let rows ← step v t
    let parts ← rows.mapM fun row => run step row ts
    return parts.flatten

/-- One match after another, each in the state that the one before has left. -/
inductive Path (M : V → T → A → V → Prop) : V → List T → List A → V → Prop
  | nil (v : V) : Path M v [] [] v
  | cons {v v' v'' : V} {t : T} {ts : List T} {a : A} {as : List A} (h : M v t a v')
      (hrest : Path M v' ts as v'') : Path M v (t :: ts) (a :: as) v''

/-- The rows are one result for each match, and nothing else. -/
def Enumerates (P : A → V → Prop) (rows : List V) : Prop :=
  ∃ matching : List A, matching.Nodup ∧ (∀ a, a ∈ matching ↔ ∃ v, P a v) ∧
    List.Forall₂ P matching rows

theorem Enumerates.map {W : Type} {P : A → V → Prop} {Q : A → W → Prop} {f : V → W} {rows : List V}
    (h : Enumerates P rows) (hto : ∀ a v, P a v → Q a (f v)) (hof : ∀ a w, Q a w → ∃ v, P a v) :
    Enumerates Q (rows.map f) := by
  obtain ⟨matching, hnodup, hmem, hforall⟩ := h
  refine ⟨matching, hnodup, fun a => (hmem a).trans ⟨?_, ?_⟩, ?_⟩
  · rintro ⟨v, hv⟩
    exact ⟨f v, hto a v hv⟩
  · rintro ⟨w, hw⟩
    exact hof a w hw
  · exact List.forall₂_map_right_iff.mpr (hforall.imp hto)

theorem Enumerates.exists_of_mem {P : A → V → Prop} {rows : List V} (h : Enumerates P rows) {v : V}
    (hv : v ∈ rows) : ∃ a, P a v := by
  obtain ⟨matching, -, -, hforall⟩ := h
  induction hforall with
  | nil => cases hv
  | @cons a v' _ _ ha _ ih =>
    rcases List.mem_cons.mp hv with rfl | hv
    · exact ⟨a, ha⟩
    · exact ih hv

section Run

variable {step : V → T → Option (List V)} {M : V → T → A → V → Prop}

/-- The loops inside, for each of the states that a loop leaves. -/
theorem exists_mapM_run {v : V} {t : T} {ts : List T}
    (hfun : ∀ a v₁ v₂, M v t a v₁ → M v t a v₂ → v₁ = v₂) {matching : List A} {rows : List V}
    (hforall : List.Forall₂ (M v t) matching rows) (hnodup : matching.Nodup)
    (hinner : ∀ a row, M v t a row → ∃ rows', run step row ts = some rows' ∧
      Enumerates (Path M row ts) rows') :
    ∃ parts, rows.mapM (fun row => run step row ts) = some parts ∧
      ∃ paths : List (List A), paths.Nodup ∧
        (∀ p, p ∈ paths ↔ ∃ a ∈ matching, ∃ as v'', p = a :: as ∧ Path M v (t :: ts) p v'') ∧
        List.Forall₂ (Path M v (t :: ts)) paths parts.flatten := by
  induction hforall with
  | nil =>
    refine ⟨[], rfl, [], List.nodup_nil, fun p => ?_, .nil⟩
    simp
  | @cons a row matching rows ha _ ih =>
    obtain ⟨hnotin, hnodup⟩ := List.nodup_cons.mp hnodup
    obtain ⟨parts, hparts, paths, hpaths, hmem, hall⟩ := ih hnodup
    obtain ⟨rows', hrows', inner, hinodup, himem, hiall⟩ := hinner a row ha
    refine ⟨rows' :: parts, ?_, inner.map (a :: ·) ++ paths, ?_, fun p => ?_, ?_⟩
    · rw [List.mapM_cons, hrows', hparts]
      rfl
    · refine List.nodup_append.mpr ⟨hinodup.map fun as as' h => (List.cons.inj h).2, hpaths, ?_⟩
      rintro p hp q hq rfl
      obtain ⟨as, -, rfl⟩ := List.mem_map.mp hp
      obtain ⟨a', ha', as', v'', hcons, -⟩ := (hmem _).mp hq
      exact hnotin ((List.cons.inj hcons).1 ▸ ha')
    · rw [List.mem_append, List.mem_map, hmem, List.exists_mem_cons_iff]
      refine or_congr ⟨?_, ?_⟩ Iff.rfl
      · rintro ⟨as, has, rfl⟩
        obtain ⟨v'', hpath⟩ := (himem as).mp has
        exact ⟨as, v'', rfl, .cons ha hpath⟩
      · rintro ⟨as, v'', rfl, hpath⟩
        cases hpath with
        | cons h hrest =>
          obtain rfl := hfun a _ _ ha h
          exact ⟨as, (himem as).mpr ⟨v'', hrest⟩, rfl⟩
    · rw [List.flatten_cons]
      refine List.rel_append ?_ hall
      exact List.forall₂_map_left_iff.mpr (hiall.imp fun _ _ hpath => .cons ha hpath)

/-- If each loop goes through all matches once, wherever `I` holds, the innermost loop comes to all
sequences of matches once. -/
theorem run_enumerates {I : V → List T → Prop}
    (hstep : ∀ v t ts, I v (t :: ts) → ∃ rows, step v t = some rows ∧ Enumerates (M v t) rows)
    (hnext : ∀ v t ts a v', I v (t :: ts) → M v t a v' → I v' ts)
    (hfun : ∀ v t a v₁ v₂, M v t a v₁ → M v t a v₂ → v₁ = v₂) {v : V} {ts : List T} (hI : I v ts) :
    ∃ rows, run step v ts = some rows ∧ Enumerates (Path M v ts) rows := by
  induction ts generalizing v with
  | nil =>
    refine ⟨[v], rfl, [[]], List.nodup_singleton _, fun p => ?_, .cons (.nil v) .nil⟩
    rw [List.mem_singleton]
    constructor
    · rintro rfl
      exact ⟨v, .nil v⟩
    · rintro ⟨v', hpath⟩
      cases hpath
      rfl
  | cons t ts ih =>
    obtain ⟨rows, hrows, matching, hnodup, hmem, hforall⟩ := hstep v t ts hI
    obtain ⟨parts, hparts, paths, hpaths, hpmem, hall⟩ :=
      exists_mapM_run (hfun v t) hforall hnodup fun a row ha => ih (hnext v t ts a row hI ha)
    refine ⟨parts.flatten, ?_, paths, hpaths, fun p => (hpmem p).trans ⟨?_, ?_⟩, hall⟩
    · simp only [run, hrows, hparts, bind, Option.bind]
      rfl
    · rintro ⟨a, -, as, v'', -, hpath⟩
      exact ⟨v'', hpath⟩
    · rintro ⟨v'', hpath⟩
      cases hpath with
      | @cons _ v' _ _ _ a as h hrest => exact ⟨a, (hmem a).mpr ⟨v', h⟩, as, v'', rfl, .cons h hrest⟩

end Run

/-! ## The order of the loops -/

/-- What is found for each element of a list can be put into the order of a permutation of it. -/
theorem exists_reorder {ts ts' : List T} (h : ts.Perm ts') :
    ∃ f : List A → List A, (∀ as, as.length = ts.length → (f as).length = ts'.length) ∧
      (∀ as bs, as.length = ts.length → bs.length = ts.length → f as = f bs → as = bs) ∧
      ∀ (R : T → A → Prop) as, List.Forall₂ R ts as → List.Forall₂ R ts' (f as) := by
  induction h with
  | nil => exact ⟨id, fun _ h => h, fun _ _ _ _ h => h, fun _ _ h => h⟩
  | @cons t ts ts' _ ih =>
    obtain ⟨f, hlength, hinj, hforall⟩ := ih
    refine ⟨fun as => as.take 1 ++ f (as.drop 1), ?_, ?_, ?_⟩
    · rintro (_ | ⟨a, as⟩) has
      · cases has
      · simpa using hlength as (Nat.succ.inj has)
    · rintro (_ | ⟨a, as⟩) (_ | ⟨b, bs⟩) has hbs heq
      · rfl
      · cases has
      · cases hbs
      · obtain ⟨rfl, hrest⟩ : a = b ∧ f as = f bs := by simpa using heq
        rw [hinj as bs (Nat.succ.inj has) (Nat.succ.inj hbs) hrest]
    · rintro R _ (_ | ⟨ha, has⟩)
      exact .cons ha (hforall R _ has)
  | swap t t' ts =>
    let swap : List A → List A
      | a :: b :: as => b :: a :: as
      | as => as
    refine ⟨swap, ?_, ?_, ?_⟩
    · rintro (_ | ⟨a, _ | ⟨b, as⟩⟩) has
      · exact has
      · exact has
      · exact has
    · rintro (_ | ⟨a, _ | ⟨a', as⟩⟩) (_ | ⟨b, _ | ⟨b', bs⟩⟩) has hbs heq
      any_goals first | cases has | cases hbs
      simp only [swap, List.cons.injEq] at heq ⊢
      exact ⟨heq.2.1, heq.1, heq.2.2⟩
    · rintro R _ (_ | ⟨ha, _ | ⟨hb, has⟩⟩)
      exact .cons hb (.cons ha has)
  | trans _ _ ih ih' =>
    obtain ⟨f, hlength, hinj, hforall⟩ := ih
    obtain ⟨g, hlength', hinj', hforall'⟩ := ih'
    refine ⟨g ∘ f, fun as has => hlength' _ (hlength as has), fun as bs has hbs heq => ?_, ?_⟩
    · exact hinj as bs has hbs (hinj' _ _ (hlength as has) (hlength bs hbs) heq)
    · exact fun R as has => hforall' R _ (hforall R as has)

/-- Two relations have the same results, as often, if each match of one is a match of the other with
the same result. -/
theorem Enumerates.perm {B : Type} {P : A → V → Prop} {Q : B → V → Prop} {rows rows' : List V}
    (h : Enumerates P rows) (h' : Enumerates Q rows') {f : A → B} {g : B → A}
    (hf : ∀ a v, P a v → Q (f a) v) (hg : ∀ b v, Q b v → P (g b) v)
    (hfinj : ∀ a a' v v', P a v → P a' v' → f a = f a' → a = a')
    (hginj : ∀ b b' v v', Q b v → Q b' v' → g b = g b' → b = b')
    (hfun : ∀ b v v', Q b v → Q b v' → v = v') : rows.Perm rows' := by
  obtain ⟨matching, hnodup, hmem, hforall⟩ := h
  obtain ⟨matching', hnodup', hmem', hforall'⟩ := h'
  have hmap : (matching.map f).Nodup := by
    refine hnodup.map_on fun a ha a' ha' heq => ?_
    obtain ⟨⟨v, hv⟩, v', hv'⟩ := And.intro ((hmem a).mp ha) ((hmem a').mp ha')
    exact hfinj a a' v v' hv hv' heq
  have hmap' : (matching'.map g).Nodup := by
    refine hnodup'.map_on fun b hb b' hb' heq => ?_
    obtain ⟨⟨v, hv⟩, v', hv'⟩ := And.intro ((hmem' b).mp hb) ((hmem' b').mp hb')
    exact hginj b b' v v' hv hv' heq
  have hsub : matching.map f ⊆ matching' := by
    intro b hb
    obtain ⟨a, ha, rfl⟩ := List.mem_map.mp hb
    obtain ⟨v, hv⟩ := (hmem a).mp ha
    exact (hmem' _).mpr ⟨v, hf a v hv⟩
  have hsub' : matching'.map g ⊆ matching := by
    intro a ha
    obtain ⟨b, hb, rfl⟩ := List.mem_map.mp ha
    obtain ⟨v, hv⟩ := (hmem' b).mp hb
    exact (hmem _).mpr ⟨v, hg b v hv⟩
  have hlength : matching'.length ≤ (matching.map f).length := by
    have hle := (hmap'.subperm hsub').length_le
    rwa [List.length_map] at hle ⊢
  have hperm := (hmap.subperm hsub).perm_of_length_le hlength
  obtain ⟨rows'', hrows'', hperm'⟩ := List.perm_comp_forall₂ hperm hforall'
  have hsame : List.Forall₂ Q (matching.map f) rows := List.forall₂_map_left_iff.mpr (hforall.imp hf)
  obtain rfl : rows = rows'' := List.right_unique_forall₂' (fun b v v' => hfun b v v') hsame hrows''
  exact hperm'

end NestedLoops
