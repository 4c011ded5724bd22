import CMarmotta.Lib.KeyValue
import Mathlib.Data.Finset.Card

/-!
# Batches and range scans of an ordered store

A batch acts on every key by its last operation on that key (`getElem?_write`), and a scan that
seeks a lower bound and stops at the first key above an upper bound visits exactly the entries in
between (`takeWhile_seek`). See `CMarmotta.Lib.KeyValue` for the definitions.
-/

namespace KV

variable {κ ν : Type} {cmp : κ → κ → Ordering}

/-! ## Batches -/

section Batch

variable [DecidableEq κ]

@[simp] theorem outcome_nil (k : κ) : outcome ([] : WriteBatch κ ν) k = none := rfl

theorem outcome_cons (op : BatchOp κ ν) (ops : WriteBatch κ ν) (k : κ) :
    outcome (op :: ops) k = (outcome ops k).or (if op.key = k then some op.value? else none) := rfl

theorem outcome_append (b b' : WriteBatch κ ν) (k : κ) :
    outcome (b ++ b') k = (outcome b' k).or (outcome b k) := by
  induction b with
  | nil => simp
  | cons op ops ih => rw [List.cons_append, outcome_cons, ih, outcome_cons, Option.or_assoc]

theorem outcome_deletes {α : Type} (key : α → κ) (l : List α) (k : κ) :
    outcome (l.map fun a => (.delete (key a) : BatchOp κ ν)) k =
      if ∃ a ∈ l, key a = k then some none else none := by
  induction l with
  | nil => simp
  | cons a l ih =>
    rw [List.map_cons, outcome_cons, ih]
    by_cases hl : ∃ b ∈ l, key b = k <;> by_cases ha : key a = k <;>
      simp [hl, ha, BatchOp.key, BatchOp.value?]

/-- What a batch makes of a key is made by one of its operations. -/
theorem exists_mem_of_outcome {batch : WriteBatch κ ν} {k : κ} {o : Option ν}
    (h : outcome batch k = some o) : ∃ op ∈ batch, op.key = k ∧ op.value? = o := by
  induction batch with
  | nil => cases h
  | cons op ops ih =>
    rw [outcome_cons, Option.or_eq_some_iff] at h
    rcases h with h | ⟨-, h⟩
    · obtain ⟨op', hop', hkey, hvalue⟩ := ih h
      exact ⟨op', List.mem_cons_of_mem op hop', hkey, hvalue⟩
    · by_cases hkey : op.key = k
      · rw [if_pos hkey] at h
        exact ⟨op, List.mem_cons_self, hkey, Option.some.inj h⟩
      · rw [if_neg hkey] at h
        cases h

variable [Std.TransCmp cmp] [Std.LawfulEqCmp cmp]

theorem getElem?_applyOp (db : DB κ ν cmp) (op : BatchOp κ ν) (k : κ) :
    (applyOp db op)[k]? = if op.key = k then op.value? else db[k]? := by
  cases op with
  | put k' v =>
    by_cases h : k' = k <;>
      simp [applyOp, BatchOp.key, BatchOp.value?, Std.ExtTreeMap.getElem?_insert, h]
  | delete k' =>
    by_cases h : k' = k <;>
      simp [applyOp, BatchOp.key, BatchOp.value?, Std.ExtTreeMap.getElem?_erase, h]

/-- A key holds what the batch makes of it, or what it held before. -/
theorem getElem?_write (db : DB κ ν cmp) (batch : WriteBatch κ ν) (k : κ) :
    (write db batch)[k]? = (outcome batch k).getD db[k]? := by
  induction batch generalizing db with
  | nil => rfl
  | cons op ops ih =>
    have hcons : write db (op :: ops) = write (applyOp db op) ops := rfl
    rw [hcons, ih, getElem?_applyOp, outcome_cons]
    cases outcome ops k <;> by_cases h : op.key = k <;> simp [h]

/-- A batch changes nothing exactly when every key it is about holds the outcome already. -/
theorem write_eq_self_iff (db : DB κ ν cmp) (batch : WriteBatch κ ν) :
    write db batch = db ↔ ∀ k o, outcome batch k = some o → db[k]? = o := by
  constructor
  · intro h k o ho
    have hk := getElem?_write db batch k
    rw [h, ho, Option.getD_some] at hk
    exact hk
  · intro h
    refine Std.ExtTreeMap.ext_getElem? fun k => ?_
    rw [getElem?_write]
    cases ho : outcome batch k with
    | none => rfl
    | some o => rw [h k o ho, Option.getD_some]

/-- A batch that is written twice changes nothing the second time. -/
theorem write_write_self (db : DB κ ν cmp) (batch : WriteBatch κ ν) :
    write (write db batch) batch = write db batch := by
  rw [write_eq_self_iff]
  intro k o ho
  rw [getElem?_write, ho, Option.getD_some]

end Batch

/-! ## The last writer of a key -/

section LastWrite

variable {β : Type} {f g : β → Option (Option ν)}

theorem lastWrite_append (f : β → Option (Option ν)) (l l' : List β) :
    lastWrite f (l ++ l') = (lastWrite f l').or (lastWrite f l) := by
  induction l with
  | nil => simp [lastWrite]
  | cons b l ih => rw [List.cons_append, lastWrite, ih, lastWrite, Option.or_assoc]

theorem lastWrite_concat (f : β → Option (Option ν)) (l : List β) (b : β) :
    lastWrite f (l ++ [b]) = (f b).or (lastWrite f l) := by
  rw [lastWrite_append, lastWrite, lastWrite, Option.none_or]

theorem outcome_flatMap [DecidableEq κ] (ops : β → WriteBatch κ ν) (l : List β) (k : κ) :
    outcome (l.flatMap ops) k = lastWrite (fun b => outcome (ops b) k) l := by
  induction l with
  | nil => rfl
  | cons b l ih => rw [List.flatMap_cons, outcome_append, ih, lastWrite]

theorem lastWrite_map {ν' : Type} (h : Option ν → Option ν') (f : β → Option (Option ν))
    (l : List β) : lastWrite (fun b => (f b).map h) l = (lastWrite f l).map h := by
  induction l with
  | nil => rfl
  | cons b l ih => rw [lastWrite, ih, lastWrite, Option.map_or]

theorem lastWrite_congr {l : List β} (h : ∀ b ∈ l, f b = g b) : lastWrite f l = lastWrite g l := by
  induction l with
  | nil => rfl
  | cons b l ih =>
    rw [lastWrite, lastWrite, h b List.mem_cons_self,
      ih fun c hc => h c (List.mem_cons_of_mem _ hc)]

theorem lastWrite_filter {p : β → Bool} {l : List β} (h : ∀ b ∈ l, p b = false → f b = none) :
    lastWrite f (l.filter p) = lastWrite f l := by
  induction l with
  | nil => rfl
  | cons b l ih =>
    have ih' := ih fun c hc => h c (List.mem_cons_of_mem _ hc)
    cases hp : p b with
    | true => rw [List.filter_cons_of_pos hp, lastWrite, lastWrite, ih']
    | false =>
      rw [List.filter_cons_of_neg (by simp [hp]), ih', lastWrite, h b List.mem_cons_self hp,
        Option.or_none]

theorem lastWrite_eq_none_iff {l : List β} : lastWrite f l = none ↔ ∀ b ∈ l, f b = none := by
  induction l with
  | nil => simp [lastWrite]
  | cons b l ih =>
    rw [lastWrite, Option.or_eq_none_iff, ih, List.forall_mem_cons]
    exact and_comm

theorem lastWrite_eq_some_iff {l : List β} {o : Option ν} :
    lastWrite f l = some o ↔
      ∃ pre b post, l = pre ++ b :: post ∧ f b = some o ∧ ∀ c ∈ post, f c = none := by
  constructor
  · intro h
    induction l with
    | nil => exact absurd h (by simp [lastWrite])
    | cons a l ih =>
      rw [lastWrite, Option.or_eq_some_iff] at h
      rcases h with h | ⟨hnone, ha⟩
      · obtain ⟨pre, b, post, rfl, hb, hpost⟩ := ih h
        exact ⟨a :: pre, b, post, rfl, hb, hpost⟩
      · exact ⟨[], a, l, rfl, ha, lastWrite_eq_none_iff.mp hnone⟩
  · rintro ⟨pre, b, post, rfl, hb, hpost⟩
    rw [lastWrite_append, lastWrite, lastWrite_eq_none_iff.mpr hpost, hb]
    rfl

/-- Writers that only delete leave nothing exactly when one of them deletes. -/
theorem lastWrite_getD_of_deletes {l : List β} (v : Option ν)
    (h : ∀ b ∈ l, ∀ w, f b ≠ some (some w)) [Decidable (∃ b ∈ l, f b = some none)] :
    (lastWrite f l).getD v = if ∃ b ∈ l, f b = some none then none else v := by
  cases hl : lastWrite f l with
  | none =>
    rw [lastWrite_eq_none_iff] at hl
    rw [if_neg, Option.getD_none]
    rintro ⟨b, hb, hdel⟩
    rw [hl b hb] at hdel
    cases hdel
  | some o =>
    obtain ⟨pre, b, post, rfl, hb, -⟩ := lastWrite_eq_some_iff.mp hl
    cases o with
    | some w => exact absurd hb (h b (by simp) w)
    | none => rw [if_pos ⟨b, by simp, hb⟩, Option.getD_some]

section FlatMap

variable {μ : Type} [DecidableEq κ] [Std.TransCmp cmp] [Std.LawfulEqCmp cmp]

/-- A key holds what the last writer that is about it leaves. -/
theorem getElem?_write_flatMap (db : DB κ ν cmp) {ops : β → WriteBatch κ ν} {k : κ}
    {f : β → Option (Option μ)} {g : μ → ν}
    (h : ∀ b, outcome (ops b) k = (f b).map (Option.map g)) (l : List β) :
    (write db (l.flatMap ops))[k]? = ((lastWrite f l).map (Option.map g)).getD db[k]? := by
  rw [getElem?_write, outcome_flatMap, ← lastWrite_map, lastWrite_congr fun b _ => h b]

/-- Writers change nothing exactly when every key holds already what the last writer that is about
it leaves. -/
theorem write_flatMap_eq_self_iff (db : DB κ ν cmp) {ops : β → WriteBatch κ ν}
    {f : κ → β → Option (Option μ)} {g : μ → ν}
    (h : ∀ k b, outcome (ops b) k = (f k b).map (Option.map g)) (l : List β) :
    write db (l.flatMap ops) = db ↔
      ∀ pre b post k o, l = pre ++ b :: post → f k b = some o → (∀ c ∈ post, f k c = none) →
        db[k]? = o.map g := by
  have hlast : ∀ k, outcome (l.flatMap ops) k = (lastWrite (f k) l).map (Option.map g) := by
    intro k
    rw [outcome_flatMap, ← lastWrite_map, lastWrite_congr fun b _ => h k b]
  rw [write_eq_self_iff]
  simp only [hlast, Option.map_eq_some_iff, lastWrite_eq_some_iff]
  constructor
  · intro hall pre b post k o hl hb hpost
    exact hall k _ ⟨o, ⟨pre, b, post, hl, hb, hpost⟩, rfl⟩
  · rintro hall k _ ⟨o, ⟨pre, b, post, hl, hb, hpost⟩, rfl⟩
    exact hall pre b post k o hl hb hpost

end FlatMap

/-- Behind the last put, a key is deleted, or keeps what was there. -/
theorem lastWrite_getD_append_of_deletes {pre post : List β} (v : Option ν)
    (hpost : ∀ b ∈ post, ∀ w, f b ≠ some (some w)) [Decidable (∃ b ∈ post, f b = some none)] :
    (lastWrite f (pre ++ post)).getD v =
      if ∃ b ∈ post, f b = some none then none else (lastWrite f pre).getD v := by
  rw [lastWrite_append, Option.getD_or, lastWrite_getD_of_deletes _ hpost]

/-- A list with a put can be split behind its last put. -/
theorem exists_last_put {l : List β} (h : ∃ b ∈ l, ∃ w, f b = some (some w)) :
    ∃ pre b w post, l = (pre ++ [b]) ++ post ∧ f b = some (some w) ∧
      ∀ c ∈ post, ∀ w, f c ≠ some (some w) := by
  induction l using List.reverseRecOn with
  | nil =>
    obtain ⟨b, hb, -⟩ := h
    exact absurd hb List.not_mem_nil
  | append_singleton l a ih =>
    by_cases ha : ∃ w, f a = some (some w)
    · obtain ⟨w, hw⟩ := ha
      exact ⟨l, a, w, [], (List.append_nil _).symm, hw, by simp⟩
    · have hl : ∃ b ∈ l, ∃ w, f b = some (some w) := by
        obtain ⟨b, hb, hput⟩ := h
        rcases List.mem_append.mp hb with hb | hb
        · exact ⟨b, hb, hput⟩
        · rw [List.mem_singleton.mp hb] at hput
          exact absurd hput ha
      obtain ⟨pre, b, w, post, rfl, hb, hpost⟩ := ih hl
      refine ⟨pre, b, w, post ++ [a], List.append_assoc _ _ _, hb, fun c hc w' hw' => ?_⟩
      rcases List.mem_append.mp hc with hc | hc
      · exact hpost c hc w' hw'
      · rw [List.mem_singleton.mp hc] at hw'
        exact ha ⟨w', hw'⟩

/-! ## Deletes that find nothing -/

theorem lastWrite_effective_of_put {l : List β} {w : ν} (h : lastWrite f l = some (some w))
    (v : Option ν) : lastWrite (effective f v) l = some (some w) := by
  obtain ⟨pre, b, post, rfl, hb, hpost⟩ := lastWrite_eq_some_iff.mp h
  refine lastWrite_eq_some_iff.mpr ⟨pre, b, post, rfl, ?_, fun c hc => ?_⟩
  · cases v <;> simp [effective, hb]
  · cases v <;> simp [effective, hpost c hc]

theorem effective_eq_none {b : β} (h : ∀ w, f b ≠ some (some w)) : effective f none b = none := by
  rcases hb : f b with _ | _ | w
  · simp [effective, hb]
  · simp [effective, hb]
  · exact absurd hb (h w)

/-- If the last writer deletes and none puts, the key has no value, whatever it had. -/
theorem lastWrite_effective_of_deletes {l : List β} (hlast : lastWrite f l = some none)
    (hnoput : ∀ b ∈ l, ∀ w, f b ≠ some (some w)) (v : Option ν) :
    (lastWrite (effective f v) l).getD v = none := by
  cases v with
  | none =>
    rw [lastWrite_eq_none_iff.mpr fun b hb => effective_eq_none (hnoput b hb)]
    rfl
  | some v => rw [show effective f (some v) = f from rfl, hlast, Option.getD_some]

/-- Two lists of writers that put the same values leave the same exactly when, behind the last put
or from the start on, the one deletes the key if the other does. -/
theorem lastWrite_getD_eq_iff (hput : ∀ b w, f b = some (some w) ↔ g b = some (some w))
    (l : List β) (v : Option ν) :
    (lastWrite f l).getD v = (lastWrite g l).getD v ↔
      ∀ pre post, l = pre ++ post → (∀ b ∈ post, ∀ w, f b ≠ some (some w)) →
        (pre = [] ∧ v ≠ none ∨ ∃ pre' b w, pre = pre' ++ [b] ∧ f b = some (some w)) →
        ((∃ b ∈ post, f b = some none) ↔ ∃ b ∈ post, g b = some none) := by
  classical
  have hput' : ∀ post : List β, (∀ b ∈ post, ∀ w, f b ≠ some (some w)) →
      ∀ b ∈ post, ∀ w, g b ≠ some (some w) := fun post hpost b hb w hw =>
    hpost b hb w ((hput b w).mpr hw)
  -- Where the split may be, both sides have left the same value.
  have hvalue : ∀ pre, (pre = [] ∧ v ≠ none ∨
      ∃ pre' b w, pre = pre' ++ [b] ∧ f b = some (some w)) →
      ∃ w, (lastWrite f pre).getD v = some w ∧ (lastWrite g pre).getD v = some w := by
    rintro pre (⟨rfl, hv⟩ | ⟨pre', b, w, rfl, hb⟩)
    · obtain ⟨w, rfl⟩ := Option.ne_none_iff_exists'.mp hv
      exact ⟨w, rfl, rfl⟩
    · refine ⟨w, ?_, ?_⟩
      · rw [lastWrite_append, lastWrite, lastWrite, hb]
        rfl
      · rw [lastWrite_append, lastWrite, lastWrite, (hput b w).mp hb]
        rfl
  constructor
  · rintro heq pre post rfl hpost hpre
    obtain ⟨w, hwf, hwg⟩ := hvalue pre hpre
    rw [lastWrite_getD_append_of_deletes v hpost,
      lastWrite_getD_append_of_deletes v (hput' post hpost), hwf, hwg] at heq
    by_cases h1 : ∃ b ∈ post, f b = some none <;> by_cases h2 : ∃ b ∈ post, g b = some none <;>
      simp [h1, h2] at heq ⊢
  · intro h
    by_cases hex : ∃ b ∈ l, ∃ w, f b = some (some w)
    · obtain ⟨pre, b, w, post, rfl, hb, hpost⟩ := exists_last_put hex
      have hpre : pre ++ [b] = [] ∧ v ≠ none ∨
          ∃ pre' b' w', pre ++ [b] = pre' ++ [b'] ∧ f b' = some (some w') :=
        Or.inr ⟨pre, b, w, rfl, hb⟩
      obtain ⟨w', hwf, hwg⟩ := hvalue _ hpre
      rw [lastWrite_getD_append_of_deletes v hpost,
        lastWrite_getD_append_of_deletes v (hput' post hpost), hwf, hwg]
      simp only [h _ post rfl hpost hpre]
    · have hnoput : ∀ b ∈ l, ∀ w, f b ≠ some (some w) := fun b hb w hw => hex ⟨b, hb, w, hw⟩
      rw [lastWrite_getD_of_deletes v hnoput, lastWrite_getD_of_deletes v (hput' l hnoput)]
      by_cases hv : v = none
      · simp [hv]
      · simp only [h [] l rfl hnoput (Or.inl ⟨rfl, hv⟩)]

end LastWrite

/-! ## Range scans -/

section Scan

variable {α : Type}

/-- On a list along which `p` is never regained once lost, taking while `p` is filtering by `p`. -/
theorem takeWhile_eq_filter {p : α → Bool} {l : List α}
    (h : l.Pairwise fun a b => p b = true → p a = true) : l.takeWhile p = l.filter p := by
  induction l with
  | nil => rfl
  | cons a l ih =>
    obtain ⟨ha, hl⟩ := List.pairwise_cons.mp h
    by_cases hp : p a = true
    · simp [hp, ih hl]
    · have hnone : ∀ b ∈ l, ¬ p b = true := fun b hb hpb => hp (ha b hb hpb)
      simp [hp, List.filter_eq_nil_iff.mpr hnone]

theorem dropWhile_eq_filter_not {p : α → Bool} {l : List α}
    (h : l.Pairwise fun a b => p b = true → p a = true) :
    l.dropWhile p = l.filter fun a => !p a := by
  induction l with
  | nil => rfl
  | cons a l ih =>
    obtain ⟨ha, hl⟩ := List.pairwise_cons.mp h
    by_cases hp : p a = true
    · simp [hp, ih hl]
    · have hall : ∀ b ∈ l, (!p b) = true := fun b hb => by
        simpa using fun hpb => hp (ha b hb hpb)
      simp [hp, List.filter_eq_self.mpr hall]

variable [Std.TransCmp cmp]

/-- A scan from `lo` up to the first key above `hi` visits the entries between `lo` and `hi`, in the
order of the database. -/
theorem takeWhile_seek (db : DB κ ν cmp) (lo hi : κ) :
    (seek db lo).takeWhile (fun e => (cmp e.1 hi).isLE) =
      db.toList.filter fun e => (cmp lo e.1).isLE && (cmp e.1 hi).isLE := by
  have hsorted := Std.ExtTreeMap.ordered_keys_toList (t := db)
  have hlt : db.toList.Pairwise fun a b => (cmp b.1 lo == .lt) = true → (cmp a.1 lo == .lt) = true :=
    hsorted.imp fun hab hb => by
      simp only [beq_iff_eq] at hb ⊢
      exact Std.TransCmp.lt_trans hab hb
  have hle : db.toList.Pairwise fun a b => (cmp b.1 hi).isLE = true → (cmp a.1 hi).isLE = true :=
    hsorted.imp fun hab hb => Std.TransCmp.isLE_trans (by rw [hab]; rfl) hb
  rw [seek, dropWhile_eq_filter_not hlt, takeWhile_eq_filter (hle.filter _), List.filter_filter]
  refine List.filter_congr fun e _ => ?_
  rw [Bool.and_comm]
  congr 1
  have hswap : cmp lo e.1 = (cmp e.1 lo).swap := Std.OrientedCmp.eq_swap
  rw [hswap]
  cases cmp e.1 lo <;> rfl

end Scan

/-! ## Entries -/

section Entries

variable [DecidableEq κ] [DecidableEq ν] [Std.TransCmp cmp] [Std.LawfulEqCmp cmp]

omit [DecidableEq κ] [DecidableEq ν] [Std.LawfulEqCmp cmp] in
theorem nodup_toList (db : DB κ ν cmp) : db.toList.Nodup := by
  refine (Std.ExtTreeMap.distinct_keys_toList (t := db)).imp fun {a b} hne hab => ?_
  rw [hab] at hne
  exact hne Std.ReflCmp.compare_self

/-- A database with some of the entries of another has as many entries exactly if it has all of
them. -/
theorem length_toList_eq_iff_of_sub {db db' : DB κ ν cmp}
    (h : ∀ (k : κ) (v : ν), db'[k]? = some v → db[k]? = some v) :
    db'.toList.length = db.toList.length ↔ db' = db := by
  constructor
  · intro hlength
    have hsub : db'.toList.toFinset ⊆ db.toList.toFinset := by
      rintro ⟨k, v⟩ hkv
      rw [List.mem_toFinset, Std.ExtTreeMap.mem_toList_iff_getElem?_eq_some] at hkv ⊢
      exact h k v hkv
    have hcard : db.toList.toFinset.card ≤ db'.toList.toFinset.card := by
      rw [List.toFinset_card_of_nodup (nodup_toList db),
        List.toFinset_card_of_nodup (nodup_toList db'), hlength]
    have heq := Finset.eq_of_subset_of_card_le hsub hcard
    refine Std.ExtTreeMap.ext_getElem? fun k => Option.ext fun v => ⟨h k v, fun hv => ?_⟩
    rw [← Std.ExtTreeMap.mem_toList_iff_getElem?_eq_some, ← List.mem_toFinset] at hv ⊢
    rwa [heq]
  · rintro rfl
    rfl

end Entries

end KV
