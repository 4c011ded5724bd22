import CMarmotta.Persistence.Proofs.QueryProofs
import CMarmotta.Persistence.Proofs.InOrderProofs
import CMarmotta.Lib.Proofs.CoverageProofs
import CMarmotta.Model.X64

/-!
# The counts of an update

`Update` counts the statements that a removal finds when it comes to the removal, and deletes them
all at the end, so a statement that two removals find is counted twice. It does not count the
namespaces it removes. For a stream of removals the counts are how much smaller the databases get
exactly if neither shows (`removal_statistics_iff`).
-/

namespace CMarmotta

open KV

/-- The namespaces a request adds. -/
def UpdateRequest.addedNs : UpdateRequest → List Namespace
  | .nsAdded ns => [ns]
  | _ => []

/-- A request that removes something. -/
def UpdateRequest.isRemoval : UpdateRequest → Bool
  | .stmtRemoved _ => true
  | .nsRemoved _ => true
  | _ => false

section Statistics

variable [Platform]

open Platform

/-- The statements a removal finds. -/
def removedBy (σ : Store) : UpdateRequest → List Statement
  | .stmtRemoved pattern => getStatements σ pattern
  | _ => []

theorem stats_foldl_updateStep (σ : Store) (it : List UpdateRequest) (u : UpdateState) :
    (it.foldl (updateStep σ) u).stats = {
      addedStmts := u.stats.addedStmts + (it.flatMap UpdateRequest.added).length
      removedStmts := u.stats.removedStmts + (it.flatMap (removedBy σ)).length
      addedNs := u.stats.addedNs + (it.flatMap UpdateRequest.addedNs).length
      removedNs := u.stats.removedNs } := by
  induction it generalizing u with
  | nil => rfl
  | cons r it ih =>
    rw [List.foldl_cons, ih]
    cases r <;>
      simp [updateStep, UpdateRequest.added, UpdateRequest.addedNs, removedBy,
        count_removeStatementsBatch, Nat.add_assoc, Nat.add_comm 1]

/-- What the counters of an update say. No request counts as a removed namespace. -/
theorem stats_update (σ : Store) (it : List UpdateRequest) :
    (update σ it).2 = {
      addedStmts := (it.flatMap UpdateRequest.added).length
      removedStmts := (it.flatMap (removedBy σ)).length
      addedNs := (it.flatMap UpdateRequest.addedNs).length
      removedNs := 0 } := by
  rw [update, updateLoop, stats_foldl_updateStep]
  simp

/-! ## Statements -/

/-- How many requests of a stream remove the statement. -/
def removals (it : List UpdateRequest) (s : Statement) : Nat :=
  it.countP fun r => keyEffect s r = some none

namespace Store.Represents

variable {σ : Store} {S : Finset Statement}

theorem mem_removedBy (h : σ.Represents S) {r : UpdateRequest} {s : Statement} :
    s ∈ removedBy σ r ↔ s ∈ S ∧ keyEffect s r = some none := by
  rw [keyEffect_eq_delete_iff]
  cases r with
  | stmtRemoved pattern => simp [removedBy, h.mem_getStatements]
  | stmtAdded t => simp [removedBy]
  | nsAdded ns => simp [removedBy]
  | nsRemoved pattern => simp [removedBy]
  | notSet => simp [removedBy]

theorem length_removedBy (h : σ.Represents S) (r : UpdateRequest) :
    (removedBy σ r).length = (S.filter fun s => keyEffect s r = some none).card := by
  have hnodup : (removedBy σ r).Nodup := by
    cases r with
    | stmtRemoved pattern => exact h.nodup_getStatements pattern
    | stmtAdded t => exact List.nodup_nil
    | nsAdded ns => exact List.nodup_nil
    | nsRemoved pattern => exact List.nodup_nil
    | notSet => exact List.nodup_nil
  rw [← List.toFinset_card_of_nodup hnodup]
  congr 1
  ext s
  rw [List.mem_toFinset, h.mem_removedBy, Finset.mem_filter]

/-- A stream of removals leaves the statements that none of them removes. -/
theorem update_of_removals (h : σ.Represents S) {it : List UpdateRequest}
    (hit : ∀ r ∈ it, r.isRemoval = true) : (CMarmotta.update σ it).1.Represents
      (S.filter fun s => ¬ ∃ r ∈ it, keyEffect s r = some none) := by
  have hops : (Op.update it).stmtOps σ = (it.flatMap (removedBy σ)).map .remove := by
    rw [List.map_flatMap]
    refine List.flatMap_congr fun r hr => ?_
    have hr' := hit r hr
    cases r with
    | stmtRemoved pattern => rfl
    | nsRemoved pattern => rfl
    | stmtAdded t => cases hr'
    | nsAdded ns => cases hr'
    | notSet => cases hr'
  have hmem : ∀ s, s ∈ it.flatMap (removedBy σ) ↔
      s ∈ S ∧ ∃ r ∈ it, keyEffect s r = some none := by
    intro s
    simp only [List.mem_flatMap, h.mem_removedBy]
    constructor
    · rintro ⟨r, hr, hs, hdel⟩
      exact ⟨hs, r, hr, hdel⟩
    · rintro ⟨hs, r, hr, hdel⟩
      exact ⟨r, hr, hs, hdel⟩
  have happly := h.apply (.update it)
  rw [hops, (h .SPOC).foldl_remove fun s hs => ((hmem s).mp hs).1] at happly
  have hset : S \ (it.flatMap (removedBy σ)).toFinset =
      S.filter fun s => ¬ ∃ r ∈ it, keyEffect s r = some none := by
    ext s
    rw [Finset.mem_sdiff, Finset.mem_filter, List.mem_toFinset, hmem]
    refine and_congr_right fun hs => ?_
    rw [not_and]
    exact forall_prop_of_true hs
  rw [hset] at happly
  exact happly

/-- The count of the statements removed is how many are gone exactly if no request removes what
another one removes. -/
theorem removedStmts_iff (h : σ.Represents S) {it : List UpdateRequest}
    (hit : ∀ r ∈ it, r.isRemoval = true) :
    (CMarmotta.update σ it).2.removedStmts + size (CMarmotta.update σ it).1 = size σ ↔
      ∀ s ∈ S, removals it s ≤ 1 := by
  have hcount : (CMarmotta.update σ it).2.removedStmts =
      (it.map fun r => (S.filter fun s => keyEffect s r = some none).card).sum := by
    rw [stats_update]
    show (it.flatMap (removedBy σ)).length = _
    rw [List.length_flatMap]
    simp only [h.length_removedBy]
  have hsplit := Finset.card_filter_add_card_filter_not (s := S)
    fun s => ∃ r ∈ it, keyEffect s r = some none
  have hcover := Coverage.sum_card_eq_card_iff
    (fun (r : UpdateRequest) (s : Statement) => keyEffect s r = some none) S it
  rw [(h.update_of_removals hit).size_eq, h.size_eq, hcount]
  refine Iff.trans ?_ hcover
  omega

end Store.Represents

/-! ## Namespaces -/

/-- Removals empty the keys of what they find, and leave the others alone. -/
theorem nsTables_update_of_removals {σ : Store} {it : List UpdateRequest}
    (hit : ∀ r ∈ it, r.isRemoval = true) (t : NsTable) (k : Bytes) [Decidable (∃ pattern,
      .nsRemoved pattern ∈ it ∧ ∃ ns ∈ getNamespaces σ pattern, t.key ns = k)] :
    nsTables (update σ it).1 t k =
      if ∃ pattern, .nsRemoved pattern ∈ it ∧ ∃ ns ∈ getNamespaces σ pattern, t.key ns = k then none
      else nsTables σ t k := by
  have hdeletes : ∀ r ∈ it, ∀ ns, nsEffect (nsTables σ) t k r ≠ some (some ns) := by
    intro r hr ns hput
    have hr' := hit r hr
    rw [(nsEffect_eq_put_iff.mp hput).1] at hr'
    cases hr'
  have hfound : (∃ r ∈ it, nsEffect (nsTables σ) t k r = some none) ↔
      ∃ pattern, .nsRemoved pattern ∈ it ∧ ∃ ns ∈ getNamespaces σ pattern, t.key ns = k := by
    simp only [nsEffect_eq_delete_iff, mem_getNamespaces]
    constructor
    · rintro ⟨r, hr, pattern, rfl, hns⟩
      exact ⟨pattern, hr, hns⟩
    · rintro ⟨pattern, hr, hns⟩
      exact ⟨_, hr, pattern, rfl, hns⟩
  classical
  rw [nsTables_update, lastWrite_getD_of_deletes _ hdeletes]
  exact if_congr hfound rfl rfl

/-- The prefix table has as many namespaces as before exactly if no removal finds a namespace whose
prefix is bound. -/
theorem removedNs_iff {σ : Store} (h : σ.NsStored) {it : List UpdateRequest}
    (hit : ∀ r ∈ it, r.isRemoval = true) :
    (update σ it).2.removedNs + (update σ it).1.dbNsPrefix.toList.length =
        σ.dbNsPrefix.toList.length ↔
      ∀ pattern, .nsRemoved pattern ∈ it → ∀ ns ∈ getNamespaces σ pattern,
        nsTables σ .byPrefix (utf8 ns.nsPrefix) = none := by
  classical
  have hupdate := fun k => nsTables_update_of_removals (σ := σ) hit .byPrefix k
  have h' := h.update it
  have hsub : ∀ (k : Bytes) (v : Bytes), (update σ it).1.dbNsPrefix[k]? = some v →
      σ.dbNsPrefix[k]? = some v := by
    intro k v hv
    have hk := h.getElem?_nsTable .byPrefix k
    have hk' := h'.getElem?_nsTable .byPrefix k
    rw [hupdate] at hk'
    split at hk'
    · rw [show (update σ it).1.dbNsPrefix[k]? = none from hk'] at hv
      cases hv
    · exact (hk.trans hk'.symm).trans hv
  have hzero : (update σ it).2.removedNs = 0 := by
    rw [stats_update]
  rw [hzero, Nat.zero_add, length_toList_eq_iff_of_sub hsub]
  show (update σ it).1.nsTable .byPrefix = σ.nsTable .byPrefix ↔ _
  rw [h'.nsTable_eq_iff h]
  simp only [hupdate]
  constructor
  · intro hall pattern hpattern ns hns
    have hk := hall (utf8 ns.nsPrefix)
    rw [if_pos ⟨pattern, hpattern, ns, hns, rfl⟩] at hk
    exact hk.symm
  · intro hall k
    split
    · rename_i hfound
      obtain ⟨pattern, hpattern, ns, hns, rfl⟩ := hfound
      exact (hall pattern hpattern ns hns).symm
    · rfl

/-- For a stream of removals, the counts are how much smaller the databases get exactly if no
statement is removed by two requests and no request removes a namespace that is bound. -/
theorem removal_statistics_iff (ops : List Op) (it : List UpdateRequest)
    (hit : ∀ r ∈ it, r.isRemoval = true) :
    ((update (run ops) it).2.removedStmts + size (update (run ops) it).1 = size (run ops) ∧
      (update (run ops) it).2.removedNs + (update (run ops) it).1.dbNsPrefix.toList.length =
        (run ops).dbNsPrefix.toList.length) ↔
    (∀ s ∈ contents (run ops), removals it s ≤ 1) ∧
      ∀ pattern, .nsRemoved pattern ∈ it → ∀ ns ∈ getNamespaces (run ops) pattern,
        nsTables (run ops) .byPrefix (utf8 ns.nsPrefix) = none := by
  obtain ⟨S, hS, -⟩ := run_represents ops
  rw [hS.contents_eq]
  exact and_congr (hS.removedStmts_iff hit) (removedNs_iff (run_nsStored ops) hit)

end Statistics

/-- Two statements and a namespace. -/
def twoAndNamespace : List Op :=
  [.addStatements [.ofUris "urn:a" "urn:p" "urn:x", .ofUris "urn:b" "urn:p" "urn:x"],
    .addNamespaces [⟨"ex", "http://example.org/"⟩]]

/-- The statements are removed one by one, and a namespace that is not there. -/
def removeOneByOne : List UpdateRequest :=
  [.stmtRemoved { subject := some (.uri ⟨"urn:a"⟩) },
    .stmtRemoved { subject := some (.uri ⟨"urn:b"⟩) }, .nsRemoved ⟨"other", ""⟩]

theorem removal_statistics_of_disjoint :
    (update (run twoAndNamespace) removeOneByOne).2.removedStmts +
          size (update (run twoAndNamespace) removeOneByOne).1 = size (run twoAndNamespace) ∧
      (update (run twoAndNamespace) removeOneByOne).2.removedNs +
          (update (run twoAndNamespace) removeOneByOne).1.dbNsPrefix.toList.length =
        (run twoAndNamespace).dbNsPrefix.toList.length := by
  refine (removal_statistics_iff twoAndNamespace removeOneByOne (by decide)).mpr
    ⟨by decide +kernel, fun pattern hpattern => ?_⟩
  obtain rfl : pattern = ⟨"other", ""⟩ := by simpa [removeOneByOne] using hpattern
  decide +kernel

/-- Two removals find the same statement, and a third one finds the namespace. -/
def removeTwice : List UpdateRequest :=
  [.stmtRemoved { subject := some (.uri ⟨"urn:a"⟩) }, .stmtRemoved { predicate := some ⟨"urn:p"⟩ },
    .nsRemoved ⟨"ex", ""⟩]

/-- `Update` counts three statements and no namespace. -/
theorem removal_statistics_of_overlap :
    (update (run twoAndNamespace) removeTwice).2.removedStmts +
          size (update (run twoAndNamespace) removeTwice).1 ≠ size (run twoAndNamespace) ∧
      (update (run twoAndNamespace) removeTwice).2.removedNs +
          (update (run twoAndNamespace) removeTwice).1.dbNsPrefix.toList.length ≠
        (run twoAndNamespace).dbNsPrefix.toList.length := by
  decide +kernel

end CMarmotta
