import CMarmotta.Service.Proofs.DatasetProofs
import CMarmotta.Sharding.Proofs.ShardingProofs

/-!
# The proxy implements a dataset

The proxy follows a single backend (`Sharded.handles`), and a single backend is a dataset. So the
databases of all backends together are one, and a client cannot tell the proxy from the
specification, as long as the additions to the common result of `Fanout` do not overlap.
-/

namespace CMarmotta

open Refinement Threads ShardingService

section Proxy

variable [Platform] {n : Nat} {K : List Statement}

theorem Known.keysApart (hK : Known K) : KeysApart K :=
  fun _ hs _ ht hkey => hK.collisionFree.key_inj hK.wellFormed .SPOC hs ht hkey

/-- The statements that a regular request adds are known. -/
theorem Request.Regular.added {request : Request} (h : request.Regular K) :
    ∀ s ∈ request.added, s ∈ K := by
  cases request with
  | addStatements it => exact h
  | update it =>
    intro s hs
    obtain ⟨r, hr, hs⟩ := List.mem_flatMap.mp hs
    cases r with
    | stmtAdded t => exact List.mem_singleton.mp hs ▸ h.1 _ hr
    | _ => exact absurd hs List.not_mem_nil
  | _ => exact fun s hs => absurd hs List.not_mem_nil

omit [Platform] in
/-- A dataset does not tell answers apart that differ in the order of statements. -/
theorem Dataset.Answers.of_matches {D : Dataset} {request : Request} {single response : Response}
    (h : D.Answers request single) (hmatches : single.Matches response) :
    D.Answers request response := by
  cases response with
  | statements l =>
    obtain ⟨l', rfl, hperm⟩ := hmatches
    cases h with
    | getStatements pattern hnodup hmem =>
      exact .getStatements pattern (hperm.nodup_iff.mpr hnodup) fun s => hperm.mem_iff.trans (hmem s)
  | update u =>
    obtain ⟨u', rfl⟩ := hmatches
    cases h with
    | update it r => exact .update it u
  | _ => exact hmatches ▸ h

/-- The second exchange has the answer of the first, up to the order of statements. -/
def SameUpToOrder (e e' : Request × Response) : Prop := e.1 = e'.1 ∧ e.2.Matches e'.2

omit [Platform] in
theorem Dataset.permits_of_sameUpToOrder (D : Dataset) (e e' : Request × Response)
    (hsame : SameUpToOrder e e') (hpermits : Dataset.spec.Permits D e) :
    Dataset.spec.Permits D e' ∧ Dataset.spec.next D e' = Dataset.spec.next D e := by
  obtain ⟨request, single⟩ := e
  obtain ⟨_, response⟩ := e'
  obtain ⟨rfl, hmatches⟩ := hsame
  exact ⟨Dataset.Answers.of_matches hpermits hmatches, rfl⟩

/-- What a client sees of an exchange. -/
def ShardingService.Exchange.view (e : Exchange n) : Request × Response := (e.request, e.response)

/-- A request is regular, and the threads that serve it add up without overlap. -/
def ShardingService.Exchange.Regular (K : List Statement) (e : Exchange n) : Prop :=
  e.request.Regular K ∧ OneAfterAnother e.accesses

/-- The databases of the backends hold together what a single store holds that holds the dataset. -/
def ImplementsSharded (K : List Statement) (shards : Shards n) (D : Dataset) : Prop :=
  ∃ σ, (∃ S, Sharded K S σ shards) ∧ Implements K σ D

theorem ShardingService.simulates (hK : Known K) :
    Simulates (Handles (n := n)) Dataset.spec Exchange.view (Exchange.Regular K)
      (ImplementsSharded K) := by
  refine Simulates.through (fun shards σ e shards' => ?_) (LevelDBService.simulates hK)
    Dataset.permits_of_sameUpToOrder
  rintro ⟨S, hsharded⟩ ⟨hregular, haccesses⟩ hstep
  obtain ⟨hsharded', hmatches⟩ := hsharded.handles hK.keysApart hstep hregular.added
  exact ⟨(e.request, (LevelDBService.handle σ e.request).2),
    (LevelDBService.handle σ e.request).1, rfl, hregular, ⟨rfl, hmatches haccesses⟩, hsharded'⟩

theorem ShardingService.Run.refinementRun {shards shards' : Shards n} {trace : List (Exchange n)}
    (hrun : ShardingService.Run shards trace shards') :
    Refinement.Run Handles shards trace shards' := by
  induction hrun with
  | nil shards => exact .nil shards
  | cons h _ ih => exact .cons h ih

/-- The proxy can serve any requests so that the threads of no request overlap. -/
theorem ShardingService.exists_run (shards : Shards n) (requests : List Request) :
    ∃ trace shards', ShardingService.Run shards trace shards' ∧
      trace.map Exchange.request = requests ∧ ∀ e ∈ trace, OneAfterAnother e.accesses := by
  induction requests generalizing shards with
  | nil => exact ⟨[], shards, .nil shards, rfl, List.forall_mem_nil _⟩
  | cons request requests ih =>
    obtain ⟨e, shards', he, hrequest, haccesses⟩ := exists_handles shards request
    obtain ⟨trace, shards'', hrun, hrequests, hall⟩ := ih shards'
    refine ⟨e :: trace, shards'', .cons he hrun, ?_, List.forall_mem_cons.mpr ⟨haccesses, hall⟩⟩
    rw [List.map_cons, hrequest, hrequests]

/-- The proxy is a dataset: in every run from empty backends that serves regular requests, each
request is answered as a dataset that has seen the requests before it answers. -/
theorem proxy_refines_dataset (hK : Known K) {trace : List (Exchange n)} {shards : Shards n}
    (hrun : ShardingService.Run (fun _ => Store.empty) trace shards)
    (hregular : ∀ e ∈ trace, e.Regular K) :
    Dataset.spec.PermitsAll Dataset.empty (trace.map Exchange.view) ∧
      ImplementsSharded K shards (Dataset.spec.after Dataset.empty (trace.map Exchange.view)) :=
  hrun.refinementRun.permits (ShardingService.simulates hK)
    ⟨Store.empty, ⟨∅, Sharded.empty K⟩, Implements.empty K⟩ hregular

end Proxy

theorem proxy_refines_dataset_replaceAndAsk :
    ∃ (trace : List (Exchange 1)) (shards : Shards 1),
      ShardingService.Run (fun _ => Store.empty) trace shards ∧
        trace.map Exchange.request = replaceAndAsk ∧
        Dataset.spec.PermitsAll Dataset.empty (trace.map Exchange.view) := by
  obtain ⟨trace, shards, hrun, hrequests, haccesses⟩ :=
    ShardingService.exists_run (fun _ : Fin 2 => Store.empty) replaceAndAsk
  refine ⟨trace, shards, hrun, hrequests, (proxy_refines_dataset known_threeStatements hrun ?_).1⟩
  intro e he
  refine ⟨regular_replaceAndAsk e.request ?_, haccesses e he⟩
  rw [← hrequests]
  exact List.mem_map_of_mem he

end CMarmotta
