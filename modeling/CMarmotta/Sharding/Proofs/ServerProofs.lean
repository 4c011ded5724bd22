import CMarmotta.Sharding.Server
import CMarmotta.Sharding.Proofs.ShardingProofs
import CMarmotta.Util.Proofs.SplitProofs

/-!
# The proxy and its flag

With at least one backend no handler faults, and what it writes to the backends is what the model
with `n + 1` backends says (`addStatements_ofFn`, `update_ofFn`, `addNamespaces_ofFn`). Without a
backend the handlers that need one fault (`serve_ok_iff`). Together with the pieces that `split`
cuts from the flag, this says for which flags the indices are in range.
-/

namespace CMarmotta

open ShardingService Separated

section Faults

theorem modulo_succ (x n : Nat) : modulo x (n + 1) = .ok (x % (n + 1)) :=
  if_neg (Nat.succ_ne_zero n)

variable {α : Type}

theorem index_of_getElem? {v : List α} {i : Nat} {a : α} (h : v[i]? = some a) :
    index v i = .ok a := by
  rw [index, h]

theorem index_ofFn {n : Nat} (f : Fin n → α) (i : Fin n) : index (List.ofFn f) i = .ok (f i) := by
  refine index_of_getElem? ?_
  rw [List.getElem?_ofFn, dif_pos i.isLt]

theorem set_ofFn {n : Nat} (f : Fin n → α) (i : Fin n) (a : α) :
    (List.ofFn f).set i a = List.ofFn (Function.update f i a) := by
  refine List.ext_getElem (by simp only [List.length_set, List.length_ofFn]) fun j h₁ h₂ => ?_
  rw [List.getElem_set, List.getElem_ofFn, List.getElem_ofFn, Function.update_apply]
  have hj : i.val = j ↔ (⟨j, by simpa only [List.length_ofFn] using h₂⟩ : Fin n) = i := by
    rw [Fin.ext_iff, eq_comm]
  exact if_congr hj rfl rfl

theorem exists_discard_eq_ok {x : Except Fault α} :
    (∃ u, (discard x : Except Fault Unit) = .ok u) ↔ ∃ a, x = .ok a := by
  cases x with
  | ok a => exact iff_of_true ⟨(), rfl⟩ ⟨a, rfl⟩
  | error e =>
    refine iff_of_false ?_ ?_
    · rintro ⟨u, h⟩
      cases h
    · rintro ⟨a, h⟩
      cases h

theorem not_exists_discard_error {e : Fault} :
    ¬ ∃ u, (discard (.error e : Except Fault α) : Except Fault Unit) = .ok u := by
  rintro ⟨u, h⟩
  cases h

/-- The loop over all channels makes a stub for each of them. -/
theorem stubLoop_length (channels : List Bytes) :
    stubLoop channels channels.length = .ok channels := by
  have hloop : ∀ k ≤ channels.length,
      (List.range k).mapM (index channels) = .ok (channels.take k) := by
    intro k hk
    induction k with
    | zero => rfl
    | succ k ih =>
      have hget : channels[k]? = some channels[k] := List.getElem?_eq_getElem hk
      rw [List.range_succ, List.mapM_append, ih (Nat.le_of_succ_le hk), List.mapM_cons,
        index_of_getElem? hget, List.take_succ_eq_append_getElem hk]
      rfl
  rw [stubLoop, hloop _ le_rfl, List.take_length]

end Faults

namespace ShardingServer

theorem new_eq (backends : List Bytes) : new backends = { backends, channels := backends } := by
  have hchannels : ∀ channels : List Bytes,
      backends.foldl (fun channels server => channels ++ [server]) channels =
        channels ++ backends := by
    induction backends with
    | nil => exact fun channels => (List.append_nil channels).symm
    | cons server backends ih =>
      intro channels
      rw [List.foldl_cons, ih, List.append_assoc]
      rfl
  rw [new, hchannels, List.nil_append]

theorem channels_main (flag : Bytes) : (main flag).channels = pieces comma flag := by
  rw [main, new_eq, split_eq_pieces]

theorem readers_new (backends : List Bytes) : (new backends).readers = .ok backends := by
  rw [new_eq, readers, stubLoop_length]

theorem fanout_new (backends : List Bytes) : (new backends).fanout = .ok backends := by
  rw [new_eq, fanout, stubLoop_length]

theorem openWriters_new (backends : List Bytes) (α : Type) :
    (new backends).openWriters α = .ok (backends.map fun stub => { stub }) := by
  rw [new_eq, openWriters, stubLoop_length]
  rfl

/-! ## At least one backend -/

section Backends

variable {n : Nat} {α : Type} (address : Fin (n + 1) → Bytes)

/-- The streams to the backends at the given addresses. -/
def streams (writers : Writers n α) : List (BackendWriter α) :=
  List.ofFn fun i => { stub := address i, written := writers i }

variable {hash? : α → Option Nat}

theorem distribute_of_none (writers : Writers n α) {m : α} (h : hash? m = none) :
    distribute (n + 1) hash? (streams address writers) m =
      .ok (streams address (writers.writeAll m)) := by
  rw [distribute, h, streams, List.map_ofFn]
  rfl

theorem distribute_of_some (writers : Writers n α) {m : α} {hash : Nat} (h : hash? m = some hash)
    {bucket : Fin (n + 1)} (hbucket : bucket.val = hash % (n + 1)) :
    distribute (n + 1) hash? (streams address writers) m =
      .ok (streams address (writers.write bucket m)) := by
  have hset : (streams address writers).set bucket
      { stub := address bucket, written := writers bucket ++ [m] } =
      streams address (writers.write bucket m) := by
    rw [streams, set_ofFn]
    refine congrArg List.ofFn (funext fun i => ?_)
    by_cases hi : i = bucket
    · subst hi
      simp [Writers.write]
    · simp [Writers.write, hi]
  rw [distribute, h]
  simp only [modulo_succ, ← hbucket]
  rw [← hset]
  exact congrArg (fun w : Except Fault (BackendWriter α) => w >>= fun w =>
    pure ((streams address writers).set bucket (w.write m))) (index_ofFn _ bucket)

/-- A loop whose iterations do to the streams what `step` does, does so as a whole. -/
theorem forward_ofFn {step : Writers n α → α → Writers n α}
    (hstep : ∀ writers m, distribute (n + 1) hash? (streams address writers) m =
      .ok (streams address (step writers m))) (it : List α) :
    (new (List.ofFn address)).forward hash? it =
      .ok (streams address (it.foldl step fun _ => [])) := by
  have hloop : ∀ writers : Writers n α,
      it.foldlM (distribute (n + 1) hash?) (streams address writers) =
        .ok (streams address (it.foldl step writers)) := by
    induction it with
    | nil => exact fun writers => rfl
    | cons m it ih =>
      intro writers
      rw [List.foldlM_cons, hstep, List.foldl_cons]
      exact ih (step writers m)
  have hopen : (new (List.ofFn address)).openWriters α = .ok (streams address fun _ => []) := by
    rw [openWriters_new, streams, List.map_ofFn]
    rfl
  have hlength : (new (List.ofFn address)).backends.length = n + 1 := List.length_ofFn
  rw [forward, hopen, hlength]
  exact hloop fun _ => []

/-- The proxy returns what its first backend returns for all namespaces. -/
theorem addNamespaces_ofFn (answer : Bytes → List Namespace → Nat) (it : List Namespace) :
    (new (List.ofFn address)).addNamespaces answer it = .ok (answer (address 0) it) := by
  have hwritten : it.foldl Writers.writeAll (fun _ : Fin (n + 1) => []) 0 = it := by
    rw [foldl_writeAll, List.nil_append]
  rw [addNamespaces, forward_ofFn address fun writers ns => distribute_of_none address writers rfl]
  exact index_of_getElem? (by simp [streams, hwritten])

theorem randomStub_ofFn (rand : Nat) : (new (List.ofFn address)).randomStub rand =
    .ok (address ⟨rand % (n + 1), Nat.mod_lt _ (Nat.succ_pos n)⟩) := by
  rw [new_eq, randomStub, List.length_ofFn, modulo_succ]
  exact index_ofFn address ⟨rand % (n + 1), Nat.mod_lt _ (Nat.succ_pos n)⟩

variable [Platform]

theorem addStatements_ofFn (it : List Statement) :
    (new (List.ofFn address)).addStatements it = .ok (streams address
      (it.foldl (fun writers stmt => writers.write (bucket n stmt) stmt) fun _ => [])) := by
  refine forward_ofFn address (fun writers stmt => ?_) it
  exact distribute_of_some address writers rfl (bucket_val stmt)

theorem update_ofFn (it : List UpdateRequest) :
    (new (List.ofFn address)).update it = .ok (streams address (it.foldl route fun _ => [])) := by
  refine forward_ofFn address (fun writers req => ?_) it
  cases req with
  | stmtAdded stmt => exact distribute_of_some address writers rfl (bucket_val stmt)
  | notSet => exact distribute_of_none address writers rfl
  | stmtRemoved pattern => exact distribute_of_none address writers rfl
  | nsAdded ns => exact distribute_of_none address writers rfl
  | nsRemoved pattern => exact distribute_of_none address writers rfl

end Backends

/-! ## No backend -/

section NoBackend

variable {α : Type} {hash? : α → Option Nat}

/-- The loop over a stream stops at the first message with a hash. -/
theorem forward_nil (it : List α) : (new []).forward hash? it =
    if ∀ m ∈ it, (hash? m).isNone = true then .ok [] else .error .divisionByZero := by
  have hforward : (new []).forward hash? it = it.foldlM (distribute 0 hash?) [] := rfl
  rw [hforward]
  induction it with
  | nil => rfl
  | cons m it ih =>
    rw [List.foldlM_cons]
    cases hm : hash? m with
    | none =>
      have hstep : distribute 0 hash? [] m = .ok [] := by
        rw [distribute, hm]
        rfl
      rw [hstep]
      refine (ih rfl).trans (if_congr ?_ rfl rfl)
      rw [List.forall_mem_cons, hm]
      exact (and_iff_right rfl).symm
    | some hash =>
      have hstep : distribute 0 hash? [] m = .error .divisionByZero := by
        rw [distribute, hm]
        rfl
      have hhash : ¬ ∀ m' ∈ m :: it, (hash? m').isNone = true := by
        intro h
        have hnone := h m List.mem_cons_self
        rw [hm] at hnone
        cases hnone
      rw [hstep, if_neg hhash]
      rfl

theorem exists_forward_nil_iff {it : List α} :
    (∃ writers, (new []).forward hash? it = .ok writers) ↔
      ∀ m ∈ it, (hash? m).isNone = true := by
  rw [forward_nil]
  split
  · case isTrue h => exact iff_of_true ⟨[], rfl⟩ h
  · case isFalse h =>
    refine iff_of_false ?_ h
    rintro ⟨writers, heq⟩
    cases heq

theorem addNamespaces_nil (answer : Bytes → List Namespace → Nat) (it : List Namespace) :
    (new []).addNamespaces answer it = .error .outOfRange := by
  have hforward : (new []).forward (fun _ : Namespace => none) it = .ok [] := by
    rw [forward_nil]
    exact if_pos fun _ _ => rfl
  rw [addNamespaces, hforward]
  rfl

theorem randomStub_nil (rand : Nat) : (new []).randomStub rand = .error .divisionByZero := rfl

end NoBackend

/-! ## All requests -/

section Serve

variable [Platform] (answer : Bytes → List Namespace → Nat) (rand : Nat)

theorem serve_ofFn {n : Nat} (address : Fin (n + 1) → Bytes) (call : ProxyCall) :
    ∃ u, (new (List.ofFn address)).serve answer rand call = .ok u := by
  cases call with
  | getContexts => exact exists_discard_eq_ok.mpr ⟨_, readers_new _⟩
  | sail request =>
    cases request with
    | addNamespaces it => exact exists_discard_eq_ok.mpr ⟨_, addNamespaces_ofFn address answer it⟩
    | getNamespace pattern => exact exists_discard_eq_ok.mpr ⟨_, randomStub_ofFn address rand⟩
    | getNamespaces => exact exists_discard_eq_ok.mpr ⟨_, randomStub_ofFn address rand⟩
    | addStatements it => exact exists_discard_eq_ok.mpr ⟨_, addStatements_ofFn address it⟩
    | getStatements pattern => exact exists_discard_eq_ok.mpr ⟨_, readers_new _⟩
    | removeStatements pattern => exact exists_discard_eq_ok.mpr ⟨_, fanout_new _⟩
    | clear contexts => exact exists_discard_eq_ok.mpr ⟨_, fanout_new _⟩
    | size contexts => exact exists_discard_eq_ok.mpr ⟨_, fanout_new _⟩
    | update it => exact exists_discard_eq_ok.mpr ⟨_, update_ofFn address it⟩

theorem serve_nil_iff (call : ProxyCall) :
    (∃ u, (new []).serve answer rand call = .ok u) ↔ call.selectsBackend = false := by
  cases call with
  | getContexts => exact iff_of_true (exists_discard_eq_ok.mpr ⟨_, readers_new _⟩) rfl
  | sail request =>
    cases request with
    | addNamespaces it =>
      rw [serve, addNamespaces_nil]
      exact iff_of_false not_exists_discard_error Bool.noConfusion
    | getNamespace pattern =>
      rw [serve, randomStub_nil]
      exact iff_of_false not_exists_discard_error Bool.noConfusion
    | getNamespaces =>
      rw [serve, randomStub_nil]
      exact iff_of_false not_exists_discard_error Bool.noConfusion
    | addStatements it =>
      refine exists_discard_eq_ok.trans (exists_forward_nil_iff.trans ?_)
      cases it with
      | nil => exact iff_of_true (fun _ hm => absurd hm List.not_mem_nil) rfl
      | cons stmt it =>
        refine iff_of_false (fun h => ?_) Bool.noConfusion
        cases h stmt List.mem_cons_self
    | getStatements pattern => exact iff_of_true (exists_discard_eq_ok.mpr ⟨_, readers_new _⟩) rfl
    | removeStatements pattern => exact iff_of_true (exists_discard_eq_ok.mpr ⟨_, fanout_new _⟩) rfl
    | clear contexts => exact iff_of_true (exists_discard_eq_ok.mpr ⟨_, fanout_new _⟩) rfl
    | size contexts => exact iff_of_true (exists_discard_eq_ok.mpr ⟨_, fanout_new _⟩) rfl
    | update it =>
      refine exists_discard_eq_ok.trans (exists_forward_nil_iff.trans ?_)
      rw [ProxyCall.selectsBackend, List.any_eq_false]
      refine forall₂_congr fun req _ => ?_
      cases req <;> simp [updateHash?]

/-- A handler faults exactly if it needs a backend and there is none. -/
theorem serve_ok_iff (backends : List Bytes) (call : ProxyCall) :
    (∃ u, (new backends).serve answer rand call = .ok u) ↔
      backends ≠ [] ∨ call.selectsBackend = false := by
  cases backends with
  | nil =>
    rw [serve_nil_iff]
    exact (or_iff_right fun h => h rfl).symm
  | cons address backends =>
    have hserve := serve_ofFn answer rand (n := backends.length) (address :: backends).get call
    rw [List.ofFn_get] at hserve
    exact iff_of_true hserve (Or.inl (List.cons_ne_nil address backends))

/-- The indices of backends are in range exactly if the flag neither starts with a comma nor has two
of them in a row, and is not empty unless the request needs no particular backend. -/
theorem shardSelection_inRange_iff (flag : Bytes) (call : ProxyCall) :
    InRange flag answer rand call ↔
      (flag ≠ [] ∨ call.selectsBackend = false) ∧ WellSeparated comma flag := by
  have hserved : (∃ u, (main flag).serve answer rand call = .ok u) ↔
      flag ≠ [] ∨ call.selectsBackend = false := by
    rw [main, serve_ok_iff, split_eq_pieces, Ne, pieces_eq_nil_iff]
  constructor
  · rintro ⟨hok, haddresses, -⟩
    refine ⟨hserved.mp hok, (pieces_ne_nil_iff flag).mp fun piece hpiece => ?_⟩
    rw [← channels_main] at hpiece
    exact (haddresses piece hpiece).1
  · rintro ⟨hflag, hsep⟩
    refine ⟨hserved.mpr hflag, fun address haddress => ?_, ?_⟩
    · rw [channels_main] at haddress
      exact ⟨(pieces_ne_nil_iff flag).mpr hsep address haddress,
        not_mem_of_mem_pieces haddress⟩
    · rw [channels_main]
      exact pieces_join flag

end Serve

/-- The server accepts the empty flag, its default, and a flag that starts with a comma. Without a
backend the handlers that compute a remainder divide by zero, and `AddNamespaces` reads past the end
of its answers. A comma at the start makes a channel with an empty address. -/
theorem shardSelection_faults :
    (main []).serve (fun _ _ => 0) 7 (.sail (.getNamespace ⟨"", ""⟩)) = .error .divisionByZero ∧
    (main []).serve (fun _ _ => 0) 7 (.sail .getNamespaces) = .error .divisionByZero ∧
    (main []).serve (fun _ _ => 0) 7 (.sail (.addStatements [default])) =
      .error .divisionByZero ∧
    (main []).serve (fun _ _ => 0) 7 (.sail (.addNamespaces [])) = .error .outOfRange ∧
    [] ∈ (main [comma, 0x61]).channels ∧
    ¬ InRange [] (fun _ _ => 0) 7 (.sail (.getNamespace ⟨"", ""⟩)) ∧
    ¬ InRange [comma, 0x61] (fun _ _ => 0) 7 (.sail (.getNamespace ⟨"", ""⟩)) := by
  have hmain : main [] = new [] := by
    rw [main, split_eq_pieces]
    rfl
  have hempty : [] ∈ (main [comma, 0x61]).channels := by
    rw [channels_main, pieces_of_delim]
    exact List.mem_cons_self
  rw [hmain]
  refine ⟨rfl, rfl, rfl, rfl, hempty, fun h => ?_, fun h => ?_⟩
  · have hserved := h.served
    rw [hmain, serve_nil_iff] at hserved
    cases hserved
  · exact (h.addresses [] hempty).1 rfl

end ShardingServer

end CMarmotta
