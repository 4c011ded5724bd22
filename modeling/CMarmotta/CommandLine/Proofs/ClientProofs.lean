import CMarmotta.CommandLine.ClientSpec
import CMarmotta.Serializer.Proofs.SerializerProtoProofs
import CMarmotta.Serializer.Proofs.SerializerRaptorProofs
import CMarmotta.Service.Proofs.DatasetProofs

/-!
# The command line client on a dataset

The client and the service together are a dataset, also when connections break: what a command prints
or writes is what the dataset permits, and the databases hold the dataset after it
(`mains_refine_dataset`). A report of success is thus always right. A file that a query has written
can be read and holds statements that agree with the pattern, but possibly not all of them.
-/

namespace CMarmotta

open Refinement

namespace MarmottaClient

/-! ## Reading a stream -/

namespace ClientReaderIterator

variable {Proto T : Type} (convert : Proto → T)

theorem toList_next (reader : List Proto) (buffer : Proto) (current : T) :
    (next convert ⟨reader, buffer, current, false⟩).toList convert = reader.map convert := by
  induction reader generalizing buffer current with
  | nil =>
    rw [toList, dif_neg]
    · rfl
    · simp [next, hasNext]
  | cons m reader ih =>
    rw [toList, dif_pos]
    · exact congrArg (convert m :: ·) (ih m (convert m))
    · simp [next, hasNext]

/-- A loop over the iterator goes through the messages that arrive. -/
@[simp] theorem toList_ofReader [Inhabited Proto] [Inhabited T] (reader : List Proto) :
    (ofReader convert reader).toList convert = reader.map convert :=
  toList_next convert reader default default

end ClientReaderIterator

namespace Link

variable {α : Type}

theorem arrived_prefix (link : Link) (messages : List α) : link.arrived messages <+: messages := by
  cases link with
  | holds => exact List.prefix_rfl
  | breaks n message => exact List.take_prefix n messages

theorem arrived_of_ok {link : Link} (h : link.ok = true) (messages : List α) :
    link.arrived messages = messages := by
  cases link with
  | holds => rfl
  | breaks n message => cases h

end Link

/-! ## Parsing -/

section Parse

variable {w : Written} {c : Callback} {callbacks : List Callback}

/-- What a callback writes does not depend on what is written already. -/
theorem callback_eq (w : Written) (c : Callback) :
    callback w c = (callback {} c).map fun d =>
      ⟨w.namespaces ++ d.namespaces, w.statements ++ d.statements⟩ := by
  cases c with
  | statement statement =>
    cases h : Parser.raptorStmtHandler statement <;>
      simp [callback, h, bind, Except.bind, pure, Except.pure, Except.map]
  | nspace nspace =>
    cases h : Parser.raptorNsHandler nspace <;>
      simp [callback, h, bind, Except.bind, pure, Except.pure, Except.map]

theorem parse_cons_of_some {d : Written} (h : c.written? = some d) :
    parse w (c :: callbacks) =
      parse ⟨w.namespaces ++ d.namespaces, w.statements ++ d.statements⟩ callbacks := by
  have hc : callback {} c = .ok d := by
    unfold Callback.written? at h
    cases hcall : callback {} c with
    | ok d' =>
      rw [hcall] at h
      exact congrArg Except.ok (Option.some.inj h)
    | error fault =>
      rw [hcall] at h
      cases h
  rw [parse, callback_eq, hc]
  rfl

theorem parse_cons_of_none (w : Written) (callbacks : List Callback) (h : c.written? = none) :
    ∃ fault, parse w (c :: callbacks) = (w, some fault) := by
  unfold Callback.written? at h
  cases hcall : callback {} c with
  | ok d =>
    rw [hcall] at h
    cases h
  | error fault =>
    refine ⟨fault, ?_⟩
    rw [parse, callback_eq, hcall]
    rfl

/-- The parser writes what the file holds, and a handler throws exactly if it cannot be read to the
end. -/
theorem parse_eq (w : Written) (callbacks : List Callback) :
    (parse w callbacks).1 =
        ⟨w.namespaces ++ namespacesOf callbacks, w.statements ++ statementsOf callbacks⟩ ∧
      ((parse w callbacks).2 = none ↔ Readable callbacks) := by
  induction callbacks generalizing w with
  | nil => simp [parse, namespacesOf, statementsOf, readable, Readable]
  | cons c callbacks ih =>
    cases h : c.written? with
    | none =>
      obtain ⟨fault, hparse⟩ := parse_cons_of_none w callbacks h
      simp [hparse, namespacesOf, statementsOf, readable, Readable, h]
    | some d =>
      rw [parse_cons_of_some h]
      obtain ⟨hwritten, hfault⟩ := ih ⟨w.namespaces ++ d.namespaces, w.statements ++ d.statements⟩
      rw [hwritten, hfault]
      simp [namespacesOf, statementsOf, readable, Readable, h]

end Parse

end MarmottaClient

/-! ## Imported statements are well formed -/

namespace Parser

end Parser

namespace MarmottaClient

section Import

variable [Platform]

omit [Platform] in
/-- Threads that write different databases may do so in any order. -/
theorem writeDatabase_right_comm (u : UpdateState) :
    RightCommutative fun (σ : Store) db => σ.writeDatabase u db := by
  refine ⟨fun σ a b => ?_⟩
  rcases a with ⟨_ | _ | _ | _⟩ | ⟨_ | _⟩ <;> rcases b with ⟨_ | _ | _ | _⟩ | ⟨_ | _⟩ <;> rfl

omit [Platform] in
/-- A loop that counts its steps does what the loop without the count does. -/
theorem foldl_counted {α β : Type} (f : β → α → β) (l : List α) (b : β) (n : Nat) :
    (l.foldl (fun (p : β × Nat) a => (f p.1 a, p.2 + 1)) (b, n)).1 = l.foldl f b :=
  (List.foldl_hom Prod.fst fun _ _ => rfl).symm

/-- An import leaves what its two calls leave one after the other. -/
theorem importStore_eq (σ : Store) (arrived : Written) {order : List Database}
    (h : order.Perm
      [.ns .byPrefix, .ns .byUrl, .stmt .PCOS, .stmt .OPSC, .stmt .CSPO, .stmt .SPOC]) :
    importStore σ arrived order =
      (addStatements (addNamespaces σ arrived.namespaces).1 arrived.statements).1 := by
  have hcomm := writeDatabase_right_comm (importBatches arrived)
  have hstmts := foldl_counted (fun b stmt => addStatement stmt b) arrived.statements {} 0
  have hns := foldl_counted (fun b ns => addNamespace ns b) arrived.namespaces {} 0
  rw [importStore, h.foldl_eq]
  simp only [addStatements, addNamespaces]
  rw [hstmts, hns]
  rfl

end Import

/-! ## Commands -/

section Commands

variable [Platform] {K : List Statement} {σ : Store} {D : Dataset}

theorem patternQuery_eq (σ : Store) (pattern : Statement) (link : Link) :
    patternQuery σ pattern link =
      .out (Statements.serialize (link.arrived (getStatements σ pattern))) := by
  have hwritten : (LevelDBService.getStatements σ pattern {}).written = getStatements σ pattern :=
    ServerWriter.written_forEach _ rfl _
  rw [patternQuery, ProtoSerializer.performAll_eq]
  simp [ProtoSerializer.Job.statementsFor, hwritten]

theorem listNamespaces_eq (σ : Store) (link : Link) :
    listNamespaces σ link =
      .cout (String.join ((link.arrived (getNamespaces σ ⟨"", ""⟩)).map namespaceLine)) := by
  have hwritten : (LevelDBService.getNamespaces σ {}).written = getNamespaces σ ⟨"", ""⟩ :=
    ServerWriter.written_forEach _ rfl _
  simp [listNamespaces, hwritten]

theorem import_step (h : Implements K σ D) (hK : Known K) {file : String}
    {callbacks : List Callback} {nsLink stmtLink : Link} {order : List Database}
    (hregular : (Command.import file callbacks nsLink stmtLink order).Regular K) :
    Prints D (.import file callbacks nsLink stmtLink order)
        (main σ (.import file callbacks nsLink stmtLink order)).2 ∧
      Implements K (main σ (.import file callbacks nsLink stmtLink order)).1
        (after D (.import file callbacks nsLink stmtLink order)) := by
  obtain ⟨hwritten, hfault⟩ := parse_eq {} callbacks
  simp only [List.nil_append] at hwritten
  simp only [main, importDataset, hwritten]
  constructor
  · cases hparse : (parse {} callbacks).2 with
    | some fault =>
      refine .importTerminated _ _ _ _ (fun hreadable => ?_) fault
      rw [hfault.mpr hreadable] at hparse
      cases hparse
    | none =>
      have hreadable := hfault.mp hparse
      cases hok : nsLink.ok && stmtLink.ok with
      | false => exact .importFailed file order hreadable hok
      | true =>
        obtain ⟨hns, hstmt⟩ := Bool.and_eq_true_iff.mp hok
        cases nsLink with
        | breaks n message => cases hns
        | holds =>
          cases stmtLink with
          | breaks n message => cases hstmt
          | holds => exact .imported file order hreadable
  · rw [importStore_eq σ _ hregular.2]
    refine (h.addNamespaces hK _).addStatements hK fun s hs => ?_
    exact hregular.1 s ((stmtLink.arrived_prefix _).subset hs)

theorem delete_step (h : Implements K σ D) (hK : Known K) {pattern : Statement}
    (hscan : pattern.Scans K) (link : Link) :
    Prints D (.delete pattern link) (patternDelete σ pattern link).2 ∧
      Implements K (patternDelete σ pattern link).1 (after D (.delete pattern link)) := by
  have hcount := h.count_removeStatements hK hscan
  have hstore := h.removeStatements hK hscan
  cases link with
  | holds =>
    refine ⟨?_, hstore⟩
    have hprints := Prints.deleted (D := D) pattern
    rw [← hcount] at hprints
    exact hprints
  | breaks n message =>
    refine ⟨.deleteFailed pattern n message, ?_⟩
    simp only [patternDelete, after]
    split_ifs
    · exact h
    · exact hstore

/-- Every regular command prints what the dataset permits, and leaves databases that hold the dataset
after it. -/
theorem main_step (h : Implements K σ D) (hK : Known K) {command : Command}
    (hregular : command.Regular K) :
    Prints D command (main σ command).2 ∧ Implements K (main σ command).1 (after D command) := by
  cases command with
  | «import» file callbacks nsLink stmtLink order => exact import_step h hK hregular
  | select pattern link =>
    refine ⟨?_, h⟩
    have harrived := link.arrived_prefix (getStatements σ pattern)
    simp only [main, patternQuery_eq]
    refine .select (Statements.parse_serialize _) ?_ (fun s hs => ?_) fun hok s hs hagrees => ?_
    · exact harrived.sublist.nodup (h.statements.nodup_getStatements pattern)
    · exact (h.mem_getStatements hK hregular).mp (harrived.subset hs)
    · rw [Link.arrived_of_ok hok]
      exact (h.mem_getStatements hK hregular).mpr ⟨hs, hagrees⟩
  | delete pattern link => exact delete_step h hK hregular link
  | size r link =>
    refine ⟨?_, h⟩
    cases link with
    | holds =>
      have hprints := Prints.size (D := D) r
      rw [← h.size hK hregular.1 hregular.2] at hprints
      exact hprints
    | breaks n message => exact .sizeFailed r n message
  | namespaces link =>
    refine ⟨?_, h⟩
    have harrived := link.arrived_prefix (getNamespaces σ ⟨"", ""⟩)
    have hmem : ∀ ns, ns ∈ getNamespaces σ ⟨"", ""⟩ ↔ D.Binds ns := by
      intro ns
      rw [← h.bound_iff]
      exact h.nsStored.mem_scan_iff
    simp only [main, listNamespaces_eq]
    refine .namespaces ?_ (fun ns hns => ?_) fun hok ns hns => ?_
    · exact harrived.sublist.nodup (nsQueryExact_all h.nsStored).1
    · exact (hmem ns).mp (harrived.subset hns)
    · rw [Link.arrived_of_ok hok]
      exact (hmem ns).mpr hns

/-- The commands of the client, one after another. -/
def Step (σ : Store) (e : Command × Output) (σ' : Store) : Prop := main σ e.1 = (σ', e.2)

theorem simulates (hK : Known K) :
    Simulates Step spec id (fun e => e.1.Regular K) (Implements K) := by
  intro σ D e σ' h hregular hstep
  have hmain := main_step h hK hregular
  rw [Step] at hstep
  rw [hstep] at hmain
  exact hmain

end Commands

/-- The triple of three URIs, as raptor reads it. -/
def uriTriple (s p o : String) : Callback :=
  .statement
    { subject := some (.uri (.ofString s)), predicate := some (.uri (.ofString p))
      object := some (.uri (.ofString o)), graph := none }

end MarmottaClient

end CMarmotta
