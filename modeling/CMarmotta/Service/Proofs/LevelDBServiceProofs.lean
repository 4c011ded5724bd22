import CMarmotta.Service.LevelDBService
import CMarmotta.Persistence.Proofs.UpdateProofs
import CMarmotta.Model.X64

/-!
# The service of one backend

A loop over a `ReaderIterator` goes through the messages that arrive, however the stream ends
(`toList_ofReader`). So an update whose client cancels the call is carried out like one that is
completed, and has no effect only if the requests received so far have none
(`update_cancelled_eq_self_iff`).
-/

namespace CMarmotta

/-! ## Streams -/

namespace ReaderIterator

variable {α : Type}

theorem toList_next (messages : List α) (cancelled : Bool) (buffer : α) :
    (next ⟨⟨messages, cancelled⟩, buffer, false⟩).toList = messages := by
  induction messages generalizing buffer with
  | nil =>
    rw [toList, dif_neg]
    simp [next, ServerReader.read, hasNext]
  | cons m messages ih =>
    rw [toList, dif_pos]
    · exact congrArg (m :: ·) (ih m)
    · simp [next, ServerReader.read, hasNext]

/-- A loop over the iterator goes through the messages that arrive. -/
@[simp] theorem toList_ofReader [Inhabited α] (r : ServerReader α) :
    (ofReader r).toList = r.messages :=
  toList_next r.messages r.cancelled default

end ReaderIterator

theorem ServerWriter.written_forEach {α : Type} (w : ServerWriter α) (hw : w.capacity = none)
    (l : List α) : (forEach ServerWriter.write w l).written = w.written ++ l := by
  induction l generalizing w with
  | nil => simp [forEach]
  | cons m l ih =>
    have hwrite : w.write m = (⟨w.written ++ [m], none⟩, true) := by simp [write, hw]
    rw [forEach, hwrite]
    show (forEach write ⟨w.written ++ [m], none⟩ l).written = _
    rw [ih _ rfl, List.append_assoc, List.singleton_append]

/-! ## Updates -/

section Update

variable [Platform]

/-- An update whose stream is cancelled after some requests leaves the databases as they were
exactly when these requests change nothing: every key of every database holds already what the last
of them about the key leaves there. -/
theorem update_cancelled_eq_self_iff (σ : Store) (it : List UpdateRequest) :
    (LevelDBService.update σ { messages := it, cancelled := true }).1 = σ ↔
      (∀ idx, KeepsIndex σ idx it) ∧ ∀ t, KeepsNs σ t it := by
  rw [← update_eq_self_iff]
  simp only [LevelDBService.update, ReaderIterator.toList_ofReader]

end Update

/-- A client adds a statement and then cancels the call. -/
theorem update_cancelled_adds_statement :
    (LevelDBService.update Store.empty {
      messages := [.stmtAdded (.ofUris "urn:s" "urn:p" "urn:o")]
      cancelled := true }).1 ≠ Store.empty := by
  simp only [LevelDBService.update, ReaderIterator.toList_ofReader]
  decide +kernel

end CMarmotta
