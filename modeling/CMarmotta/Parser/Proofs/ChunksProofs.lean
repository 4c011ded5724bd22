import CMarmotta.Parser.Chunks

/-!
# The parser is fed the whole input

A good stream is read in full blocks as long as there is one, and what is left, less than a block,
is the last chunk (`parseLoop_eq_forM`). So the chunks are the input (`parse_feeds_input`).
-/

namespace CMarmotta.Parser

/-! ## The chunks of an input -/

/-- Full blocks, and behind them what is left. -/
def chunks (data : Bytes) : List Chunk :=
  if blockSize ≤ data.length then
    ⟨data.take blockSize, false⟩ :: chunks (data.drop blockSize)
  else [⟨data, true⟩]
termination_by data.length
decreasing_by
  rw [List.length_drop]
  have hpos : 0 < blockSize := Nat.succ_pos _
  omega

theorem flatMap_chunks (data : Bytes) : (chunks data).flatMap Chunk.buffer = data := by
  fun_induction chunks data with
  | case1 data hle ih => rw [List.flatMap_cons, ih, List.take_append_drop]
  | case2 data hlt => exact List.append_nil data

theorem length_chunks_le (data : Bytes) : ∀ c ∈ chunks data, c.buffer.length ≤ blockSize := by
  fun_induction chunks data with
  | case1 data hle ih =>
    rw [List.forall_mem_cons]
    exact ⟨List.length_take_le _ _, ih⟩
  | case2 data hlt =>
    rw [List.forall_mem_singleton]
    exact Nat.le_of_not_le hlt

/-- The last chunk, and no other, carries the end flag. -/
theorem chunks_isEnd (data : Bytes) : ∃ init last, chunks data = init ++ [last] ∧
    last.isEnd = true ∧ ∀ c ∈ init, c.isEnd = false := by
  fun_induction chunks data with
  | case1 data hle ih =>
    obtain ⟨init, last, hchunks, hlast, hinit⟩ := ih
    refine ⟨⟨data.take blockSize, false⟩ :: init, last, ?_, hlast, ?_⟩
    · rw [hchunks, List.cons_append]
    · rw [List.forall_mem_cons]
      exact ⟨rfl, hinit⟩
  | case2 data hlt => exact ⟨[], ⟨data, true⟩, rfl, rfl, fun c hc => absurd hc List.not_mem_nil⟩

/-! ## The calls of raptor -/

section Calls

variable {m : Type → Type} [Monad m] [LawfulMonad m]

/-- The loop hands over the chunks of what a good stream has left, whatever the buffer holds. -/
theorem parseLoop_eq_forM (parseChunk : Chunk → m Unit) {ins : IStream UInt8}
    (hgood : ins.good = true) (buffer : Bytes) :
    parseLoop parseChunk ins buffer = (chunks ins.remaining).forM parseChunk := by
  fun_induction parseLoop parseChunk ins buffer with
  | case1 ins buffer next chunk hok ih =>
    have hle : blockSize ≤ ins.remaining.length := (IStream.ok_read_iff hgood buffer _).mp hok
    have hchunk : chunk = ins.remaining.take blockSize := IStream.take_read hgood buffer _
    have hnext : next.1.remaining = ins.remaining.drop blockSize :=
      IStream.remaining_read hgood buffer _
    rw [ih (IStream.good_read hgood hok), hchunk, hnext]
    conv_rhs => rw [chunks, if_pos hle]
    rfl
  | case2 ins buffer next chunk hok =>
    have hlt : ¬ blockSize ≤ ins.remaining.length := fun hle =>
      hok ((IStream.ok_read_iff hgood buffer _).mpr hle)
    have hchunk : chunk = ins.remaining := by
      have htake : chunk = ins.remaining.take blockSize := IStream.take_read hgood buffer _
      rw [htake, List.take_of_length_le (Nat.le_of_not_le hlt)]
    rw [hchunk, chunks, if_neg hlt]
    exact (bind_pure_unit).symm

/-- A stream that has come to its end gives one empty chunk. -/
theorem parseLoop_of_not_good (parseChunk : Chunk → m Unit) {ins : IStream UInt8}
    (hgood : ins.good ≠ true) (buffer : Bytes) :
    parseLoop parseChunk ins buffer = (chunks []).forM parseChunk := by
  have hread : ins.read buffer blockSize = ({ ins with failbit := true, gcount := 0 }, buffer) := by
    rw [IStream.read, if_neg hgood]
  have hnil : ¬ blockSize ≤ ([] : Bytes).length := Nat.not_succ_le_zero _
  rw [parseLoop, hread, chunks, if_neg hnil]
  exact (bind_pure_unit).symm

end Calls

/-- If the stream has failed before, raptor is not called. Otherwise there are chunks that raptor is
called with, one after the other, until a call throws: together they are what can be read from the
stream, each of them fits into the buffer, and the last one and no other carries the end flag. -/
theorem parse_feeds_input (ins : IStream UInt8) (buffer : Bytes) :
    (ins.ok = false → ∀ (m : Type → Type) [Monad m] (parseStart : m Unit)
      (parseChunk : Chunk → m Unit), parse parseStart parseChunk ins buffer = pure ()) ∧
    (ins.ok = true → ∃ cs : List Chunk,
      (∀ (m : Type → Type) [Monad m] [LawfulMonad m] (parseStart : m Unit)
        (parseChunk : Chunk → m Unit),
        parse parseStart parseChunk ins buffer = do parseStart; cs.forM parseChunk) ∧
      cs.flatMap Chunk.buffer = ins.readable ∧ (∀ c ∈ cs, c.buffer.length ≤ 8192) ∧
      ∃ init last, cs = init ++ [last] ∧ last.isEnd = true ∧ ∀ c ∈ init, c.isEnd = false) := by
  constructor
  · intro hok m _ parseStart parseChunk
    rw [parse, hok]
    rfl
  · intro hok
    refine ⟨chunks ins.readable, ?_, flatMap_chunks _, length_chunks_le _, chunks_isEnd _⟩
    intro m _ _ parseStart parseChunk
    have hloop : parseLoop parseChunk ins buffer = (chunks ins.readable).forM parseChunk := by
      by_cases hgood : ins.good = true
      · rw [IStream.readable, if_pos hgood]
        exact parseLoop_eq_forM parseChunk hgood buffer
      · rw [IStream.readable, if_neg hgood]
        exact parseLoop_of_not_good parseChunk hgood buffer
    rw [parse, if_pos hok, hloop]

end CMarmotta.Parser
