import CMarmotta.Lib.Proofs.IStreamProofs
import CMarmotta.Lib.Wire

/-!
# `Parser::parse` in `parser/rdf_parser.cc`: feeding raptor

A file is read into a buffer block by block, and raptor parses each block. What raptor does with a
block is not known here, and may end in an exception of a handler, so it is an action of any monad.
-/

namespace CMarmotta.Parser

/-- The size of the buffer. -/
def blockSize : Nat := 8192

/-- The arguments of a call of `raptor_parser_parse_chunk`. -/
structure Chunk where
  buffer : Bytes
  isEnd : Bool
  deriving DecidableEq

section Parse

variable {m : Type → Type} [Monad m]

/-- The loop of `Parser::parse`, and the call behind it. -/
def parseLoop (parseChunk : Chunk → m Unit) (ins : IStream UInt8) (buffer : Bytes) : m Unit :=
  let next := ins.read buffer blockSize
  let chunk := next.2.take next.1.gcount
  if next.1.ok = true then do
    parseChunk ⟨chunk, false⟩
    parseLoop parseChunk next.1 next.2
  else parseChunk ⟨chunk, true⟩
termination_by ins.remaining.length
decreasing_by exact IStream.length_remaining_read_lt (Nat.succ_pos _) ‹_›

/-- `Parser::parse`. The buffer holds anything before the first block is read. -/
def parse (parseStart : m Unit) (parseChunk : Chunk → m Unit) (ins : IStream UInt8)
    (buffer : Bytes) : m Unit :=
  if ins.ok then do
    parseStart
    parseLoop parseChunk ins buffer
  else pure ()

end Parse

end CMarmotta.Parser
