import CMarmotta.Lib.Proofs.IStreamProofs
import CMarmotta.Lib.Wire

/-!
# `util/split.cc`

The pieces of a string are the lines of a stream over it, with the separator in place of the end of
a line.
-/

namespace CMarmotta

/-- The loop of `split`. -/
def splitLoop (ss : IStream UInt8) (item : Bytes) (delim : UInt8) (elems : List Bytes) :
    List Bytes :=
  let next := ss.getline item delim
  if next.1.ok = true then splitLoop next.1 next.2 delim (elems ++ [next.2]) else elems
termination_by ss.remaining.length
decreasing_by exact IStream.length_remaining_getline_lt ‹_›

/-- `split`. -/
def split (s : Bytes) (delim : UInt8) : List Bytes := splitLoop { remaining := s } [] delim []

end CMarmotta
