import Mathlib.Data.List.TakeWhile

/-!
# Input streams

An input stream of the C++ library: what is still to be read, its state bits, and the count of the
last unformatted read. A stream that is not good reads nothing and fails.
-/

/-- `std::istream` over the characters `α`. `failbit` stands for `badbit`, too. -/
structure IStream (α : Type) where
  remaining : List α
  eofbit : Bool := false
  failbit : Bool := false
  gcount : Nat := 0

namespace IStream

variable {α : Type}

/-- `good()`. -/
def good (ins : IStream α) : Bool := !ins.eofbit && !ins.failbit

/-- `operator bool`, which is `!fail()`. -/
def ok (ins : IStream α) : Bool := !ins.failbit

/-- What can be read from the stream. -/
def readable (ins : IStream α) : List α := if ins.good then ins.remaining else []

/-- `read(buffer, n)`: overwrite the start of the buffer with the next `n` characters. With fewer
characters left, take these, and fail. -/
def read (ins : IStream α) (buffer : List α) (n : Nat) : IStream α × List α :=
  if ins.good then
    let data := ins.remaining.take n
    ({ remaining := ins.remaining.drop n
       eofbit := data.length < n
       failbit := data.length < n
       gcount := data.length }, data ++ buffer.drop data.length)
  else ({ ins with failbit := true, gcount := 0 }, buffer)

variable [DecidableEq α]

/-- `std::getline(ins, item, delim)`: the characters up to the next separator, which is dropped, or
up to the end. It fails if there is nothing to read, not even a separator. -/
def getline (ins : IStream α) (item : List α) (delim : α) : IStream α × List α :=
  if ins.good then
    let line := ins.remaining.takeWhile fun c => c ≠ delim
    match ins.remaining.dropWhile fun c => c ≠ delim with
    | [] => ({ ins with remaining := [], eofbit := true, failbit := line.isEmpty }, line)
    | _ :: rest => ({ ins with remaining := rest }, line)
  else ({ ins with failbit := true }, item)

end IStream
