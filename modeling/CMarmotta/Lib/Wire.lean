import Mathlib.Data.List.Basic

/-!
# Codecs and a length-delimited wire format

A `Codec` is a pair of an encoder and a total decoder such that decoding an encoded message gives
the message back. The wire format below is the one all of whose fields are length-delimited: a
message is a sequence of fields, each written as a base-128 varint holding the field number and the
wire type, a varint holding the length, and the payload.
-/

/-- A byte string. -/
abbrev Bytes := List UInt8

/-- An encoder and a decoder for messages of type `M`. The decoder is total: what it returns on
bytes that encode no message is left open. -/
structure Codec (M : Type) where
  /-- The bytes of a message. -/
  serialize : M → Bytes
  /-- The message found in a byte string. -/
  parse : Bytes → M
  /-- Decoding undoes encoding. -/
  parse_serialize : ∀ m, parse (serialize m) = m

namespace Wire

/-- One field of a message: its number and its payload. -/
abbrev Field := Nat × Bytes

/-- The varint of `n`, seven bits a byte and the least significant group first; `fuel` bounds the
number of continuation bytes. -/
def varintAux : Nat → Nat → Bytes
  | 0, n => [UInt8.ofNat n]
  | fuel + 1, n =>
    if n < 128 then [UInt8.ofNat n] else UInt8.ofNat (n % 128 + 128) :: varintAux fuel (n / 128)

/-- The varint of `n`: `n` has at most `n` groups of seven bits. -/
def varint (n : Nat) : Bytes := varintAux n n

/-- Read a varint off the front of the input. -/
def readVarint : Bytes → Option (Nat × Bytes)
  | [] => none
  | b :: bs =>
    if b.toNat < 128 then some (b.toNat, bs)
    else (readVarint bs).map fun (n, rest) => (b.toNat - 128 + 128 * n, rest)

/-- The wire type of length-delimited fields. -/
def lengthDelimited : Nat := 2

/-- The encoding of one field. -/
def encodeField (f : Field) : Bytes :=
  varint (8 * f.1 + lengthDelimited) ++ (varint f.2.length ++ f.2)

/-- The encoding of a message, field by field. -/
def encodeFields (fs : List Field) : Bytes := fs.flatMap encodeField

/-- Read one field off the front of the input. -/
def readField (input : Bytes) : Option (Field × Bytes) := do
  let (tag, rest) ← readVarint input
  if tag % 8 ≠ lengthDelimited then none
  else
    let (len, rest) ← readVarint rest
    if rest.length < len then none
    else some ((tag / 8, rest.take len), rest.drop len)

/-- Read fields until the input is used up; every field takes at least one byte, so the length of
the input is enough `fuel`. -/
def readFields : Nat → Bytes → Option (List Field)
  | _, [] => some []
  | 0, _ :: _ => none
  | fuel + 1, b :: bs => do
    let (f, rest) ← readField (b :: bs)
    let fs ← readFields fuel rest
    some (f :: fs)

/-- Decode a message into its fields. -/
def decodeFields (input : Bytes) : Option (List Field) := readFields input.length input

/-- The payload of the field numbered `num`, if the message has one. -/
def payload? (num : Nat) (fs : List Field) : Option Bytes :=
  (fs.find? fun f => f.1 == num).map Prod.snd

/-- The field numbered `num` holding `payload`, or no field at all. -/
def optField (num : Nat) (payload : Option Bytes) : List Field :=
  payload.toList.map fun b => (num, b)

end Wire
