import CMarmotta.Model.Message
import CMarmotta.Lib.Wire

/-!
# What the persistence layer takes from its platform

The 128-bit Murmur hash (the source picks a variant by the processor it is compiled for), the hash
of the C++ library, and the protobuf encoding of the messages. Of protobuf the code relies on one
law, which each `Codec` carries: parsing a serialized message gives the message back.
-/

namespace CMarmotta

/-- `KEY_LENGTH`: the number of bytes of one hash in a key. -/
def keyLength : Nat := 16

/-- The sixteen bytes a 128-bit hash writes. -/
structure Hash where
  bytes : Bytes
  length_eq : bytes.length = keyLength
  deriving DecidableEq

/-- The functions the program is compiled and linked with. -/
class Platform where
  /-- `MurmurHash3_x64_128` or `MurmurHash3_x86_128` with seed 13. -/
  murmur3 : Bytes → Hash
  /-- `std::hash<std::string>`. -/
  stdHash : Bytes → Nat
  /-- `SerializeToString` and `ParseFromString` of `Resource`. -/
  resourceCodec : Codec Resource
  /-- The same for `URI`. -/
  uriCodec : Codec URI
  /-- The same for `Value`. -/
  valueCodec : Codec Value
  /-- The same for `Statement`. -/
  statementCodec : Codec Statement
  /-- The same for `Namespace`. -/
  namespaceCodec : Codec Namespace

/-- The bytes of a text in UTF-8, the encoding of protobuf's `string`. -/
def utf8 (s : String) : Bytes := s.toByteArray.data.toList

end CMarmotta
