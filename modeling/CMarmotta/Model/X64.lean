import CMarmotta.Model.Platform
import CMarmotta.Lib.Proofs.WireProofs
import CMarmotta.Util.Murmur3

/-!
# The platform of a 64-bit x86 machine

The protobuf encoding of the messages, field by field in the order of their numbers, with empty
strings left out; `MurmurHash3_x64_128` with seed 13; and the string hash of the GNU C++ library.
-/

namespace CMarmotta

namespace X64

open Wire

/-! ## Fields -/

/-- The text in a payload; a payload that is not UTF-8 gives the empty text. -/
def ofUtf8 (b : Bytes) : String := (String.fromUTF8? ⟨b.toArray⟩).getD ""

@[simp] theorem ofUtf8_utf8 (s : String) : ofUtf8 (utf8 s) = s := by
  have hb : (⟨(utf8 s).toArray⟩ : ByteArray) = s.toByteArray := by simp [utf8]
  rw [ofUtf8, hb, String.fromUTF8?, dif_pos s.isValidUTF8]
  rfl

/-- A `string` field: left out when the text is empty. -/
def stringField (num : Nat) (s : String) : List Field :=
  optField num (if s = "" then none else some (utf8 s))

/-- The text of a `string` field. -/
def getString (num : Nat) (fs : List Field) : String :=
  ((payload? num fs).map ofUtf8).getD ""

@[simp] theorem payload?_stringField (num num' : Nat) (s : String) :
    payload? num (stringField num' s) =
      if num' = num then (if s = "" then none else some (utf8 s)) else none := by
  simp [stringField]

/-- Reading a text back from the payload it is written as. -/
@[simp] theorem getD_map_ofUtf8 (s : String) :
    ((if s = "" then none else some (utf8 s)).map ofUtf8).getD "" = s := by
  by_cases hs : s = "" <;> simp [hs]

/-! ## Codecs of the messages -/

/-- `URI`. -/
def uriCodec : Codec URI :=
  codec (fun u => stringField 1 u.uri) (fun fs => ⟨getString 1 fs⟩) (by simp [getString])

/-- `BNode`. -/
def bnodeCodec : Codec BNode :=
  codec (fun b => stringField 1 b.id) (fun fs => ⟨getString 1 fs⟩) (by simp [getString])

/-- `Namespace`. -/
def namespaceCodec : Codec Namespace :=
  codec (fun n => stringField 1 n.nsPrefix ++ stringField 2 n.uri)
    (fun fs => ⟨getString 1 fs, getString 2 fs⟩) (by simp [getString])

/-- `StringLiteral`. -/
def stringLiteralCodec : Codec StringLiteral :=
  codec (fun l => stringField 1 l.content ++ stringField 2 l.language)
    (fun fs => ⟨getString 1 fs, getString 2 fs⟩) (by simp [getString])

/-- `DatatypeLiteral`. -/
def datatypeLiteralCodec : Codec DatatypeLiteral :=
  codec (fun l => stringField 1 l.content ++ optField 2 (l.datatype.map uriCodec.serialize))
    (fun fs => ⟨getString 1 fs, (payload? 2 fs).map uriCodec.parse⟩)
    (by simp [getString, Function.comp_def, uriCodec.parse_serialize])

/-- A `oneof` of two messages: the field of the alternative that is set. -/
def resourceFields : Resource → List Field
  | .notSet => []
  | .uri u => [(1, uriCodec.serialize u)]
  | .bnode b => [(2, bnodeCodec.serialize b)]

/-- `Resource`. -/
def resourceCodec : Codec Resource :=
  codec resourceFields
    (fun fs => match payload? 1 fs, payload? 2 fs with
      | some b, _ => .uri (uriCodec.parse b)
      | none, some b => .bnode (bnodeCodec.parse b)
      | none, none => .notSet)
    (by
      intro r
      cases r <;>
        simp [resourceFields, payload?, uriCodec.parse_serialize, bnodeCodec.parse_serialize])

/-- The field of the alternative of a literal. -/
def literalFields : Literal → List Field
  | .notSet => []
  | .stringliteral l => [(1, stringLiteralCodec.serialize l)]
  | .dataliteral l => [(2, datatypeLiteralCodec.serialize l)]

/-- `Literal`. -/
def literalCodec : Codec Literal :=
  codec literalFields
    (fun fs => match payload? 1 fs, payload? 2 fs with
      | some b, _ => .stringliteral (stringLiteralCodec.parse b)
      | none, some b => .dataliteral (datatypeLiteralCodec.parse b)
      | none, none => .notSet)
    (by
      intro l
      cases l <;> simp [literalFields, payload?, stringLiteralCodec.parse_serialize,
        datatypeLiteralCodec.parse_serialize])

/-- The field of the alternative of a value. -/
def valueFields : Value → List Field
  | .notSet => []
  | .resource r => [(1, resourceCodec.serialize r)]
  | .literal l => [(2, literalCodec.serialize l)]

/-- `Value`. -/
def valueCodec : Codec Value :=
  codec valueFields
    (fun fs => match payload? 1 fs, payload? 2 fs with
      | some b, _ => .resource (resourceCodec.parse b)
      | none, some b => .literal (literalCodec.parse b)
      | none, none => .notSet)
    (by
      intro v
      cases v <;>
        simp [valueFields, payload?, resourceCodec.parse_serialize, literalCodec.parse_serialize])

/-- `Statement`. -/
def statementCodec : Codec Statement :=
  codec
    (fun s => optField 1 (s.subject.map resourceCodec.serialize) ++
      (optField 2 (s.predicate.map uriCodec.serialize) ++
        (optField 3 (s.object.map valueCodec.serialize) ++
          optField 4 (s.context.map resourceCodec.serialize))))
    (fun fs => ⟨(payload? 1 fs).map resourceCodec.parse, (payload? 2 fs).map uriCodec.parse,
      (payload? 3 fs).map valueCodec.parse, (payload? 4 fs).map resourceCodec.parse⟩)
    (by simp [Function.comp_def, resourceCodec.parse_serialize, uriCodec.parse_serialize,
      valueCodec.parse_serialize])

/-! ## Hashes -/

/-- `MurmurHash3_x64_128` with the seed of `computeKey`. -/
def murmur3 (m : Bytes) : Hash :=
  ⟨Murmur3.murmurHash3X64128 m 13, Murmur3.length_murmurHash3X64128 m 13⟩

/-- The multiplier of the string hash. -/
def mul : UInt64 := 0xc6a4a7935bd1e995

/-- `shift_mix`. -/
def shiftMix (v : UInt64) : UInt64 := v ^^^ (v >>> 47)

/-- `std::hash<std::string>` of the GNU C++ library: `_Hash_bytes` with seed `0xc70f6907`. -/
def stdHash (s : Bytes) : Nat :=
  let nblocks := s.length / 8
  let seed : UInt64 := 0xc70f6907 ^^^ (UInt64.ofNat s.length * mul)
  let h := (List.range nblocks).foldl
    (fun h i => (h ^^^ (shiftMix (Murmur3.getblock64 s i * mul) * mul)) * mul) seed
  let tail := s.drop (8 * nblocks)
  let h := if 0 < tail.length then (h ^^^ Murmur3.littleEndian tail) * mul else h
  (shiftMix (shiftMix h * mul)).toNat

end X64

/-- The platform the server is usually compiled for. Statements about a fixed input are about it. -/
instance X64.platform : Platform where
  murmur3 := X64.murmur3
  stdHash := X64.stdHash
  resourceCodec := X64.resourceCodec
  uriCodec := X64.uriCodec
  valueCodec := X64.valueCodec
  statementCodec := X64.statementCodec
  namespaceCodec := X64.namespaceCodec

end CMarmotta
