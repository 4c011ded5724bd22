import CMarmotta.Lib.Wire

/-!
# Round trip of the wire format

Decoding an encoded list of fields gives the list back (`decodeFields_encodeFields`). See
`CMarmotta.Lib.Wire` for the definitions.
-/

namespace Codec

variable {M : Type}

theorem serialize_injective (c : Codec M) : Function.Injective c.serialize :=
  Function.LeftInverse.injective c.parse_serialize

/-- Parsing behind a choice between a serialized message and what was there. -/
theorem map_parse_getD (c : Codec M) (o : Option (Option M)) (v : Option Bytes) :
    ((o.map (Option.map c.serialize)).getD v).map c.parse = o.getD (v.map c.parse) := by
  cases o with
  | none => rfl
  | some m => cases m <;> simp [c.parse_serialize]

end Codec

namespace Wire

/-! ## Varints -/

theorem readVarint_varintAux (fuel n : Nat) (rest : Bytes) (h : n ≤ fuel) :
    readVarint (varintAux fuel n ++ rest) = some (n, rest) := by
  induction fuel generalizing n with
  | zero =>
    obtain rfl : n = 0 := by omega
    simp [varintAux, readVarint]
  | succ fuel ih =>
    rw [varintAux]
    split_ifs with hn
    · have hb : (UInt8.ofNat n).toNat = n := by
        rw [UInt8.toNat_ofNat']; omega
      simp [readVarint, hb, hn]
    · have hb : (UInt8.ofNat (n % 128 + 128)).toNat = n % 128 + 128 := by
        rw [UInt8.toNat_ofNat']; omega
      have hrec := ih (n / 128) (by omega)
      simp only [List.cons_append, readVarint, hb, hrec, Option.map_some]
      rw [if_neg (by omega)]
      simp only [Option.some.injEq, Prod.mk.injEq, and_true]
      omega

@[simp] theorem readVarint_varint (n : Nat) (rest : Bytes) :
    readVarint (varint n ++ rest) = some (n, rest) :=
  readVarint_varintAux n n rest (Nat.le_refl n)

theorem varint_ne_nil (n : Nat) : varint n ≠ [] := by
  unfold varint
  cases n with
  | zero => simp [varintAux]
  | succ n => rw [varintAux]; split_ifs <;> simp

/-! ## Fields -/

theorem readField_encodeField (f : Field) (rest : Bytes) :
    readField (encodeField f ++ rest) = some (f, rest) := by
  obtain ⟨num, payload⟩ := f
  have htag : (8 * num + lengthDelimited) % 8 = lengthDelimited := by
    simp [lengthDelimited]
  have hnum : (8 * num + lengthDelimited) / 8 = num := by
    simp only [lengthDelimited]; omega
  simp [readField, encodeField, List.append_assoc, htag, hnum]

theorem encodeField_ne_nil (f : Field) : encodeField f ≠ [] := by
  simp [encodeField, varint_ne_nil]

theorem readFields_encodeFields (fs : List Field) (fuel : Nat)
    (h : (encodeFields fs).length ≤ fuel) : readFields fuel (encodeFields fs) = some fs := by
  induction fs generalizing fuel with
  | nil => cases fuel <;> simp [encodeFields, readFields]
  | cons f fs ih =>
    have hcons : encodeFields (f :: fs) = encodeField f ++ encodeFields fs := by
      simp [encodeFields]
    obtain ⟨b, bs, hb⟩ := List.exists_cons_of_ne_nil (encodeField_ne_nil f)
    have hlen : (encodeField f).length = bs.length + 1 := by rw [hb]; simp
    rw [hcons] at h ⊢
    simp only [List.length_append] at h
    cases fuel with
    | zero => omega
    | succ fuel =>
      have hread := readField_encodeField f (encodeFields fs)
      rw [hb, List.cons_append] at hread ⊢
      simp [readFields, hread, ih fuel (by omega)]

/-- Decoding a message undoes encoding it. -/
theorem decodeFields_encodeFields (fs : List Field) :
    decodeFields (encodeFields fs) = some fs :=
  readFields_encodeFields fs _ (Nat.le_refl _)

theorem encodeFields_append (fs gs : List Field) :
    encodeFields (fs ++ gs) = encodeFields fs ++ encodeFields gs :=
  List.flatMap_append

/-! ## Truncated messages -/

/-- What is read off the front of an input does not depend on what follows. -/
theorem readVarint_append {input rest : Bytes} {n : Nat} (h : readVarint input = some (n, rest))
    (more : Bytes) : readVarint (input ++ more) = some (n, rest ++ more) := by
  induction input generalizing n rest with
  | nil => cases h
  | cons b bs ih =>
    rw [readVarint] at h
    rw [List.cons_append, readVarint]
    split_ifs at h ⊢ with hb
    · cases h
      rfl
    · obtain ⟨⟨m, rest'⟩, hread, hm⟩ := Option.map_eq_some_iff.mp h
      cases hm
      rw [ih hread]
      rfl

theorem readField_append {input rest : Bytes} {f : Field} (h : readField input = some (f, rest))
    (more : Bytes) : readField (input ++ more) = some (f, rest ++ more) := by
  obtain ⟨⟨tag, rest₁⟩, htag, h⟩ := Option.bind_eq_some_iff.mp h
  simp only at h
  split_ifs at h with hwire
  obtain ⟨⟨len, rest₂⟩, hlen, h⟩ := Option.bind_eq_some_iff.mp h
  simp only at h
  split_ifs at h with hshort
  cases h
  have htype : tag % 8 = lengthDelimited := not_not.mp hwire
  have hlong : len ≤ rest₂.length + more.length := by omega
  have htake : (rest₂ ++ more).take len = rest₂.take len :=
    List.take_append_of_le_length (by omega)
  have hdrop : (rest₂ ++ more).drop len = rest₂.drop len ++ more :=
    List.drop_append_of_le_length (by omega)
  simp [readField, readVarint_append htag more, readVarint_append hlen more, htype, hlong, htake,
    hdrop]

/-- A truncated message is not read, or as some of the first fields. -/
theorem readFields_of_prefix {fs gs : List Field} {fuel : Nat} {input : Bytes}
    (h : input <+: encodeFields fs) (hread : readFields fuel input = some gs) : gs <+: fs := by
  induction fuel generalizing fs gs input with
  | zero =>
    cases input with
    | nil =>
      cases hread
      exact List.nil_prefix
    | cons b bs => cases hread
  | succ fuel ih =>
    cases input with
    | nil =>
      cases hread
      exact List.nil_prefix
    | cons b bs =>
      obtain ⟨⟨f, rest⟩, hfield, hread⟩ := Option.bind_eq_some_iff.mp hread
      obtain ⟨gs', hrest, hgs⟩ := Option.bind_eq_some_iff.mp hread
      cases hgs
      obtain ⟨more, hmore⟩ := h
      cases fs with
      | nil => cases hmore
      | cons f' fs =>
        -- The first field is read off the whole message as off its beginning.
        have hwhole := readField_append hfield more
        rw [hmore, show encodeFields (f' :: fs) = encodeField f' ++ encodeFields fs from
          List.flatMap_cons, readField_encodeField] at hwhole
        obtain ⟨rfl, hrest'⟩ := Prod.mk.inj (Option.some.inj hwhole)
        exact (List.prefix_cons_inj f').mpr (ih ⟨more, hrest'.symm⟩ hrest)

theorem decodeFields_of_prefix {fs gs : List Field} {input : Bytes} (h : input <+: encodeFields fs)
    (hdecode : decodeFields input = some gs) : gs <+: fs :=
  readFields_of_prefix h hdecode

/-! ## Looking fields up -/

@[simp] theorem payload?_append (num : Nat) (fs gs : List Field) :
    payload? num (fs ++ gs) = (payload? num fs).or (payload? num gs) := by
  simp only [payload?, List.find?_append]
  cases fs.find? (fun f => f.1 == num) <;> simp

@[simp] theorem payload?_optField (num num' : Nat) (p : Option Bytes) :
    payload? num (optField num' p) = if num' = num then p else none := by
  by_cases h : num' = num <;> cases p <;> simp [payload?, optField, h]

/-! ## Codecs from fields -/

/-- The codec of a message type that is given by its fields. -/
def codec {M : Type} (toFields : M → List Field) (ofFields : List Field → M)
    (h : ∀ m, ofFields (toFields m) = m) : Codec M where
  serialize m := encodeFields (toFields m)
  parse b := ofFields ((decodeFields b).getD [])
  parse_serialize m := by simp [decodeFields_encodeFields, h]

end Wire
