import CMarmotta.Model.Values
import CMarmotta.Serializer.SerializerRaptor

/-!
# `sparql/rasqal_model.cc`: terms of rasqal

Rasqal keeps a literal with a datatype in the type it has for that datatype, with the value that it
parses from the string. `ConvertValue` goes by the type and prints that value again. How rasqal
chooses the type and parses the value is a parameter, `Rasqal`.
-/

namespace CMarmotta

/-- The type of a rasqal literal with a datatype, with its native value. Of floating point numbers,
decimals and dates only the text is used that they are printed as. -/
inductive Native where
  | xsdString
  | boolean (integer : Int)
  | integer (integer : Int)
  | float (printed : CString)
  | double (printed : CString)
  | decimal (printed : CString)
  | datetime (printed : CString)
  | date (printed : CString)
  | udt
  deriving DecidableEq

/-- The part of rasqal that types literals. -/
class Rasqal where
  /-- The type and the value that `rasqal_new_string_literal` gives to a string with a datatype;
  `none` if it makes no literal of them. -/
  native (datatype string : CString) : Option Native

/-- `rasqal_literal`, by its type; `other` stands for the types that no function below has a case
for. The strings rasqal is given are C strings; a string comes with its length. -/
inductive RasqalLiteral where
  | uri (uri : CString)
  | blank (string : CString)
  | string (string : CString) (language : Option CString)
  | typed (string datatype : CString) (native : Native)
  | variable (name : String)
  | other
  deriving DecidableEq

namespace Rasqal

/-- `rasqal_new_uri_literal`: no literal without a URI. -/
def newUriLiteral (uri : Option CString) : Option RasqalLiteral := uri.map .uri

/-- `rasqal_new_string_literal`. -/
def newStringLiteral [Rasqal] (string : CString) (language datatype : Option CString) :
    Option RasqalLiteral :=
  match datatype with
  | none => some (.string string language)
  | some d => (native d string).map (.typed string d)

end Rasqal

namespace RasqalModel

open Rasqal

/-! ## From rasqal -/

/-- `ConvertResource`. -/
def convertResource : RasqalLiteral → Rdf.Resource
  | .uri uri => .ofMessage (.uri ⟨uri.text⟩)
  | .blank string => .ofMessage (.bnode ⟨string.text⟩)
  | _ => .new

/-- What `ConvertValue` takes as the content of a literal with a datatype, by its type. -/
def contentOf (label : String) : Native → Option String
  | .xsdString => some label
  | .boolean integer => some (if integer = 0 then "false" else "true")
  | .integer integer => some (toString integer)
  | .float printed => some printed.text
  | .double printed => some printed.text
  | .decimal printed => some printed.text
  | .datetime printed => some printed.text
  | .date printed => some printed.text
  | .udt => none

/-- `ConvertValue`. -/
def convertValue : RasqalLiteral → Rdf.Value
  | .uri uri => .ofMessage (.resource (.uri ⟨uri.text⟩))
  | .blank string => .ofMessage (.resource (.bnode ⟨string.text⟩))
  | .string string (some language) =>
    .ofMessage (.literal (.stringliteral ⟨string.text, language.text⟩))
  | .string string none => .ofMessage (.literal (.stringliteral ⟨string.text, ""⟩))
  | .typed string datatype native =>
    match contentOf string.text native with
    | some label => .ofMessage (.literal (.dataliteral ⟨label, some ⟨datatype.text⟩⟩))
    | none => .new
  | _ => .new

/-- `ConvertURI`. -/
def convertURI : RasqalLiteral → URI
  | .uri uri => ⟨uri.text⟩
  | _ => ⟨""⟩

/-! ## To rasqal -/

/-- `AsLiteral(world, const rdf::Resource&)`. -/
def asLiteralResource (r : Rdf.Resource) : Option RasqalLiteral :=
  match r.type with
  | .URI => newUriLiteral (Raptor.newUri (.ofString r.stringValue))
  | .BNODE => some (.blank (.ofString r.stringValue))
  | .NONE => none

/-- `AsLiteral(world, const rdf::URI&)`. -/
def asLiteralURI (u : URI) : Option RasqalLiteral := newUriLiteral (Raptor.newUri (.ofString u.uri))

variable [Rasqal]

/-- `AsStringLiteral`. The language is passed even if it is empty. -/
def asStringLiteral (v : Rdf.Value) : Option RasqalLiteral :=
  let l := v.internal.mutableLiteral.mutableStringliteral
  newStringLiteral (.ofString l.content) (some (.ofString l.language)) none

/-- `AsDatatypeLiteral`. -/
def asDatatypeLiteral (v : Rdf.Value) : Option RasqalLiteral :=
  let l := v.internal.mutableLiteral.mutableDataliteral
  newStringLiteral (.ofString l.content) none
    (Raptor.newUri (.ofString (l.datatype.getD ⟨""⟩).uri))

/-- `AsLiteral(world, const rdf::Value&)`. -/
def asLiteral (v : Rdf.Value) : Option RasqalLiteral :=
  match v.type with
  | .URI => newUriLiteral (Raptor.newUri (.ofString v.stringValue))
  | .BNODE => some (.blank (.ofString v.stringValue))
  | .STRING_LITERAL => asStringLiteral v
  | .DATATYPE_LITERAL => asDatatypeLiteral v
  | .NONE => none

end RasqalModel

/-! ## A rasqal for concrete runs -/

/-- The XML Schema datatype with a name. -/
def xsd (name : String) : CString := .ofString ("http://www.w3.org/2001/XMLSchema#" ++ name)

/-- The number written in decimal digits. -/
def readDigits (digits : List Char) : Option Nat :=
  if digits ≠ [] ∧ digits.all Char.isDigit = true then
    some (digits.foldl (fun n c => 10 * n + (c.toNat - '0'.toNat)) 0)
  else none

/-- The number written in decimal digits behind an optional sign, as `strtol` reads it. -/
def readInteger : List Char → Option Int
  | '-' :: digits => (readDigits digits).map fun n => -n
  | '+' :: digits => (readDigits digits).map fun n => n
  | digits => (readDigits digits).map fun n => n

/-- Rasqal with the types for strings, booleans and integers only; any other datatype is unknown to
it. -/
@[reducible] def Rasqal.basic : Rasqal where
  native datatype string :=
    if datatype = xsd "string" then some .xsdString
    else if datatype = xsd "boolean" then
      some (.boolean (if string.text = "true" ∨ string.text = "1" then 1 else 0))
    else if datatype = xsd "integer" then (readInteger string.text.toList).map .integer
    else some .udt

end CMarmotta
