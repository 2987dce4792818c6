namespace TemplateAnalysis

/-- A value of the data format in which clients and files give settings. Whole numbers are kept
    apart from all others, because a count must be written without a point and an exponent. The
    fields of an object have different names. -/
inductive Json
  | null
  | bool (value : Bool)
  | integer (value : Int)
  | decimal (text : String)
  | string (value : String)
  | array (items : List Json)
  | object (fields : List (String × Json))
  deriving Inhabited

namespace Json

/-- The fields after one more has been given. It takes the place of a field with the same name. -/
def put (name : String) (value : Json) (fields : List (String × Json)) : List (String × Json) :=
  (name, value) :: fields.filter (·.1 != name)

/-- The value of a field of an object. -/
def field? (name : String) : Json → Option Json
  | object fields => fields.lookup name
  | _ => none

/-- Whether the value stands for an absent one. -/
def isNull : Json → Bool
  | null => true
  | _ => false

/-- The text of a string. -/
def string? : Json → Option String
  | string value => some value
  | _ => none

/-- The word that chooses one of several things. It is written as a text, or as an object whose only
    field has that name and holds nothing. -/
def word? : Json → Option String
  | string value => some value
  | object [(name, null)] => some name
  | _ => none

/-- The truth value, if the value is one. -/
def bool? : Json → Option Bool
  | bool value => some value
  | _ => none

/-- The items of an array. -/
def array? : Json → Option (List Json)
  | array items => some items
  | _ => none

/-- The number, if it is a whole one that fits into 32 bits with a sign. -/
def int32? : Json → Option Int
  | integer value => if -2147483648 ≤ value ∧ value < 2147483648 then some value else none
  | _ => none

/-- The number, if it is a whole one that fits into 32 bits without a sign. -/
def nat32? : Json → Option Nat
  | integer value => if 0 ≤ value ∧ value < 4294967296 then some value.toNat else none
  | _ => none

/-- The items of an array, each read in the same way. -/
def arrayOf? {α : Type} (read : Json → Option α) (value : Json) : Option (List α) :=
  value.array?.bind (·.mapM read)

/-- A value that may be absent. An absent one may also be written as null. -/
def optional? {α : Type} (read : Json → Option α) : Option Json → Option (Option α)
  | none | some .null => some none
  | some value => (read value).map some

end Json

end TemplateAnalysis
