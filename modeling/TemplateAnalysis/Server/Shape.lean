import TemplateAnalysis.Json
import TemplateAnalysis.Uri

namespace TemplateAnalysis.Server

/-- The values that a client may write in a place. -/
abbrev Shape := Json → Bool

/-- A field of a record. An object may be without the field if it may be absent; an array, which
    gives the values of the fields in order, may end before it if it may be cut. -/
structure Member where
  name : String
  shape : Shape
  mayBeAbsent : Bool := false
  mayBeCut : Bool := false

namespace Shape

/-- Any value. -/
def anything : Shape := fun _ => true

/-- A truth value. -/
def flag : Shape := fun value => value.bool?.isSome

/-- A text. -/
def text : Shape := fun value => value.string?.isSome

/-- A whole number of 32 bits without a sign. -/
def natural : Shape := fun value => value.nat32?.isSome

/-- A whole number of 32 bits with a sign. Numbers that choose one of several things have this shape
    too, because new choices may be added. -/
def integer : Shape := fun value => value.int32?.isSome

/-- The address of a document. -/
def address : Shape := fun value => value.string?.any Uri.isReference

/-- A number or a text by which a client knows something. -/
def tag : Shape := fun value => integer value || text value

/-- One of some words. -/
def word (words : List String) : Shape := fun value => value.word?.any words.contains

/-- An array of values of one shape. -/
def list (item : Shape) : Shape := fun value => value.array?.any (·.all item)

/-- A value of a shape, or nothing. -/
def nullable (shape : Shape) : Shape := fun value => value.isNull || shape value

/-- An object with the given fields, and perhaps others. -/
def named (members : List Member) : Shape
  | .object given => members.all fun member =>
    match given.lookup member.name with
    | some value => member.shape value
    | none => member.mayBeAbsent
  | _ => false

/-- The values of the given fields in order, without their names. -/
def listed (members : List Member) : Shape
  | .array items =>
    items.length ≤ members.length &&
      (members.zip items).all (fun (member, value) => member.shape value) &&
      (members.drop items.length).all (·.mayBeCut)
  | _ => false

/-- A record, with or without the names of its fields. -/
def record (members : List Member) : Shape := fun value =>
  named members value || listed members value

end Shape

namespace Member

/-- A field that must be there. -/
def required (name : String) (shape : Shape) : Member := { name, shape }

/-- A field that may be absent or null. -/
def optional (name : String) (shape : Shape) : Member :=
  { name, shape := Shape.nullable shape, mayBeAbsent := true }

end Member

namespace Shape

open Member

/-- A position. -/
def position : Shape := record [required "line" natural, required "character" natural]

/-- A range. -/
def range : Shape := record [required "start" position, required "end" position]

end Shape

end TemplateAnalysis.Server
