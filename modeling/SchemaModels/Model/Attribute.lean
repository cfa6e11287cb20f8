import SchemaModels.Model.Member
import SchemaModels.Name.Identifier

/-!
# Attributes

The attribute under which a class declares a field. Characters outside of identifiers become
underscores; leading underscores, which would make an attribute private, are dropped; a name that
is empty or begins with a digit gets a prefix of its own, a keyword a trailing underscore. The
field's own name is kept beside it when it differs.

* `Attribute.ofField`: the attribute of a field.
* `attributes`: those of the fields of a class, whose names have to differ.
-/

namespace SchemaModels.Model

/-- An attribute of a class. -/
structure Attribute where
  name : String
  wireName : Option String
  deriving DecidableEq

/-- The character that stands for a character of a field's name. -/
def attributeChar (c : Char) : Char := if c.isAlphanum || c == '_' then c else '_'

/-- An attribute's name before keywords are avoided. -/
def attributeChars (field : List Char) : List Char :=
  let stem := (field.map attributeChar).dropWhile (· == '_')
  match stem with
  | [] => "field_".toList
  | c :: _ => if c.isDigit then "field_".toList ++ stem else stem

/-- The name of a field's attribute. -/
def attributeName (field : String) : String :=
  let name := String.ofList (attributeChars field.toList)
  if Name.keywords.contains name then name ++ "_" else name

/-- The attribute of a field. -/
def Attribute.ofField (field : String) : Attribute :=
  let name := attributeName field
  ⟨name, if name = field then none else some field⟩

/-- The attributes of fields, after some that are already there with their fields. -/
def attributesAfter (seen : List (String × String)) :
    List String → Except Collision (List Attribute)
  | [] => .ok []
  | field :: rest =>
      match seen.lookup (attributeName field) with
      | some first => .error ⟨attributeName field, first, field⟩
      | none =>
          (attributesAfter ((attributeName field, field) :: seen) rest).map
            (Attribute.ofField field :: ·)

/-- The attributes of the fields of a class, in order. -/
def attributes (fields : List String) : Except Collision (List Attribute) :=
  attributesAfter [] fields

end SchemaModels.Model
