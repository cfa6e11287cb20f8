import SchemaModels.Json.Printer

/-!
# Why an instance has no canonical form

A reading stops at a place of the instance, where something else was expected, or where no member
of a union accepts the value. `CanonicalError.message` words the causes.
-/

namespace SchemaModels.Canonical

/-- A step from a value to a part of it. -/
inductive Step where
  | key (name : String)
  | index (i : Nat)
  deriving DecidableEq

/-- The place of a part, the last step first. -/
abbrev Path := List Step

def Step.text : Step → String
  | key name => "." ++ name
  | index i => "[" ++ String.ofList (Number.digitsOf i) ++ "]"

/-- The text of a place: the steps after a sign for the whole. -/
def pathText (path : Path) : String := "$" ++ String.intercalate "" (path.reverse.map Step.text)

/-- What a place of an instance was expected to hold. -/
inductive Expected where
  | rootObject
  | field (name : String)
  | enumValue (name : String)
  | objectOf (name : String)
  | nonNull
  | oneOf (values : List Json)
  | constant (value : Json)
  | array
  | arrayOf (count : Nat)
  | object
  | string
  | integer
  | number
  | boolean

def Expected.text : Expected → String
  | rootObject => "an object with 'metadata' and 'root'"
  | field name => "required field '" ++ name ++ "'"
  | enumValue name => "a value of enum '" ++ name ++ "'"
  | objectOf name => "an object of type '" ++ name ++ "'"
  | nonNull => "a non-null value"
  | oneOf values => "one of " ++ (Json.array values).compact
  | constant value => "the constant " ++ value.compact
  | array => "an array"
  | arrayOf count => "an array of " ++ String.ofList (Number.digitsOf count) ++ " items"
  | object => "an object"
  | string => "a string"
  | integer => "an integer"
  | number => "a number"
  | boolean => "a boolean"

/-- Why an instance has no canonical form. A union without a name is an inline one. -/
inductive CanonicalError where
  | unknownDefinition (name : String)
  | mismatch (path : Path) (expected : Expected)
  | noMatchingMember (path : Path) (union : Option String)
  | endless

def CanonicalError.message : CanonicalError → String
  | unknownDefinition name => "Unknown definition '" ++ name ++ "'"
  | mismatch path expected => "At " ++ pathText path ++ ": expected " ++ expected.text
  | noMatchingMember path union =>
      "At " ++ pathText path ++ ": no member of '" ++ union.getD "inline union" ++ "' matches"
  | endless => "the reading does not end"

end SchemaModels.Canonical
