import SchemaModels.Json.Printer

/-!
# What is wrong with a schema document

A document is either no JSON text or malformed: a fault, in the document as a whole or in one of
its definitions. `DocumentError.message` words both.
-/

namespace SchemaModels

/-- A fault in the structure of a document. -/
inductive Fault where
  | rootNotObject
  | definitionsMissing
  | definitionsNotObject
  | definitionNotObject
  | enumNotArray
  | enumValueNotString (value : Json)
  | alternativesNotArray
  | memberNotReference
  | unsupportedReference (pointer : String)
  | propertiesNotObject
  | requiredNotArray
  | requiredNotString
  | propertyNotObject
  | unsupportedType (keyword : String)

/-- Why a document has no table. -/
inductive DocumentError where
  | notJson
  | malformed (definition : Option String) (fault : Fault)

def Fault.message : Fault → String
  | rootNotObject => "document root must be an object"
  | definitionsMissing => "missing '$defs' definitions container"
  | definitionsNotObject => "'$defs' must be an object"
  | definitionNotObject => "definition must be an object"
  | enumNotArray => "'enum' must be an array"
  | enumValueNotString value => "enum value " ++ value.compact ++ " is not a string"
  | alternativesNotArray => "'oneOf' must be an array"
  | memberNotReference => "union members must be $ref pointers"
  | unsupportedReference pointer => "unsupported $ref '" ++ pointer ++ "'"
  | propertiesNotObject => "'properties' must be an object"
  | requiredNotArray => "'required' must be an array"
  | requiredNotString => "'required' entries must be strings"
  | propertyNotObject => "property schema must be an object"
  | unsupportedType keyword => "unsupported type '" ++ keyword ++ "'"

def DocumentError.message : DocumentError → String
  | notJson => "Schema is not valid JSON"
  | malformed none fault => "Malformed schema: " ++ fault.message
  | malformed (some name) fault =>
      "Malformed schema in definition '" ++ name ++ "': " ++ fault.message

end SchemaModels
