import SchemaModels.Unit.Declaration
import SchemaModels.Unit.Error

/-!
# Backends

A backend writes the parts of a unit for one target.
-/

namespace SchemaModels

/-- The writer of one target. -/
structure Backend where
  id : String
  name : String
  extension : String
  defaultIndent : Indent
  /-- What stands between two blocks of a unit. -/
  separator : String
  /-- The declaration of a planned definition. -/
  declaration : Settings → Table → Plan → Planned → Definition →
    Except GenerationError Declaration
  /-- The declaration of the top-level type. -/
  schemaType : Settings → Table → Declaration
  /-- The statements after all declarations that resolve references to later ones. -/
  resolution : Plan → Option String
  /-- The header, for the constructs that a unit uses. -/
  preamble : Settings → Root → Imports → String
  /-- The export list. -/
  postamble : Settings → List Export → String
  /-- The banner of a title. -/
  banner : String → String

/-- One level of indentation of a target. -/
def Backend.indent (b : Backend) (settings : Settings) : String :=
  (settings.indent.getD b.defaultIndent).text

/-- The description of the top-level type when the document has none. -/
def defaultRootDescription : String := "Complete UI schema definition"

def Root.descriptionText (root : Root) : String := root.description.getD defaultRootDescription

/-- The lines of a header after the description. -/
def generatedNotice : List String :=
  ["This file is auto-generated by guigen.",
   "DO NOT EDIT MANUALLY - regenerate from the schema instead."]

end SchemaModels
