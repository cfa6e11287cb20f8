import SchemaModels.Config.Basic

/-!
# The sample configuration

A commented configuration text that states the defaults.
-/

namespace SchemaModels.Configuration

/-- The lines of the sample. -/
def sampleLines : List String :=
  ["# guigen configuration file",
   "",
   "[output]",
   "# Target backend: \"pydantic\" or \"zod\"",
   "target = \"pydantic\"",
   "",
   "# Version marker written into the generated header (defaults to the schema's version)",
   "# version = \"1.0.0\"",
   "",
   "# Render schema descriptions as docstrings / JSDoc comments",
   "generate_docs = true",
   "",
   "# Indentation: \"2\", \"4\" or \"tab\" (defaults to 4 for pydantic, 2 for zod)",
   "# indent = \"4\"",
   "",
   "# Line endings: \"lf\" or \"crlf\"",
   "line_ending = \"lf\"",
   "",
   "[emit]",
   "# Section order; dependencies always come first",
   "sections = [\"enums\", \"actions\", \"props\", \"unions\", \"components\", \"schema\"]",
   "",
   "# Emit extra=\"forbid\" / .strict() on records with additionalProperties: false",
   "forbid_extra = false",
   "",
   "# Type [eventType, action] tuple lists as lists of the matching binding record",
   "binding_records = true",
   "",
   "[schema]",
   "# Used when the schema document does not name them itself",
   "name = \"UISchema\"",
   "metadata_type = \"UIMetadata\"",
   "root_type = \"UIComponent\"",
   "",
   "[rewrite]",
   "# Warn when a wrapper class is not found",
   "warn_on_missing = true",
   "",
   "[[rewrite.groups]]",
   "name = \"EventAction\"",
   "members = [\"NavigateAction\", \"SetStateAction\", \"SubmitFormAction\", " ++
     "\"ValidateAction\", \"CustomAction\"]",
   "",
   "[[rewrite.groups]]",
   "name = \"Node\"",
   "members = [\"ButtonNode\", \"InputNode\", \"TextareaNode\", \"TextNode\", \"CardNode\", " ++
     "\"AlertNode\", \"ContainerNode\", \"GridNode\", \"StackNode\", \"ChartNode\"]"]

/-- The text of the sample. -/
def sample : String := String.join (sampleLines.map (· ++ "\n"))

end SchemaModels.Configuration
