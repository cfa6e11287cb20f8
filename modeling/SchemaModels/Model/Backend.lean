import SchemaModels.Model.Declaration
import SchemaModels.Unit.Backend

/-!
# Units of models

The parts of a unit of Pydantic models.

* `preamble`: a docstring, the version, and an import statement for each module that provides a
  construct in use.
* `schemaType`: a model of the two root fields, which serializes under field names when a field
  has an alias.
* `resolution`: a model that refers to a later class is rebuilt when all classes exist.
-/

namespace SchemaModels.Model

open Text

/-- One level of indentation. -/
def indentOf (settings : Settings) : String := (settings.indent.getD .four).text

/-! ### Declarations -/

/-- The declaration of a planned definition. -/
def declaration (settings : Settings) (t : Table) (_plan : Plan) (p : Planned) (d : Definition) :
    Except GenerationError Declaration := do
  let body ← Body.ofDefinition settings t p.isForward d
  return .ofPlanned p (body.text (indentOf settings) d.name (settings.described d.description))
    body.imports

/-- Whether some field of some record has an alias. -/
def usesAliases (t : Table) : Bool :=
  t.definitions.any fun d =>
    d.record?.any fun r => r.fields.any fun f => (Attribute.ofField f.1).wireName.isSome

/-- The arguments by which a model is written as JSON text. -/
def dumpArguments (t : Table) : String :=
  if usesAliases t then "indent=2, exclude_none=True, by_alias=True"
  else "indent=2, exclude_none=True"

/-- The method that writes a model as JSON text. -/
def toJsonLines (indent : String) (t : Table) : List String :=
  [indent ++ "def to_json(self) -> str:",
   indent ++ indent ++ "\"\"\"Serialize to JSON, omitting unset optional fields.\"\"\"",
   indent ++ indent ++ "return self.model_dump_json(" ++ dumpArguments t ++ ")"]

/-- The declaration of the top-level type. -/
def schemaType (settings : Settings) (t : Table) : Declaration :=
  let indent := indentOf settings
  let root := t.root
  let docs := settings.described (some root.descriptionText)
  let fields := blockOf indent ["metadata: " ++ root.metadataType, "root: " ++ root.rootType]
  .ofRoot root
    (classText indent ("class " ++ root.name ++ "(BaseModel):")
      (optionally (docstring indent) docs ++ fields ++
        [String.intercalate "\n" (toJsonLines indent t)]))
    [pydantic "BaseModel"]

/-- The statements that rebuild the models that refer to later classes. -/
def resolution (plan : Plan) : Option String :=
  let calls := plan.forwardReferencing.map fun p => p.name ++ ".model_rebuild()"
  if calls.isEmpty then none else some (String.intercalate "\n" calls)

/-! ### Header and exports -/

/-- The modules whose import statements come first, in order. -/
def importOrder : List String := ["enum", "typing", "pydantic"]

/-- The import statements for constructs. -/
def importStatements (imports : Imports) : List String :=
  (importOrder ++ imports.sources.filter fun m => !importOrder.contains m).filterMap fun m =>
    let names := imports.names m
    if names.isEmpty then none
    else some ("from " ++ m ++ " import " ++ String.intercalate ", " names)

/-- The description in the docstring of a unit. -/
def headerDescription (description : String) : String :=
  String.ofList (escapeDoc description.toList) ++ "\n\n"

/-- The header of a unit. -/
def preamble (settings : Settings) (root : Root) (imports : Imports) : String :=
  let statements := importStatements imports
  "\"\"\"\n" ++ (root.description.map headerDescription).getD "" ++
    String.intercalate "\n" generatedNotice ++ "\n\"\"\"\n\n" ++
    "__version__ = " ++ quoted (settings.versionFor root) ++ "\n" ++
    (if statements.isEmpty then "" else "\n" ++ String.intercalate "\n" statements ++ "\n")

def banner (title : String) : String := bannerOf "#" title

/-- The export list of a unit. -/
def postamble (settings : Settings) (exports : List Export) : String :=
  let indent := indentOf settings
  let entry := fun name => indent ++ "\"" ++ name ++ "\","
  let lines := exportLines (indent ++ "# " ++ ·) entry exports
  banner "PUBLIC API EXPORTS" ++ "\n\n" ++
    (if lines.isEmpty then "__all__ = []"
    else "__all__ = [\n" ++ String.intercalate "\n" lines ++ "\n]")

/-- The writer of Pydantic models. -/
def backend : Backend where
  id := "pydantic"
  name := "Pydantic Model Generator"
  extension := "py"
  defaultIndent := .four
  separator := "\n\n\n"
  declaration := declaration
  schemaType := schemaType
  resolution := resolution
  preamble := preamble
  postamble := postamble
  banner := banner

end SchemaModels.Model
