import SchemaModels.Unit.Backend
import SchemaModels.Validator.Declaration

/-!
# Units of validators

The parts of a TypeScript unit of Zod schemas. References to later schemas are lazy, so nothing is
left to be resolved after the declarations.
-/

namespace SchemaModels.Validator

open Text

/-- One level of indentation. -/
def indentOf (settings : Settings) : String := (settings.indent.getD .two).text

/-- The declaration of a planned definition. -/
def declaration (settings : Settings) (t : Table) (plan : Plan) (p : Planned) (d : Definition) :
    Except GenerationError Declaration := do
  let body ← Body.ofDefinition settings t plan p.isForward d
  let description := settings.described d.description
  let schema := body.text (indentOf settings) ++ (description.map describeCall).getD ""
  return .ofPlanned p (exportBlock d.name schema description (isRecursive plan d.name)) []

/-- The function that writes a value of the top-level type as JSON text. -/
def serializeText (indent : String) (name : String) : String :=
  "export function serialize" ++ name ++ "(schema: " ++ name ++ "): string \x7b\n" ++ indent ++
    "return JSON.stringify(schema, (_key, value) => (value === null ? undefined : value), 2);\n\x7d"

/-- The declaration of the top-level type. -/
def schemaType (settings : Settings) (t : Table) : Declaration :=
  let indent := indentOf settings
  let root := t.root
  let schema := Body.linesBetween "z.object(\x7b" "\x7d)" indent
    ["metadata: " ++ schemaName root.metadataType ++ ",",
     "root: " ++ schemaName root.rootType ++ ","]
  let docs := settings.described (some root.descriptionText)
  .ofRoot root
    (exportBlock root.name schema docs false ++ "\n\n" ++
      (if settings.docs then "/** Serialize to JSON, omitting unset optional fields. */\n"
        else "") ++
      serializeText indent root.name)
    []

/-- The header of a unit. -/
def preamble (settings : Settings) (root : Root) (_imports : Imports) : String :=
  let header :=
    (root.description.map (· ++ "\n\n")).getD "" ++ String.intercalate "\n" generatedNotice
  jsdoc header ++ "\n\nimport \x7b z \x7d from 'zod';\n\nexport const VERSION = " ++
    quoted (settings.versionFor root) ++ ";\n"

def banner (title : String) : String := bannerOf "//" title

/-- The registry of the schemas of a unit. -/
def postamble (settings : Settings) (exports : List Export) : String :=
  let indent := indentOf settings
  let entry := fun name => indent ++ schemaName name ++ ","
  let lines := exportLines (indent ++ "// " ++ ·) entry exports
  banner "SCHEMA REGISTRY" ++ "\n\n" ++
    (if lines.isEmpty then "export const schemas = \x7b\x7d;"
      else "export const schemas = \x7b\n" ++ String.intercalate "\n" lines ++ "\n\x7d;")

/-- The writer of Zod schemas. -/
def backend : Backend where
  id := "zod"
  name := "Zod Schema Generator"
  extension := "ts"
  defaultIndent := .two
  separator := "\n\n"
  declaration := declaration
  schemaType := schemaType
  resolution := fun _ => none
  preamble := preamble
  postamble := postamble
  banner := banner

end SchemaModels.Validator
