import SchemaModels.Model.Backend
import SchemaModels.Spec.Binding
import SchemaModels.Validator.Backend

/-!
# Generated units

A unit is one text: the header, the declarations in the order of the plan with a banner where the
section changes, the statements that resolve references to later declarations, the top-level type,
and the export list.

* `GeneratedUnit.ofTable`: the unit of a table for a target.
* `joinBlocks`: the blocks with one line feed at the end, in the configured line ending.
-/

namespace SchemaModels

open Text

/-- The writer of a target. -/
def Target.backend : Target → Backend
  | pydantic => Model.backend
  | zod => Validator.backend

/-- A generated unit. -/
structure GeneratedUnit where
  content : String
  /-- The declarations, the top-level type last. -/
  declarations : List Declaration
  substitutions : List Substitution
  plan : Plan

namespace GeneratedUnit

/-! ### Blocks -/

/-- The code of declarations, with a banner before each change of section. -/
def sectionBlocks (banner : String → String) : Option Section → List Declaration → List String
  | _, [] => []
  | current, d :: rest =>
      (if current = some d.category then [] else [banner d.category.title]) ++
        d.code :: sectionBlocks banner (some d.category) rest

/-- A text without line feeds at its end. -/
def trimBlock (block : String) : String := String.ofList (dropTrailing (· == '\n') block.toList)

/-- The blocks that are not empty, with a separator between two and a line feed at the end. -/
def joinBlocks (separator : String) (ending : LineEnding) (blocks : List String) : String :=
  let shown := (blocks.map trimBlock).filter fun b => !b.isEmpty
  let content := String.intercalate separator shown ++ "\n"
  match ending with
  | .lf => content
  | .crlf => String.ofList (content.toList.flatMap fun c => if c = '\n' then ['\r', '\n'] else [c])

/-! ### Units -/

section ofTable
variable (backend : Backend) (settings : Settings)

/-- The declarations of the definitions of a plan. -/
def declare (t : Table) (plan : Plan) : Except GenerationError (List Declaration) :=
  (plan.filterMap fun p => (t.get? p.name).map fun d => (p, d)).mapM fun pd =>
    backend.declaration settings t plan pd.1 pd.2

/-- The blocks of a unit. -/
def blocks (t : Table) (plan : Plan) (declarations : List Declaration) (root : Declaration) :
    List String :=
  let all := declarations ++ [root]
  backend.preamble settings t.root (all.flatMap Declaration.imports) ::
    sectionBlocks backend.banner none declarations ++
    (match backend.resolution plan with
      | some code => [backend.banner "FORWARD REFERENCE RESOLUTION", code]
      | none => []) ++
    sectionBlocks backend.banner (declarations.getLast?.map Declaration.category) [root] ++
    [backend.postamble settings (all.map Declaration.export_)]

/-- The unit of a table whose fields have their final types. -/
def ofBoundTable (t : Table) (substitutions : List Substitution) :
    Except GenerationError GeneratedUnit := do
  let plan ← match t.plan settings.sections with
    | .ok plan => .ok plan
    | .error e => .error (.plan e)
  let declarations ← declare backend settings t plan
  let root := backend.schemaType settings t
  return {
    content := joinBlocks backend.separator settings.lineEnding
      (blocks backend settings t plan declarations root)
    declarations := declarations ++ [root]
    substitutions
    plan }

/-- The unit of a table. -/
def ofTable (t : Table) : Except GenerationError GeneratedUnit :=
  let settings := { settings with indent := some (settings.indent.getD backend.defaultIndent) }
  if settings.bindingRecords then ofBoundTable backend settings t.bindRecords t.substitutions
  else ofBoundTable backend settings t []

end ofTable

end GeneratedUnit

end SchemaModels
