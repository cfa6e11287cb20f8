import SchemaModels.Name.Identifier
import SchemaModels.Unit.Error
import SchemaModels.Validator.Nullish
import SchemaModels.Validator.SchemaExpr

/-!
# Declarations of validators

A definition is exported as a TypeScript constant that holds its schema and as the type inferred
from it. A declaration is a tree (`Body`) that is printed last.

* `Body.ofDefinition`: the declaration of a definition. A union is tagged when every member is a
  record that is declared before it and refers to nothing later.
* `isRecursive`: a schema that takes part in a cycle is annotated, since its type cannot be
  inferred.
-/

namespace SchemaModels.Validator

open Text

/-! ### Fields -/

/-- What may stand in the place of a field's value. -/
inductive Presence where
  | required
  | defaulted (value : Json)
  | nullish
  | optional

/-- A field of an object schema. -/
structure Field where
  name : String
  schema : SchemaExpr
  presence : Presence
  description : Option String

def Presence.text : Presence → String
  | required => ""
  | defaulted value => ".default(" ++ value.compact ++ ")"
  | nullish => ".nullish()"
  | optional => ".optional()"

/-- The call that attaches a description. -/
def describeCall (description : String) : String := ".describe(" ++ quoted description ++ ")"

/-- A field's name as an object key. -/
def keyText (name : String) : String := if Name.isKey name then name else quoted name

/-- The line of a field. -/
def Field.text (f : Field) : String :=
  keyText f.name ++ ": " ++ f.schema.text ++ f.presence.text ++
    (f.description.map describeCall).getD "" ++ ","

/-- What may stand in the place of a field. -/
def presenceOf (t : Table) (required : Bool) (s : Spec) : Presence :=
  match s.default with
  | some value => .defaulted value
  | none => if required then .required else if t.holdsContainer s then .nullish else .optional

/-- A field of an object schema. -/
def Field.ofSpec (settings : Settings) (t : Table) (isForward : String → Bool) (name : String)
    (required : Bool) (s : Spec) : Field :=
  { name
    schema := SchemaExpr.ofSpec isForward s
    presence := presenceOf t required s
    description := settings.described s.description }

/-! ### Declarations -/

/-- What a declaration consists of. -/
inductive Body where
  | enum (values : List String)
  | object (fields : List Field) (strict : Bool)
  | single (member : SchemaExpr)
  | union (tag : Option String) (members : List SchemaExpr)
  | typeAlias (schema : SchemaExpr)

namespace Body

section ofDefinition
variable (settings : Settings) (t : Table) (plan : Plan) (isForward : String → Bool)

/-- Whether a member of a union is a record, declared before, that refers to nothing later. -/
def isSettled (member : String) : Bool :=
  !isForward member && !((plan.find member).any fun p => !p.forwardRefs.isEmpty) &&
    (t.get? member).any Definition.isObject

/-- The declaration of a definition. -/
def ofDefinition (d : Definition) : Except GenerationError Body :=
  match d.kind with
  | .enum values => .ok (enum values.eraseDups)
  | .object record =>
      .ok (object
        (record.fields.map fun f =>
          Field.ofSpec settings t isForward f.1 (record.isRequired f.1) f.2)
        (settings.forbidExtra && record.strict))
  | .union [] _ => .error (.emptyUnion d.name)
  | .union [only] _ => .ok (single (SchemaExpr.ofReference isForward only))
  | .union members discriminator =>
      .ok (union (if members.all (isSettled t plan isForward) then discriminator else none)
        (members.map (SchemaExpr.ofReference isForward)))
  | .typeAlias spec => .ok (typeAlias (SchemaExpr.ofSpec isForward spec))

end ofDefinition

/-- The definitions that a declaration names in its schema. -/
def mentions : Body → List Mention
  | enum _ => []
  | object fields _ => fields.flatMap fun f => f.schema.mentions
  | single member => member.mentions
  | union _ members => SchemaExpr.mentionsAll members
  | typeAlias schema => schema.mentions

/-- Lines between brackets, at an indentation. -/
def linesBetween (opening closing indent : String) (lines : List String) : String :=
  opening ++ "\n" ++ String.intercalate "\n" (lines.map (indent ++ ·)) ++ "\n" ++ closing

/-- The text of a declaration's schema. -/
def text (indent : String) : Body → String
  | enum values => (SchemaExpr.enum values).text
  | object fields strict =>
      (if fields.isEmpty then "z.object(\x7b\x7d)"
        else linesBetween "z.object(\x7b" "\x7d)" indent (fields.map Field.text)) ++
        (if strict then ".strict()" else "")
  | single member => member.text
  | union tag members =>
      let opening := match tag with
        | some field => "z.discriminatedUnion(" ++ quoted field ++ ", ["
        | none => "z.union(["
      linesBetween opening "])" indent (members.map fun m => m.text ++ ",")
  | typeAlias schema => schema.text

end Body

/-- Whether a definition refers to what is declared later, or is referred to before. -/
def isRecursive (plan : Plan) (name : String) : Bool :=
  plan.any fun p => (p.name = name && !p.forwardRefs.isEmpty) || p.isForward name

/-- The constant and the type of a name, under a comment. -/
def exportBlock (name schema : String) (description : Option String) (annotate : Bool) : String :=
  (description.map fun text => jsdoc text ++ "\n").getD "" ++
    "export const " ++ schemaName name ++ (if annotate then ": z.ZodTypeAny" else "") ++ " = " ++
    schema ++ ";\n" ++
    "export type " ++ name ++ " = z.infer<typeof " ++ schemaName name ++ ">;"

end SchemaModels.Validator
