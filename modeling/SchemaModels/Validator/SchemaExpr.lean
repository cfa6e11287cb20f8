import SchemaModels.Json.Printer
import SchemaModels.Spec.Basic
import SchemaModels.Unit.Declaration
import SchemaModels.Validator.Literal

/-!
# Schema expressions

The Zod schema of a property is a tree, printed last. A schema declared later is referred to lazily.

* `SchemaExpr.ofSpec`: the schema of a specification, with the checks for its bounds.
* `SchemaExpr.text`, `SchemaExpr.mentions`: the text of a schema and the definitions it names.
* A union with a discriminator is tagged only if its members are bare names declared before.
-/

namespace SchemaModels.Validator

open Text

/-- A check on a value. -/
inductive Check where
  | minCount (n : Nat)
  | maxCount (n : Nat)
  | regex (source : String)
  | min (n : Number)
  | max (n : Number)
  | above (n : Number)
  | below (n : Number)

/-- A schema expression. -/
inductive SchemaExpr where
  | primitive (kind : Primitive)
  | any
  | never
  | null
  | literal (value : Json)
  | enum (values : List String)
  | array (item : SchemaExpr)
  | tuple (items : List SchemaExpr)
  | record (value : SchemaExpr)
  | name (n : String)
  | lazyName (n : String)
  | union (members : List SchemaExpr)
  | tagged (field : String) (members : List SchemaExpr)
  | checked (base : SchemaExpr) (checks : List Check)
  | nullable (base : SchemaExpr)

/-! ### Text -/

def Check.text : Check → String
  | minCount n => ".min(" ++ String.ofList (Number.digitsOf n) ++ ")"
  | maxCount n => ".max(" ++ String.ofList (Number.digitsOf n) ++ ")"
  | regex source => ".regex(/" ++ regexBody source ++ "/)"
  | min n => ".min(" ++ String.ofList n.text ++ ")"
  | max n => ".max(" ++ String.ofList n.text ++ ")"
  | above n => ".gt(" ++ String.ofList n.text ++ ")"
  | below n => ".lt(" ++ String.ofList n.text ++ ")"

/-- The name of the constant that holds a definition's schema. -/
def schemaName (n : String) : String := n ++ "Schema"

namespace SchemaExpr

/-- The schema of a kind of scalars. -/
def primitiveText : Primitive → String
  | .string => "z.string()"
  | .integer => "z.number().int()"
  | .number => "z.number()"
  | .boolean => "z.boolean()"

mutual

/-- The text of a schema. -/
def text : SchemaExpr → String
  | primitive kind => primitiveText kind
  | any => "z.any()"
  | never => "z.never()"
  | null => "z.null()"
  | literal (.string s) => "z.literal(" ++ quoted s ++ ")"
  | literal value => "z.literal(" ++ value.compact ++ ")"
  | enum values => "z.enum([" ++ String.intercalate ", " (values.map quoted) ++ "])"
  | array item => "z.array(" ++ item.text ++ ")"
  | tuple items => "z.tuple([" ++ String.intercalate ", " (texts items) ++ "])"
  | record value => "z.record(z.string(), " ++ value.text ++ ")"
  | name n => schemaName n
  | lazyName n => "z.lazy(() => " ++ schemaName n ++ ")"
  | union members => "z.union([" ++ String.intercalate ", " (texts members) ++ "])"
  | tagged field members =>
      "z.discriminatedUnion(" ++ quoted field ++ ", [" ++
        String.intercalate ", " (texts members) ++ "])"
  | checked base checks => base.text ++ String.intercalate "" (checks.map Check.text)
  | nullable base => base.text ++ ".nullable()"

def texts : List SchemaExpr → List String
  | [] => []
  | e :: rest => e.text :: texts rest

end

mutual

/-- The definitions that a schema names. -/
def mentions : SchemaExpr → List Mention
  | primitive _ => []
  | any => []
  | never => []
  | null => []
  | literal _ => []
  | enum _ => []
  | array item => item.mentions
  | tuple items => mentionsAll items
  | record value => value.mentions
  | name n => [⟨n, false⟩]
  | lazyName n => [⟨n, true⟩]
  | union members => mentionsAll members
  | tagged _ members => mentionsAll members
  | checked base _ => base.mentions
  | nullable base => base.mentions

def mentionsAll : List SchemaExpr → List Mention
  | [] => []
  | e :: rest => e.mentions ++ mentionsAll rest

end

/-! ### The schema of a specification -/

/-- The schema of a constant. Containers have no literal schema. -/
def ofValue : Json → SchemaExpr
  | .null => null
  | .array _ => any
  | .object _ => any
  | value => literal value

/-- The strings of a list that holds nothing else. -/
def strings? (values : List Json) : Option (List String) := values.mapM Json.asString?

/-- The schema of a choice among values: an enumeration of strings, or a union of constants. -/
def ofValues (values : List Json) : SchemaExpr :=
  match values, strings? values with
  | [], _ => never
  | _, some strings => enum strings
  | [only], none => ofValue only
  | _, none => union (values.map ofValue)

section ofSpec
variable (isForward : String → Bool)

/-- The schema of a reference. -/
def ofReference (n : String) : SchemaExpr := if isForward n then lazyName n else name n

/-- Whether a specification is a bare reference to a definition declared before. -/
def isEager (s : Spec) : Bool :=
  match s.shape with
  | .reference n => !s.nullable && !isForward n
  | _ => false

/-- The schema of a union. -/
def ofMembers (members : List Spec) (schemas : List SchemaExpr) (discriminator : Option String) :
    SchemaExpr :=
  match schemas, discriminator with
  | [], _ => never
  | [only], _ => only
  | _, some field => if members.all (isEager isForward) then tagged field schemas else union schemas
  | _, none => union schemas

/-- A list with the item of an option. -/
def check {α : Type} (f : α → Check) (a : Option α) : List Check := (a.map f).toList

/-- The checks for the bounds that fit a shape. -/
def checksFor (shape : Shape) (b : Bounds) : List Check :=
  match shape with
  | .primitive .string =>
      check .minCount b.minLength ++ check .maxCount b.maxLength ++ check .regex b.pattern
  | .primitive .integer | .primitive .number =>
      check .min b.minimum ++ check .max b.maximum ++ check .above b.exclusiveMinimum ++
        check .below b.exclusiveMaximum
  | .array _ => check .minCount b.minItems ++ check .maxCount b.maxItems
  | _ => []

/-- A schema with checks, if there are any. -/
def withChecks (base : SchemaExpr) (checks : List Check) : SchemaExpr :=
  if checks.isEmpty then base else checked base checks

/-- The schema that allows null as well, for a shape that does not by itself. -/
def orNull (isNullable : Bool) (shape : Shape) (e : SchemaExpr) : SchemaExpr :=
  if isNullable && !shape.isAny then nullable e else e

mutual

/-- The schema of a shape. -/
def ofShape : Shape → SchemaExpr
  | .primitive kind => primitive kind
  | .literal values => ofValues values
  | .const value => ofValue value
  | .array item => array (ofSpec item)
  | .tuple items => tuple (ofSpecs items)
  | .map none => record any
  | .map (some value) => record (ofSpec value)
  | .reference n => ofReference isForward n
  | .union members discriminator => ofMembers isForward members (ofSpecs members) discriminator
  | .any => any

/-- The schema of a specification. -/
def ofSpec : Spec → SchemaExpr
  | ⟨shape, bounds, _, isNullable, _⟩ =>
      orNull isNullable shape (withChecks (ofShape shape) (checksFor shape bounds))

def ofSpecs : List Spec → List SchemaExpr
  | [] => []
  | s :: rest => ofSpec s :: ofSpecs rest

end

end ofSpec

end SchemaExpr

end SchemaModels.Validator
