import SchemaModels.Model.Attribute
import SchemaModels.Model.TypeExpr
import SchemaModels.Unit.Error

/-!
# Declarations of models

An enum is a class of strings, a record a model class, a union and an alias an assignment. A
declaration is a tree (`Body`) that is printed last.

* `Body.ofDefinition`: the declaration of a definition, or the collision that prevents it.
* `Field.ofSpec`: a field is written with `Field` arguments when it has bounds or an alias; a
  field that is not required takes a default, `None` if nothing else is stated.
* `Body.text`, `Body.imports`: the code and the constructs it uses.
-/

namespace SchemaModels.Model

open Text

/-! ### Fields -/

/-- A default in code: a literal, or a member of an enum. -/
inductive DefaultExpr where
  | literal (value : Json)
  | member (enum name : String)

/-- An argument of `Field`. -/
inductive Argument where
  | minLength (n : Nat)
  | maxLength (n : Nat)
  | atLeast (n : Number)
  | atMost (n : Number)
  | above (n : Number)
  | below (n : Number)
  | pattern (source : String)
  | wireName (name : String)

/-- A field of a model class. -/
structure Field where
  attr : String
  type : TypeExpr
  arguments : List Argument
  default : Option DefaultExpr

def DefaultExpr.text : DefaultExpr → String
  | literal value => Model.literal value
  | member enum name => enum ++ "." ++ name

/-- The text of a bound. -/
def numberText (n : Number) : String := String.ofList n.text

/-- The text of a count. -/
def countText (n : Nat) : String := String.ofList (Number.digitsOf n)

def Argument.text : Argument → String
  | minLength n => "min_length=" ++ countText n
  | maxLength n => "max_length=" ++ countText n
  | atLeast n => "ge=" ++ numberText n
  | atMost n => "le=" ++ numberText n
  | above n => "gt=" ++ numberText n
  | below n => "lt=" ++ numberText n
  | pattern source => "pattern=" ++ Model.pattern source
  | wireName name => "alias=" ++ quoted name

/-- A list with the item of an option. -/
def optionally {α β : Type} (f : α → β) (a : Option α) : List β := (a.map f).toList

/-- The arguments for the bounds of a specification. The counts of items and of characters share
two keywords: those that belong to the shape are taken, the others only in their absence. -/
def boundArguments (s : Spec) : List Argument :=
  let b := s.bounds
  let counted := match s.shape with
    | .array _ => (b.minItems.or b.minLength, b.maxItems.or b.maxLength)
    | .tuple _ => (b.minItems.or b.minLength, b.maxItems.or b.maxLength)
    | _ => (b.minLength.or b.minItems, b.maxLength.or b.maxItems)
  optionally .minLength counted.1 ++ optionally .maxLength counted.2 ++
    optionally .atLeast b.minimum ++ optionally .atMost b.maximum ++
    optionally .above b.exclusiveMinimum ++ optionally .below b.exclusiveMaximum ++
    optionally .pattern b.pattern

/-- A stated default. The default of a field of an enum names the member. -/
def statedDefault (t : Table) (s : Spec) (value : Json) : DefaultExpr :=
  match s.shape, value with
  | .reference target, .string v =>
      if ((t.get? target).bind Definition.values?).any (·.contains v) then
        .member target (memberName v)
      else .literal value
  | _, _ => .literal value

/-- The default of a field, apart from `None`: what is stated, or the constant of a field that may
be left out. -/
def impliedDefault (t : Table) (required : Bool) (s : Spec) : Option DefaultExpr :=
  match s.default, s.shape with
  | some value, _ => some (statedDefault t s value)
  | none, .const value => if required then none else some (.literal value)
  | none, _ => none

/-- The arguments of a field. A constant has no bounds. -/
def fieldArguments (a : Attribute) (s : Spec) : List Argument :=
  (match s.shape with
    | .const _ => []
    | _ => boundArguments s) ++ optionally .wireName a.wireName

/-- A field of a model class. -/
def Field.ofSpec (isForward : String → Bool) (t : Table) (a : Attribute) (required : Bool)
    (s : Spec) : Field :=
  let type := TypeExpr.ofSpec isForward s
  let default := impliedDefault t required s
  { attr := a.name
    type := if required || default.isSome then type else type.toOptional
    arguments := fieldArguments a s
    default := default.or (if required then none else some (.literal .null)) }

/-- A type with `Field` arguments. -/
def annotated (type : TypeExpr) (arguments : List String) : String :=
  "Annotated[" ++ type.text ++ ", Field(" ++ String.intercalate ", " arguments ++ ")]"

/-- The line of a field. -/
def Field.text (f : Field) : String :=
  if f.arguments.isEmpty then
    f.attr ++ ": " ++ f.type.text ++
      (match f.default with
        | some d => " = " ++ d.text
        | none => "")
  else
    f.attr ++ ": " ++ annotated f.type
      (f.arguments.map Argument.text ++ optionally ("default=" ++ ·.text) f.default)

/-- The constructs that `Field` arguments use. -/
def argumentImports (arguments : List Argument) : Imports :=
  if arguments.isEmpty then [] else [typing "Annotated", pydantic "Field"]

def Field.imports (f : Field) : Imports := f.type.imports ++ argumentImports f.arguments

/-! ### Declarations -/

/-- What a declaration consists of. -/
inductive Body where
  | enum (members : List (String × String))
  | model (forbidsExtra : Bool) (fields : List Field)
  | union (discriminator : Option String) (members : List TypeExpr)
  | typeAlias (type : TypeExpr) (arguments : List Argument)

namespace Body

section ofDefinition
variable (settings : Settings) (t : Table) (isForward : String → Bool)

/-- The fields of a record with their attributes. -/
def ofRecord (record : Record) (attributes : List Attribute) : Body :=
  model (settings.forbidExtra && record.strict)
    (List.zipWith (fun a f => Field.ofSpec isForward t a (record.isRequired f.1) f.2)
      attributes record.fields)

/-- The declaration of a definition. -/
def ofDefinition (d : Definition) : Except GenerationError Body :=
  match d.kind with
  | .enum values =>
      match members values with
      | .ok ms => .ok (enum ms)
      | .error c => .error (.memberCollision d.name c)
  | .object record =>
      match attributes (record.fields.map Prod.fst) with
      | .ok as => .ok (ofRecord settings t isForward record as)
      | .error c => .error (.attributeCollision d.name c)
  | .union members discriminator =>
      if members.isEmpty then .error (.emptyUnion d.name)
      else .ok (union discriminator (members.map (TypeExpr.ofReference isForward)))
  | .typeAlias spec => .ok (typeAlias (TypeExpr.ofSpec isForward spec) (boundArguments spec))

end ofDefinition

/-- The definitions that a declaration names in its types. -/
def mentions : Body → List Mention
  | enum _ => []
  | model _ fields => fields.flatMap fun f => f.type.mentions
  | union _ members => TypeExpr.mentionsAll members
  | typeAlias type _ => type.mentions

/-- The constructs that a declaration uses. -/
def imports : Body → Imports
  | enum _ => [enumClass]
  | model forbidsExtra fields =>
      pydantic "BaseModel" :: (if forbidsExtra then [pydantic "ConfigDict"] else []) ++
        fields.flatMap Field.imports
  | union _ members =>
      (if members.length = 1 then [] else [typing "Union"]) ++ TypeExpr.importsAll members
  | typeAlias type arguments => type.imports ++ argumentImports arguments

end Body

/-! ### Text -/

/-- A class: its header and the blocks of its body, an empty line between two of them. -/
def classText (indent header : String) (blocks : List String) : String :=
  if blocks.isEmpty then header ++ "\n" ++ indent ++ "pass"
  else header ++ "\n" ++ String.intercalate "\n\n" blocks

/-- A block of lines at an indentation, if it has a line. -/
def blockOf (indent : String) (lines : List String) : List String :=
  if lines.isEmpty then [] else [String.intercalate "\n" (lines.map (indent ++ ·))]

/-- The line that makes a model class refuse other fields. -/
def forbidLine : String := "model_config = ConfigDict(extra=\"forbid\")"

/-- A line of a description as a comment. -/
def commentLine (line : String) : String := if line.isEmpty then "#" else "# " ++ line

/-- The comments above an assignment. -/
def comments (description discriminator : Option String) : List String :=
  ((description.map linesOf).getD []).map commentLine ++
    optionally (fun field => "# Discriminated by \"" ++ field ++ "\"") discriminator

/-- The lines of a union. -/
def unionLines (indent name : String) : List TypeExpr → List String
  | [only] => [name ++ " = " ++ only.text]
  | members =>
      (name ++ " = Union[") :: members.map (fun m => indent ++ m.text ++ ",") ++ ["]"]

/-- The code of a declaration. -/
def Body.text (indent name : String) (description : Option String) : Body → String
  | enum members =>
      classText indent ("class " ++ name ++ "(str, Enum):")
        (optionally (docstring indent) description ++
          blockOf indent (members.map fun m => m.1 ++ " = " ++ quoted m.2))
  | model forbidsExtra fields =>
      classText indent ("class " ++ name ++ "(BaseModel):")
        (optionally (docstring indent) description ++
          blockOf indent (if forbidsExtra then [forbidLine] else []) ++
          blockOf indent (fields.map Field.text))
  | union discriminator members =>
      String.intercalate "\n" (comments description discriminator ++ unionLines indent name members)
  | typeAlias type arguments =>
      let value := if arguments.isEmpty then type.text
        else annotated type (arguments.map Argument.text)
      String.intercalate "\n" (comments description none ++ [name ++ " = " ++ value])

end SchemaModels.Model
