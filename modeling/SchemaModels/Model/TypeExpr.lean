import SchemaModels.Model.Literal
import SchemaModels.Spec.Basic
import SchemaModels.Unit.Declaration

/-!
# Type expressions of models

The Python type of a property is a tree, printed last. A name declared later is written in quotes.

* `TypeExpr.ofSpec`: the type of a specification.
* `TypeExpr.text`, `TypeExpr.imports`, `TypeExpr.mentions`: the text of a type, the constructs it
  uses and the definitions it names.
* A union of names with a discriminator is tagged; a union of one member is that member.
-/

namespace SchemaModels.Model

open Text

/-- A type expression. -/
inductive TypeExpr where
  | builtin (kind : Primitive)
  | any
  | list (item : TypeExpr)
  | dict (value : TypeExpr)
  | tuple (items : List TypeExpr)
  | literal (values : List Json)
  | name (n : String)
  | quotedName (n : String)
  | optional (inner : TypeExpr)
  | union (members : List TypeExpr)
  | tagged (members : List TypeExpr) (field : String)

/-! ### Constructs -/

/-- A construct for type hints. -/
def typing (name : String) : Import := ⟨"typing", name⟩

/-- A construct of the model library. -/
def pydantic (name : String) : Import := ⟨"pydantic", name⟩

/-- The class of enums. -/
def enumClass : Import := ⟨"enum", "Enum"⟩

namespace TypeExpr

/-- The builtin type of a kind of scalars. -/
def builtinName : Primitive → String
  | .string => "str"
  | .integer => "int"
  | .number => "float"
  | .boolean => "bool"

/-- The type that admits `None` as well. -/
def toOptional : TypeExpr → TypeExpr
  | optional inner => optional inner
  | any => any
  | t => optional t

/-- Whether a type is the name of a definition. -/
def isName : TypeExpr → Bool
  | name _ => true
  | quotedName _ => true
  | _ => false

/-! ### Text -/

mutual

/-- The text of a type. -/
def text : TypeExpr → String
  | builtin kind => builtinName kind
  | any => "Any"
  | list item => "List[" ++ item.text ++ "]"
  | dict value => "Dict[str, " ++ value.text ++ "]"
  | tuple items =>
      if items.isEmpty then "Tuple[()]"
      else "Tuple[" ++ String.intercalate ", " (texts items) ++ "]"
  | literal values => "Literal[" ++ String.intercalate ", " (values.map Model.literal) ++ "]"
  | name n => n
  | quotedName n => "\"" ++ n ++ "\""
  | optional inner => "Optional[" ++ inner.text ++ "]"
  | union members => "Union[" ++ String.intercalate ", " (texts members) ++ "]"
  | tagged members field =>
      "Annotated[Union[" ++ String.intercalate ", " (texts members) ++ "], Field(discriminator=" ++
        quoted field ++ ")]"

def texts : List TypeExpr → List String
  | [] => []
  | t :: rest => t.text :: texts rest

end

mutual

/-- The constructs that a type uses. -/
def imports : TypeExpr → Imports
  | builtin _ => []
  | any => [typing "Any"]
  | list item => typing "List" :: item.imports
  | dict value => typing "Dict" :: value.imports
  | tuple items => typing "Tuple" :: importsAll items
  | literal _ => [typing "Literal"]
  | name _ => []
  | quotedName _ => []
  | optional inner => typing "Optional" :: inner.imports
  | union members => typing "Union" :: importsAll members
  | tagged members _ =>
      typing "Annotated" :: typing "Union" :: pydantic "Field" :: importsAll members

def importsAll : List TypeExpr → Imports
  | [] => []
  | t :: rest => t.imports ++ importsAll rest

end

mutual

/-- The definitions that a type names. -/
def mentions : TypeExpr → List Mention
  | builtin _ => []
  | any => []
  | list item => item.mentions
  | dict value => value.mentions
  | tuple items => mentionsAll items
  | literal _ => []
  | name n => [⟨n, false⟩]
  | quotedName n => [⟨n, true⟩]
  | optional inner => inner.mentions
  | union members => mentionsAll members
  | tagged members _ => mentionsAll members

def mentionsAll : List TypeExpr → List Mention
  | [] => []
  | t :: rest => t.mentions ++ mentionsAll rest

end

/-! ### The type of a specification -/

section ofSpec
variable (isForward : String → Bool)

/-- The type of a reference. -/
def ofReference (n : String) : TypeExpr := if isForward n then quotedName n else name n

/-- The type of a union. -/
def ofMembers (members : List TypeExpr) (discriminator : Option String) : TypeExpr :=
  match members, discriminator with
  | [], _ => any
  | [only], _ => only
  | _, some field => if members.all isName then tagged members field else union members
  | _, none => union members

/-- The type, made optional if null is allowed. -/
def orNone (nullable : Bool) (t : TypeExpr) : TypeExpr := if nullable then t.toOptional else t

mutual

/-- The type of a shape. -/
def ofShape : Shape → TypeExpr
  | .primitive kind => builtin kind
  | .literal values => literal values
  | .const value => literal [value]
  | .array item => list (ofSpec item)
  | .tuple items => tuple (ofSpecs items)
  | .map none => dict any
  | .map (some value) => dict (ofSpec value)
  | .reference n => ofReference isForward n
  | .union members discriminator => ofMembers (ofSpecs members) discriminator
  | .any => any

/-- The type of a specification. -/
def ofSpec : Spec → TypeExpr
  | ⟨shape, _, _, nullable, _⟩ => orNone nullable (ofShape shape)

def ofSpecs : List Spec → List TypeExpr
  | [] => []
  | s :: rest => ofSpec s :: ofSpecs rest

end

end ofSpec

end TypeExpr

end SchemaModels.Model
