import SchemaModels.Json.Basic

/-!
# Property specifications

A specification says what a property holds: its shape, the bounds on it, a default, whether null
is allowed, and a description. Shapes contain specifications.

* `Spec.mentions`: the definitions a specification refers to, with repetitions, in order.
* `Spec.same`, `Shape.same`: equality, in which JSON values are equal up to the order of keys.
-/

namespace SchemaModels

/-- The kinds of scalars. -/
inductive Primitive where
  | string
  | integer
  | number
  | boolean
  deriving DecidableEq

namespace Primitive

/-- The keyword of a kind in schema documents. -/
def keyword : Primitive → String
  | string => "string"
  | integer => "integer"
  | number => "number"
  | boolean => "boolean"

/-- The kind that a keyword names. -/
def ofKeyword? (word : String) : Option Primitive :=
  [string, integer, number, boolean].find? fun p => p.keyword = word

theorem ofKeyword?_keyword (p : Primitive) : ofKeyword? p.keyword = some p := by cases p <;> rfl

end Primitive

/-- The bounds on a value. -/
structure Bounds where
  minLength : Option Nat := none
  maxLength : Option Nat := none
  minimum : Option Number := none
  maximum : Option Number := none
  exclusiveMinimum : Option Number := none
  exclusiveMaximum : Option Number := none
  pattern : Option String := none
  minItems : Option Nat := none
  maxItems : Option Nat := none

mutual

/-- What a property holds. -/
inductive Shape where
  | primitive (kind : Primitive)
  | literal (values : List Json)
  | const (value : Json)
  | array (item : Spec)
  | tuple (items : List Spec)
  | map (value : Option Spec)
  | reference (name : String)
  | union (members : List Spec) (discriminator : Option String)
  | any

/-- A property: its shape and what is attached to it. -/
structure Spec where
  shape : Shape
  bounds : Bounds := {}
  default : Option Json := none
  nullable : Bool := false
  description : Option String := none

end

/-! ### References -/

mutual

/-- The definitions that a shape refers to. -/
def Shape.mentions : Shape → List String
  | .primitive _ => []
  | .literal _ => []
  | .const _ => []
  | .array item => item.mentions
  | .tuple items => Spec.mentionsAll items
  | .map none => []
  | .map (some value) => value.mentions
  | .reference name => [name]
  | .union members _ => Spec.mentionsAll members
  | .any => []

/-- The definitions that a specification refers to. -/
def Spec.mentions : Spec → List String
  | ⟨shape, _, _, _, _⟩ => shape.mentions

def Spec.mentionsAll : List Spec → List String
  | [] => []
  | s :: rest => s.mentions ++ Spec.mentionsAll rest

end

theorem Spec.mentionsAll_eq_flatMap (specs : List Spec) :
    Spec.mentionsAll specs = specs.flatMap Spec.mentions := by
  induction specs with
  | nil => rfl
  | cons s rest ih => simp [Spec.mentionsAll, ih]

/-- The definitions that a specification refers to, each once, in order. -/
def Spec.references (s : Spec) : List String := s.mentions.eraseDups

/-! ### Kinds of shapes -/

namespace Shape

/-- The definition that a shape is a bare reference to. -/
def asReference? : Shape → Option String
  | reference name => some name
  | _ => none

/-- The constant of a shape. -/
def asConst? : Shape → Option Json
  | const value => some value
  | _ => none

def isAny : Shape → Bool
  | any => true
  | _ => false

/-- Whether a shape is itself a sequence or a dictionary. -/
def isContainer : Shape → Bool
  | array _ => true
  | tuple _ => true
  | map _ => true
  | _ => false

end Shape

/-! ### Equality -/

/-- Equality of optional values. -/
def sameOption {α : Type} (same : α → α → Bool) : Option α → Option α → Bool
  | none, none => true
  | some a, some b => same a b
  | _, _ => false

def Bounds.same (a b : Bounds) : Bool :=
  a.minLength == b.minLength && a.maxLength == b.maxLength &&
    sameOption Number.same a.minimum b.minimum && sameOption Number.same a.maximum b.maximum &&
    sameOption Number.same a.exclusiveMinimum b.exclusiveMinimum &&
    sameOption Number.same a.exclusiveMaximum b.exclusiveMaximum &&
    a.pattern == b.pattern && a.minItems == b.minItems && a.maxItems == b.maxItems

mutual

/-- Equality of shapes. -/
def Shape.same : Shape → Shape → Bool
  | .primitive a, .primitive b => a == b
  | .literal vs, .literal ws => Json.sameItems vs ws
  | .const v, .const w => v.same w
  | .array s, .array t => s.same t
  | .tuple ss, .tuple ts => Spec.sameAll ss ts
  | .map none, .map none => true
  | .map (some s), .map (some t) => s.same t
  | .reference a, .reference b => a == b
  | .union ss d, .union ts e => Spec.sameAll ss ts && d == e
  | .any, .any => true
  | _, _ => false

/-- Equality of specifications. -/
def Spec.same : Spec → Spec → Bool
  | ⟨shape, bounds, default, nullable, description⟩, t =>
      shape.same t.shape && bounds.same t.bounds && sameOption Json.same default t.default &&
        nullable == t.nullable && description == t.description

def Spec.sameAll : List Spec → List Spec → Bool
  | [], [] => true
  | s :: ss, t :: ts => s.same t && Spec.sameAll ss ts
  | _, _ => false

end

end SchemaModels
