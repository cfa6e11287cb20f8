import SchemaModels.Proofs.Spec.Extent

/-!
# Bounds at any depth

A specification states bounds of its own, and the specifications inside it state theirs. A bound
applies to the shapes whose values it is about.

* `Spec.ownBounds`, `Spec.allBounds`: the bounds that apply, of a specification and inside it.
* `Spec.bare`, `Definition.bare`: the same without the bounds inside.
* `allBounds_bare`: what is left are the bounds of its own.
-/

namespace SchemaModels

/-- A bound on a value. -/
inductive Bound where
  | minLength (n : Nat)
  | maxLength (n : Nat)
  | pattern (source : String)
  | minimum (n : Number)
  | maximum (n : Number)
  | exclusiveMinimum (n : Number)
  | exclusiveMaximum (n : Number)
  | minItems (n : Nat)
  | maxItems (n : Nat)

/-- The bounds that apply to a shape: lengths and a pattern to strings, limits to integers and
numbers, counts to arrays. -/
def Bounds.applying (b : Bounds) : Shape → List Bound
  | .primitive .string =>
      (b.minLength.map .minLength).toList ++ (b.maxLength.map .maxLength).toList ++
        (b.pattern.map .pattern).toList
  | .primitive .integer | .primitive .number =>
      (b.minimum.map .minimum).toList ++ (b.maximum.map .maximum).toList ++
        (b.exclusiveMinimum.map .exclusiveMinimum).toList ++
        (b.exclusiveMaximum.map .exclusiveMaximum).toList
  | .array _ => (b.minItems.map .minItems).toList ++ (b.maxItems.map .maxItems).toList
  | _ => []

/-- No bound applies where none is stated. -/
theorem Bounds.applying_none (shape : Shape) : Bounds.applying {} shape = [] := by
  unfold applying
  split <;> rfl

/-! ### Specifications without bounds -/

mutual

/-- A shape without the bounds inside it. -/
def Shape.unbounded : Shape → Shape
  | .array item => .array item.unbounded
  | .tuple items => .tuple (Spec.unboundedAll items)
  | .map none => .map none
  | .map (some value) => .map (some value.unbounded)
  | .union members discriminator => .union (Spec.unboundedAll members) discriminator
  | .primitive kind => .primitive kind
  | .literal values => .literal values
  | .const value => .const value
  | .reference name => .reference name
  | .any => .any

/-- A specification without bounds, at any depth. -/
def Spec.unbounded : Spec → Spec
  | ⟨shape, _, default, nullable, description⟩ =>
      ⟨shape.unbounded, {}, default, nullable, description⟩

def Spec.unboundedAll : List Spec → List Spec
  | [] => []
  | s :: rest => s.unbounded :: Spec.unboundedAll rest

end

namespace Spec

/-- The bounds that apply to a specification, apart from what is inside it. -/
def ownBounds (s : Spec) : List Bound := s.bounds.applying s.shape

/-- The bounds that apply in a specification, at any depth, from the outside to the inside. -/
def allBounds (s : Spec) : List Bound := s.specs.flatMap ownBounds

/-- A specification without the bounds inside it. -/
def bare (s : Spec) : Spec := { s with shape := s.shape.unbounded }

end Spec

mutual

theorem Shape.flatMap_ownBounds_unbounded : ∀ shape : Shape,
    shape.unbounded.specs.flatMap Spec.ownBounds = []
  | .array item => Spec.allBounds_unbounded item
  | .tuple items => Spec.flatMap_ownBounds_unboundedAll items
  | .map none => rfl
  | .map (some value) => Spec.allBounds_unbounded value
  | .union members _ => Spec.flatMap_ownBounds_unboundedAll members
  | .primitive _ => rfl
  | .literal _ => rfl
  | .const _ => rfl
  | .reference _ => rfl
  | .any => rfl

theorem Spec.allBounds_unbounded : ∀ s : Spec, s.unbounded.allBounds = []
  | ⟨shape, bounds, default, nullable, description⟩ => by
      rw [Spec.unbounded, Spec.allBounds, Spec.specs, List.flatMap_cons,
        Shape.flatMap_ownBounds_unbounded shape, List.append_nil]
      exact Bounds.applying_none _

theorem Spec.flatMap_ownBounds_unboundedAll : ∀ ss : List Spec,
    (Spec.specsAll (Spec.unboundedAll ss)).flatMap Spec.ownBounds = []
  | [] => rfl
  | s :: rest => by
      rw [Spec.unboundedAll, Spec.specsAll, List.flatMap_append,
        Spec.flatMap_ownBounds_unboundedAll rest, List.append_nil]
      exact Spec.allBounds_unbounded s

end

theorem Bounds.applying_unbounded (b : Bounds) (shape : Shape) :
    b.applying shape.unbounded = b.applying shape := by
  cases shape with
  | map value => cases value <;> rfl
  | _ => rfl

/-- Without those inside it, the bounds of a specification are its own. -/
theorem Spec.allBounds_bare (s : Spec) : s.bare.allBounds = s.ownBounds := by
  obtain ⟨shape, bounds, default, nullable, description⟩ := s
  rw [bare, allBounds, specs, List.flatMap_cons, Shape.flatMap_ownBounds_unbounded shape,
    List.append_nil]
  exact bounds.applying_unbounded shape

/-! ### Definitions -/

namespace Definition
variable (d : Definition)

/-- The specifications of a definition: those of its fields, or the one it is an alias of. -/
def properties : List Spec :=
  match d.kind with
  | .object record => record.fields.map Prod.snd
  | .typeAlias spec => [spec]
  | _ => []

/-- A definition without the bounds inside its specifications. -/
def bare : Definition :=
  { d with kind := match d.kind with
    | .object record => .object (record.mapFields fun _ s => s.bare)
    | .typeAlias spec => .typeAlias spec.bare
    | kind => kind }

theorem properties_bare : d.bare.properties = d.properties.map Spec.bare := by
  unfold properties bare
  cases d.kind with
  | object record => simp [Record.mapFields]
  | _ => rfl

end Definition

end SchemaModels
