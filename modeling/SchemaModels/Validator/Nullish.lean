import SchemaModels.Plan.Basic

/-!
# Fields that hold records or lists

A field that may be left out accepts null as well when its values are records or lists, because
serializers keep absent records and lists as nulls.

* `Shape.heads`: a shape, or the shapes a union chooses among, at any depth of unions.
* `Table.holdsContainer`: whether, following references through aliases, a head is a sequence, a
  dictionary, a record or a named union.
-/

namespace SchemaModels

mutual

/-- The shapes that a shape chooses among. -/
def Shape.heads : Shape → List Shape
  | .union members _ => Spec.headsAll members
  | .primitive kind => [.primitive kind]
  | .literal values => [.literal values]
  | .const value => [.const value]
  | .array item => [.array item]
  | .tuple items => [.tuple items]
  | .map value => [.map value]
  | .reference name => [.reference name]
  | .any => [.any]

/-- The shapes that a specification chooses among. -/
def Spec.heads : Spec → List Shape
  | ⟨shape, _, _, _, _⟩ => shape.heads

def Spec.headsAll : List Spec → List Shape
  | [] => []
  | s :: rest => s.heads ++ Spec.headsAll rest

end

namespace Table
variable (t : Table)

/-- The places that heads refer to. -/
def headPlaces (heads : List Shape) : List Nat := t.indices (heads.filterMap Shape.asReference?)

/-- The heads of a definition that is an alias. -/
def aliasHeads (d : Definition) : List Shape :=
  match d.kind with
  | .typeAlias spec => spec.heads
  | _ => []

/-- The references of aliases, by their heads alone, as a graph on places. -/
def headGraph : Graph :=
  let edges := t.definitions.map fun d => t.headPlaces (aliasHeads d)
  ⟨t.definitions.length, fun i => edges.getD i []⟩

/-- Whether a definition is by itself a record, a union, or an alias of a container. -/
def isContainerLike (d : Definition) : Bool :=
  match d.kind with
  | .object _ => true
  | .union _ _ => true
  | .typeAlias spec => spec.heads.any Shape.isContainer
  | .enum _ => false

/-- Whether values of a specification can be records or lists. -/
def holdsContainer (s : Spec) : Bool :=
  s.heads.any Shape.isContainer ||
    (t.headGraph.closure t.definitions.length (t.headPlaces s.heads)).any fun i =>
      (t.definitions[i]?).any isContainerLike

end Table

end SchemaModels
