import SchemaModels.Plan.Condensation
import SchemaModels.Plan.Graph
import SchemaModels.Plan.Section
import SchemaModels.Spec.Table

/-!
# Plans

A plan puts the definitions of a table into the order of their declarations. Definitions that
reach each other form a block; among the blocks that are ready the first is taken, by the rank of
its section and its place in the table, and so are the definitions inside a block.

* `Table.plan`: the plan of a table, or the reason it has none: a reference to no definition, or a
  cycle that runs only through unions and aliases.
* Inside a block the records come first, which may refer to what is declared later; unions and
  aliases follow what they refer to.
-/

namespace SchemaModels

/-- Why a table has no plan. -/
inductive PlanError where
  | unresolved (name referencedBy : String)
  | circular (cycle : List String)

/-- A definition in its place in the order of declarations. -/
structure Planned where
  name : String
  category : Section
  exportGroup : Section
  dependencies : List String
  forwardRefs : List String

namespace Planned

/-- Whether a reference stands before the declaration of what it names. -/
def isForward (p : Planned) (name : String) : Bool := p.forwardRefs.contains name

end Planned

/-- The definitions in the order of their declarations. -/
abbrev Plan := List Planned

namespace Plan

/-- The planned definition of a name. -/
def find (plan : Plan) (name : String) : Option Planned := plan.find? fun p => p.name = name

/-- The definitions that refer to what is declared later. -/
def forwardReferencing (plan : Plan) : Plan := plan.filter fun p => !p.forwardRefs.isEmpty

end Plan

namespace Table
variable (t : Table)

/-! ### References -/

/-- The first reference to no definition, with the definition it stands in. -/
def unresolved? : Option (String × String) :=
  t.definitions.findSome? fun d =>
    (d.references.find? fun r => !t.contains r).map fun r => (r, d.name)

/-- The first type of the root that is no definition. -/
def unresolvedRoot? : Option String :=
  [t.root.metadataType, t.root.rootType].find? fun name => !t.contains name

/-- The places of the definitions that a list of names refers to. -/
def indices (names : List String) : List Nat := names.filterMap t.index?

/-- The places referred to from each definition, in order. -/
def edges : List (List Nat) := t.definitions.map fun d => t.indices d.references

/-- The references of a table as a graph on places. -/
def graph : Graph :=
  let edges := t.edges
  ⟨t.definitions.length, fun i => edges.getD i []⟩

/-! ### Sections -/

section sections
variable (reached : Nat → List Nat)

/-- Whether the definition at a place is a union. -/
def isUnionAt (i : Nat) : Bool := (t.definitions[i]?).any Definition.isUnion

/-- Whether the definition at a place is a record. -/
def isObjectAt (i : Nat) : Bool := (t.definitions[i]?).any Definition.isObject

/-- The unions reached from a place. -/
def unionsFrom (i : Nat) : List Nat := (reached i).filter t.isUnionAt

/-- The places of a union's members. -/
def membersAt (i : Nat) : List Nat :=
  match (t.definitions[i]?).map Definition.kind with
  | some (.union members _) => t.indices members
  | _ => []

/-- Whether a place holds a union none of whose members is a union or reaches one. -/
def isLeafUnion (i : Nat) : Bool :=
  t.isUnionAt i &&
    (t.membersAt i).all fun m => !t.isUnionAt m && (t.unionsFrom reached m).isEmpty

/-- The places of unions. -/
def unionPlaces : List Nat := (List.range t.definitions.length).filter t.isUnionAt

/-- The members of the unions of a list of places. -/
def membersOf (unions : List Nat) : List Nat := unions.flatMap t.membersAt

/-- The leaf unions and the others. -/
def unionSplit : List Nat × List Nat :=
  t.unionPlaces.partition (t.isLeafUnion reached)

/-- The section and the export group of a definition that is not the metadata type. -/
def sectionOf (leaves others memberOfLeaf memberOfOther : List Nat) (i : Nat) (d : Definition) :
    Section × Section :=
  match d.kind with
  | .enum _ => (.enums, .enums)
  | .union _ _ => (.unions, if leaves.contains i then .actions else .components)
  | .object _ | .typeAlias _ =>
      let unions := t.unionsFrom reached i
      let s : Section :=
        if memberOfOther.contains i || unions.any others.contains then .components
        else if memberOfLeaf.contains i || !unions.isEmpty then .actions
        else .props
      (s, s)

/-- The section and the export group of each definition, in order. -/
def sections : List (Section × Section) :=
  let split := t.unionSplit reached
  let memberOfLeaf := t.membersOf split.1
  let memberOfOther := t.membersOf split.2
  t.definitions.mapIdx fun i d =>
    if d.name = t.root.metadataType then (.schema, .schema)
    else t.sectionOf reached split.1 split.2 memberOfLeaf memberOfOther i d

end sections

/-! ### The order of declarations -/

section order
variable (g : Graph) (key : Nat → Greedy.Key)

/-- The key of a block: the least key of its places. -/
def blockKey (block : List Nat) : Greedy.Key :=
  ((Greedy.least? key block).map key).getD (0, 0)

/-- The number of the block that holds a place. -/
def blockAt (blocks : List (List Nat)) (i : Nat) : Nat := blocks.findIdx (·.contains i)

/-- The references between blocks, by their numbers. -/
def blockEdges (blocks : List (List Nat)) : List (Nat × Nat) :=
  g.edges.map fun e => (blockAt blocks e.1, blockAt blocks e.2)

/-- The blocks in the order of their declarations. -/
def blockOrder (blocks : List (List Nat)) : List (List Nat) :=
  ((Condensation.ofEdges blocks.length (blockEdges g blocks)).order
    fun b => blockKey key (blocks.getD b [])).map fun b => blocks.getD b []

/-- Whether a place refers to none that is left. -/
def placeFree (left : List Nat) (i : Nat) : Bool := (g.next i).all fun j => !left.contains j

/-- The walk from a place along its last reference to one that is left, until it comes to a place
again; the places from there on, with that place again at the end. -/
def walk (left : List Nat) : Nat → List Nat → Nat → List Nat
  | 0, path, _ => path.reverse
  | steps + 1, path, i =>
      if path.contains i then path.reverse.dropWhile (· ≠ i) ++ [i]
      else
        match (g.next i).reverse.find? left.contains with
        | some j => walk left steps (i :: path) j
        | none => (i :: path).reverse

/-- A cycle among places none of which is free, in order of place. -/
def cycle (left : List Nat) : List Nat :=
  match left with
  | [] => []
  | i :: _ => walk g left (left.length + 1) [] i

/-- The names of places. -/
def namesAt (places : List Nat) : List String :=
  places.filterMap fun i => (t.definitions[i]?).map Definition.name

/-- The places of a block in the order of their declarations: records, then the others. -/
def placeOrder (block : List Nat) : Except PlanError (List Nat) :=
  let records := (Greedy.order key (fun _ _ => true) (block.filter t.isObjectAt)).1
  let others := Greedy.order key (placeFree g) (block.filter fun i => !t.isObjectAt i)
  if others.2.isEmpty then .ok (records ++ others.1)
  else .error (.circular (t.namesAt (cycle g others.2)))

/-- The places in the order of their declarations. -/
def sequence (blocks : List (List Nat)) : Except PlanError (List Nat) := do
  let groups ← (blockOrder g key blocks).mapM (t.placeOrder g key)
  return groups.flatten

end order

/-! ### Plans -/

/-- The definition at a place in the plan, after the places that are declared before. -/
def plannedAt (sections : List (Section × Section)) (declared : List Nat) (i : Nat)
    (d : Definition) : Planned :=
  let groups := sections.getD i (.props, .props)
  { name := d.name
    category := groups.1
    exportGroup := groups.2
    dependencies := d.references
    forwardRefs := d.references.filter fun r => (t.index? r).any fun j => !declared.contains j }

/-- The planned definitions of places, after some that are declared before. -/
def plannedAfter (sections : List (Section × Section)) (declared : List Nat) : List Nat → Plan
  | [] => []
  | i :: rest =>
      let others := plannedAfter sections (i :: declared) rest
      match t.definitions[i]? with
      | none => others
      | some d => t.plannedAt sections declared i d :: others

/-- The section and the export group of each definition, in order. -/
def allSections : List (Section × Section) :=
  let table := t.graph.reachTable
  t.sections fun i => table.getD i []

/-- The places that reach each other, in blocks. -/
def blocks : List (List Nat) :=
  let table := t.graph.reachTable
  t.graph.components fun i => table.getD i []

/-- The keys of places: the rank of the section, then the place. -/
def keys (order : SectionOrder) (sections : List (Section × Section)) : List Greedy.Key :=
  sections.mapIdx fun i s => (order.rank s.1, i)

/-- The places in the order of their declarations, by sections and an order of these. -/
def places (sections : List (Section × Section)) (blocks : List (List Nat)) (order : SectionOrder) :
    Except PlanError (List Nat) :=
  let keys := keys order sections
  t.sequence t.graph (fun i => keys.getD i (0, i)) blocks

/-- The plan of a table whose references all name definitions, by its blocks. -/
def planBlocks (blocks : List (List Nat)) (order : SectionOrder) : Except PlanError Plan := do
  let sections := t.allSections
  let places ← t.places sections blocks order
  return t.plannedAfter sections [] places

/-- The plan of a table by its blocks, in whatever order these and their places are listed. -/
def planWith (blocks : List (List Nat)) (order : SectionOrder) : Except PlanError Plan :=
  match t.unresolved?, t.unresolvedRoot? with
  | some (name, owner), _ => .error (.unresolved name owner)
  | none, some name => .error (.unresolved name t.root.name)
  | none, none => t.planBlocks blocks order

/-- The plan of a table. -/
def plan (order : SectionOrder) : Except PlanError Plan := t.planWith t.blocks order

end Table

end SchemaModels
