/-!
# Reachability in finite graphs

A graph has the nodes below its size, each with a list of next nodes.

* `mem_grow`: a round of growth adds the nodes that an edge leads to.
* `reach`: the nodes reached from a node by one edge or more. The set of nodes found grows round
  by round, and is complete when a round adds nothing.
* `components`: the classes of nodes that reach each other.
-/

namespace SchemaModels

/-- A graph on the numbers below a size. -/
structure Graph where
  size : Nat
  next : Nat → List Nat

namespace Graph
variable (g : Graph)

/-- The nodes of a graph, in order. -/
def nodes : List Nat := List.range g.size

/-- The edges of a graph, by the nodes that they leave. -/
def edges : List (Nat × Nat) := g.nodes.flatMap fun i => (g.next i).map fun j => (i, j)

/-- Whether an edge leads from some node of a list to a node. -/
def leadsTo (from_ : List Nat) (j : Nat) : Bool := from_.any fun i => (g.next i).contains j

/-- The nodes of a set, and those that an edge leads to from it. -/
def grow (seen : List Nat) : List Nat :=
  g.nodes.filter fun j => seen.contains j || g.leadsTo seen j

theorem mem_grow {seen : List Nat} {j : Nat} :
    j ∈ g.grow seen ↔ j < g.size ∧ (j ∈ seen ∨ ∃ i ∈ seen, j ∈ g.next i) := by
  simp [grow, nodes, leadsTo]

/-- A set after rounds of growth, until a round adds nothing. -/
def closure : Nat → List Nat → List Nat
  | 0, seen => seen
  | rounds + 1, seen =>
      let more := g.grow seen
      if more = seen then seen else closure rounds more

/-- The nodes reached from a node by one edge or more. -/
def reach (i : Nat) : List Nat :=
  g.closure g.size (g.nodes.filter fun j => (g.next i).contains j)

/-- The nodes reached from each node, in order. -/
def reachTable : List (List Nat) := g.nodes.map g.reach

section components
variable (reached : Nat → List Nat)

/-- The nodes that a node reaches and that reach it, with itself. -/
def component (i : Nat) : List Nat :=
  g.nodes.filter fun j => j = i || ((reached i).contains j && (reached j).contains i)

/-- The classes of nodes that reach each other, by their least nodes. -/
def components : List (List Nat) :=
  (g.nodes.filter fun i => (g.component reached i).head? = some i).map (g.component reached)

end components

end Graph

end SchemaModels
