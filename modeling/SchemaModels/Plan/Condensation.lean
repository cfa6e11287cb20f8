import SchemaModels.Plan.Greedy

/-!
# Ordering by counts

One block waits for another one when an edge leads from the one to the other. For each block the
blocks that wait for it are kept, and the number of those that it waits for. Blocks whose number
is zero are ready. The least of them is taken, the numbers of those that wait for it go down by
one, and those that come to zero are ready from then on.

* `Condensation.ofEdges`: what waits for what, by the edges between blocks.
* `Condensation.order`: the blocks in the order taken.
-/

namespace SchemaModels

/-- For each block, the blocks that wait for it and the number of those it waits for. -/
structure Condensation where
  dependents : List (List Nat)
  pending : List Nat

namespace Condensation

/-- Blocks that do not wait. -/
def empty (size : Nat) : Condensation := ⟨List.replicate size [], List.replicate size 0⟩

variable (c : Condensation)

/-- The blocks that wait for a block. -/
def dependentsOf (b : Nat) : List Nat := c.dependents.getD b []

/-- Let a block wait for another one, if it does not yet. -/
def wait (source target : Nat) : Condensation :=
  if source = target || (c.dependentsOf target).contains source then c
  else
    { dependents := c.dependents.modify target (source :: ·)
      pending := c.pending.modify source (· + 1) }

/-- What waits for what by edges between a number of blocks. -/
def ofEdges (size : Nat) (edges : List (Nat × Nat)) : Condensation :=
  edges.foldl (fun c e => c.wait e.1 e.2) (empty size)

/-- The numbers after the block that some blocks wait for was taken, and those of them that are
ready by that. -/
def release (pending : List Nat) : List Nat → List Nat × List Nat
  | [] => (pending, [])
  | b :: rest =>
      let lowered := pending.modify b (· - 1)
      let r := release lowered rest
      (r.1, if lowered.getD b 0 = 0 then b :: r.2 else r.2)

section order
variable (key : Nat → Greedy.Key)

/-- The blocks taken within a number of turns. -/
def orderWithin : Nat → List Nat → List Nat → List Nat
  | 0, _, _ => []
  | turns + 1, pending, ready =>
      match Greedy.least? key ready with
      | none => []
      | some b =>
          let r := release pending (c.dependentsOf b)
          b :: orderWithin turns r.1 (ready.erase b ++ r.2)

/-- The blocks in the order taken. -/
def order : List Nat :=
  let blocks := List.range c.pending.length
  c.orderWithin key blocks.length c.pending (blocks.filter fun b => c.pending.getD b 0 = 0)

end order

end Condensation

end SchemaModels
