import SchemaModels.Plan.Basic
import SchemaModels.Model.Member
import SchemaModels.Text.Lines

/-!
# Why a table has no unit

Either the table has no plan, or a declaration cannot be written. `GenerationError.message` words
each cause.
-/

namespace SchemaModels

/-- Why a table has no unit. -/
inductive GenerationError where
  | plan (e : PlanError)
  | memberCollision (enum : String) (c : Model.Collision)
  | attributeCollision (type : String) (c : Model.Collision)
  | emptyUnion (name : String)

def PlanError.message : PlanError → String
  | unresolved name referencedBy =>
      "Definition '" ++ referencedBy ++ "' references unknown definition '" ++ name ++ "'"
  | circular cycle => "Circular dependency detected: " ++ String.intercalate " -> " cycle

def GenerationError.message : GenerationError → String
  | plan e => e.message
  | memberCollision enum c =>
      "Enum '" ++ enum ++ "': values '" ++ c.first ++ "' and '" ++ c.second ++
        "' both normalize to member '" ++ c.target ++ "'"
  | attributeCollision type c =>
      "Type '" ++ type ++ "': fields '" ++ c.first ++ "' and '" ++ c.second ++
        "' both map to attribute '" ++ c.target ++ "'"
  | emptyUnion name => "Generation error for '" ++ name ++ "': union has no members"

end SchemaModels
