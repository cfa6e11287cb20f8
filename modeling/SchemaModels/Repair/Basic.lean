import SchemaModels.Repair.Directive
import SchemaModels.Repair.Group
import SchemaModels.Repair.Imports

/-!
# Repairing model files

The model files of other generators are repaired in three steps: directives that forbid extra
fields are removed, the wrapper classes of configured groups become aliases, and the import of the
wrapper class is dropped when nothing uses it.

* `repair`: the repaired text with a report, or the group that has no members.
-/

namespace SchemaModels.Repair

/-- What a repair changed. -/
structure Report where
  directivesRemoved : Nat := 0
  groupsUnwrapped : List String := []
  groupsMissing : List String := []
  importDropped : Bool := false

/-- Whether nothing was changed. -/
def Report.unchanged (r : Report) : Bool :=
  r.directivesRemoved == 0 && r.groupsUnwrapped.isEmpty && !r.importDropped

/-- A group without members. -/
structure GroupError where
  group : String

def GroupError.message (e : GroupError) : String :=
  "Invalid rewrite group '" ++ e.group ++ "': group has no members"

/-- The text with the wrappers of groups replaced, the groups that had one, and the others. -/
def unwrapAll : List Group → List Char → Except GroupError (List Char × List String × List String)
  | [], s => .ok (s, [], [])
  | g :: rest, s =>
      if g.members.isEmpty then .error ⟨g.name⟩
      else do
        let r := g.unwrap s
        let (out, unwrapped, missing) ← unwrapAll rest r.1
        return if r.2 then (out, g.name :: unwrapped, missing)
          else (out, unwrapped, g.name :: missing)

/-- The repaired text with a report. -/
def repair (groups : List Group) (s : List Char) : Except GroupError (List Char × Report) := do
  let (s, removed) := removeDirectives s
  let (s, unwrapped, missing) ← unwrapAll groups s
  let (s, dropped) := dropUnused s
  return (s, ⟨removed, unwrapped, missing, dropped⟩)

/-- The repaired text with a report. -/
def repairText (groups : List Group) (s : String) : Except GroupError (String × Report) :=
  (repair groups s.toList).map fun r => (String.ofList r.1, r.2)

end SchemaModels.Repair
