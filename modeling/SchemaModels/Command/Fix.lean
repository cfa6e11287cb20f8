import SchemaModels.Command.Delivery

/-!
# Repairing a file

A file is repaired with the configured groups. The result is put in place, which may be that of the
file itself.

* `fix`: repair a file, with a report.
-/

namespace SchemaModels.Command

section
variable {m : Type → Type} [Monad m] [FileAccess m]

/-- Repair a file. -/
def fix (c : Configuration) (input output : String) (preview : Bool) :
    ExceptT CommandError m (Repair.Report × Delivery) := do
  let groups ← settled .configuration c.checkedGroups
  let source ← orFail (.sourceUnreadable input) (FileAccess.readText input)
  let (content, report) ← settled .group (Repair.repairText groups source)
  return (report, ← deliver preview output content)

end

end SchemaModels.Command
