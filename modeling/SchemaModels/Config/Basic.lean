import SchemaModels.Repair.Group
import SchemaModels.Unit.Settings

/-!
# Configurations

What a project configures: the target and the settings of units, the top-level type where a document
is silent about it, and the groups of the repair. The command line states some of it anew.

* `Configuration.settings`, `Configuration.checkedGroups`: the parts that commands work with, or
  which value cannot be used.
* `Configuration.override`: the configuration with what a command line states.
-/

namespace SchemaModels

/-- What a project configures. -/
structure Configuration where
  target : Target := .pydantic
  version : Option String := none
  docs : Bool := true
  indent : Option Indent := none
  lineEnding : LineEnding := .lf
  /-- The tags of the sections, in order. -/
  sections : List String := Section.all.map Section.tag
  forbidExtra : Bool := false
  bindingRecords : Bool := true
  /-- The top-level type where a document is silent. -/
  root : Root := {}
  warnOnMissing : Bool := true
  groups : List Repair.Group := Repair.Group.defaults

/-- A value that cannot be used. -/
inductive ConfigurationFault where
  | sections (e : SectionOrderError)
  | emptyGroup (name : String)

namespace ConfigurationFault

/-- The key of the value. -/
def key : ConfigurationFault → String
  | sections _ => "emit.sections"
  | emptyGroup _ => "rewrite.groups"

def reason : ConfigurationFault → String
  | sections e => e.message
  | emptyGroup name => "group '" ++ name ++ "' has no members"

def message (f : ConfigurationFault) : String :=
  "Invalid value for '" ++ f.key ++ "': " ++ f.reason

end ConfigurationFault

/-- What a command line states. -/
structure Overrides where
  target : Option Target := none
  version : Option String := none
  docs : Option Bool := none
  forbidExtra : Option Bool := none

namespace Configuration
variable (c : Configuration)

/-- The configuration with what a command line states. -/
def override (o : Overrides) : Configuration :=
  { c with
    target := o.target.getD c.target
    version := o.version.or c.version
    docs := o.docs.getD c.docs
    forbidExtra := o.forbidExtra.getD c.forbidExtra }

theorem override_empty : c.override {} = c := rfl

/-- The settings of units. -/
def settings : Except ConfigurationFault Settings :=
  match SectionOrder.ofTags c.sections with
  | .ok sections =>
      .ok {
        version := c.version
        docs := c.docs
        indent := c.indent
        lineEnding := c.lineEnding
        sections
        forbidExtra := c.forbidExtra
        bindingRecords := c.bindingRecords }
  | .error e => .error (.sections e)

/-- The groups of the repair, all of which have members. -/
def checkedGroups : Except ConfigurationFault (List Repair.Group) :=
  match c.groups.find? fun g => g.members.isEmpty with
  | some g => .error (.emptyGroup g.name)
  | none => .ok c.groups

end Configuration

end SchemaModels
