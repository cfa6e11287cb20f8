import SchemaModels.Plan.Section
import SchemaModels.Spec.Table

/-!
# Settings of generated units

The target, and what a unit leaves open: its version, whether descriptions are written, the
indentation, the line ending, the order of sections, whether strict records refuse other fields,
and whether lists of tuples are typed by matching records.
-/

namespace SchemaModels

/-- The targets of generation. -/
inductive Target where
  | pydantic
  | zod
  deriving DecidableEq

namespace Target

def name : Target → String
  | pydantic => "pydantic"
  | zod => "zod"

/-- The target of a name. A language stands for its target. -/
def ofName? (s : String) : Option Target :=
  if s = "pydantic" ∨ s = "python" then some pydantic
  else if s = "zod" ∨ s = "typescript" then some zod
  else none

theorem ofName?_name (t : Target) : ofName? t.name = some t := by cases t <;> rfl

/-- What is said of a name of no target. -/
def unknownMessage (s : String) : String :=
  "unknown target '" ++ s ++ "' (expected 'pydantic' or 'zod')"

end Target

/-- One level of indentation. -/
inductive Indent where
  | two
  | four
  | tab
  deriving DecidableEq

def Indent.text : Indent → String
  | two => "  "
  | four => "    "
  | tab => "\t"

/-- How lines end. -/
inductive LineEnding where
  | lf
  | crlf
  deriving DecidableEq

def LineEnding.text : LineEnding → String
  | lf => "\n"
  | crlf => "\r\n"

/-- The settings of a unit. -/
structure Settings where
  version : Option String := none
  docs : Bool := true
  indent : Option Indent := none
  lineEnding : LineEnding := .lf
  sections : SectionOrder := {}
  forbidExtra : Bool := false
  bindingRecords : Bool := true

namespace Settings

/-- The version when neither the settings nor the document states one. -/
def defaultVersion : String := "0.1.0"

/-- The version of a unit. -/
def versionFor (s : Settings) (root : Root) : String :=
  (s.version.or root.version).getD defaultVersion

/-- A description, if descriptions are written. -/
def described (s : Settings) (description : Option String) : Option String :=
  if s.docs then description else none

end Settings

end SchemaModels
