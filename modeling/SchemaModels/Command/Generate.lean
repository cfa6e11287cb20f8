import SchemaModels.Command.Delivery
import SchemaModels.Document.Basic
import SchemaModels.Text.Blank
import SchemaModels.Unit.Basic

/-!
# Generating a unit

The unit of a schema document is written to its output, previewed, or compared with what the output
holds. A comparison does not mind blanks at the end.

* `generate`: the unit of a schema document, and what became of it.
-/

namespace SchemaModels.Command

/-- What happens to a unit. -/
inductive GenerateMode where
  | write
  | preview
  | check
  deriving DecidableEq

/-- A unit, and what became of it unless it was only compared. -/
structure Generation where
  unit : GeneratedUnit
  delivery : Option Delivery

/-- The unit of a document's text. -/
def unitOf (c : Configuration) (settings : Settings) (text : String) :
    Except CommandError GeneratedUnit :=
  match Document.ofText c.root text with
  | .error e => .error (.schema e)
  | .ok t =>
      match GeneratedUnit.ofTable c.target.backend settings t with
      | .error e => .error (.generation e)
      | .ok unit => .ok unit

/-- Whether two texts differ by blanks at their ends at most. -/
def agree (s t : String) : Bool := Text.trimEnd s.toList == Text.trimEnd t.toList

section
variable {m : Type → Type} [Monad m] [FileAccess m]

/-- Compare a text with what a file holds. -/
def checkOutput (path content : String) : ExceptT CommandError m Unit := do
  if !(← FileAccess.isPresent path) then throw (.outputMissing path)
  let existing ← orFail .outputUnreadable (FileAccess.readText path)
  if !agree existing content then throw (.outputOutdated path)

/-- The unit of a schema document, and what became of it. -/
def generate (c : Configuration) (schema output : String) (mode : GenerateMode) :
    ExceptT CommandError m Generation := do
  let settings ← settled .configuration c.settings
  let text ← orFail (.schemaUnreadable schema) (FileAccess.readText schema)
  let unit ← settled id (unitOf c settings text)
  match mode with
  | .check =>
      checkOutput output unit.content
      return ⟨unit, none⟩
  | .preview => return ⟨unit, some (← deliver true output unit.content)⟩
  | .write => return ⟨unit, some (← deliver false output unit.content)⟩

end

end SchemaModels.Command
