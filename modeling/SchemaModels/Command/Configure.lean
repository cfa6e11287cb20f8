import SchemaModels.Command.Delivery
import SchemaModels.Config.Reader

/-!
# Configuration files

* `configuration`: the configuration of a stated file, which has to be there, or of the file of the
  working directory if there is one, or else the default one.
-/

namespace SchemaModels.Command

/-- The configuration file of a working directory. -/
def configurationFile : String := "guigen.toml"

section
variable {m : Type → Type} [Monad m] [FileAccess m]

/-- The configuration that a file holds. -/
def configurationOf (path : String) : ExceptT CommandError m Configuration := do
  let text ← orFail (.configurationUnreadable path) (FileAccess.readText path)
  match Configuration.ofText? text with
  | some c => return c
  | none => throw (.configurationNotToml path)

/-- The configuration of a stated file, or of the working directory. -/
def configuration (path : Option String) : ExceptT CommandError m Configuration := do
  match path with
  | some path =>
      if ← FileAccess.isPresent path then configurationOf path
      else throw (.configurationMissing path)
  | none =>
      if ← FileAccess.isPresent configurationFile then configurationOf configurationFile
      else return {}

end

end SchemaModels.Command
