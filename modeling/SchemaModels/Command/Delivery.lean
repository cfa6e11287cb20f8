import SchemaModels.Command.Error
import SchemaModels.Files.Access

/-!
# Putting a text in place

A text is written only if its file does not hold it already. It is staged next to the file and then
takes its place, so a file is never left half written; missing directories are made before.

* `deliver`: put a text in place, or preview it.
-/

namespace SchemaModels.Command

/-- What became of a text. -/
inductive Delivery where
  | written (path : String) (bytes : Nat)
  | unchanged (path : String)
  | preview (path content : String)

section
variable {m : Type → Type} [Monad m]

/-- The result of an operation on files, whose fault becomes an error. -/
def orFail {α : Type} (wrap : FileFault → CommandError) (action : m (Except FileFault α)) :
    ExceptT CommandError m α :=
  ExceptT.mk do
    match ← action with
    | .ok a => return .ok a
    | .error fault => return .error (wrap fault)

/-- A result that needs no files. -/
def settled {α ε : Type} (wrap : ε → CommandError) (result : Except ε α) :
    ExceptT CommandError m α :=
  ExceptT.mk (pure (match result with
    | .ok a => .ok a
    | .error e => .error (wrap e)))

variable [FileAccess m]

/-- The directory that a path lies in. -/
def directoryOf (path : String) : String := String.ofList (Path.directoryOf path.toList)

/-- Write a text to a path. -/
def writeText (path content : String) : ExceptT CommandError m Delivery := do
  let directory := directoryOf path
  if !(← FileAccess.isPresent directory) then
    orFail (.directoryNotMade directory) (makeDirectories directory)
  orFail (.notWritten path) (replaceText directory path content)
  return .written path content.utf8ByteSize

/-- Put a text in place, or preview it. -/
def deliver (preview : Bool) (path content : String) : ExceptT CommandError m Delivery := do
  if preview then return .preview path content
  else
    match ← FileAccess.readText path with
    | .ok existing =>
        if existing = content then return .unchanged path else writeText path content
    | .error _ => writeText path content

end

end SchemaModels.Command
