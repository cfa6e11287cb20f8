import SchemaModels.Files.System

/-!
# Access to files

What programs do with files, in any monad that has files: those of the system, or those of a
`FileSystem` held as a state, where each operation is the one of the file system.

* `makeDirectories`: make a directory with those above it.
* `replaceText`: stage a text and put it in the place of a path.
-/

namespace SchemaModels

/-- A monad with files. -/
class FileAccess (m : Type → Type) where
  /-- What stands for a staged file. -/
  Staged : Type
  /-- Whether a path denotes anything. -/
  isPresent : String → m Bool
  /-- Whether a path denotes a directory. -/
  isDirectory : String → m Bool
  /-- The text of a file. -/
  readText : String → m (Except FileFault String)
  /-- Make a directory in one that is there. -/
  makeDirectory : String → m (Except FileFault Unit)
  /-- Make an empty file in a directory, under a name that nothing has. -/
  stage : (directory : String) → m (Except FileFault Staged)
  /-- Write a text to a staged file. -/
  write : Staged → (text : String) → m (Except FileFault Unit)
  /-- Make what was written to a staged file last. -/
  sync : Staged → m (Except FileFault Unit)
  /-- Put a staged file in the place of a path, instead of a file that is there. -/
  persist : Staged → (path : String) → m (Except FileFault Unit)
  /-- Take a staged file away, or leave it if that fails. -/
  discard : Staged → m Unit

section
variable {m : Type → Type} [Monad m] [FileAccess m]

/-! ### Directories -/

/-- Make a directory unless it is there. -/
def ensureDirectory (path : String) : m (Except FileFault Unit) := do
  match ← FileAccess.makeDirectory path with
  | .ok _ => return .ok ()
  | .error fault => return if ← FileAccess.isDirectory path then .ok () else .error fault

/-- Make a directory, of which the paths above are given. Those that are missing are made first, and
stay when the directory cannot be made after all. -/
def ensureAll : List String → m (Except FileFault Unit)
  | [] => return .ok ()
  | path :: above => do
      match ← ensureDirectory path with
      | .error .notFound =>
          match ← ensureAll above with
          | .error fault => return .error fault
          | .ok _ => ensureDirectory path
      | result => return result

/-- Make a directory with those above it. -/
def makeDirectories (path : String) : m (Except FileFault Unit) :=
  ensureAll ((Path.ancestors path.toList).map String.ofList)

/-! ### Files -/

/-- Work on a staged file, which is discarded when that fails. -/
def orDiscard (staged : FileAccess.Staged m) (work : ExceptT FileFault m Unit) :
    m (Except FileFault Unit) := do
  match ← work.run with
  | .ok _ => return .ok ()
  | .error fault =>
      FileAccess.discard staged
      return .error fault

/-- Write a text to a staged file, which then takes the place of a path. -/
def finish (staged : FileAccess.Staged m) (path text : String) : ExceptT FileFault m Unit := do
  ExceptT.mk (FileAccess.write staged text)
  ExceptT.mk (FileAccess.sync staged)
  ExceptT.mk (FileAccess.persist staged path)

/-- Stage a text in a directory, then put it in the place of a path. -/
def replaceText (directory path text : String) : m (Except FileFault Unit) := do
  match ← FileAccess.stage directory with
  | .error fault => return .error fault
  | .ok staged => orDiscard staged (finish staged path text)

end

/-! ### File systems -/

namespace FileSystem

/-- A changed file system, or the one there was with what is at fault. -/
def settle (s : FileSystem) : Except FileFault FileSystem → Except FileFault Unit × FileSystem
  | .ok s' => (.ok (), s')
  | .error fault => (.error fault, s)

/-- A staged file in a changed file system, or the one there was with what is at fault. -/
def settleStaged (s : FileSystem) : Except FileFault (List String × FileSystem) →
    Except FileFault (List String) × FileSystem
  | .ok (staged, s') => (.ok staged, s')
  | .error fault => (.error fault, s)

end FileSystem

instance : FileAccess (StateM FileSystem) where
  Staged := List String
  isPresent path := fun s => (s.isPresent path, s)
  isDirectory path := fun s => (s.hasDirectory path, s)
  readText path := fun s => (s.readText path, s)
  makeDirectory path := fun s => s.settle (s.makeDirectory path)
  stage directory := fun s => s.settleStaged (s.stage directory)
  write staged text := fun s => s.write staged text.toUTF8
  sync staged := fun s => (s.sync staged, s)
  persist staged path := fun s => s.settle (s.persist staged path)
  discard staged := fun s => ((), s.discard staged)

instance {ε : Type} {m : Type → Type} [Monad m] [FileAccess m] : FileAccess (ExceptT ε m) where
  Staged := FileAccess.Staged m
  isPresent path := ExceptT.lift (FileAccess.isPresent path)
  isDirectory path := ExceptT.lift (FileAccess.isDirectory path)
  readText path := ExceptT.lift (FileAccess.readText path)
  makeDirectory path := ExceptT.lift (FileAccess.makeDirectory path)
  stage directory := ExceptT.lift (FileAccess.stage directory)
  write staged text := ExceptT.lift (FileAccess.write staged text)
  sync staged := ExceptT.lift (FileAccess.sync staged)
  persist staged path := ExceptT.lift (FileAccess.persist staged path)
  discard staged := ExceptT.lift (FileAccess.discard staged)

end SchemaModels
