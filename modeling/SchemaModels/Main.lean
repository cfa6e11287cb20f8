import SchemaModels.Command.Program

/-!
# The command line

The files of the system, and the program that the executable is named for.
-/

namespace SchemaModels

/-- The fault that a failed operation of the system reports. -/
def faultOf : IO.Error → FileFault
  | .noFileOrDirectory _ _ _ => .notFound
  | .alreadyExists _ _ _ => .alreadyExists
  | .resourceBusy _ _ => .busy
  | .inappropriateType _ code _ => if code = 21 then .isDirectory else .notDirectory
  | e => .other (toString e)

/-- An operation of the system with the fault it may report. -/
def attempt {α : Type} (action : IO α) : IO (Except FileFault α) := do
  match ← action.toBaseIO with
  | .ok a => return .ok a
  | .error e => return .error (faultOf e)

/-- The text of a file of the system. -/
def readSystemText (path : String) : IO (Except FileFault String) := do
  match ← attempt (IO.FS.readBinFile path) with
  | .error e => return .error e
  | .ok content =>
      match String.fromUTF8? content with
      | some text => return .ok text
      | none => return .error .notText

/-- How many names are tried for a staged file. -/
def stagedTries : Nat := 65536

/-- A new file in a directory, under the first of the names from a number on that nothing has. -/
def stageSystemFile (directory : String) (number : Nat) :
    Nat → IO (Except FileFault (String × IO.FS.Handle))
  | 0 => return .error .alreadyExists
  | tries + 1 => do
      let path := directory ++ "/.tmp" ++ toString (number + tries)
      match ← attempt (IO.FS.Handle.mk path .writeNew) with
      | .ok handle => return .ok (path, handle)
      | .error .alreadyExists => stageSystemFile directory number tries
      | .error fault => return .error fault

instance : FileAccess IO where
  Staged := String × IO.FS.Handle
  isPresent path := return (← attempt (IO.FS.realPath path)).toBool
  isDirectory path := return (← attempt do (← IO.FS.realPath path).isDir) matches .ok true
  readText := readSystemText
  makeDirectory path := attempt (IO.FS.createDir path)
  stage directory := do stageSystemFile directory (← IO.monoNanosNow) stagedTries
  write staged text := attempt (staged.2.putStr text)
  sync staged := attempt staged.2.flush
  persist staged path := attempt (IO.FS.rename staged.1 path)
  discard staged := do
    let _ ← attempt (IO.FS.removeFile staged.1)

/-- The program of an executable's name. -/
def programOf (name : Option String) : Command.Program :=
  if name = some Command.Program.fixer.name then .fixer else .generator

end SchemaModels

open SchemaModels in
def main (args : List String) : IO UInt32 := do
  let told ← (programOf (← IO.appPath).fileName).run args
  (← IO.getStdout).putStr told.stdout
  (← IO.getStderr).putStr told.stderr
  return told.exit.toUInt32
