import SchemaModels.Config.Basic
import SchemaModels.Document.Error
import SchemaModels.Files.Fault
import SchemaModels.Repair.Basic
import SchemaModels.Unit.Error

/-!
# Why a command fails

The faults of the files a command works with, of what they hold, and the two outcomes of a check.
`CommandError.message` words each of them; a failed check has an exit code of its own.
-/

namespace SchemaModels

/-- Why a command fails. -/
inductive CommandError where
  | configurationMissing (path : String)
  | configurationUnreadable (path : String) (fault : FileFault)
  | configurationNotToml (path : String)
  | configuration (fault : ConfigurationFault)
  | schemaUnreadable (path : String) (fault : FileFault)
  | schema (e : DocumentError)
  | generation (e : GenerationError)
  | sourceUnreadable (path : String) (fault : FileFault)
  | group (e : Repair.GroupError)
  | directoryNotMade (path : String) (fault : FileFault)
  | notWritten (path : String) (fault : FileFault)
  | outputMissing (path : String)
  | outputOutdated (path : String)
  | outputUnreadable (fault : FileFault)

namespace CommandError

def message : CommandError → String
  | configurationMissing path =>
      "Invalid configuration: Configuration file not found: " ++ path
  | configurationUnreadable path fault =>
      "Invalid configuration: Failed to read " ++ path ++ ": " ++ fault.message
  | configurationNotToml path => "Invalid configuration: Invalid TOML in " ++ path
  | configuration fault => "Invalid configuration: " ++ fault.message
  | schemaUnreadable path fault =>
      "Failed to load schema: Failed to read schema " ++ path ++ ": " ++ fault.message
  | schema e => "Failed to load schema: " ++ e.message
  | generation e => "Failed to generate code: " ++ e.message
  | sourceUnreadable path fault =>
      "Failed to rewrite file: Failed to read " ++ path ++ ": " ++ fault.message
  | group e => "Failed to rewrite file: " ++ e.message
  | directoryNotMade path fault =>
      "Failed to write output: Failed to create directory " ++ path ++ ": " ++ fault.message
  | notWritten path fault =>
      "Failed to write output: Failed to write " ++ path ++ ": " ++ fault.message
  | outputMissing path => path ++ " has not been generated yet"
  | outputOutdated path => path ++ " is out of date"
  | outputUnreadable fault => "IO error: " ++ fault.message

/-- Whether a check found the output missing or out of date. -/
def isCheckFailure : CommandError → Bool
  | outputMissing _ => true
  | outputOutdated _ => true
  | _ => false

/-- The exit code of a program that fails. -/
def exitCode (e : CommandError) : Nat := if e.isCheckFailure then 2 else 1

end CommandError

end SchemaModels
