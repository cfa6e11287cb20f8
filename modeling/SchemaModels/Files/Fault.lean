/-!
# Faults of files

Why a file could not be read or put in place. `FileFault.message` words each of them as the system
does.
-/

namespace SchemaModels

/-- Why an operation on a path failed. -/
inductive FileFault where
  | notFound
  | notDirectory
  | isDirectory
  | alreadyExists
  | busy
  | notText
  | other (reason : String)
  deriving DecidableEq

def FileFault.message : FileFault → String
  | notFound => "No such file or directory (os error 2)"
  | notDirectory => "Not a directory (os error 20)"
  | isDirectory => "Is a directory (os error 21)"
  | alreadyExists => "File exists (os error 17)"
  | busy => "Device or resource busy (os error 16)"
  | notText => "stream did not contain valid UTF-8"
  | other reason => reason

end SchemaModels
